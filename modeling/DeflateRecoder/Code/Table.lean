import DeflateRecoder.Alphabet
import DeflateRecoder.Bits.Writer
import DeflateRecoder.Error
import DeflateRecoder.Total

/-!
# Code tables

A `CodeTable` gives each symbol of an alphabet a code word, or none. Code lengths alone determine
the words of a canonical table (`CodeTable.ofLengths`): shorter words come before longer ones, and
among words of one length the order is that of the symbols, so the words of one length are
consecutive numbers from `firstCode` on. `kraftSum` measures how much of the space of words a table
takes; `ofLengths?` refuses lengths that take more than there is.
-/

namespace DeflateRecoder

/-- The code of a symbol: `length` bits that spell `code`, the first of them most significant. A
length of 0 means that the symbol has no code. -/
structure CodeWord where
  /-- How many bits the word has. -/
  length : Nat
  /-- The number that the bits spell. -/
  code : Nat
  deriving DecidableEq, Repr

/-- The word of a symbol without a code. -/
def CodeWord.absent : CodeWord := ⟨0, 0⟩

/-- The bits of a word as the bit writer takes them, the first one lowest. -/
def CodeWord.reversed (w : CodeWord) : Nat := reverseBits w.length w.code

/-- The code words of the symbols 0, 1, 2, … of an alphabet. -/
structure CodeTable where
  /-- The word of each symbol. -/
  words : Array CodeWord
  deriving DecidableEq, Repr

/-! ## Canonical codes -/

/-- How many symbols have a code of `n` bits. -/
def codeCount (lengths : List Nat) (n : Nat) : Nat :=
  if n = 0 then 0 else lengths.count n

/-- The first canonical word of `n` bits: one past the words of `n - 1` bits, and a bit longer. -/
def firstCode (lengths : List Nat) : Nat → Nat
  | 0 => 0
  | n + 1 => 2 * (firstCode lengths n + codeCount lengths n)

namespace CodeTable

/-- Deals out words: a symbol with a code gets the next word of its length. Words are numbers of
16 bits. -/
def assign : List Nat → Array Nat → List CodeWord
  | [], _ => []
  | n :: lengths, next =>
    if n = 0 then CodeWord.absent :: assign lengths next
    else ⟨n, next.getD n 0 % 65536⟩ :: assign lengths (next.modify n (· + 1))

/-- The first words of 0, 1, …, `most` bits. -/
def firstCodes (lengths : List Nat) (most : Nat) : Array Nat :=
  (go most 0 0 #[]).1
where
  /-- Continues from the first word `code` of `n` bits. -/
  go : Nat → Nat → Nat → Array Nat → Array Nat × Nat
    | 0, _, code, acc => (acc.push code, code)
    | k + 1, n, code, acc => go k (n + 1) (2 * (code + codeCount lengths n)) (acc.push code)

/-- The canonical table for given code lengths. -/
def ofLengths (lengths : List Nat) : CodeTable :=
  { words := (assign lengths (firstCodes lengths (lengths.foldl max 0))).toArray }

/-! ## Properties of a table -/

/-- The word of a symbol; a symbol outside the alphabet has none. -/
def word (t : CodeTable) (symbol : Nat) : CodeWord := t.words.getD symbol CodeWord.absent

/-- The code length of a symbol, 0 if it has no code. -/
def lengthOf (t : CodeTable) (symbol : Nat) : Nat := (t.word symbol).length

/-- The number of symbols in the alphabet. -/
def size (t : CodeTable) : Nat := t.words.size

/-- The code lengths of all symbols. -/
def lengths (t : CodeTable) : List Nat := t.words.toList.map (·.length)

/-- The length of the longest word. -/
def maxLength (t : CodeTable) : Nat := t.words.foldl (fun m w => max m w.length) 0

/-- The number of symbols with a code. -/
def usedCount (t : CodeTable) : Nat := t.lengths.countP (0 < ·)

/-- The share of the space of words that a code of `n` bits takes, in units of the share of a
longest one. -/
def kraftShare (n : Nat) : Nat :=
  if 0 < n ∧ n ≤ maxCodeLength then 1 <<< (maxCodeLength - n) else 0

/-- The share of the space of words that the table takes; a complete code takes `1 <<< 15`. -/
def kraftSum (t : CodeTable) : Nat := total kraftShare t.lengths

/-- No word is too long, and the words fit beside each other. -/
def isValid (t : CodeTable) : Bool :=
  t.maxLength ≤ maxCodeLength && t.kraftSum ≤ 1 <<< maxCodeLength

/-- The canonical table for transmitted code lengths. An incomplete code is accepted, since a
block may use a single distance; one that takes more words than there are is not. -/
def ofLengths? (lengths : List Nat) : Except Error CodeTable :=
  let t := ofLengths lengths
  if t.isValid then .ok t else .error .oversubscribed

/-- The table for the literal/length symbols of a fixed block. -/
def fixedLitlen : CodeTable := ofLengths fixedLitlenLengths

/-- The table for the distance symbols of a fixed block. -/
def fixedDist : CodeTable := ofLengths fixedDistLengths

end CodeTable

/-- Writes the word of a symbol. A symbol without a code cannot be written. -/
def BitWriter.writeSymbol (t : CodeTable) (symbol : Nat) (w : BitWriter) : Except Error BitWriter :=
  let word := t.word symbol
  if word.length = 0 then .error (.missingCode symbol)
  else .ok (w.writeReversed word.length word.code)

end DeflateRecoder
