import DeflateRecoder.Optimise.Pass

/-!
# Recoding bytes

`recode` takes the bytes of a stream to the bytes of a smaller one. It never fails: bytes that are
no stream stay as they are, and so do those for which nothing shorter is found. The new bytes are
read back before they are given out (`verify`), so that whatever is given out stands for the same
bytes as the input.
-/

namespace DeflateRecoder

/-- The sizes before and after. -/
structure Stats where
  /-- The size of the input in bits. -/
  inputBits : Nat
  /-- The size of the output in bits. -/
  outputBits : Nat
  /-- The number of blocks in the input. -/
  inputBlocks : Nat
  /-- The number of blocks in the output. -/
  outputBlocks : Nat
  deriving DecidableEq, Repr

/-- By how many bits the output is smaller. -/
def Stats.saved (s : Stats) : Nat := s.inputBits - s.outputBits

/-- The output is the input. -/
def Stats.unchanged (s : Stats) : Bool := s.saved == 0

/-- What becomes of some bytes. -/
structure Recoding where
  /-- The bytes to use in their place. -/
  bytes : List UInt8
  /-- The sizes before and after. -/
  stats : Stats
  /-- What happened. -/
  events : List Event

/-- What is told of a stream that was read. -/
def Stream.parsedEvent (s : Stream) : Event := .parsed s.name s.length s.bitSize

/-- Reads `output` back, which has to stand for `expected`. Returns what happened as well. -/
def verify (output expected : List UInt8) : List Event × Except Error Unit :=
  match Stream.parse "" output with
  | .error e => ([], .error e)
  | .ok s =>
    let decoded := s.bytes
    ([s.parsedEvent],
      if decoded == expected then .ok ()
      else .error (.internal (.differentBytes decoded.length expected.length)))

/-- The bytes stay as they are; they were found to have this many blocks. -/
def Recoding.unchanged (bytes : List UInt8) (blocks : Nat) (events : List Event) : Recoding :=
  let bits := 8 * bytes.length
  { bytes, stats := ⟨bits, bits, blocks, blocks⟩, events }

/-- The stream written, provided that it can be read back. Returns what happened as well. -/
def Stream.writeVerified (s : Stream) (expected : List UInt8) :
    List Event × Except Error (List UInt8) :=
  match s.write with
  | .error e => ([], .error e)
  | .ok output =>
    let (events, verdict) := verify output expected
    (events, verdict.map fun _ => output)

/-- Takes the bytes of a stream to those of a smaller one, if there is one. Bytes are whole, so a
saving of a few bits may be for nothing. -/
def recode (config : Config) (bytes : List UInt8) : Recoding :=
  match Stream.parse "" bytes with
  | .error e => .unchanged bytes 0 [.inputRefused e]
  | .ok s =>
    let r := s.optimise config
    let (readBack, written) := r.stream.writeVerified s.bytes
    let events := s.parsedEvent :: r.events ++ readBack
    match written with
    | .error e => .unchanged bytes s.length (events ++ [.outputRefused e])
    | .ok output =>
      if bytes.length ≤ output.length then .unchanged bytes s.length events
      else
        { bytes := output
          stats := ⟨8 * bytes.length, 8 * output.length, s.length, r.stream.length⟩
          events }

end DeflateRecoder
