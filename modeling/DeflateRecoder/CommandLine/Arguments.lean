import DeflateRecoder.Search.Best

/-!
# Arguments of the command line

`parseArguments` takes the arguments in their order: the first one that is wrong, or that asks for
the version, decides.
-/

namespace DeflateRecoder.CommandLine

/-! ## Options -/

/-- What the arguments ask for. -/
structure Options where
  /-- The file to read, or a hyphen for the standard input. -/
  input : String
  /-- The file to write, or a hyphen for the standard output. -/
  output : Option String
  /-- How to search. -/
  config : Config
  /-- Fresh encodings of the content are wanted as well, from whatever encoders there are. -/
  recompress : Bool
  /-- How often a more talkative log is asked for. -/
  verbosity : Nat
  /-- The blocks of the input are listed and nothing is written. -/
  check : Bool
  deriving Repr

/-- What the arguments come to. -/
inductive Request
  /-- The program is to work. -/
  | run (options : Options)
  /-- The program is to tell its version. -/
  | version
  /-- The arguments make no sense. -/
  | refused
  deriving Repr

/-- An option without a value that may be given once. -/
inductive Switch
  | noMerge | fastHeaders | recompress | check
  deriving DecidableEq, Repr

/-- An option with a value. -/
inductive Setting
  | input | output | maxPasses | threads
  deriving DecidableEq, Repr

/-- What a name on the command line stands for. -/
inductive Meaning
  /-- An option without a value. -/
  | switch (s : Switch)
  /-- An option with a value. -/
  | setting (s : Setting)
  /-- A more talkative log, each time it is given. -/
  | verbose
  /-- The version. -/
  | version

/-- The meanings of the names that follow two hyphens. -/
def longMeaning? : String → Option Meaning
  | "input" => some (.setting .input)
  | "output" => some (.setting .output)
  | "no-merge" => some (.switch .noMerge)
  | "fast-headers" => some (.switch .fastHeaders)
  | "max-passes" => some (.setting .maxPasses)
  | "recompress" => some (.switch .recompress)
  | "threads" => some (.setting .threads)
  | "verbose" => some .verbose
  | "check" => some (.switch .check)
  | "version" => some .version
  | _ => none

/-- The meanings of the letters that follow one hyphen. -/
def shortMeaning? : Char → Option Meaning
  | 'i' => some (.setting .input)
  | 'o' => some (.setting .output)
  | 't' => some (.setting .threads)
  | 'v' => some .verbose
  | 'V' => some .version
  | _ => none

/-! ## Arguments -/

/-- The options met so far. -/
structure Draft where
  /-- The switches given. -/
  switches : List Switch := []
  /-- The settings given, with their values. -/
  settings : List (Setting × String) := []
  /-- How often a more talkative log was asked for. -/
  verbosity : Nat := 0

/-- The value of a decimal numeral of at most 64 bits; a plus sign may stand before it. -/
def parseCount? (text : String) : Option Nat :=
  let digits := match text.toList with
    | '+' :: rest => rest
    | rest => rest
  if digits.isEmpty || !digits.all Char.isDigit then none
  else
    let n := digits.foldl (fun n c => 10 * n + (c.toNat - '0'.toNat)) 0
    if n < 18446744073709551616 then some n else none

/-- Whether a setting can have a value: file names are not empty, the others are counts. -/
def Setting.accepts (value : String) : Setting → Bool
  | input | output => !value.isEmpty
  | maxPasses | threads => (parseCount? value).isSome

/-- Takes a switch into account, which may be given once. -/
def Draft.addSwitch? (d : Draft) (s : Switch) : Option Draft :=
  if s ∈ d.switches then none else some { d with switches := s :: d.switches }

/-- Takes a setting into account, which may be given once. -/
def Draft.addSetting? (d : Draft) (s : Setting) (value : String) : Option Draft :=
  if (d.settings.lookup s).isSome || !s.accepts value then none
  else some { d with settings := (s, value) :: d.settings }

/-- Whether an argument can only be an option, and not the value of one before it. -/
def looksLikeOption (argument : String) : Bool :=
  argument.startsWith "-" && argument != "-"

/-- The text before the first equals sign of an argument and, if there is one, the text behind
it. -/
def splitValue (chars : List Char) : String × Option String :=
  let name := String.ofList (chars.takeWhile (· ≠ '='))
  match chars.dropWhile (· ≠ '=') with
  | [] => (name, none)
  | _ :: value => (name, some (String.ofList value))

/-- The result of reading letters that follow one hyphen. -/
inductive Letters
  /-- All were options without values. -/
  | done (draft : Draft)
  /-- The last one is a setting whose value is the next argument. -/
  | needsValue (draft : Draft) (setting : Setting)
  /-- One of them asks for the version. -/
  | version
  /-- One of them makes no sense. -/
  | refused

/-- Reads letters that follow one hyphen. What stands behind the letter of a setting is its value,
with or without an equals sign between them. -/
def readLetters (d : Draft) : List Char → Letters
  | [] => .done d
  | c :: rest =>
    match shortMeaning? c with
    | none => .refused
    | some .version => .version
    | some .verbose => readLetters { d with verbosity := d.verbosity + 1 } rest
    | some (.switch s) =>
      match d.addSwitch? s with
      | none => .refused
      | some d => readLetters d rest
    | some (.setting s) =>
      match rest with
      | [] => .needsValue d s
      | rest =>
        let value := match rest with
          | '=' :: value => value
          | value => value
        match d.addSetting? s (String.ofList value) with
        | none => .refused
        | some d => .done d

/-- The options that a complete draft comes to: there must be an input, and an output unless the
blocks are only listed. -/
def Draft.finish (d : Draft) : Request :=
  let count (s : Setting) : Nat := ((d.settings.lookup s).bind parseCount?).getD 0
  let check : Bool := .check ∈ d.switches
  match d.settings.lookup .input, d.settings.lookup .output with
  | none, _ => .refused
  | some input, output =>
    if output.isNone && !check then .refused
    else .run
      { input, output, check
        recompress := .recompress ∈ d.switches
        verbosity := d.verbosity
        config :=
          { merge := !(.noMerge ∈ d.switches)
            exhaustive := !(.fastHeaders ∈ d.switches)
            maxPasses := count .maxPasses
            threads := count .threads } }

/-- Reads arguments after those that make up a draft. -/
def readArguments (d : Draft) : List String → Request
  | [] => d.finish
  | argument :: rest =>
    match argument.toList with
    | '-' :: '-' :: [] => if rest.isEmpty then d.finish else .refused
    | '-' :: '-' :: chars =>
      let (name, value) := splitValue chars
      match longMeaning? name, value, rest with
      | some .version, none, _ => .version
      | some .verbose, none, rest => readArguments { d with verbosity := d.verbosity + 1 } rest
      | some (.switch s), none, rest => (d.addSwitch? s).elim .refused (readArguments · rest)
      | some (.setting s), some value, rest =>
        (d.addSetting? s value).elim .refused (readArguments · rest)
      | some (.setting s), none, value :: rest =>
        if looksLikeOption value then .refused
        else (d.addSetting? s value).elim .refused (readArguments · rest)
      | _, _, _ => .refused
    | '-' :: c :: chars =>
      match readLetters d (c :: chars), rest with
      | .done d, rest => readArguments d rest
      | .needsValue d s, value :: rest =>
        if looksLikeOption value then .refused
        else (d.addSetting? s value).elim .refused (readArguments · rest)
      | .version, _ => .version
      | _, _ => .refused
    | _ => .refused

/-- Reads the arguments of the program. -/
def parseArguments (arguments : List String) : Request := readArguments {} arguments

end DeflateRecoder.CommandLine
