import SqlLayout.Format

/-! The command line: what the arguments ask for, and what a run answers. -/

set_option autoImplicit false

namespace SqlLayout.CommandLine

structure Settings where
  lowercase : Bool := false
  strict : Bool := false
  verbose : Bool := false
  subselectLimit : Option Nat := none
  nestingLimit : Option Nat := none
  functions : List Text := []
  deriving DecidableEq, Repr

inductive Request where
  | misuse
  | version
  | help
  | format (s : Settings)
  deriving DecidableEq, Repr

inductive Flag where
  | lowercase
  | strict
  | verbose
  | version
  | help
  deriving DecidableEq, Repr

inductive Parameter where
  | subselectLimit
  | nestingLimit
  | functions
  deriving DecidableEq, Repr

def Flag.ofName? (name : Text) : Option Flag :=
  [("lowercase", .lowercase), ("strict", .strict), ("verbose", .verbose), ("version", .version),
    ("help", .help)].lookup (String.ofList name)

def Flag.ofLetter? : Char → Option Flag
  | 'v' => some .verbose
  | 'V' => some .version
  | 'h' => some .help
  | _ => none

def Parameter.ofName? (name : Text) : Option Parameter :=
  [("max-subselect-length", .subselectLimit), ("max-depth", .nestingLimit),
    ("functions", .functions)].lookup (String.ofList name)

/-- A natural number below 2⁶⁴: digits, and a plus sign before them or none. -/
def size? (t : Text) : Option Nat :=
  let ds := match t with
    | '+' :: rest => rest
    | _ => t
  if ds.isEmpty || !ds.all Char.isDigit then none
  else
    let n := ds.foldl (fun n c => 10 * n + (c.toNat - '0'.toNat)) 0
    if n < UInt64.size then some n else none

def Settings.assign? (s : Settings) (p : Parameter) (value : Text) : Option Settings :=
  match p with
  | .functions => some { s with functions := s.functions ++ value.splitOn ',' }
  | .subselectLimit =>
    if s.subselectLimit.isSome then none
    else (size? value).map fun n => { s with subselectLimit := some n }
  | .nestingLimit =>
    if s.nestingLimit.isSome then none
    else (size? value).map fun n => { s with nestingLimit := some n }

def Settings.raise (s : Settings) : Flag → Except Request Settings
  | .lowercase => if s.lowercase then .error .misuse else .ok { s with lowercase := true }
  | .strict => if s.strict then .error .misuse else .ok { s with strict := true }
  | .verbose => if s.verbose then .error .misuse else .ok { s with verbose := true }
  | .version => .error .version
  | .help => .error .help

def Settings.raiseLetters (s : Settings) : Text → Except Request Settings
  | [] => .ok s
  | c :: rest =>
    match Flag.ofLetter? c with
    | none => .error .misuse
    | some f => do (← s.raise f).raiseLetters rest

def isValue : Text → Bool
  | '-' :: _ :: _ => false
  | _ => true

/-- Reads the arguments from left to right; the first that is wrong, or that asks for the version
or for help, decides. -/
def read (s : Settings) : List Text → Request
  | [] => .format s
  | ['-', '-'] :: rest => if rest.isEmpty then .format s else .misuse
  | ('-' :: '-' :: long) :: rest =>
    let name := long.takeWhile (· != '=')
    let value? := (long.dropWhile (· != '=')).tail?
    match Flag.ofName? name, Parameter.ofName? name, value? with
    | some f, _, none =>
      match s.raise f with
      | .ok s => read s rest
      | .error r => r
    | _, some p, some value =>
      match s.assign? p value with
      | some s => read s rest
      | none => .misuse
    | _, some p, none =>
      match rest with
      | value :: rest =>
        if isValue value then
          match s.assign? p value with
          | some s => read s rest
          | none => .misuse
        else .misuse
      | [] => .misuse
    | _, _, _ => .misuse
  | ('-' :: c :: letters) :: rest =>
    match s.raiseLetters (c :: letters) with
    | .ok s => read s rest
    | .error r => r
  | _ :: _ => .misuse

def request (args : List String) : Request := read {} (args.map String.toList)

def Settings.options (s : Settings) : Options :=
  { uppercase := !s.lowercase
    subselectLimit := s.subselectLimit.getD ({} : Options).subselectLimit
    nestingLimit := s.nestingLimit.getD ({} : Options).nestingLimit : Options }.withFunctions
      s.functions

structure Outcome where
  exit : Nat
  output : String
  errors : List String
  deriving DecidableEq, Repr

def Settings.execute (s : Settings) (input : ByteArray) : Outcome :=
  match String.fromUTF8? input with
  | none => ⟨1, "", ["Error reading stdin: stream did not contain valid UTF-8"]⟩
  | some sql =>
    if Text.isBlankText sql.toList then ⟨1, "", ["Error: no SQL input provided"]⟩
    else
      match tryFormat s.options sql with
      | .ok t => ⟨0, t ++ "\n", []⟩
      | .error f =>
        if s.strict then ⟨2, "", ["Error: " ++ f.message]⟩ else ⟨0, f.source, []⟩

def versionText : String := "wb-sql-format 0.1.0\n"

def usageText : String := "Usage: wbfmt [OPTIONS]\n"

def helpText : String :=
  "A SQL statement pretty-printer with subselect collapsing and column alignment\n" ++
  "\n" ++
  usageText ++
  "\n" ++
  "Options:\n" ++
  "      --lowercase\n" ++
  "          Output keywords in lowercase\n" ++
  "      --max-subselect-length <MAX_SUBSELECT_LENGTH>\n" ++
  "          Subselects shorter than this many non-blank characters are kept on one line " ++
    "[default: 60]\n" ++
  "      --functions <FUNCTIONS>\n" ++
  "          Comma-separated database function names to write in uppercase\n" ++
  "      --max-depth <MAX_DEPTH>\n" ++
  "          Nested constructs deeper than this are left unformatted [default: 64]\n" ++
  "      --strict\n" ++
  "          Fail instead of echoing a statement that cannot be formatted\n" ++
  "  -v, --verbose\n" ++
  "          Log formatting decisions to stderr\n" ++
  "  -h, --help\n" ++
  "          Print help\n" ++
  "  -V, --version\n" ++
  "          Print version\n"

/-- The answer to the arguments alone, or the settings with which the input is to be read. -/
def Request.outcome : Request → Outcome ⊕ Settings
  | .misuse => .inl ⟨2, "", []⟩
  | .version => .inl ⟨0, versionText, []⟩
  | .help => .inl ⟨0, helpText, []⟩
  | .format s => .inr s

def run (args : List String) (input : ByteArray) : Outcome :=
  match (request args).outcome with
  | .inl o => o
  | .inr s => s.execute input

end SqlLayout.CommandLine
