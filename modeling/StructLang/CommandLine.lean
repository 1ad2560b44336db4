import StructLang.Compilation

/-!
# Command line

The words after the command's name, what they ask for, and what the command answers: two texts and an
exit code.
-/

namespace StructLang

/-- What the command is asked to do. -/
inductive Command where
  /-- Name and version. -/
  | version
  /-- Name, version and backends. -/
  | about
  | check (options : Options)
  /-- Write the code or build the executable. -/
  | compile (options : Options)

/-- Why words make no command. -/
inductive UsageError where
  | unexpected (word : String)
  | missingValue (option : String)
  | badValue (value : String)
  | missingCommand
  | missingInput
deriving DecidableEq

def UsageError.message : UsageError → String
  | unexpected word => s!"unexpected argument '{word}' found"
  | missingValue option => s!"a value is required for '{option}' but none was supplied"
  | badValue value => s!"invalid value '{value}'"
  | missingCommand => "a subcommand is required"
  | missingInput => "an input file is required"

/-- Options that take a value. -/
inductive Setting where
  | messageFormat | backend | output | includeDir | optLevel | library
deriving DecidableEq

/-- A word by itself. -/
inductive Word where
  | plain (text : String)
  | setting (s : Setting) (value : Option String)
  | verbose
  | keepCode
  | version
  | unknown (text : String)
deriving DecidableEq

namespace Word

/-- The option with a long name. -/
def long? : String → Option Setting
  | "message-format" => some .messageFormat
  | "backend" => some .backend
  | "output" => some .output
  | _ => none

/-- The option with a short name. -/
def short? : Char → Option Setting
  | 'o' => some .output
  | 'I' => some .includeDir
  | 'O' => some .optLevel
  | 'l' => some .library
  | _ => none

/-- The value that is attached to a short name, with or without a sign of equality. -/
def attached : List Char → Option String
  | [] => none
  | '=' :: value | value => some (String.ofList value)

/-- The word as an option or as it is. -/
def ofText (text : String) : Word :=
  match text.toList with
  | ['-', 'v'] => .verbose
  | ['-', 'V'] => .version
  | '-' :: '-' :: rest =>
    let name := String.ofList (rest.takeWhile (· ≠ '='))
    let value := match rest.dropWhile (· ≠ '=') with
      | [] => none
      | _ :: v => some (String.ofList v)
    match long? name, value with
    | some s, v => .setting s v
    | none, some _ => .unknown text
    | none, none =>
      match name with
      | "verbose" => .verbose
      | "version" => .version
      | "keep-ir" => .keepCode
      | _ => .unknown text
  | '-' :: c :: rest =>
    match short? c with
    | some s => .setting s (attached rest)
    | none => .unknown text
  | _ => .plain text

end Word

/-- What has been read of a command. -/
structure CommandDraft where
  name : Option String := none
  input : Option String := none
  options : Options := { input := "" }

namespace CommandDraft

/-- A decimal number below 256; a sign may stand in front of it. -/
def level? (text : String) : Option Nat :=
  let (negative, cs) := match text.toList with
    | '-' :: cs => (true, cs)
    | '+' :: cs => (false, cs)
    | cs => (false, cs)
  if cs.isEmpty || !cs.all Char.isDigit then none
  else
    let n := cs.foldl (fun n c => 10 * n + (c.toNat - '0'.toNat)) 0
    if n < (if negative then 1 else 256) then some n else none

/-- Give an option its value. -/
def assign (d : CommandDraft) (s : Setting) (value : String) : Except UsageError CommandDraft :=
  let o := d.options
  match s with
  | .messageFormat =>
    match value with
    | "human" => .ok { d with options := { o with format := .human } }
    | "json" => .ok { d with options := { o with format := .json } }
    | _ => .error (.badValue value)
  | .backend =>
    match value with
    | "llvm" => .ok { d with options := { o with backend := .llvm } }
    | "qbe" => .ok { d with options := { o with backend := .qbe } }
    | _ => .error (.badValue value)
  | .output => .ok { d with options := { o with output := some value } }
  | .includeDir => .ok { d with options := { o with includes := o.includes ++ [value] } }
  | .optLevel =>
    match level? value with
    | some n => .ok { d with options := { o with optLevel := n } }
    | none => .error (.badValue value)
  | .library => .ok { d with options := { o with libraries := o.libraries ++ [value] } }

/-- Take a word that is no option: first the command, then the input. -/
def word (d : CommandDraft) (text : String) : Except UsageError CommandDraft :=
  match d.name, d.input with
  | none, _ => .ok { d with name := some text }
  | some _, none => .ok { d with input := some text }
  | some _, some _ => .error (.unexpected text)

/-- The command that has been read. -/
def finish (d : CommandDraft) : Except UsageError Command :=
  match d.name, d.input with
  | none, _ => .error .missingCommand
  | some "version", none => .ok .about
  | some "check", some input => .ok (.check { d.options with input := input })
  | some "emit", some input =>
    .ok (.compile { d.options with input := input, emitOnly := true })
  | some "build", some input => .ok (.compile { d.options with input := input })
  | some name, none =>
    .error (if ["check", "emit", "build"].contains name then .missingInput else .unexpected name)
  | some name, some _ => .error (.unexpected name)

/-- Read the remaining words. -/
def read (d : CommandDraft) : List String → Except UsageError Command
  | [] => d.finish
  | "--" :: rest => do (← rest.foldlM word d).finish
  | text :: rest =>
    match Word.ofText text with
    | .plain text => do (← d.word text).read rest
    | .verbose => read { d with options := { d.options with verbose := true } } rest
    | .keepCode => read { d with options := { d.options with keepCode := true } } rest
    | .version => if d.name.isNone then .ok .version else .error (.unexpected text)
    | .unknown text => .error (.unexpected text)
    | .setting s (some value) => do (← d.assign s value).read rest
    | .setting s none =>
      match rest with
      | [] => .error (.missingValue text)
      | value :: rest => do (← d.assign s value).read rest

end CommandDraft

/-- The command that words ask for. -/
def Command.ofArgs (args : List String) : Except UsageError Command := CommandDraft.read {} args

/-- What a command answers. -/
structure Answer where
  code : Nat
  output : String
  errors : String
deriving DecidableEq

namespace Command

def nameAndVersion : String := "spezic 0.1.0\n"

/-- The answer to a compilation, after its reports. -/
def answer (reports : String) : Except CompileError Outcome → Answer
  | .ok (.failed n) =>
    let plural := if n = 1 then "" else "s"
    ⟨1, "", reports ++ s!"error: compilation failed with {n} error{plural}\n"⟩
  | .ok .checked => ⟨0, "No errors found\n", reports⟩
  | .ok (.emitted path) => ⟨0, s!"Wrote {path}\n", reports⟩
  | .ok (.built path) => ⟨0, s!"Output: {path}\n", reports⟩
  | .error e => ⟨1, "", reports ++ s!"error: {e.message}\n"⟩

variable {m : Type → Type} [Monad m]

/-- Carry out a command; imports nest at most `depth` deep. -/
def run (host : Host m) (depth : Nat) : Command → m Answer
  | .version => return ⟨0, nameAndVersion, ""⟩
  | .about => return ⟨0, nameAndVersion ++ "Backends: llvm, qbe\n", ""⟩
  | .check o => do
    match ← o.check host depth with
    | .error e => return answer "" (.error e)
    | .ok c => return answer (c.report o) (.ok c.outcome)
  | .compile o => do
    match ← o.check host depth with
    | .error e => return answer "" (.error e)
    | .ok c => return answer (c.report o) (← o.finish host c)

end Command

/-- Carry out the command that words ask for. -/
def runArgs {m : Type → Type} [Monad m] (host : Host m) (depth : Nat) (args : List String) :
    m Answer :=
  match Command.ofArgs args with
  | .ok c => c.run host depth
  | .error e => return ⟨2, "", s!"error: {e.message}\n"⟩

end StructLang
