import Imp.Semantics.Trace
import Imp.Syntax.Json

/-! # The command line

    imp [--max-iterations N] [--json] [--ast] [-v | --verbose]... [--version | -V] [--help | -h] FILE

The program in the file is run and its variables are printed, a line for each or, with `--json`, as
an object. With `--ast` the program is printed and not run. Each `-v` logs more on standard error.
Arguments are taken in their order and the first one that is wrong, or asks for the version or for
the usage, settles the matter. What a command does is a function of the options, of what reading the
file gave, and of the logger: nothing but the log is printed before it is known that all went well. -/

namespace Imp.CommandLine

/-! ### Arguments -/

/-- What to do with which file. -/
structure Options where
  file : String
  /-- The most iterations that any one execution of a loop may begin. -/
  maxIterations : Option UInt64 := none
  /-- Prints the variables as JSON. -/
  json : Bool := false
  /-- Prints the program as JSON and does not run it. -/
  ast : Bool := false
  /-- How often more was asked to be logged. -/
  verbosity : UInt8 := 0
deriving DecidableEq, Repr

/-- What the arguments ask for. -/
inductive Command where
  | version
  | run (options : Options)
deriving DecidableEq, Repr

/-- Why the arguments are taken no further: one of them asks for the usage, or something is wrong with them. -/
inductive UsageError where
  | help
  | unknown (argument : String)
  | repeated (option : String)
  | needsValue (option : String)
  | takesNoValue (option : String)
  /-- The value is no unsigned 64-bit integer. -/
  | badValue (option value : String)
  /-- There is a second file. -/
  | extraFile (file : String)
  /-- There is no file, or its name is empty. -/
  | noFile
deriving DecidableEq, Repr

/-- The usage, which names all arguments. -/
def usageText : String :=
  String.join (List.map (· ++ "\n")
    ["Runs an Imp program and prints its final variables",
      "",
      "Usage: imp [OPTIONS] <PATH>",
      "",
      "Arguments:",
      "  <PATH>  The Imp source file to run",
      "",
      "Options:",
      "      --max-iterations <MAX_ITERATIONS>  Abort any `while` loop after this many iterations",
      "      --json                             Print the final environment as a JSON object",
      "      --ast                              Print the parsed program as JSON instead of running it",
      "  -v, --verbose...                       Log more (-v info, -vv debug, -vvv trace)",
      "  -h, --help                             Print help",
      "  -V, --version                          Print version"])

def UsageError.message : UsageError → String
  | help => usageText
  | unknown a => "unexpected argument '" ++ a ++ "'"
  | repeated o => "the argument '" ++ o ++ "' cannot be used multiple times"
  | needsValue o => "a value is required for '" ++ o ++ "'"
  | takesNoValue o => "no value is allowed for '" ++ o ++ "'"
  | badValue o v => "invalid value '" ++ v ++ "' for '" ++ o ++ "'"
  | extraFile f => "unexpected argument '" ++ f ++ "'"
  | noFile => "a file name is required"

/-- The arguments read so far. -/
structure Draft where
  file : Option String := none
  maxIterations : Option UInt64 := none
  json : Bool := false
  ast : Bool := false
  verbosity : UInt8 := 0
deriving DecidableEq, Repr

/-- How an argument is to be understood, by the hyphens at its start. -/
inductive Shape where
  /-- The argument behind which all others are file names. -/
  | separator
  /-- An option with a long name, and the value that is attached to it. -/
  | long (name : String) (value : Option String)
  /-- Options of one letter each. -/
  | short (letters : List Char)
  | file
deriving DecidableEq, Repr

def shape (argument : String) : Shape :=
  match argument.toList with
  | ['-', '-'] => .separator
  | '-' :: '-' :: cs =>
    match cs.dropWhile (· ≠ '=') with
    | [] => .long (String.ofList cs) none
    | _ :: v => .long (String.ofList (cs.takeWhile (· ≠ '='))) (some (String.ofList v))
  | '-' :: c :: cs => .short (c :: cs)
  | _ => .file

/-- As many requests for a longer log as are counted. -/
def saturated (count : Nat) : UInt8 := UInt8.ofNat (min count 255)

namespace Draft

def setFile (d : Draft) (file : String) : Except UsageError Draft :=
  if d.file.isSome then .error (.extraFile file)
  else if file.isEmpty then .error .noFile
  else .ok { d with file := some file }

def setJson (d : Draft) : Except UsageError Draft :=
  if d.json then .error (.repeated "--json") else .ok { d with json := true }

def setAst (d : Draft) : Except UsageError Draft :=
  if d.ast then .error (.repeated "--ast") else .ok { d with ast := true }

def setMaxIterations (d : Draft) (value : String) : Except UsageError Draft :=
  match Numeral.readUInt64? value with
  | none => .error (.badValue "--max-iterations" value)
  | some n =>
    if d.maxIterations.isSome then .error (.repeated "--max-iterations")
    else .ok { d with maxIterations := some n }

/-- Counts one more request for a longer log. -/
def raiseVerbosity (d : Draft) : Draft := { d with verbosity := saturated (d.verbosity.toNat + 1) }

/-- The options, once all arguments are read. -/
def finish (d : Draft) : Except UsageError Command :=
  match d.file with
  | none => .error .noFile
  | some file =>
    .ok (.run { file, maxIterations := d.maxIterations, json := d.json, ast := d.ast, verbosity := d.verbosity })

/-- Takes options of one letter each. The answer is none if one of them asks for the version. -/
def readLetters (d : Draft) : List Char → Except UsageError (Option Draft)
  | [] => .ok (some d)
  | 'v' :: cs => d.raiseVerbosity.readLetters cs
  | 'V' :: _ => .ok none
  | 'h' :: _ => .error .help
  | c :: _ => .error (.unknown (String.ofList ['-', c]))

/-- Takes all arguments for file names. -/
def readFiles (d : Draft) : List String → Except UsageError Command
  | [] => d.finish
  | file :: rest => do
    let d ← d.setFile file
    d.readFiles rest

/-- Takes the arguments one after another. -/
def readArguments (d : Draft) : List String → Except UsageError Command
  | [] => d.finish
  | argument :: rest =>
    match shape argument with
    | .separator => d.readFiles rest
    | .file => do
      let d ← d.setFile argument
      d.readArguments rest
    | .short letters => do
      match ← d.readLetters letters with
      | none => return .version
      | some d => d.readArguments rest
    | .long "max-iterations" (some value) => do
      let d ← d.setMaxIterations value
      d.readArguments rest
    | .long "max-iterations" none =>
      match rest with
      | [] => .error (.needsValue "--max-iterations")
      | value :: rest =>
        match shape value with
        | .file => do
          let d ← d.setMaxIterations value
          d.readArguments rest
        | _ => .error (.needsValue "--max-iterations")
    | .long name none =>
      match name with
      | "version" => .ok .version
      | "help" => .error .help
      | "verbose" => d.raiseVerbosity.readArguments rest
      | "json" => do
        let d ← d.setJson
        d.readArguments rest
      | "ast" => do
        let d ← d.setAst
        d.readArguments rest
      | _ => .error (.unknown argument)
    | .long name (some _) =>
      if ["version", "help", "verbose", "json", "ast"].contains name then .error (.takesNoValue ("--" ++ name))
      else .error (.unknown argument)

end Draft

/-- What the arguments ask for. -/
def parse (arguments : List String) : Except UsageError Command :=
  Draft.readArguments {} arguments

/-! ### Answers -/

/-- Why a file could not be read as text. -/
inductive ReadError where
  | missing
  | directory
  /-- The bytes are not the UTF-8 form of a text. -/
  | notText
  /-- The system gave another reason. -/
  | other (reason : String)
deriving DecidableEq, Repr

def ReadError.reason : ReadError → String
  | missing => "No such file or directory (os error 2)"
  | directory => "Is a directory (os error 21)"
  | notText => "stream did not contain valid UTF-8"
  | other r => r

/-- The bytes of a file as text. -/
def decode (bytes : ByteArray) : Except ReadError String :=
  match String.fromUTF8? bytes with
  | some s => .ok s
  | none => .error .notText

/-- What a command leaves behind: an exit code and what it printed. -/
structure Response where
  code : Nat
  stdout : String := ""
  stderr : String := ""
deriving DecidableEq, Repr

/-- The name and the version of this program. -/
def versionText : String := "imp 0.1.0"

/-- All went well, and this is printed. -/
def success (stdout : String) : Response := { code := 0, stdout }

/-- Something went wrong, and this is why. -/
def failure (reason : String) : Response := { code := 1, stderr := "Error: " ++ reason ++ "\n" }

/-- The arguments are taken no further. The usage is no error, if it was asked for. -/
def misuse (e : UsageError) : Response :=
  if e = .help then success e.message else { code := 2, stderr := "error: " ++ e.message ++ "\n" }

/-- The variables, a line for each. -/
def variableLines (e : Env) : String :=
  String.join (e.toList.map fun p => p.1 ++ ": " ++ toString p.2.toInt ++ "\n")

/-- What is printed of the variables at the end of a run. -/
def Options.render (o : Options) (e : Env) : String :=
  if o.json then e.toJson.pretty 0 ++ "\n" else variableLines e

/-- The run of a program from no variables, and what is told on the way if that is logged. -/
def Options.run (o : Options) (fuel : Nat) (s : Stmt) : Option (Outcome × List Event) :=
  if Level.ofVerbosity o.verbosity = .trace then
    (s.trace o.maxIterations fuel .empty []).map fun (outcome, log) => (outcome, log.reverse)
  else (s.exec o.maxIterations fuel .empty).map fun outcome => (outcome, [])

/-- The response to the outcome of a run but for the log, and what is told at the end of the run. -/
def Options.finish (o : Options) (logger : Logger) : Outcome → Response × List Event
  | .done e => (success (o.render e), [.finished e.size, .executionTook logger.execution])
  | .stopped f _ => (failure f.message, [])

/-- The response to a source text but for the log, and what is told on the way, unless the run needs more fuel. -/
def Options.answerTo (o : Options) (fuel : Nat) (source : String) (logger : Logger) :
    Option (Response × List Event) :=
  match Program.read source with
  | (.error err, reading) => some (failure err.message, reading)
  | (.ok s, reading) =>
    let reading := reading ++ [.parsingTook logger.parsing]
    if o.ast then some (success (s.toJson.pretty 0 ++ "\n"), reading)
    else (o.run fuel s).map fun (outcome, running) =>
      let (r, ending) := o.finish logger outcome
      (r, reading ++ .executing o.maxIterations :: running ++ ending)

/-- The response with lines above what it prints on standard error. -/
def Response.below (r : Response) (lines : List String) : Response :=
  { r with stderr := String.join (lines.map (· ++ "\n")) ++ r.stderr }

/-- The response to a source text, unless the run needs more fuel. -/
def Options.respondTo (o : Options) (fuel : Nat) (source : String) (logger : Logger) : Option Response :=
  (o.answerTo fuel source logger).map fun (r, events) =>
    r.below (logger.lines (.ofVerbosity o.verbosity) events)

/-- The response to what reading the file gave, unless the run needs more fuel. -/
def Options.respond (o : Options) (fuel : Nat) (content : Except ReadError String) (logger : Logger := {}) :
    Option Response :=
  match content with
  | .error e => some (failure ("failed to read '" ++ o.file ++ "': " ++ e.reason))
  | .ok source => o.respondTo fuel source logger

end Imp.CommandLine
