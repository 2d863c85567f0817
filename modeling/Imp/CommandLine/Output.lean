import Imp.CommandLine
import Imp.Json.Read
import Imp.Program.Runs
import Imp.Text.Lines

/-! # What a command prints

The response to a file, whatever fuel its run takes, and what is asked of it: with `--ast` it prints the tree of
the program, otherwise the variables at the end of the run. Tree and variables can be read back from what is printed.
If this fails, nothing is printed but one line with the message of the library, below the log. -/

namespace Imp.CommandLine

/-- The command comes to this response to what reading the file gave. -/
def Options.Responds (o : Options) (logger : Logger) (content : Except ReadError String) (r : Response) : Prop :=
  ∃ fuel, o.respond fuel content logger = some r

/-- The response that prints the tree of a source text, or why it is none, but for the log. -/
def treeAnswer (source : String) : Response :=
  match Program.ofSource source with
  | .error err => failure err.message
  | .ok s => success (s.toJson.pretty 0 ++ "\n")

/-- The response to an answer of the library, but for the log. -/
def Options.answer (o : Options) : Except Error Unit × Env → Response
  | (.ok _, e) => success (o.render e)
  | (.error err, _) => failure err.message

/-! ### Variables -/

/-- The line of a variable: its name, a colon and a blank, and its value. -/
def variableLine (p : String × Int64) : String := p.1 ++ ": " ++ toString p.2.toInt

/-- The name and the value on the line of a variable. The first colon ends the name. -/
def readVariable? (line : String) : Option (String × Int64) :=
  match line.toList.dropWhile (· ≠ ':') with
  | ':' :: ' ' :: value => do
    let n ← Numeral.readInt64? (String.ofList value)
    return (String.ofList (line.toList.takeWhile (· ≠ ':')), n)
  | _ => none

/-- The environment whose variables were printed, a line for each. -/
def readVariables? (text : String) : Option Env := do
  let lines ← Text.lines? text
  return Env.ofList (← lines.mapM readVariable?)

/-! ### Standard error -/

/-- The line reports why the command failed. -/
def isErrorLine (line : String) : Bool := "Error: ".toList.isPrefixOf line.toList

namespace Response

/-- The lines on standard error that report why the command failed. -/
def errorLines? (r : Response) : Option (List String) := (Text.lines? r.stderr).map (List.filter isErrorLine)

/-- The lines on standard error that are the log. -/
def logLines? (r : Response) : Option (List String) := (Text.lines? r.stderr).map (List.filter (! isErrorLine ·))

/-- All of a response but the log. -/
def unlogged (r : Response) : Nat × String × Option (List String) := (r.code, r.stdout, r.errorLines?)

/-! ### Responses -/

/-- Nothing was printed but one line with the reason why the command failed, below the log. -/
structure Failed (r : Response) (reason : String) : Prop where
  code : r.code = 1
  stdout : r.stdout = ""
  stderr : ∃ log, Text.lines? r.stderr = some (log ++ ["Error: " ++ reason]) ∧ ∀ line ∈ log, ¬ isErrorLine line

/-- The tree of the program was printed, or why the source text is none. -/
structure PrintsTree (r : Response) (source : String) : Prop where
  code_eq_zero_iff : r.code = 0 ↔ ∃ ts s, tokenize source = .ok ts ∧ Program.ofTokens ts = .ok s
  stdout : ∀ s, Program.ofSource source = .ok s → r.stdout = s.toJson.pretty 0 ++ "\n"
  json : ∀ s, Program.ofSource source = .ok s → Json.ofText? r.stdout = some s.toJson
  recovered : ∀ s, Program.ofSource source = .ok s → (Json.ofText? r.stdout >>= Stmt.ofJson?) = some s
  succeeded : r.code = 0 → r.errorLines? = some []
  failed : r.code ≠ 0 → ∃ err, Program.ofSource source = .error err ∧ r.Failed err.message

/-- The variables were printed that the run of the source text left, or why it has not come to its end. -/
structure PrintsVariables (r : Response) (o : Options) (source : String) : Prop where
  code_eq_zero_iff : r.code = 0 ↔ ∃ ts s e, tokenize source = .ok ts ∧ Program.ofTokens ts = .ok s ∧
    s.Ends o.maxIterations .empty (.done e)
  stdout : ∀ e, Program.Answers o.maxIterations source .empty (.ok ()) e → r.stdout = o.render e
  lines : ¬ o.json → ∀ e, Program.Answers o.maxIterations source .empty (.ok ()) e →
    Text.lines? r.stdout = some (e.toList.map variableLine) ∧ (e.toList.map Prod.fst).Pairwise (· < ·)
  recovered : ¬ o.json → ∀ e, Program.Answers o.maxIterations source .empty (.ok ()) e →
    readVariables? r.stdout = some e
  json : o.json → ∀ e, Program.Answers o.maxIterations source .empty (.ok ()) e →
    Json.ofText? r.stdout = some e.toJson ∧ (Json.ofText? r.stdout >>= Env.ofJson?) = some e
  succeeded : r.code = 0 → r.errorLines? = some []
  failed : r.code ≠ 0 → ∃ err e, Program.Answers o.maxIterations source .empty (.error err) e ∧ r.Failed err.message

end Response

end Imp.CommandLine
