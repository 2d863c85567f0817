import Imp.CommandLine

/-! # Options as arguments

Options are asked for by arguments: one for the file, one for each option that is set, and any number that ask
for more to be logged. -/

namespace Imp.CommandLine

/-- Something that is asked for on the command line. -/
inductive Argument where
  | maxIterations (n : UInt64)
  | json
  | ast
  | verbose
  | file (name : String)
deriving DecidableEq, Repr

/-- How an argument is written. -/
def Argument.words : Argument → List String
  | maxIterations n => ["--max-iterations", toString n.toNat]
  | json => ["--json"]
  | ast => ["--ast"]
  | verbose => ["-v"]
  | file name => [name]

/-- The arguments that ask for these options, but so often for more to be logged. -/
def Options.arguments (o : Options) (count : Nat) : List Argument :=
  (o.maxIterations.map .maxIterations).toList ++ (if o.json then [.json] else []) ++ (if o.ast then [.ast] else []) ++
    List.replicate count .verbose ++ [.file o.file]

/-- The word is not empty, and it is taken for a file and not for an option. -/
def IsFileName (name : String) : Prop := name ≠ "" ∧ shape name = .file

instance (name : String) : Decidable (IsFileName name) := inferInstanceAs (Decidable (_ ∧ _))

end Imp.CommandLine
