import Imp.Main
import Imp.Parser.Build
import Imp.Parser.Finished
import Imp.Parser.OperatorTree
import Imp.Parser.WellFormed
import Imp.Parser.Within
import Imp.Semantics.Exact
import Imp.Semantics.Machine
import Imp.Semantics.Spine
import Imp.Syntax.Derivation
import Imp.Syntax.Normal
import Imp.Syntax.Text
import Imp.Syntax.Variables
import Imp.Token.Layout
import Imp.Proofs.Program.Joining
import Imp.Proofs.Semantics.Limits
import Imp.Proofs.Token.Spacing
import Imp.Proofs.Program.Diagnosis
import Imp.Proofs.Env.Lookup
import Imp.Proofs.Program.Layout
import Imp.Proofs.Semantics.Related
import Imp.Proofs.Semantics.Commuting
import Imp.Proofs.Parser.Rules
import Imp.Proofs.Parser.OperatorTrees
import Imp.Proofs.Parser.Positions
import Imp.Proofs.Parser.Precedence
import Imp.Proofs.Token.Classes
import Imp.Proofs.Parser.Termination
import Imp.Proofs.Parser.Turns
import Imp.Proofs.Parser.Within
import Imp.Proofs.Grammar.Termination
import Imp.Proofs.Semantics.LimitedRuns
import Imp.Proofs.Integer.Exact
import Imp.Proofs.Semantics.Values
import Imp.Proofs.Semantics.Frame
import Imp.Proofs.Semantics.Noninterference
import Imp.Proofs.Semantics.Conditions
import Imp.Proofs.Semantics.Invariants
import Imp.Proofs.Program.Stages
import Imp.Proofs.Parser.Moved
import Imp.Proofs.Token.RuleOrder
import Imp.Proofs.Text.ByteOrder
import Imp.Proofs.Env.History
import Imp.Proofs.Semantics.Renaming
import Imp.CommandLine.Arguments
import Imp.CommandLine.Output
import Imp.Json.Same
import Imp.Proofs.CommandLine.Arguments
import Imp.Proofs.Program.Messages
import Imp.Proofs.Syntax.Json
import Imp.Proofs.CommandLine.Output
import Imp.Proofs.CommandLine.Responses
import Imp.Parser.ChainOfPairs
import Imp.Proofs.Parser.ChainOfPairs
import Imp.Parser.Reordered
import Imp.Proofs.Parser.Reordered
import Imp.Proofs.Parser.Fuel
import Imp.Proofs.Grammar.Alternatives
import Imp.Proofs.CommandLine.Log
import Imp.Proofs.Json.RoundTrip
