import Imp.Text.Lines

/-! # The log

Besides its answer a command tells what it does on the way, if it is asked to, on standard error. What it tells is a
row of events, each with a level and a message; the more often more was asked for, the deeper the levels that are
logged. Two things about the log are known only while the program runs, and are given here by a logger: how much time
the work took, and how a line looks, in front of whose message stands the time of day. -/

namespace Imp

/-! ### Levels -/

/-- How much an event matters, and that which matters most first. -/
inductive Level where
  | error
  | warn
  | info
  | debug
  | trace
deriving DecidableEq, Repr

namespace Level

/-- The place of a level among the levels. -/
def rank : Level → Nat
  | error => 0
  | warn => 1
  | info => 2
  | debug => 3
  | trace => 4

/-- The name of a level, as wide as all others. -/
def name : Level → String
  | error => "ERROR"
  | warn => " WARN"
  | info => " INFO"
  | debug => "DEBUG"
  | trace => "TRACE"

/-- The deepest level that is logged if more was asked for so often. -/
def ofVerbosity (verbosity : UInt8) : Level :=
  if verbosity = 0 then warn
  else if verbosity = 1 then info
  else if verbosity = 2 then debug
  else trace

end Level

/-! ### Events -/

/-- Something that is told in the log. -/
inductive Event where
  /-- The source text was cut into so many tokens. -/
  | scanned (tokens : Nat)
  /-- So many tokens make a program. -/
  | parsed (tokens : Nat)
  /-- The tokens make none: the one with this index does not fit. -/
  | parseStopped (index : Nat)
  /-- The source text was read in so many nanoseconds. -/
  | parsingTook (time : Nat)
  /-- A run begins, with this limit. -/
  | executing (limit : Option UInt64)
  /-- A value is stored. -/
  | assigned (name : String) (value : Int64)
  /-- A loop is left after so many iterations. -/
  | loopEnded (iterations : Nat)
  /-- The run reached its end, with so many variables. -/
  | finished (count : Nat)
  /-- The program was run in so many nanoseconds. -/
  | executionTook (time : Nat)
deriving DecidableEq, Repr

/-- A span of time, in microseconds if it is shorter than a millisecond. -/
def durationText (nanoseconds : Nat) : String :=
  if nanoseconds < 1000000 then toString (nanoseconds / 1000) ++ " µs"
  else toString (nanoseconds / 1000000) ++ " ms"

namespace Event

def level : Event → Level
  | assigned _ _ => .trace
  | loopEnded _ => .trace
  | executionTook _ => .info
  | _ => .debug

/-- What is told of an event. -/
def message : Event → String
  | scanned n => "scanned " ++ toString n ++ " tokens"
  | parsed n => "parsed program of " ++ toString n ++ " tokens"
  | parseStopped i => "parse stopped at token " ++ toString i
  | parsingTook t => "Parsing took " ++ durationText t ++ "."
  | executing none => "executing program config=EvalConfig \x7b max_loop_iterations: None \x7d"
  | executing (some n) =>
    "executing program config=EvalConfig \x7b max_loop_iterations: Some(" ++ toString n.toNat ++ ") \x7d"
  | assigned x n => x ++ " := " ++ toString n.toInt
  | loopEnded n => "while loop ran " ++ toString n ++ " iterations"
  | finished n => "program finished with " ++ toString n ++ " variables"
  | executionTook t => "Execution took " ++ durationText t ++ "."

end Event

/-! ### Lines -/

/-- What is known only while the program runs. -/
structure Logger where
  /-- The nanoseconds in which the source text was read. -/
  parsing : Nat := 0
  /-- The nanoseconds in which the program was run. -/
  execution : Nat := 0
  /-- The line of an event with so many lines above it. -/
  line : Nat → Event → String := fun _ event => event.level.name ++ " " ++ event.message

/-- What is known of the lines of a log, however they look: a message on one line is told on one line, and a line
    begins with the time of day or the level, so not as the report of an error does. -/
structure Logger.Lawful (logger : Logger) : Prop where
  isLine : ∀ n event, Text.IsLine event.message → Text.IsLine (logger.line n event)
  begins : ∀ n event, (logger.line n event).toList.head? ≠ some 'E'

/-- The lines of the events that are logged down to a level. -/
def Logger.lines (logger : Logger) (deepest : Level) (events : List Event) : List String :=
  (events.filter fun event => event.level.rank ≤ deepest.rank).mapIdx logger.line

end Imp
