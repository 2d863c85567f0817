import Imp.Parser.Run

/-! # Parsers that are built on demand

A definition may stand within itself, so its parser cannot be built before it is used. A call builds
the parser of its definition when it is first run and keeps it for later runs. Each call that stands
in a parser keeps its own copy, and the calls within that copy again have theirs: a recursive
definition is built once for each nesting level that any run has reached.

What has been built so far is a tree along the parser. `runBuilding` runs a parser and carries this
tree along, and `Built.count` counts the copies. -/

namespace Imp

/-- Which calls of a parser have built their definition. A parser with two parts has a tree for each;
    a parser with one part shares its tree. -/
inductive Built (ν : Type) where
  /-- No call has been run. -/
  | nothing
  /-- What the two parts have built. -/
  | parts (left right : Built ν)
  /-- The call has built the definition `n`, in which `within` has been built. -/
  | copy (n : ν) (within : Built ν)
deriving DecidableEq, Repr

namespace Built

variable {ν : Type}

/-- What the first part of a parser has built. -/
def left : Built ν → Built ν
  | parts l _ => l
  | _ => nothing

/-- What the second part of a parser has built. -/
def right : Built ν → Built ν
  | parts _ r => r
  | _ => nothing

/-- What has been built within the copy of a call. -/
def within : Built ν → Built ν
  | copy _ b => b
  | _ => nothing

/-- The number of copies of definitions whose names are counted. -/
def count (counted : ν → Bool) : Built ν → Nat
  | nothing => 0
  | parts l r => l.count counted + r.count counted
  | copy n b => (if counted n then 1 else 0) + b.count counted

end Built

namespace Parser

variable {ν : Type} {ty : ν → Type} {α β : Type}

/-- An answer, and what has been built when it is given. -/
abbrev Building (ν : Type) (α : Type) : Type := Built ν → Nat → Answer α × Built ν

/-- Runs a step again and again until it fails. -/
def repeatBuilding (step : Building ν α) : Nat → Building ν (List α)
  | 0, b, _ => (.unfinished, b)
  | fuel + 1, b, pos =>
    match step b pos with
    | (.unfinished, b) => (.unfinished, b)
    | (.failure, b) => (.success [] pos, b)
    | (.success v next, b) =>
      match repeatBuilding step fuel b next with
      | (a, b) => (a.map (v :: ·), b)

/-- Goes on with separators and operands behind what was joined so far. The trees of operand and
    separator are the two parts of the chain's. -/
def chainBuilding (operand : Building ν α) (separator : Building ν (α → α → α)) :
    Nat → α → Building ν α
  | 0, _, b, _ => (.unfinished, b)
  | fuel + 1, left, b, pos =>
    match separator b.right pos with
    | (.unfinished, s) => (.unfinished, .parts b.left s)
    | (.failure, s) => (.success left pos, .parts b.left s)
    | (.success join mid, s) =>
      match operand b.left mid with
      | (.unfinished, o) => (.unfinished, .parts o s)
      | (.failure, o) => (.success left pos, .parts o s)
      | (.success right next, o) =>
        chainBuilding operand separator fuel (join left right) (.parts o s) next

/-- The run of a parser that builds definitions on demand, where `called` runs the copies. -/
def buildWith (ts : Array Token) (called : (n : ν) → Building ν (ty n)) (fuel : Nat) {α : Type} :
    Parser ty α → Building ν α
  | token text kind, b, pos => (take ts (fun t => t.text = text ∧ t.kind = kind) pos, b)
  | ofKind kind, b, pos => (take ts (fun t => t.kind = kind) pos, b)
  | fail, b, _ => (.failure, b)
  | seq p q, b, pos =>
    match p.buildWith ts called fuel b.left pos with
    | (.unfinished, l) => (.unfinished, .parts l b.right)
    | (.failure, l) => (.failure, .parts l b.right)
    | (.success v mid, l) =>
      match q.buildWith ts called fuel b.right mid with
      | (a, r) => (a.map (v, ·), .parts l r)
  | alt p q, b, pos =>
    match p.buildWith ts called fuel b.left pos with
    | (.failure, l) =>
      match q.buildWith ts called fuel b.right pos with
      | (a, r) => (a, .parts l r)
    | (a, l) => (a, .parts l b.right)
  | opt p, b, pos =>
    match p.buildWith ts called fuel b pos with
    | (a, b) => (a.optional pos, b)
  | rep p, b, pos => repeatBuilding (p.buildWith ts called fuel) fuel b pos
  | map f p, b, pos =>
    match p.buildWith ts called fuel b pos with
    | (a, b) => (a.map f, b)
  | filterMap f p, b, pos =>
    match p.buildWith ts called fuel b pos with
    | (a, b) => (a.filterMap f, b)
  | chainLeft p s, b, pos =>
    match p.buildWith ts called fuel b.left pos with
    | (.unfinished, l) => (.unfinished, .parts l b.right)
    | (.failure, l) => (.failure, .parts l b.right)
    | (.success v next, l) =>
      chainBuilding (p.buildWith ts called fuel) (s.buildWith ts called fuel) fuel v (.parts l b.right) next
  | phrase p, b, pos =>
    match p.buildWith ts called fuel b pos with
    | (a, b) => (a.endingAt ts.size, b)
  | call n, b, pos =>
    match called n b.within pos with
    | (a, inner) => (a, .copy n inner)

/-- The run of a copy of a definition, with calls nested at most `fuel` deep. -/
def buildCall (defs : Family ty) (ts : Array Token) : Nat → (n : ν) → Building ν (ty n)
  | 0, _, b, _ => (.unfinished, b)
  | fuel + 1, n, b, pos => (defs n).buildWith ts (buildCall defs ts fuel) fuel b pos

/-- The run of a parser that has built `b` before. -/
def runBuilding (defs : Family ty) (ts : Array Token) (fuel : Nat) (p : Parser ty α) (b : Built ν) (pos : Nat) :
    Answer α × Built ν :=
  p.buildWith ts (buildCall defs ts fuel) fuel b pos

/-- Runs one parser at several positions in turn. With each answer goes what has been built by then. -/
def runEach (defs : Family ty) (ts : Array Token) (fuel : Nat) (p : Parser ty α) :
    Built ν → List Nat → List (Answer α × Built ν)
  | _, [] => []
  | b, pos :: rest =>
    let r := p.runBuilding defs ts fuel b pos
    r :: p.runEach defs ts fuel r.2 rest

end Parser

end Imp
