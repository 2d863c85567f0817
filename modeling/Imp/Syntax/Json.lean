import Imp.Env
import Imp.Json
import Imp.Numeral
import Imp.Syntax

/-! # Trees as JSON

A tree is an object with one field: the name of its form, and what the form is made of. Parts with
names are the fields of an object, the two sides of a connective are the items of an array, and a
missing alternative is `null`. Reading takes the fields of an object in any order, ignores those it
does not know, and takes an absent alternative for a missing one. -/

namespace Imp

/-- A 64-bit integer. -/
def Json.int64? (j : Json) : Option Int64 := j.int? >>= Numeral.int64?

/-! ### Operators -/

/-- The name of an operator. -/
def Operator.name : Operator → String
  | add => "Add"
  | sub => "Sub"
  | mul => "Mul"
  | div => "Div"

def Operator.ofName? (s : String) : Option Operator := all.find? (·.name = s)

/-- The name of a comparison. -/
def Comparison.name : Comparison → String
  | lt => "Lt"
  | le => "Le"
  | gt => "Gt"
  | ge => "Ge"
  | eq => "Eq"
  | ne => "Ne"

def Comparison.ofName? (s : String) : Option Comparison := all.find? (·.name = s)

/-! ### Writing -/

/-- An expression as JSON. -/
def Expr.toJson : Expr → Json
  | const n => .object [("Int", .int n.toInt)]
  | var x => .object [("Var", .string x)]
  | binary op l r =>
    .object [("BinOp", .object [("op", .string op.name), ("left", l.toJson), ("right", r.toJson)])]

/-- A condition as JSON. -/
def Cond.toJson : Cond → Json
  | compare op l r =>
    .object [("Relop", .object [("op", .string op.name), ("left", l.toJson), ("right", r.toJson)])]
  | and l r => .object [("And", .array [l.toJson, r.toJson])]
  | or l r => .object [("Or", .array [l.toJson, r.toJson])]
  | not c => .object [("Not", c.toJson)]

/-- A statement as JSON. -/
def Stmt.toJson : Stmt → Json
  | assign x v => .object [("Assign", .object [("name", .string x), ("value", v.toJson)])]
  | seq s t => .object [("Compound", .object [("first", s.toJson), ("second", t.toJson)])]
  | .when c s =>
    .object [("If", .object [("condition", c.toJson), ("then_branch", s.toJson), ("else_branch", .null)])]
  | branch c s t =>
    .object [("If", .object [("condition", c.toJson), ("then_branch", s.toJson), ("else_branch", t.toJson)])]
  | loop c s => .object [("While", .object [("condition", c.toJson), ("body", s.toJson)])]

/-- An environment as JSON: an object with a field for each variable, in the order of the names. -/
def Env.toJson (e : Env) : Json :=
  .object (e.toList.map fun p => (p.1, .int p.2.toInt))

/-! ### Reading -/

/-- The expression that a value of JSON describes. -/
def Expr.ofJson? (j : Json) : Option Expr :=
  match h : j.variant? with
  | some ("Int", v) => v.int64?.map const
  | some ("Var", v) => v.string?.map var
  | some ("BinOp", v) =>
    match hl : v.field? "left", hr : v.field? "right" with
    | some l, some r => do
      let op ← v.field? "op" >>= Json.string? >>= Operator.ofName?
      have := Json.sizeOf_variant?_lt h
      have := Json.sizeOf_field?_lt hl
      have := Json.sizeOf_field?_lt hr
      let a ← ofJson? l
      let b ← ofJson? r
      return binary op a b
    | _, _ => none
  | _ => none
termination_by sizeOf j

/-- The condition that a value of JSON describes. -/
def Cond.ofJson? (j : Json) : Option Cond :=
  match h : j.variant? with
  | some ("Relop", v) => do
    let op ← v.field? "op" >>= Json.string? >>= Comparison.ofName?
    let l ← v.field? "left" >>= Expr.ofJson?
    let r ← v.field? "right" >>= Expr.ofJson?
    return compare op l r
  | some ("And", v) =>
    match hp : v.pair? with
    | some (l, r) => do
      have := Json.sizeOf_variant?_lt h
      have := Json.sizeOf_pair?_lt hp
      return and (← ofJson? l) (← ofJson? r)
    | none => none
  | some ("Or", v) =>
    match hp : v.pair? with
    | some (l, r) => do
      have := Json.sizeOf_variant?_lt h
      have := Json.sizeOf_pair?_lt hp
      return or (← ofJson? l) (← ofJson? r)
    | none => none
  | some ("Not", v) =>
    have := Json.sizeOf_variant?_lt h
    (ofJson? v).map not
  | _ => none
termination_by sizeOf j

/-- The statement that a value of JSON describes. -/
def Stmt.ofJson? (j : Json) : Option Stmt :=
  match h : j.variant? with
  | some ("Assign", v) => do
    let x ← v.field? "name" >>= Json.string?
    let e ← v.field? "value" >>= Expr.ofJson?
    return assign x e
  | some ("Compound", v) =>
    match hs : v.field? "first", ht : v.field? "second" with
    | some s, some t => do
      have := Json.sizeOf_variant?_lt h
      have := Json.sizeOf_field?_lt hs
      have := Json.sizeOf_field?_lt ht
      return seq (← ofJson? s) (← ofJson? t)
    | _, _ => none
  | some ("If", v) =>
    match hs : v.field? "then_branch", ht : v.field? "else_branch" with
    | none, _ => none
    | some s, none | some s, some .null => do
      have := Json.sizeOf_variant?_lt h
      have := Json.sizeOf_field?_lt hs
      let c ← v.field? "condition" >>= Cond.ofJson?
      return .when c (← ofJson? s)
    | some s, some t => do
      have := Json.sizeOf_variant?_lt h
      have := Json.sizeOf_field?_lt hs
      have := Json.sizeOf_field?_lt ht
      let c ← v.field? "condition" >>= Cond.ofJson?
      return branch c (← ofJson? s) (← ofJson? t)
  | some ("While", v) =>
    match hs : v.field? "body" with
    | some s => do
      have := Json.sizeOf_variant?_lt h
      have := Json.sizeOf_field?_lt hs
      let c ← v.field? "condition" >>= Cond.ofJson?
      return loop c (← ofJson? s)
    | none => none
  | _ => none
termination_by sizeOf j

/-- The environment that a value of JSON describes. -/
def Env.ofJson? : Json → Option Env
  | .object fields => (fields.mapM fun f : String × Json => f.2.int64?.map (f.1, ·)).map ofList
  | _ => none

end Imp
