import Imp.Proofs.Printing.Numerals
import Imp.Proofs.Token.Splitting
import Imp.Syntax.Normal
import Imp.Syntax.Text

/-! # The lexemes of a written tree

The written form of a tree whose names are identifiers splits into the lexemes that one expects: blanks
and parentheses stand wherever one lexeme might go on into the next. This holds for negative constants
as well, but there a minus sign is a lexeme of its own. -/

namespace Imp

/-- The lexemes of an expression. -/
def Expr.lexemes : Expr → List (String × Kind)
  | const n => if n < 0 then [("-", .reserved), (n.toInt.natAbs.repr, .numeral)] else [(n.toInt.natAbs.repr, .numeral)]
  | var x => [(x, .name)]
  | binary op l r => ("(", .reserved) :: l.lexemes ++ (op.symbol, .reserved) :: r.lexemes ++ [(")", .reserved)]

/-- The lexemes of a condition. -/
def Cond.lexemes : Cond → List (String × Kind)
  | compare op l r => l.lexemes ++ (op.symbol, .reserved) :: r.lexemes
  | and l r => ("(", .reserved) :: l.lexemes ++ ("and", .reserved) :: r.lexemes ++ [(")", .reserved)]
  | or l r => ("(", .reserved) :: l.lexemes ++ ("or", .reserved) :: r.lexemes ++ [(")", .reserved)]
  | not c => ("not", .reserved) :: c.lexemes

/-- The lexemes of a statement. -/
def Stmt.lexemes : Stmt → List (String × Kind)
  | assign x e => (x, .name) :: (":=", .reserved) :: e.lexemes
  | seq s t => s.lexemes ++ (";", .reserved) :: t.lexemes
  | when c s => ("if", .reserved) :: c.lexemes ++ ("then", .reserved) :: s.lexemes ++ [("end", .reserved)]
  | branch c s t => ("if", .reserved) :: c.lexemes ++ ("then", .reserved) :: s.lexemes ++
      ("else", .reserved) :: t.lexemes ++ [("end", .reserved)]
  | loop c s => ("while", .reserved) :: c.lexemes ++ ("do", .reserved) :: s.lexemes ++ [("end", .reserved)]

namespace Lexicon

/-! ### Texts and their lexemes -/

/-- In front of a text where every lexeme ends, the text splits into these lexemes. -/
def Writes (xs : List Char) (ks : List (String × Kind)) : Prop :=
  ∀ (rest : List Char) (us : List (String × Kind)), Separated rest → Splits rest us → Splits (xs ++ rest) (ks ++ us)

namespace Writes

variable {xs ys : List Char} {ks us : List (String × Kind)} {x : String} {k : Kind}

theorem splits (h : Writes xs ks) : Splits xs ks := by
  have hs := h [] [] (fun c hc => nomatch hc) .nil
  rwa [List.append_nil, List.append_nil] at hs

theorem lexeme (hx : k.Spells x) : Writes x.toList [(x, k)] := fun _ _ hr hs => .lexeme hx hr hs

theorem reserved (hx : x ∈ Lexicon.reserved) : Writes x.toList [(x, .reserved)] := lexeme (k := .reserved) hx

theorem separated_cons {c : Char} {rest : List Char} (hc : Text.isWordChar c = false) (he : c ≠ '=') :
    Separated (c :: rest) := by
  intro d hd
  cases hd
  exact ⟨hc, he⟩

/-- Two texts with a blank between them. -/
theorem spaced (hx : Writes xs ks) (hy : Writes ys us) : Writes (xs ++ ' ' :: ys) (ks ++ us) := fun rest vs hr hs => by
  rw [List.append_assoc, List.append_assoc]
  exact hx _ _ (separated_cons (by decide) (by decide)) (.blank (by decide) (hy _ _ hr hs))

/-- Two texts with a reserved one between them, and blanks around it. -/
theorem join (hw : x ∈ Lexicon.reserved) (hx : Writes xs ks) (hy : Writes ys us) :
    Writes (xs ++ ' ' :: x.toList ++ ' ' :: ys) (ks ++ (x, .reserved) :: us) := by
  have h := (hx.spaced (.reserved hw)).spaced hy
  rwa [List.append_assoc ks] at h

/-- A text in parentheses. -/
theorem enclosed (hx : Writes xs ks) : Writes ('(' :: xs ++ [')']) (("(", .reserved) :: ks ++ [(")", .reserved)]) :=
  fun rest vs hr hs => by
    have hclose : Splits (')' :: rest) ((")", .reserved) :: vs) := Writes.reserved (x := ")") (by decide) _ _ hr hs
    have hopen : firstMatch? ('(' :: xs ++ ')' :: rest) = some (⟨.mark "(".toList, some .reserved⟩, 1) := rfl
    simp only [List.append_assoc, List.cons_append, List.nil_append]
    exact .token hopen (hx _ _ (separated_cons (by decide) (by decide)) hclose)

/-- A minus sign in front of a text. -/
theorem minus (hx : Writes xs ks) : Writes ('-' :: xs) (("-", .reserved) :: ks) := fun _ _ hr hs => by
  have hmark : ∀ s : List Char, firstMatch? ('-' :: s) = some (⟨.mark "-".toList, some .reserved⟩, 1) := fun _ => rfl
  exact .token (hmark _) (hx _ _ hr hs)

end Writes

end Lexicon

theorem Operator.symbol_reserved (op : Operator) : op.symbol ∈ Lexicon.reserved := by cases op <;> decide

theorem Comparison.symbol_reserved (op : Comparison) : op.symbol ∈ Lexicon.reserved := by cases op <;> decide

open Lexicon

/-! ### Trees -/

theorem Expr.writes_text (e : Expr) (h : ∀ x ∈ e.names, Kind.name.Spells x) : Writes e.text.toList e.lexemes := by
  induction e with
  | const n =>
    have hdigits := Writes.lexeme (Numeral.spells_repr n.toInt.natAbs)
    by_cases hn : n < 0
    · rw [text, Numeral.toString_of_neg hn, lexemes, if_pos hn, String.toList_append]
      exact hdigits.minus
    · rw [text, Numeral.toString_of_nonneg (Int64.not_lt.mp hn), lexemes, if_neg hn]
      exact hdigits
  | var x => exact Writes.lexeme (h x (by simp [names]))
  | binary op l r ihl ihr =>
    obtain ⟨hl, hr⟩ := List.forall_mem_append.mp h
    have hall := (Writes.join op.symbol_reserved (ihl hl) (ihr hr)).enclosed
    simpa [text, lexemes] using hall

theorem Cond.writes_text (c : Cond) (h : ∀ x ∈ c.names, Kind.name.Spells x) : Writes c.text.toList c.lexemes := by
  induction c with
  | compare op l r =>
    obtain ⟨hl, hr⟩ := List.forall_mem_append.mp h
    have hall := Writes.join op.symbol_reserved (l.writes_text hl) (r.writes_text hr)
    simpa [text, lexemes] using hall
  | and l r ihl ihr =>
    obtain ⟨hl, hr⟩ := List.forall_mem_append.mp h
    have hall := (Writes.join (x := "and") (by decide) (ihl hl) (ihr hr)).enclosed
    simpa [text, lexemes] using hall
  | or l r ihl ihr =>
    obtain ⟨hl, hr⟩ := List.forall_mem_append.mp h
    have hall := (Writes.join (x := "or") (by decide) (ihl hl) (ihr hr)).enclosed
    simpa [text, lexemes] using hall
  | not c ih =>
    have hall := (Writes.reserved (x := "not") (by decide)).spaced (ih h)
    simpa [text, lexemes] using hall

theorem Stmt.writes_text (s : Stmt) (h : ∀ x ∈ s.names, Kind.name.Spells x) : Writes s.text.toList s.lexemes := by
  induction s with
  | assign x e =>
    obtain ⟨hx, he⟩ := List.forall_mem_cons.mp h
    have hall := Writes.join (x := ":=") (by decide) (Writes.lexeme hx) (e.writes_text he)
    simpa [text, lexemes] using hall
  | seq s t ihs iht =>
    obtain ⟨hs, ht⟩ := List.forall_mem_append.mp h
    have hall := Writes.join (x := ";") (by decide) (ihs hs) (iht ht)
    simpa [text, lexemes] using hall
  | «when» c s ih =>
    obtain ⟨hc, hs⟩ := List.forall_mem_append.mp h
    have hhead := (Writes.reserved (x := "if") (by decide)).spaced (c.writes_text hc)
    have hbody := Writes.join (x := "then") (by decide) hhead (ih hs)
    have hall := hbody.spaced (.reserved (x := "end") (by decide))
    simpa [text, lexemes] using hall
  | branch c s t ihs iht =>
    obtain ⟨hcs, ht⟩ := List.forall_mem_append.mp h
    obtain ⟨hc, hs⟩ := List.forall_mem_append.mp hcs
    have hhead := (Writes.reserved (x := "if") (by decide)).spaced (c.writes_text hc)
    have hbody := Writes.join (x := "then") (by decide) hhead (ihs hs)
    have helse := Writes.join (x := "else") (by decide) hbody (iht ht)
    have hall := helse.spaced (.reserved (x := "end") (by decide))
    simpa [text, lexemes] using hall
  | loop c s ih =>
    obtain ⟨hc, hs⟩ := List.forall_mem_append.mp h
    have hhead := (Writes.reserved (x := "while") (by decide)).spaced (c.writes_text hc)
    have hbody := Writes.join (x := "do") (by decide) hhead (ih hs)
    have hall := hbody.spaced (.reserved (x := "end") (by decide))
    simpa [text, lexemes] using hall

/-- The scanner takes the written form of a tree apart into its lexemes. -/
theorem Stmt.tokenize_text {s : Stmt} (h : ∀ x ∈ s.names, Kind.name.Spells x) :
    ∃ ts, tokenize s.text = .ok ts ∧ ts.toList.map Token.key = s.lexemes :=
  tokenize_iff.mpr (s.writes_text h).splits

end Imp
