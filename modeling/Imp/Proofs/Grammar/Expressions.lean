import Imp.Proofs.Parser.Chain
import Imp.Syntax.Grammar

/-! # Expressions are read

The products and the sums of the grammar are chains over the layer below, and a term is taken as it
stands. So an expression is read, and only an arithmetic operator may go on with it. -/

namespace Imp

theorem Operator.symbol_injective : Function.Injective Operator.symbol := by
  intro a b h
  cases a <;> cases b <;> first | rfl | exact absurd h (by decide)

/-- The token is an arithmetic operator. -/
def Token.IsOperator (t : Token) : Prop := ∃ op : Operator, t.Is op.symbol

namespace Production

/-- What the tokens of a production derive. -/
def Derives : (n : Production) → List Token → n.Value → Prop
  | expr => Expr.Derives .sum
  | cond => Cond.Derives .disjunction
  | condTerm => Cond.Derives .term
  | block => Stmt.Derives .block

/-- The tokens that may go on with a production. -/
def GoesOn : Production → Token → Prop
  | expr, t => t.IsOperator
  | cond, t => t.IsOperator ∨ ∃ c : Connective, t.Is c.symbol
  | condTerm, t => t.IsOperator
  | block, t => t.IsOperator ∨ t.Is ";"

/-- What closes a part of a text does not go on with any production. -/
theorem not_goesOn {t : Token} {text : String} (h : t.Is text) (ht : text ∈ [")", "then", "do", "else", "end"])
    (n : Production) : ¬ n.GoesOn t := by
  have hop : ¬ t.IsOperator := by
    rintro ⟨op, hop⟩
    obtain rfl := h.1.symm.trans hop.1
    revert ht
    cases op <;> decide
  have hconn : ∀ c : Connective, ¬ t.Is c.symbol := by
    intro c hc
    obtain rfl := h.1.symm.trans hc.1
    revert ht
    cases c <;> decide
  cases n with
  | expr => exact hop
  | cond => exact fun hg => hg.elim hop fun ⟨c, hc⟩ => hconn c hc
  | condTerm => exact hop
  | block =>
    rintro (hg | hg)
    · exact hop hg
    · obtain rfl := h.1.symm.trans hg.1
      exact absurd ht (by decide)

theorem not_goesOn_at {ts : Array Token} {q : Nat} {t : Token} {text : String} (hq : ts[q]? = some t) (h : t.Is text)
    (ht : text ∈ [")", "then", "do", "else", "end"]) (n : Production) (t' : Token) (hq' : ts[q]? = some t') :
    ¬ n.GoesOn t' := by
  rw [hq] at hq'
  cases hq'
  exact not_goesOn h ht n

end Production

namespace Expr

/-! ### Layers as chains -/

theorem derives_product_iff {seg : List Token} {e : Expr} : Derives .product seg e ↔
    Chained (Derives .term) (JoinsWith Operator.symbol binary [.mul, .div]) seg e := by
  constructor
  · intro h
    generalize hl : Layer.product = l at h
    induction h with
    | term h => exact .single h
    | product hop _ ht hb iha _ =>
      exact .more (iha hl) ⟨_, by rcases hop with rfl | rfl <;> simp, ht, rfl⟩ hb
    | _ => cases hl
  · intro h
    induction h with
    | single h => exact .term h
    | more _ hS hd ih =>
      obtain ⟨op, hop, ht, rfl⟩ := hS
      exact .product (by simpa using hop) ih ht hd

theorem derives_sum_iff {seg : List Token} {e : Expr} : Derives .sum seg e ↔
    Chained (Derives .product) (JoinsWith Operator.symbol binary [.add, .sub]) seg e := by
  constructor
  · intro h
    generalize hl : Layer.sum = l at h
    induction h with
    | single h => exact .single h
    | sum hop _ ht hb iha _ =>
      exact .more (iha hl) ⟨_, by rcases hop with rfl | rfl <;> simp, ht, rfl⟩ hb
    | _ => cases hl
  · intro h
    induction h with
    | single h => exact .single h
    | more _ hS hd ih =>
      obtain ⟨op, hop, ht, rfl⟩ := hS
      exact .sum (by simpa using hop) ih ht hd

/-- What an expression begins with: a numeral, a name or an open parenthesis, which is the beginning
    of an expression in parentheses. -/
theorem Derives.head {l : Layer} {seg : List Token} {e : Expr} (h : Derives l seg e) :
    ∃ t r, seg = t :: r ∧ (t.kind = .numeral ∨ t.kind = .name ∨
      t.Is "(" ∧ ∃ ts e' r' us, Derives .sum ts e' ∧ Token.Is r' ")" ∧ r = ts ++ r' :: us) := by
  induction h with
  | const hk => exact ⟨_, _, rfl, Or.inl hk⟩
  | var hk => exact ⟨_, _, rfl, Or.inr (Or.inl hk)⟩
  | @group l r ts e hl hd hr =>
    exact ⟨l, ts ++ [r], rfl, Or.inr (Or.inr ⟨hl, ts, e, r, [], hd, hr, rfl⟩)⟩
  | term _ ih => exact ih
  | single _ ih => exact ih
  | @product ts us t _ _ _ _ _ _ _ ih | @sum ts us t _ _ _ _ _ _ _ ih =>
    obtain ⟨t', r, rfl, hk | hk | ⟨hl, vs, e', r', ws, hd, hr, rfl⟩⟩ := ih
    · exact ⟨t', _, rfl, Or.inl hk⟩
    · exact ⟨t', _, rfl, Or.inr (Or.inl hk)⟩
    · exact ⟨t', _, rfl, Or.inr (Or.inr ⟨hl, vs, e', r', ws ++ t :: us, hd, hr, by simp⟩)⟩

theorem Derives.head_not_reserved {l : Layer} {t : Token} {seg : List Token} {e : Expr} (h : Derives l (t :: seg) e)
    {text : String} (ht : t.Is text) : text = "(" := by
  obtain ⟨t', r, heq, hk⟩ := h.head
  cases heq
  rcases hk with hk | hk | ⟨hl, -⟩
  · rw [ht.2] at hk
    cases hk
  · rw [ht.2] at hk
    cases hk
  · exact ht.1.symm.trans hl.1

end Expr

/-! ### Runs -/

namespace Grammar

variable {ts : Array Token} {called : (n : Production) → Nat → Answer n.Value} {fuel pos : Nat}

theorem keyword_eq_success {text x : String} {q : Nat} : (keyword text).runWith ts called fuel pos = .success x q ↔
    ∃ t, ts[pos]? = some t ∧ t.Is text ∧ x = t.text ∧ q = pos + 1 :=
  Parser.token_eq_success

theorem group_eq_success {α : Type} {p : Rule α} {v : α} {q : Nat} :
    (group p).runWith ts called fuel pos = .success v q ↔ ∃ l mid r, ts[pos]? = some l ∧ l.Is "(" ∧
      p.runWith ts called fuel (pos + 1) = .success v mid ∧ ts[mid]? = some r ∧ r.Is ")" ∧ q = mid + 1 := by
  simp only [group, Parser.map_eq_success, Parser.seq_eq_success, keyword_eq_success]
  constructor
  · rintro ⟨⟨⟨_, w⟩, _⟩, ⟨mid, ⟨_, ⟨l, hl, hli, -, rfl⟩, hp⟩, r, hr, hri, -, hq⟩, rfl⟩
    exact ⟨l, mid, r, hl, hli, hp, hr, hri, hq⟩
  · rintro ⟨l, mid, r, hl, hli, hp, hr, hri, hq⟩
    exact ⟨((l.text, v), r.text), ⟨mid, ⟨pos + 1, ⟨l, hl, hli, rfl, rfl⟩, hp⟩, r, hr, hri, rfl, hq⟩, rfl⟩

theorem group_finished {α : Type} {p : Rule α}
    (hp : ∀ l, ts[pos]? = some l → p.runWith ts called fuel (pos + 1) ≠ .unfinished) :
    (group p).runWith ts called fuel pos ≠ .unfinished := by
  refine Answer.map_finished (Parser.seq_finished (Parser.seq_finished Parser.token_finished ?_) fun _ _ _ =>
    Parser.token_finished)
  intro x mid h
  obtain ⟨l, hl, -, -, rfl⟩ := keyword_eq_success.mp h
  exact hp l hl

theorem numeral_eq_success {n : Int64} {q : Nat} : numeral.runWith ts called fuel pos = .success n q ↔
    ∃ t, ts[pos]? = some t ∧ t.kind = .numeral ∧ Numeral.readInt64? t.text = some n ∧ q = pos + 1 := by
  show Answer.filterMap _ _ = _ ↔ _
  rw [Answer.filterMap_eq_success]
  constructor
  · rintro ⟨x, hx, hn⟩
    obtain ⟨t, ht, hk, rfl, hq⟩ := Parser.ofKind_eq_success.mp hx
    exact ⟨t, ht, hk, hn, hq⟩
  · rintro ⟨t, ht, hk, hn, hq⟩
    exact ⟨t.text, Parser.ofKind_eq_success.mpr ⟨t, ht, hk, rfl, hq⟩, hn⟩

theorem numeral_finished : numeral.runWith ts called fuel pos ≠ .unfinished :=
  Answer.filterMap_finished Parser.ofKind_finished

theorem numeral_eq_failure (h : ∀ t, ts[pos]? = some t → t.kind ≠ .numeral) :
    numeral.runWith ts called fuel pos = .failure :=
  Answer.eq_failure_of_finished numeral_finished fun n q hr => by
    obtain ⟨t, ht, hk, -⟩ := numeral_eq_success.mp hr
    exact h t ht hk

/-- The runs of the productions read, from the next position on. -/
def CallsRead (ts : Array Token) (called : (n : Production) → Nat → Answer n.Value) (pos : Nat) : Prop :=
  ∀ n p, pos < p → p ≤ ts.size → Reads ts n.Derives n.GoesOn (called n) p

theorem CallsRead.mono (h : CallsRead ts called pos) {p : Nat} (hp : pos ≤ p) : CallsRead ts called p :=
  fun n q hq => h n q (Nat.lt_of_le_of_lt hp hq)

theorem CallsRead.next (h : CallsRead ts called pos) (n : Production) {t : Token} (ht : ts[pos]? = some t) :
    Reads ts n.Derives n.GoesOn (called n) (pos + 1) :=
  h n (pos + 1) (Nat.lt_succ_self pos) (Array.getElem?_eq_some_iff.mp ht).1

theorem exprTerm_sound (hc : CallsRead ts called pos) {e : Expr} {q : Nat}
    (h : exprTerm.runWith ts called fuel pos = .success e q) :
    ∃ seg, Stands ts pos seg ∧ q = pos + seg.length ∧ Expr.Derives .term seg e := by
  simp only [exprTerm, Parser.alt_eq_success, Parser.map_eq_success, numeral_eq_success, Parser.ofKind_eq_success,
    group_eq_success] at h
  rcases h with (⟨n, ⟨t, ht, hk, hn, rfl⟩, rfl⟩ | ⟨-, x, ⟨t, ht, hk, rfl, rfl⟩, rfl⟩) |
    ⟨-, l, mid, r, hl, hli, hp, hr, hri, rfl⟩
  · exact ⟨[t], Stands.singleton_iff.mpr ht, rfl, .const hk hn⟩
  · exact ⟨[t], Stands.singleton_iff.mpr ht, rfl, .var hk⟩
  · obtain ⟨seg, hst, rfl, hd⟩ := (hc.next .expr hl).sound hp
    exact ⟨l :: seg ++ [r], Stands.enclosed_iff.mpr ⟨hl, hst, hr⟩, (length_enclosed pos).symm, .group hli hd hri⟩

theorem exprTerm_exact (hc : CallsRead ts called pos) {seg : List Token} {e : Expr} (hd : Expr.Derives .term seg e)
    (hst : Stands ts pos seg) : exprTerm.runWith ts called fuel pos = .success e (pos + seg.length) := by
  simp only [exprTerm, Parser.alt_eq_success, Parser.map_eq_success, group_eq_success]
  cases hd with
  | @const t n hk hn =>
    have ht := Stands.singleton_iff.mp hst
    exact Or.inl (Or.inl ⟨n, numeral_eq_success.mpr ⟨t, ht, hk, hn, rfl⟩, rfl⟩)
  | @var t hk =>
    have ht := Stands.singleton_iff.mp hst
    refine Or.inl (Or.inr ⟨Answer.map_eq_failure.mpr (numeral_eq_failure fun t' ht' => ?_), t.text,
      Parser.ofKind_eq_success.mpr ⟨t, ht, hk, rfl, rfl⟩, rfl⟩)
    rw [ht] at ht'
    cases ht'
    simp [hk]
  | @group l r ts' e hl hd hr =>
    obtain ⟨htl, hst, htr⟩ := Stands.enclosed_iff.mp hst
    have hkind : ∀ t, ts[pos]? = some t → t.kind = .reserved := fun t ht => by
      rw [htl] at ht
      cases ht
      exact hl.2
    refine Or.inr ⟨?_, l, pos + 1 + ts'.length, r, htl, hl, ?_, htr, hr, length_enclosed pos⟩
    · refine (Answer.orElse_of_failure (Answer.map_eq_failure.mpr (numeral_eq_failure fun t ht => ?_))).trans
        (Answer.map_eq_failure.mpr (Parser.ofKind_eq_failure fun t ht => ?_)) <;> simp [hkind t ht]
    · exact (hc.next .expr htl).exact hd hst (Production.not_goesOn_at htr hr (by decide) .expr)

theorem exprTerm_reads (hc : CallsRead ts called pos) :
    Reads ts (Expr.Derives .term) (fun _ => False) (exprTerm.runWith ts called fuel) pos := by
  refine .of_exact ?_ (exprTerm_sound hc) (exprTerm_exact hc)
  refine Answer.orElse_finished (Answer.orElse_finished (Answer.map_finished numeral_finished)
    (Answer.map_finished Parser.ofKind_finished)) (group_finished fun l hl => ?_)
  exact (hc.next .expr hl).finished

/-- The chain of one level of operators over operands that are read. -/
theorem level_reads {α ω : Type} {D : List Token → α → Prop} {E : Token → Prop} {p : Rule α} {symbol : ω → String}
    (hinj : Function.Injective symbol) (join : ω → α → α → α) (ops : List ω) (hf : ts.size < pos + fuel)
    (hp : ∀ q, pos ≤ q → Reads ts D E (p.runWith ts called fuel) q) (hD : ∀ {seg v}, D seg v → seg ≠ [])
    (hE : ∀ {t op}, op ∈ ops → t.Is (symbol op) → ¬ E t) :
    Reads ts (Chained D (JoinsWith symbol join ops)) (fun t => E t ∨ ∃ op ∈ ops, t.Is (symbol op))
      ((Parser.chainLeft p (.map join (Parser.anyOperator symbol ops))).runWith ts called fuel) pos := by
  refine (Reads.chain hp (separates_operators (.of_injective hinj) join) hD ?_ hf).mono fun t ht => ?_
  · rintro t _ ⟨op, hop, ht, -⟩
    exact hE hop ht
  · rcases ht with ht | ⟨_, op, hop, ht, -⟩
    · exact Or.inl ht
    · exact Or.inr ⟨op, hop, ht⟩

theorem Operator.not_is_of_ne {t : Token} {a b : Operator} (h : a ≠ b) (ha : t.Is a.symbol) : ¬ t.Is b.symbol :=
  fun hb => h (Operator.symbol_injective (ha.1.symm.trans hb.1))

theorem expr_reads (hc : CallsRead ts called pos) (hf : ts.size < pos + fuel) :
    Reads ts (Expr.Derives .sum) Token.IsOperator (expr.runWith ts called fuel) pos := by
  have hproduct : ∀ q, pos ≤ q → Reads ts (Expr.Derives .product) (fun t => ∃ op ∈ [Operator.mul, .div], t.Is op.symbol)
      ((Parser.chainLeft exprTerm (.map Expr.binary (Parser.anyOperator Operator.symbol [.mul, .div]))).runWith
        ts called fuel) q := fun q hq => by
    have hf' : ts.size < q + fuel := Nat.lt_of_lt_of_le hf (Nat.add_le_add_right hq fuel)
    have h := level_reads Operator.symbol_injective Expr.binary [.mul, .div] hf'
      (fun r hr => exprTerm_reads (hc.mono (Nat.le_trans hq hr))) Expr.Derives.ne_nil (fun _ _ => id)
    exact (h.congr Expr.derives_product_iff).mono fun t ht => ht.resolve_left id
  have h := level_reads Operator.symbol_injective Expr.binary [.add, .sub] hf hproduct Expr.Derives.ne_nil ?_
  · refine (h.congr Expr.derives_sum_iff).mono fun t ht => ?_
    rcases ht with ⟨op, -, ht⟩ | ⟨op, -, ht⟩ <;> exact ⟨op, ht⟩
  · rintro t op hop ht ⟨op', hop', ht'⟩
    refine Operator.not_is_of_ne ?_ ht ht'
    rintro rfl
    simp only [List.mem_cons, List.not_mem_nil, or_false] at hop hop'
    rcases hop with rfl | rfl <;> simp at hop'

theorem expr_reads_from (hc : CallsRead ts called pos) (hf : ts.size < pos + fuel) (q : Nat) (hq : pos ≤ q) :
    Reads ts (Expr.Derives .sum) Token.IsOperator (expr.runWith ts called fuel) q :=
  expr_reads (hc.mono hq) (Nat.lt_of_lt_of_le hf (Nat.add_le_add_right hq fuel))

end Grammar

end Imp
