import Imp.Parser.Run
import Imp.Parser.Precedence
import Imp.Syntax.Derivation

/-! # Answers of combined runs

When the answer of a combined run is a success or a failure, in terms of the answers of its parts. -/

namespace Imp

namespace Answer

variable {α β : Type} {a : Answer α} {f : α → Nat → Answer β} {v : β} {q : Nat}

theorem bind_eq_success : a.bind f = .success v q ↔ ∃ w mid, a = .success w mid ∧ f w mid = .success v q := by
  cases a with
  | success w mid => exact ⟨fun h => ⟨w, mid, rfl, h⟩, fun ⟨_, _, he, h⟩ => by cases he; exact h⟩
  | _ => simp [bind]

theorem bind_eq_failure : a.bind f = .failure ↔ a = .failure ∨ ∃ w mid, a = .success w mid ∧ f w mid = .failure := by
  cases a with
  | success w mid =>
    refine ⟨fun h => Or.inr ⟨w, mid, rfl, h⟩, ?_⟩
    rintro (he | ⟨_, _, he, h⟩) <;> cases he
    exact h
  | _ => simp [bind]

theorem map_eq_success {g : α → β} : a.map g = .success v q ↔ ∃ w, a = .success w q ∧ v = g w := by
  unfold map
  rw [bind_eq_success]
  refine ⟨fun ⟨w, mid, ha, h⟩ => ?_, fun ⟨w, ha, h⟩ => ⟨w, q, ha, by rw [h]⟩⟩
  cases h
  exact ⟨w, ha, rfl⟩

theorem map_eq_failure {g : α → β} : a.map g = .failure ↔ a = .failure := by
  cases a <;> simp [map, bind]

theorem filterMap_eq_success {g : α → Option β} :
    a.filterMap g = .success v q ↔ ∃ w, a = .success w q ∧ g w = some v := by
  unfold filterMap
  rw [bind_eq_success]
  refine ⟨fun ⟨w, mid, ha, h⟩ => ?_, fun ⟨w, ha, h⟩ => ⟨w, q, ha, by rw [h]; rfl⟩⟩
  cases hg : g w <;> rw [hg] at h <;> cases h
  exact ⟨w, ha, hg⟩

theorem orElse_eq_success {b : Unit → Answer β} {c : Answer β} :
    c.orElse b = .success v q ↔ c = .success v q ∨ c = .failure ∧ b () = .success v q := by
  cases c <;> simp [orElse]

theorem orElse_of_failure {b : Unit → Answer β} {c : Answer β} (h : c = .failure) : c.orElse b = b () := by
  rw [h]
  rfl

theorem optional_eq_success {pos : Nat} {v : Option α} : a.optional pos = .success v q ↔
    (∃ w, a = .success w q ∧ v = some w) ∨ a = .failure ∧ v = none ∧ q = pos := by
  unfold optional
  rw [orElse_eq_success, map_eq_success, map_eq_failure]
  refine or_congr Iff.rfl (and_congr_right fun _ => ?_)
  rw [success.injEq, eq_comm, @eq_comm _ pos]

theorem endingAt_eq_success {stop : Nat} {v : α} :
    a.endingAt stop = .success v q ↔ a = .success v q ∧ q = stop := by
  cases a with
  | success w next =>
    by_cases h : next = stop
    · simp only [endingAt, bind, h, if_true, success.injEq]
      exact ⟨fun ⟨hv, hq⟩ => ⟨⟨hv, hq⟩, hq.symm⟩, fun h => h.1⟩
    · simp only [endingAt, bind, h, if_false, success.injEq, false_iff, reduceCtorEq]
      rintro ⟨⟨-, rfl⟩, hq⟩
      exact h hq
  | _ => simp [endingAt, bind]

/-! ### Finished answers -/

theorem eq_failure_of_finished {c : Answer β} (hc : c ≠ .unfinished) (hn : ∀ v q, c ≠ .success v q) : c = .failure := by
  cases c with
  | unfinished => exact absurd rfl hc
  | failure => rfl
  | success v q => exact absurd rfl (hn v q)

theorem bind_finished (ha : a ≠ .unfinished) (hf : ∀ w mid, a = .success w mid → f w mid ≠ .unfinished) :
    a.bind f ≠ .unfinished := by
  cases a with
  | unfinished => exact absurd rfl ha
  | failure => simp [bind]
  | success w mid => exact hf w mid rfl

theorem map_finished {g : α → β} (ha : a ≠ .unfinished) : a.map g ≠ .unfinished :=
  bind_finished ha fun _ _ _ => by simp

theorem filterMap_finished {g : α → Option β} (ha : a ≠ .unfinished) : a.filterMap g ≠ .unfinished :=
  bind_finished ha fun w _ _ => by cases g w <;> exact nofun

theorem orElse_finished {b : Unit → Answer β} {c : Answer β} (hc : c ≠ .unfinished) (hb : b () ≠ .unfinished) :
    c.orElse b ≠ .unfinished := by
  cases c with
  | failure => exact hb
  | _ => exact hc

theorem optional_finished {pos : Nat} (ha : a ≠ .unfinished) : a.optional pos ≠ .unfinished :=
  orElse_finished (map_finished ha) nofun

theorem endingAt_finished {stop : Nat} (ha : a ≠ .unfinished) : a.endingAt stop ≠ .unfinished :=
  bind_finished ha fun w mid _ => by
    by_cases h : mid = stop
    · simp [h]
    · simp [h]

end Answer

/-! ### Single tokens -/

namespace Parser

variable {ts : Array Token} {accepts : Token → Bool} {pos q : Nat} {x : String}

theorem take_eq_success : take ts accepts pos = .success x q ↔
    ∃ t, ts[pos]? = some t ∧ accepts t = true ∧ x = t.text ∧ q = pos + 1 := by
  unfold take
  cases ht : ts[pos]? with
  | none => simp
  | some t =>
    by_cases ha : accepts t = true
    · simp only [ha, if_true, Answer.success.injEq]
      exact ⟨fun ⟨hx, hq⟩ => ⟨t, rfl, ha, hx.symm, hq.symm⟩, fun ⟨_, he, _, hx, hq⟩ => by
        cases he
        exact ⟨hx.symm, hq.symm⟩⟩
    · simp [ha]

theorem take_finished (ts : Array Token) (accepts : Token → Bool) (pos : Nat) : take ts accepts pos ≠ .unfinished := by
  unfold take
  cases ts[pos]? with
  | none => simp
  | some t => by_cases ha : accepts t = true <;> simp [ha]

variable {ν : Type} {ty : ν → Type} {called : (n : ν) → Nat → Answer (ty n)} {fuel : Nat}

theorem token_eq_success {text : String} : (token text .reserved : Parser ty String).runWith ts called fuel pos =
    .success x q ↔ ∃ t, ts[pos]? = some t ∧ t.Is text ∧ x = t.text ∧ q = pos + 1 := by
  simp only [runWith, take_eq_success, Token.Is, decide_eq_true_eq]

theorem ofKind_eq_success {kind : Kind} : (ofKind kind : Parser ty String).runWith ts called fuel pos = .success x q ↔
    ∃ t, ts[pos]? = some t ∧ t.kind = kind ∧ x = t.text ∧ q = pos + 1 := by
  simp only [runWith, take_eq_success, decide_eq_true_eq]

theorem token_finished {text : String} {kind : Kind} :
    (token text kind : Parser ty String).runWith ts called fuel pos ≠ .unfinished := take_finished _ _ _

theorem ofKind_finished {kind : Kind} : (ofKind kind : Parser ty String).runWith ts called fuel pos ≠ .unfinished :=
  take_finished _ _ _

theorem seq_eq_success {α β : Type} {p : Parser ty α} {r : Parser ty β} {v : α × β} :
    (seq p r).runWith ts called fuel pos = .success v q ↔
      ∃ mid, p.runWith ts called fuel pos = .success v.1 mid ∧ r.runWith ts called fuel mid = .success v.2 q := by
  simp only [runWith, Answer.bind_eq_success, Answer.map_eq_success]
  constructor
  · rintro ⟨a, mid, hp, b, hr, rfl⟩
    exact ⟨mid, hp, hr⟩
  · rintro ⟨mid, hp, hr⟩
    exact ⟨v.1, mid, hp, v.2, hr, rfl⟩

theorem seq_finished {α β : Type} {p : Parser ty α} {r : Parser ty β} (hp : p.runWith ts called fuel pos ≠ .unfinished)
    (hr : ∀ v mid, p.runWith ts called fuel pos = .success v mid → r.runWith ts called fuel mid ≠ .unfinished) :
    (seq p r).runWith ts called fuel pos ≠ .unfinished :=
  Answer.bind_finished hp fun v mid h => Answer.map_finished (hr v mid h)

theorem seq_eq_failure {α β : Type} {p : Parser ty α} {r : Parser ty β} :
    (seq p r).runWith ts called fuel pos = .failure ↔ p.runWith ts called fuel pos = .failure ∨
      ∃ v mid, p.runWith ts called fuel pos = .success v mid ∧ r.runWith ts called fuel mid = .failure := by
  simp only [runWith, Answer.bind_eq_failure, Answer.map_eq_failure]

theorem map_eq_success {α β : Type} {f : α → β} {p : Parser ty α} {v : β} :
    (map f p).runWith ts called fuel pos = .success v q ↔ ∃ w, p.runWith ts called fuel pos = .success w q ∧ v = f w :=
  Answer.map_eq_success

theorem alt_eq_success {α : Type} {p r : Parser ty α} {v : α} :
    (alt p r).runWith ts called fuel pos = .success v q ↔ p.runWith ts called fuel pos = .success v q ∨
      p.runWith ts called fuel pos = .failure ∧ r.runWith ts called fuel pos = .success v q :=
  Answer.orElse_eq_success

theorem token_eq_failure {text : String} (h : ∀ t, ts[pos]? = some t → ¬ t.Is text) :
    (token text .reserved : Parser ty String).runWith ts called fuel pos = .failure :=
  Answer.eq_failure_of_finished token_finished fun x q hr => by
    obtain ⟨t, ht, hi, -⟩ := token_eq_success.mp hr
    exact h t ht hi

theorem ofKind_eq_failure {kind : Kind} (h : ∀ t, ts[pos]? = some t → t.kind ≠ kind) :
    (ofKind kind : Parser ty String).runWith ts called fuel pos = .failure :=
  Answer.eq_failure_of_finished ofKind_finished fun x q hr => by
    obtain ⟨t, ht, hk, -⟩ := ofKind_eq_success.mp hr
    exact h t ht hk

end Parser

end Imp
