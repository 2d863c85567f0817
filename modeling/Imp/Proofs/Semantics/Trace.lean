import Imp.Semantics.Trace
import Imp.Syntax.Variables

/-! # What a run tells is what it does

Telling has no part in a run: with the events taken along, its outcome is that of the run which tells nothing, and no
more fuel is needed. The events that a run adds to the log lead from the environment before it to the one behind it:
who stores anew all that was told to be stored has stored what the run did. -/

namespace Imp

/-- Does again what an event tells of the environment. -/
def Event.replay : Event → Env → Env
  | assigned x n, e => e.insert x n
  | _, e => e

/-- Events that tell of no storing leave the environment as it is. -/
theorem Event.foldl_replay_of_ne_assigned {events : List Event} (h : ∀ event ∈ events, ∀ x n, event ≠ .assigned x n)
    (e : Env) : events.foldl (fun e event => event.replay e) e = e := by
  induction events with
  | nil => rfl
  | cons event events ih =>
    obtain ⟨hevent, hevents⟩ := List.forall_mem_cons.mp h
    have hkeep : event.replay e = e := by
      cases event with
      | assigned x n => exact absurd rfl (hevent x n)
      | _ => rfl
    rw [List.foldl_cons, hkeep, ih hevents]

/-- The events, the last of them first, tell of loops and of storing under these names, and lead from one environment
    to another. -/
structure Leads (names : List String) (e : Env) (events : List Event) (e' : Env) : Prop where
  tells : ∀ event ∈ events, (∃ n, event = .loopEnded n) ∨ ∃ x ∈ names, ∃ n, event = .assigned x n
  replay : events.foldr Event.replay e = e'

namespace Leads

variable {names : List String} {e e' e'' : Env} {events later : List Event}

theorem nil : Leads names e [] e := ⟨fun _ h => absurd h List.not_mem_nil, rfl⟩

theorem assigned {x : String} (hx : x ∈ names) (n : Int64) : Leads names e [.assigned x n] (e.insert x n) :=
  ⟨List.forall_mem_singleton.mpr (.inr ⟨x, hx, n, rfl⟩), rfl⟩

theorem loopEnded (n : Nat) : Leads names e [.loopEnded n] e := ⟨List.forall_mem_singleton.mpr (.inl ⟨n, rfl⟩), rfl⟩

theorem append (h : Leads names e events e') (h' : Leads names e' later e'') : Leads names e (later ++ events) e'' where
  tells := List.forall_mem_append.mpr ⟨h'.tells, h.tells⟩
  replay := by rw [List.foldr_append, h.replay, h'.replay]

end Leads

namespace Stmt

variable {limit : Option UInt64} {names : List String} {e : Env} {log : List Event} {o : Outcome} {n m : Nat}

/-! ### With and without a log -/

/-- A run that takes the log along goes as the other one does, and what it adds leads to where that one ends. -/
inductive Traced (names : List String) (e : Env) (log : List Event) :
    Option (Outcome × List Event) → Option Outcome → Prop where
  | unfinished : Traced names e log none none
  | ended {o : Outcome} {events : List Event} : Leads names e events o.env →
      Traced names e log (some (o, events ++ log)) (some o)

theorem Traced.silent (h : o.env = e) : Traced names e log (some (o, log)) (some o) := by
  have hnil : Leads names e [] o.env := h ▸ .nil
  exact .ended hnil

theorem Traced.tells {event : Event} (h : Leads names e [event] o.env) :
    Traced names e log (some (o, event :: log)) (some o) := .ended h

theorem Traced.behind {e' : Env} {events : List Event} {r : Option (Outcome × List Event)} {q : Option Outcome}
    (h : Leads names e events e') (h' : Traced names e' (events ++ log) r q) : Traced names e log r q := by
  cases h' with
  | unfinished => exact .unfinished
  | ended h' =>
    rw [← List.append_assoc]
    exact .ended (h.append h')

theorem Traced.andThen {r : Option (Outcome × List Event)} {q : Option Outcome}
    {next : Env → List Event → Option (Outcome × List Event)} {next' : Env → Option Outcome}
    (h : Traced names e log r q) (hnext : ∀ e log, Traced names e log (next e log) (next' e)) :
    Traced names e log (traceThen r next) (Stmt.andThen q next') := by
  cases h with
  | unfinished => exact .unfinished
  | @ended o events hleads =>
    cases o with
    | done e' => exact (hnext e' (events ++ log)).behind hleads
    | stopped f e' => exact .ended hleads

theorem traceLoop_traced {test : Env → Except Fault Bool} {body : Env → List Event → Option (Outcome × List Event)}
    {body' : Env → Option Outcome} (hbody : ∀ e log, Traced names e log (body e log) (body' e)) (fuel begun : Nat) :
    Traced names e log (traceLoop limit test body fuel begun e log) (iterate limit test body' fuel begun e) := by
  induction fuel generalizing begun e log with
  | zero => exact .unfinished
  | succ fuel ih =>
    simp only [traceLoop, iterate]
    cases test e with
    | error f => exact .silent rfl
    | ok holds =>
      cases holds with
      | false => exact .tells (.loopEnded begun)
      | true =>
        cases exhausted limit begun with
        | some n => exact .silent rfl
        | none => exact (hbody e log).andThen fun _ _ => ih (begun + 1)

/-- Telling has no part in a run. -/
theorem trace_traced {s : Stmt} (hs : ∀ x ∈ s.assigned, x ∈ names) (fuel : Nat) (e : Env) (log : List Event) :
    Traced names e log (s.trace limit fuel e log) (s.exec limit fuel e) := by
  induction s generalizing e log with
  | assign x v =>
    simp only [trace, exec]
    cases v.eval e with
    | error f => exact .silent rfl
    | ok n => exact .tells (.assigned (hs x (List.mem_singleton_self x)) n)
  | seq s t ihs iht =>
    obtain ⟨hs, ht⟩ := List.forall_mem_append.mp hs
    exact (ihs hs e log).andThen (iht ht)
  | «when» c s ih =>
    simp only [trace, exec]
    cases c.eval e with
    | error f => exact .silent rfl
    | ok holds =>
      cases holds with
      | true => exact ih hs e log
      | false => exact .silent rfl
  | branch c s t ihs iht =>
    obtain ⟨hs, ht⟩ := List.forall_mem_append.mp hs
    simp only [trace, exec]
    cases c.eval e with
    | error f => exact .silent rfl
    | ok holds =>
      cases holds with
      | true => exact ihs hs e log
      | false => exact iht ht e log
  | loop c s ih => exact traceLoop_traced (ih hs) fuel 0

theorem trace_traced_assigned (limit : Option UInt64) (fuel : Nat) (s : Stmt) (e : Env) (log : List Event) :
    Traced s.assigned e log (s.trace limit fuel e log) (s.exec limit fuel e) :=
  trace_traced (fun _ hx => hx) fuel e log

theorem trace_exec (limit : Option UInt64) (fuel : Nat) (s : Stmt) (e : Env) (log : List Event) :
    (s.trace limit fuel e log).map Prod.fst = s.exec limit fuel e := by
  have h := trace_traced_assigned limit fuel s e log
  generalize s.trace limit fuel e log = r at h
  generalize s.exec limit fuel e = q at h
  cases h <;> rfl

/-- What a run adds to the log leads to where the run ends. -/
theorem trace_leads {s : Stmt} {fuel : Nat} {log' : List Event} (h : s.trace limit fuel e log = some (o, log')) :
    ∃ events, log' = events ++ log ∧ Leads s.assigned e events o.env := by
  have htraced := trace_traced_assigned limit fuel s e log
  rw [h] at htraced
  generalize s.exec limit fuel e = q at htraced
  cases htraced with
  | ended hleads => exact ⟨_, rfl, hleads⟩

/-! ### More fuel -/

theorem traceThen_mono {r r' : Option (Outcome × List Event)}
    {next next' : Env → List Event → Option (Outcome × List Event)} {a : Outcome × List Event}
    (hr : ∀ a, r = some a → r' = some a) (hnext : ∀ e log a, next e log = some a → next' e log = some a)
    (h : traceThen r next = some a) : traceThen r' next' = some a := by
  cases r with
  | none => cases h
  | some b =>
    obtain ⟨o, log⟩ := b
    rw [hr _ rfl]
    cases o with
    | done e => exact hnext e log a h
    | stopped f e => exact h

theorem traceLoop_mono {test : Env → Except Fault Bool}
    {body body' : Env → List Event → Option (Outcome × List Event)} {begun : Nat} {a : Outcome × List Event}
    (hbody : ∀ e log a, body e log = some a → body' e log = some a) (hnm : n ≤ m)
    (h : traceLoop limit test body n begun e log = some a) : traceLoop limit test body' m begun e log = some a := by
  induction n generalizing m begun e log a with
  | zero => cases h
  | succ n ih =>
    obtain ⟨m, rfl⟩ : ∃ m', m = m' + 1 := ⟨m - 1, by omega⟩
    simp only [traceLoop] at h ⊢
    cases ht : test e with
    | error f => simpa only [ht] using h
    | ok holds =>
      cases holds with
      | false => simpa only [ht] using h
      | true =>
        simp only [ht] at h ⊢
        cases hx : exhausted limit begun with
        | some k => simpa only [hx] using h
        | none =>
          simp only [hx] at h ⊢
          exact traceThen_mono (hbody e log) (fun _ _ _ => ih (Nat.le_of_succ_le_succ hnm)) h

/-- What was told with some fuel is told with any more. -/
theorem trace_mono {s : Stmt} (hnm : n ≤ m) {a : Outcome × List Event} (h : s.trace limit n e log = some a) :
    s.trace limit m e log = some a := by
  induction s generalizing e log a with
  | assign x v => exact h
  | seq s t ihs iht => exact traceThen_mono (fun _ => ihs) (fun _ _ _ => iht) h
  | «when» c s ih =>
    simp only [trace] at h ⊢
    cases hc : c.eval e with
    | error f => simpa only [hc] using h
    | ok holds =>
      cases holds with
      | true => exact ih (by simpa only [hc] using h)
      | false => simpa only [hc] using h
  | branch c s t ihs iht =>
    simp only [trace] at h ⊢
    cases hc : c.eval e with
    | error f => simpa only [hc] using h
    | ok holds =>
      cases holds with
      | true => exact ihs (by simpa only [hc] using h)
      | false => exact iht (by simpa only [hc] using h)
  | loop c s ih => exact traceLoop_mono (fun _ _ _ => ih) hnm h

end Stmt

end Imp
