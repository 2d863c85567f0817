import Imp.CommandLine.Arguments
import Imp.Proofs.Printing.Numerals

/-! # Arguments in any order

Each argument adds one thing to what was asked for before it, and fails only if that thing is there already. So
the arguments for some options may come in any order, and ask for these options in each. -/

namespace Imp.CommandLine

theorem shape_repr (n : Nat) : shape n.repr = .file := by
  unfold shape
  split
  · next heq => exact absurd heq (Numeral.repr_ne_cons rfl n _)
  · next heq => exact absurd heq (Numeral.repr_ne_cons rfl n _)
  · next heq => exact absurd heq (Numeral.repr_ne_cons rfl n _)
  · rfl

namespace Draft

variable {d d' d'' : Draft} {a b : Argument} {l l' : List Argument}

/-! ### One argument -/

/-- What the argument asks for was not asked for before, and a file can be given by its name alone. -/
def Lacks (d : Draft) : Argument → Prop
  | .maxIterations _ => d.maxIterations = none
  | .json => d.json = false
  | .ast => d.ast = false
  | .verbose => True
  | .file name => d.file = none ∧ IsFileName name

/-- The arguments read so far, and this one. -/
def add (d : Draft) : Argument → Draft
  | .maxIterations n => { d with maxIterations := some n }
  | .json => { d with json := true }
  | .ast => { d with ast := true }
  | .verbose => d.raiseVerbosity
  | .file name => { d with file := some name }

theorem readArguments_words (h : d.Lacks a) (rest : List String) :
    d.readArguments (a.words ++ rest) = (d.add a).readArguments rest := by
  cases a with
  | maxIterations n =>
    have hshape : shape "--max-iterations" = .long "max-iterations" none := rfl
    have hset : d.setMaxIterations n.toNat.repr = .ok (d.add (.maxIterations n)) := by
      have hnone : ¬ d.maxIterations.isSome := by simp [show d.maxIterations = none from h]
      rw [setMaxIterations, Numeral.readUInt64?_repr]
      exact if_neg hnone
    rw [Argument.words, List.cons_append, readArguments.eq_def]
    simp only [hshape, List.cons_append, List.nil_append]
    rw [show toString n.toNat = n.toNat.repr from rfl, shape_repr, hset]
    rfl
  | json =>
    have hshape : shape "--json" = .long "json" none := rfl
    have hset : d.setJson = .ok (d.add .json) := if_neg (Bool.eq_false_iff.mp h)
    rw [Argument.words, List.cons_append, readArguments.eq_def]
    simp only [hshape, hset]
    rfl
  | ast =>
    have hshape : shape "--ast" = .long "ast" none := rfl
    have hset : d.setAst = .ok (d.add .ast) := if_neg (Bool.eq_false_iff.mp h)
    rw [Argument.words, List.cons_append, readArguments.eq_def]
    simp only [hshape, hset]
    rfl
  | verbose =>
    have hshape : shape "-v" = .short ['v'] := rfl
    rw [Argument.words, List.cons_append, readArguments.eq_def]
    simp only [hshape]
    rfl
  | file name =>
    obtain ⟨hnone, hname, hshape⟩ := h
    have hset : d.setFile name = .ok (d.add (.file name)) := by simp [setFile, add, hnone, hname]
    rw [Argument.words, List.cons_append, readArguments.eq_def]
    simp only [hshape, hset]
    rfl

theorem Lacks.swap (ha : d.Lacks a) (hb : (d.add a).Lacks b) :
    d.Lacks b ∧ (d.add b).Lacks a ∧ (d.add b).add a = (d.add a).add b := by
  cases a <;> cases b <;> simp_all [Lacks, add, raiseVerbosity]

/-! ### All arguments -/

/-- The arguments are taken one after another, and none of them asks for something twice. -/
inductive Takes : Draft → List Argument → Draft → Prop where
  | nil {d : Draft} : Takes d [] d
  | cons {d d' : Draft} {a : Argument} {l : List Argument} : d.Lacks a → Takes (d.add a) l d' → Takes d (a :: l) d'

theorem Takes.append (h : Takes d l d') (h' : Takes d' l' d'') : Takes d (l ++ l') d'' := by
  induction h with
  | nil => exact h'
  | cons ha _ ih => exact .cons ha (ih h')

theorem Takes.perm (hl : l.Perm l') (h : Takes d l d') : Takes d l' d' := by
  induction hl generalizing d with
  | nil => exact h
  | cons a _ ih =>
    cases h with
    | cons ha h => exact .cons ha (ih h)
  | swap a b l =>
    -- None of the two asks for what the other asks for, so either may be taken first.
    cases h with
    | cons hb h =>
      cases h with
      | cons ha h =>
        obtain ⟨ha', hb', hadd⟩ := hb.swap ha
        exact .cons ha' (.cons hb' (hadd ▸ h))
  | trans _ _ ih ih' => exact ih' (ih h)

theorem Takes.readArguments (h : Takes d l d') : d.readArguments (l.flatMap Argument.words) = d'.finish := by
  induction h with
  | nil => rw [List.flatMap_nil, readArguments.eq_def]
  | cons ha _ ih => rw [List.flatMap_cons, readArguments_words ha, ih]

theorem toNat_saturated (n : Nat) : (saturated n).toNat = min n 255 := by
  rw [saturated, UInt8.toNat_ofNat', Nat.mod_eq_of_lt (by omega)]

/-- Requests for a longer log are counted, as far as the count goes. -/
theorem takes_verbose (d : Draft) (n : Nat) :
    Takes d (List.replicate n .verbose) { d with verbosity := saturated (d.verbosity.toNat + n) } := by
  induction n generalizing d with
  | zero =>
    have hkeep : saturated (d.verbosity.toNat + 0) = d.verbosity := by
      apply UInt8.toNat_inj.mp
      rw [toNat_saturated]
      have := d.verbosity.toNat_lt
      omega
    rw [hkeep]
    exact .nil
  | succ n ih =>
    have hcount :
        saturated ((saturated (d.verbosity.toNat + 1)).toNat + n) = saturated (d.verbosity.toNat + (n + 1)) := by
      apply UInt8.toNat_inj.mp
      simp only [toNat_saturated]
      omega
    have h := ih d.raiseVerbosity
    rw [raiseVerbosity, hcount] at h
    exact .cons trivial h

end Draft

/-! ### Options -/

variable {o : Options}

theorem Options.takes_arguments (hfile : IsFileName o.file) (count : Nat) :
    Draft.Takes {} (o.arguments count) ⟨some o.file, o.maxIterations, o.json, o.ast, saturated count⟩ := by
  obtain ⟨file, maxIterations, json, ast, verbosity⟩ := o
  have hlimit : Draft.Takes {} (maxIterations.map Argument.maxIterations).toList
      ⟨none, maxIterations, false, false, 0⟩ := by
    cases maxIterations with
    | none => exact .nil
    | some n => exact .cons rfl .nil
  have hjson : Draft.Takes ⟨none, maxIterations, false, false, 0⟩ (if json then [.json] else [])
      ⟨none, maxIterations, json, false, 0⟩ := by
    cases json with
    | false => exact .nil
    | true => exact .cons rfl .nil
  have hast : Draft.Takes ⟨none, maxIterations, json, false, 0⟩ (if ast then [.ast] else [])
      ⟨none, maxIterations, json, ast, 0⟩ := by
    cases ast with
    | false => exact .nil
    | true => exact .cons rfl .nil
  have hverbose := Draft.takes_verbose ⟨none, maxIterations, json, ast, 0⟩ count
  rw [show (0 : UInt8).toNat + count = count from Nat.zero_add count] at hverbose
  exact (((hlimit.append hjson).append hast).append hverbose).append (.cons ⟨rfl, hfile⟩ .nil)

/-- Arguments ask for the same options in every order. -/
theorem parse_of_perm (hfile : IsFileName o.file) {count : Nat} {l : List Argument}
    (hl : l.Perm (o.arguments count)) :
    parse (l.flatMap Argument.words) = .ok (.run { o with verbosity := saturated count }) := by
  have htaken := (Options.takes_arguments hfile count).perm hl.symm
  exact htaken.readArguments

end Imp.CommandLine
