import Mathlib.Data.List.Defs

/-!
# Refinement

* `Path step s ls t` : the labelled steps `ls` lead from `s` to `t`.
* `runPath next s ls` : the state that a path leads to, where steps can be computed.
* `Refines step step' I f` : in the states in `I`, every step of the one system is, seen through
  `f`, a step of the other one.
* `Refines.path` : and so is every sequence of steps.
-/

namespace PythonicCpp

variable {S T L : Type*}

/-- Performing the labels `ls` in order leads from one state to the other. -/
inductive Path (step : S → L → S → Prop) : S → List L → S → Prop
  | nil (s : S) : Path step s [] s
  | cons {s t u : S} {l : L} {ls : List L} :
      step s l t → Path step t ls u → Path step s (l :: ls) u

/-- The state that the labels lead to, where `next` computes the steps. -/
def runPath (next : S → L → Option S) : S → List L → Option S
  | s, [] => some s
  | s, l :: ls => (next s l).bind fun t => runPath next t ls

/-- In the states in `I`, which no step leaves, every step is a step of the other system. -/
structure Refines (step : S → L → S → Prop) (step' : T → L → T → Prop) (I : S → Prop) (f : S → T) :
    Prop where
  keeps : ∀ s l t, I s → step s l t → I t
  step : ∀ s l t, I s → step s l t → step' (f s) l (f t)

variable {step : S → L → S → Prop} {step' : T → L → T → Prop} {I : S → Prop} {f : S → T}
  {s t : S} {ls : List L}

theorem path_of_runPath {next : S → L → Option S}
    (hnext : ∀ s l t, next s l = some t → step s l t) (h : runPath next s ls = some t) :
    Path step s ls t := by
  induction ls generalizing s with
  | nil =>
    obtain rfl := Option.some.inj h
    exact .nil s
  | cons l ls ih =>
    obtain ⟨u, hu, h⟩ := Option.bind_eq_some_iff.1 h
    exact .cons (hnext s l u hu) (ih h)

/-- A path that is computed, to a state that passes a test. -/
theorem exists_path {next : S → L → Option S} {p : S → Bool}
    (hnext : ∀ s l t, next s l = some t → step s l t) (h : (runPath next s ls).any p = true) :
    ∃ t, p t = true ∧ Path step s ls t := by
  obtain ⟨t, hrun, hp⟩ := (Option.any_eq_true _ _).1 h
  exact ⟨t, hp, path_of_runPath hnext hrun⟩

/-- **Every path is a path of the other system.** -/
theorem Refines.path (hr : Refines step step' I f) (hs : I s) (h : Path step s ls t) :
    I t ∧ Path step' (f s) ls (f t) := by
  induction h with
  | nil s => exact ⟨hs, .nil _⟩
  | cons hst _ ih =>
    obtain ⟨ht, hpath⟩ := ih (hr.keeps _ _ _ hs hst)
    exact ⟨ht, .cons (hr.step _ _ _ hs hst) hpath⟩

end PythonicCpp
