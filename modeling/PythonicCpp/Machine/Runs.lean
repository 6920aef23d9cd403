import PythonicCpp.Machine.Basic

/-!
# Runs of a deterministic machine

A machine is a function `step` from a state to the next state, together with the reads made on the
way.  It has halted in a state without a next one.

* `Runs step s rs t` : the machine goes from `s` to `t`, and makes the reads `rs`.
* `Runs.rest` : a run up to a halted state goes through the next state.
* `Computes step s x k` : from `s` the machine makes the reads of the traced computation `x`, and
  goes to the state that `k` tells for its value.
-/

namespace PythonicCpp

universe u

variable {ρ : Type*} {σ α β γ : Type u}

/-- The machine goes from one state to another, making a list of reads. -/
inductive Runs (step : σ → Option (Traced ρ σ)) : σ → List ρ → σ → Prop
  | refl (s : σ) : Runs step s [] s
  | head {s t : σ} {x : Traced ρ σ} {rs : List ρ} :
      step s = some x → Runs step x.val rs t → Runs step s (x.reads ++ rs) t

/-- From `s` the machine carries out `x`, and goes to the state of its value. -/
def Computes (step : σ → Option (Traced ρ σ)) (s : σ) (x : Traced ρ α) (k : α → σ) : Prop :=
  Runs step s x.reads (k x.val)

variable {step : σ → Option (Traced ρ σ)} {s t u : σ} {rs qs : List ρ} {x : Traced ρ α}
  {k : α → σ}

/-! ### Runs -/

theorem Runs.trans (h : Runs step s rs t) (h' : Runs step t qs u) :
    Runs step s (rs ++ qs) u := by
  induction h with
  | refl _ => exact h'
  | head hs _ ih =>
    rw [List.append_assoc]
    exact .head hs (ih h')

/-- A halted state is the only one that a run from it ends in. -/
theorem Runs.eq_of_halted (h : Runs step s rs t) (hs : step s = none) : t = s := by
  cases h with
  | refl _ => rfl
  | head hs' _ => exact absurd (hs.symm.trans hs') nofun

/-- **A run up to a halted state goes through the next state.** -/
theorem Runs.rest {y : Traced ρ σ} (h : Runs step s rs t) (ht : step t = none)
    (hs : step s = some y) : ∃ qs, Runs step y.val qs t := by
  cases h with
  | refl _ => exact absurd (ht.symm.trans hs) nofun
  | @head _ _ x qs hs' h' =>
    obtain rfl : x = y := Option.some.inj (hs'.symm.trans hs)
    exact ⟨qs, h'⟩

/-- What every step preserves holds at the end of a run. -/
theorem Runs.invariant {I : σ → Prop} (h : Runs step s rs t) (h₀ : I s)
    (hstep : ∀ s x, I s → step s = some x → I x.val) : I t := by
  induction h with
  | refl _ => exact h₀
  | head hs _ ih => exact ih (hstep _ _ h₀ hs)

/-! ### Computations -/

theorem Computes.pure {a : α} (h : s = k a) : Computes step s (pure a) k := h ▸ .refl s

theorem Computes.bind {f : α → Traced ρ β} {l : β → σ} (h : Computes step s x k)
    (h' : Computes step (k x.val) (f x.val) l) : Computes step s (x >>= f) l := h.trans h'

/-- A step without a read. -/
theorem Computes.silent (hs : step s = some (Pure.pure t)) (h : Computes step t x k) :
    Computes step s x k := Runs.head hs h

/-- A step that carries out the first part of a computation. -/
theorem Computes.head {f : α → Traced ρ β} {g : α → σ} {l : β → σ}
    (hs : step s = some (do Pure.pure (g (← x)))) (h : Computes step (g x.val) (f x.val) l) :
    Computes step s (x >>= f) l := by
  have hrun := Runs.head hs h
  change Runs step s ((x.reads ++ []) ++ (f x.val).reads) _ at hrun
  rwa [List.append_nil] at hrun

/-- A step that carries out the first two parts. -/
theorem Computes.head₂ {y : α → Traced ρ β} {f : α → β → Traced ρ γ} {g : α → β → σ} {l : γ → σ}
    (hs : step s = some (do
      let a ← x
      let b ← y a
      Pure.pure (g a b)))
    (h : Computes step (g x.val (y x.val).val) (f x.val (y x.val).val) l) :
    Computes step s (x >>= fun a => y a >>= f a) l := by
  have hrun := Runs.head hs h
  change Runs step s ((x.reads ++ ((y x.val).reads ++ [])) ++ (f x.val (y x.val).val).reads) _
    at hrun
  rwa [List.append_nil, List.append_assoc] at hrun

end PythonicCpp
