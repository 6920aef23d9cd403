import Mathlib.Tactic.SplitIfs

/-!
# Actions that may stop

An action computes a value and a new state, or stops.  The state it has reached when it stops is
kept, since the caller of an action that throws goes on in that state.

* `Action σ α` : an action on states `σ` with a value of type `α`.
* `Ends x s Q E` : from `s` the action `x` has a value and a state in `Q`, or throws in a state in
  `E`; its behaviour is defined.
* `ends_bind`, `Ends.mono`, `Ends.outcome` : the rules.
* `x.outcome s done` : the state in which `x` returns, or in which it throws.
* `x.returns s` : from `s` the action `x` has a value.
* `Returning x s Q` : if `x` has a value, then it and the state are in `Q`.
* `Action.zoom` : an action on a part of the state.
-/

namespace PythonicCpp

/-- Why an action stops. -/
inductive Stop where
  /-- An allocation has failed, and the exception is thrown to the caller. -/
  | badAlloc
  /-- An assertion does not hold, or the behaviour is undefined. -/
  | undefined
  deriving DecidableEq, Repr

/-- An action on states `σ`. -/
abbrev Action (σ : Type) := EStateM Stop σ

variable {σ τ α β : Type}

/-- Stop unless `p` holds. -/
def check (p : Prop) [Decidable p] : Action σ Unit := if p then pure () else throw .undefined

/-- The value there is; without one the behaviour is undefined. -/
def demand : Option α → Action σ α
  | some a => pure a
  | none => throw .undefined

/-- An action on a part of the state. -/
def Action.zoom (get : τ → σ) (put : σ → τ → τ) (x : Action σ α) : Action τ α := fun t =>
  match x (get t) with
  | .ok a s => .ok a (put s t)
  | .error e s => .error e (put s t)

/-- An action with something to do when it throws, before the exception goes on. -/
def Action.unwind (x : Action σ α) (cleanup : Action σ Unit) : Action σ α := fun s =>
  match x s with
  | .error .badAlloc t => (do cleanup; throw .badAlloc : Action σ α) t
  | r => r

/-- From `s` the action has a value and a state in `Q`, or throws in a state in `E`. -/
def Ends (x : Action σ α) (s : σ) (Q : α → σ → Prop) (E : σ → Prop) : Prop :=
  match x s with
  | .ok a t => Q a t
  | .error .badAlloc t => E t
  | .error .undefined _ => False

variable {x : Action σ α} {f : α → Action σ β} {s t : σ} {a : α} {Q Q' : α → σ → Prop}
  {R : β → σ → Prop} {E E' : σ → Prop}

/-! ### Rules -/

theorem ends_pure : Ends (pure a) s Q E ↔ Q a s := Iff.rfl

theorem ends_bind :
    Ends (x >>= f) s R E ↔ Ends x s (fun a t => Ends (f a) t R E) E := by
  change Ends (EStateM.bind x f) s R E ↔ _
  unfold Ends EStateM.bind
  rcases x s with ⟨a, t⟩ | ⟨_ | _, t⟩ <;> rfl

theorem ends_get {S : σ → σ → Prop} : Ends get s S E ↔ S s s := Iff.rfl

theorem ends_set {S : Unit → σ → Prop} : Ends (set t) s S E ↔ S () t := Iff.rfl

theorem ends_check {p : Prop} [Decidable p] {S : Unit → σ → Prop} :
    Ends (check p) s S E ↔ p ∧ S () s := by
  unfold check
  split_ifs with hp
  · exact (and_iff_right hp).symm
  · exact iff_of_false id fun h => hp h.1

theorem ends_demand {o : Option α} : Ends (demand o) s Q E ↔ ∃ a, o = some a ∧ Q a s := by
  cases o with
  | none =>
    refine iff_of_false id ?_
    rintro ⟨_, h, _⟩
    cases h
  | some a =>
    refine ⟨fun h => ⟨a, rfl, h⟩, ?_⟩
    rintro ⟨_, h, hQ⟩
    cases h
    exact hQ

theorem ends_zoom {get : τ → σ} {put : σ → τ → τ} {t : τ} {S : α → τ → Prop} {F : τ → Prop} :
    Ends (x.zoom get put) t S F ↔
      Ends x (get t) (fun a s => S a (put s t)) fun s => F (put s t) := by
  unfold Ends Action.zoom
  rcases x (get t) with ⟨a, s⟩ | ⟨_ | _, s⟩ <;> rfl

theorem ends_unwind {y : Action σ Unit} :
    Ends (x.unwind y) s Q E ↔ Ends x s Q fun t => Ends y t (fun _ => E) E := by
  have hthrow : ∀ t, Ends (do y; throw .badAlloc : Action σ α) t Q E ↔ Ends y t (fun _ => E) E :=
    fun _ => ends_bind
  unfold Ends Action.unwind at *
  rcases x s with ⟨a, t⟩ | ⟨_ | _, t⟩
  · rfl
  · exact hthrow t
  · rfl

theorem Ends.mono (h : Ends x s Q E) (hQ : ∀ a t, Q a t → Q' a t) (hE : ∀ t, E t → E' t) :
    Ends x s Q' E' := by
  unfold Ends at *
  revert h
  rcases x s with ⟨a, t⟩ | ⟨_ | _, t⟩
  · exact hQ a t
  · exact hE t
  · exact id

theorem Ends.imp (h : Ends x s Q E) (hQ : ∀ a t, Q a t → Q' a t) : Ends x s Q' E :=
  h.mono hQ fun _ => id

/-- What an action that ends does. -/
theorem Ends.exists (h : Ends x s Q E) :
    (∃ a t, x s = .ok a t ∧ Q a t) ∨ ∃ t, x s = .error .badAlloc t ∧ E t := by
  unfold Ends at h
  revert h
  rcases x s with ⟨a, t⟩ | ⟨_ | _, t⟩
  · exact fun h => .inl ⟨a, t, rfl, h⟩
  · exact fun h => .inr ⟨t, rfl, h⟩
  · exact False.elim

/-- What is known of the state in which an action has been seen to stop. -/
theorem Ends.outcome {x : Action σ Unit} {Q : σ → Prop} (h : Ends x s (fun _ => Q) E) {done : Bool}
    (hx : x s = if done then .ok () t else .error .badAlloc t) : if done then Q t else E t := by
  unfold Ends at h
  rw [hx] at h
  cases done with
  | true => exact h
  | false => exact h

/-- An action that ends has been defined. -/
theorem Ends.defined {x : Action σ Unit} {Q : Unit → σ → Prop} (h : Ends x s Q E) :
    ∃ t, x s = .ok () t ∨ x s = .error .badAlloc t := by
  rcases h.exists with ⟨_, t, ht, -⟩ | ⟨t, ht, -⟩
  · exact ⟨t, .inl ht⟩
  · exact ⟨t, .inr ht⟩

/-- One action after another. -/
theorem Ends.bind (h : Ends x s Q E) (hf : ∀ a t, Q a t → Ends (f a) t R E) :
    Ends (x >>= f) s R E := ends_bind.2 (h.imp hf)

/-! ### Values -/

/-- The state in which the action returns, if it does and `done` tells so, or throws otherwise. -/
def Action.outcome (x : Action σ Unit) (s : σ) (done : Bool) : Option σ :=
  match x s, done with
  | .ok _ t, true => some t
  | .error .badAlloc t, false => some t
  | _, _ => none

theorem outcome_eq_some {x : Action σ Unit} {done : Bool} (h : x.outcome s done = some t) :
    x s = if done then .ok () t else .error .badAlloc t := by
  unfold Action.outcome at h
  rcases hx : x s with ⟨⟨⟩, u⟩ | ⟨_ | _, u⟩ <;> cases done <;> rw [hx] at h <;> cases h <;> rfl

/-- From `s` the action returns. -/
def Action.returns (x : Action σ α) (s : σ) : Bool :=
  match x s with
  | .ok _ _ => true
  | .error _ _ => false

theorem exists_of_returns (h : x.returns s = true) : ∃ a t, x s = .ok a t := by
  unfold Action.returns at h
  rcases hx : x s with ⟨a, t⟩ | ⟨e, t⟩
  · exact ⟨a, t, rfl⟩
  · rw [hx] at h
    cases h

/-- From `s` the action does not return, unless with a value and a state in `Q`. -/
def Returning (x : Action σ α) (s : σ) (Q : α → σ → Prop) : Prop :=
  ∀ a t, x s = .ok a t → Q a t

theorem returning_bind (h : Returning x s fun a t => Returning (f a) t R) :
    Returning (x >>= f) s R := by
  intro b u hb
  change EStateM.bind x f s = .ok b u at hb
  unfold EStateM.bind at hb
  rcases hx : x s with ⟨a, t⟩ | ⟨e, t⟩
  · rw [hx] at hb
    exact h a t hx b u hb
  · rw [hx] at hb
    cases hb

/-- Whatever the value is. -/
theorem returning_of_forall (h : ∀ a t, Returning (f a) t R) : Returning (x >>= f) s R :=
  returning_bind fun a t _ => h a t

theorem returning_check {p : Prop} [Decidable p] {S : Unit → σ → Prop} (h : p → S () s) :
    Returning (check p) s S := by
  unfold check
  split_ifs with hp
  · rintro _ t ⟨⟩
    exact h hp
  · intro _ t ht
    cases ht

theorem returning_pure (h : Q a s) : Returning (pure a : Action σ α) s Q := by
  rintro _ t ⟨⟩
  exact h

theorem returning_get {S : σ → σ → Prop} (h : S s s) : Returning get s S := by
  rintro _ t ⟨⟩
  exact h

theorem returning_set {S : Unit → σ → Prop} (h : S () t) : Returning (set t) s S := by
  rintro _ u ⟨⟩
  exact h

theorem returning_demand {o : Option α} (h : ∀ a, Q a s) : Returning (demand o) s Q := by
  cases o with
  | none =>
    intro _ t ht
    cases ht
  | some a => exact returning_pure (h a)

theorem returning_throw (e : Stop) : Returning (throw e : Action σ α) s Q := by
  rintro _ t ⟨⟩

/-- What is done when an exception leaves an action does not return. -/
theorem returning_unwind {y : Action σ Unit} (h : Returning x s Q) :
    Returning (x.unwind y) s Q := by
  intro a t ha
  unfold Action.unwind at ha
  rcases hx : x s with ⟨b, u⟩ | ⟨_ | _, u⟩
  · rw [hx] at ha
    cases ha
    exact h _ _ hx
  · rw [hx] at ha
    exact (returning_of_forall (R := fun _ _ => False) fun _ _ => returning_throw _) a t ha |>.elim
  · rw [hx] at ha
    cases ha

theorem returning_zoom {get : τ → σ} {put : σ → τ → τ} {t : τ} {S : α → τ → Prop}
    (h : Returning x (get t) fun a s => S a (put s t)) : Returning (x.zoom get put) t S := by
  intro a u ha
  unfold Action.zoom at ha
  rcases hx : x (get t) with ⟨b, s⟩ | ⟨e, s⟩
  · rw [hx] at ha
    injection ha with hab hst
    subst hab
    subst hst
    exact h b s hx
  · rw [hx] at ha
    cases ha

end PythonicCpp
