import PythonicCpp.Store.Values

/-!
# What a caller gets of `center` and `capitalize`

Both end with `return utf8_cast(result)`.  The cast of an lvalue holds a reference, and the string
that it refers to is destroyed when the function returns.

* `returnReference` : the return, with the string in a variable of its own.
* `center`, `capitalize` : the functions.
* `program_references` : after any commands, a call returns a reference to a destroyed string.
* `Gives w f l` : the caller of `f` can read the units `l`.
* `center_never_lays_out`, `center_never_safe`, `capitalize_never_first` : what they should give is
  never what the caller can read.
-/

namespace PythonicCpp

namespace FbString

open Scan

/-- `return utf8_cast(result)` of the local string that `x` makes: the variable that the reference
refers to. -/
def returnReference (x : Program Core) : Program ℕ := do
  let result ← x
  let w ← get
  set { w with strings := w.strings ++ [some result] }
  exec (.destroy w.strings.length)
  pure w.strings.length

/-- `center(rng, width, padding, tail)`. -/
def center (rng : View) (width : ℕ) (padding : View) (tail : CodeUnit) : Program ℕ :=
  returnReference (Function.center rng width padding tail).exec

/-- `capitalize(rng)`. -/
def capitalize (rng : View) : Program ℕ := returnReference (Function.capitalize rng).exec

/-- The text of the string in a variable.  A reference to one that has been destroyed gives none. -/
def textOf (i : ℕ) : Program (List CodeUnit) := do
  let c ← string i
  pure (c.text (← get).heap)

/-- The function returns a reference to a string with the units `l`. -/
def Gives (w : World) (f : Program ℕ) (l : List CodeUnit) : Prop :=
  ∃ i w', f w = .ok i w' ∧ textOf i w' = .ok l w'

variable {w : World} {x : Program Core} {f : Program ℕ} {l u : List CodeUnit} {cs : List Char}

/-! ### References -/

theorem returning_destroy (i : ℕ) (w : World) :
    Returning (exec (.destroy i)) w fun _ w' => w'.strings = w.strings.set i none := by
  refine returning_bind (returning_bind (returning_get (returning_demand fun c => ?_)))
  refine returning_bind (returning_zoom fun _ h _ => ?_)
  rintro _ _ ⟨⟩
  rfl

/-- **Every reference that is returned** refers to a string that has been destroyed. -/
theorem returning_reference (x : Program Core) (w : World) :
    Returning (returnReference x) w fun i w' => w'.strings[i]? = some none := by
  refine returning_of_forall fun result w₁ => returning_bind (returning_get ?_)
  refine returning_bind (returning_set (returning_bind ?_))
  intro _ w' hw'
  have hstrings := returning_destroy _ _ _ _ hw'
  refine returning_pure ?_
  rw [hstrings]
  simp

theorem returning_textOf {i : ℕ} (hi : w.strings[i]? = some none) :
    Returning (textOf i) w fun _ _ => False := by
  refine returning_bind (returning_bind (returning_get ?_))
  rw [hi]
  rintro _ _ ⟨⟩

/-- A reference to a string that has been destroyed gives no text. -/
theorem not_gives (hf : Returning f w fun i w' => w'.strings[i]? = some none) : ¬ Gives w f l := by
  rintro ⟨i, w', hw', htext⟩
  exact returning_textOf (hf i w' hw') _ _ htext

/-- The call ends, and leaves the heap and the other variables as they were. -/
theorem returnReference_spec (hx : w.Returns x u) :
    Ends (returnReference x) w
      (fun i w' => w'.strings[i]? = some none ∧ w'.strings = w.strings ++ [none] ∧
        Keeps w.heap [] w'.heap [])
      fun w' => w'.strings = w.strings ∧ Keeps w.heap [] w'.heap [] := by
  rw [returnReference, ends_bind]
  refine hx.imp ?_
  rintro c w₁ ⟨hstrings, ha⟩
  rw [ends_bind, ends_get, ends_bind, ends_set, ends_bind, exec, ends_bind]
  refine ends_string (c := c) (by simp) ?_
  rw [ends_bind, ends_inHeap]
  refine (destroy_spec ha.shows).imp ?_
  intro _ h' hk
  rw [ends_put, ends_pure, ← hstrings]
  exact ⟨by simp, by simp, ha.keeps.trans hk⟩

/-- **Every call that may be made returns a dangling reference**, or throws.  After any commands,
`center` and `capitalize` leave the strings of the program and its blocks as they were. -/
theorem program_references {h : Heap Cell} {n : ℕ} {ls : List (Command × Bool)}
    (hh : ∀ a, h.blocks a = none) (hp : Path World.Step ⟨h, List.replicate n none⟩ ls w) :
    (∀ rng width padding tail,
      ((Function.center rng width padding tail).apply w.values).isSome = true →
      Ends (center rng width padding tail) w
        (fun i w' => w'.strings[i]? = some none ∧ w'.strings = w.strings ++ [none] ∧
          Keeps w.heap [] w'.heap [])
        fun w' => w'.strings = w.strings ∧ Keeps w.heap [] w'.heap []) ∧
    ∀ rng, ((Function.capitalize rng).apply w.values).isSome = true →
      Ends (capitalize rng) w
        (fun i w' => w'.strings[i]? = some none ∧ w'.strings = w.strings ++ [none] ∧
          Keeps w.heap [] w'.heap [])
        fun w' => w'.strings = w.strings ∧ Keeps w.heap [] w'.heap [] := by
  have hw := (refines_values.path (sane_start hh n) hp).1
  refine ⟨fun rng width padding tail hsome => ?_, fun rng hsome => ?_⟩
  · obtain ⟨u, hf⟩ := Option.isSome_iff_exists.1 hsome
    exact returnReference_spec (function_spec hw hf)
  · obtain ⟨u, hf⟩ := Option.isSome_iff_exists.1 hsome
    exact returnReference_spec (function_spec hw hf)

/-- `capitalize` of the units of a string that shares its block with a copy. -/
theorem program_references_shared : ∃ w : World, w.heap.count 0 = 2 ∧
    Ends (capitalize (.part 1 0 300)) w
      (fun i w' => w'.strings[i]? = some none ∧ w'.strings = w.strings ++ [none] ∧
        Keeps w.heap [] w'.heap [])
      fun w' => w'.strings = w.strings ∧ Keeps w.heap [] w'.heap [] := by
  obtain ⟨w, hw, hp⟩ := exists_path (fun _ _ _ => step_of_next) (by decide +kernel :
    (runPath World.next ⟨Heap.empty, List.replicate 2 none⟩
      [(.construct 0 (List.replicate 300 97), true), (.copy 1 0, true)]).any
      (fun w => w.heap.count 0 = 2 ∧
        ((Function.capitalize (.part 1 0 300)).apply w.values).isSome = true) = true)
  obtain ⟨hcount, hsome⟩ := of_decide_eq_true hw
  have hreferences := program_references (h := Heap.empty) (n := 2) (fun _ => rfl) hp
  exact ⟨w, hcount, hreferences.2 _ hsome⟩

/-! ### `center` -/

/-- `center` gives a balanced frame of exactly the width, and no difference wraps on the way. -/
def CenterLaysOut (w : World) (rng : View) (width : ℕ) (padding : View) (tail : CodeUnit) : Prop :=
  ∃ H P, rng.text w.values = some H ∧ padding.text w.values = some P ∧
    (centerUnits H.toSpan width P.toSpan tail).run.All Event.Exact ∧
    ∃ L R T, L ≤ R ∧ R ≤ L + 1 ∧ T < P.size ∧ (L + R) * P.size + T = width - H.size ∧
      Gives w (center rng width padding tail) ((List.replicate L P.units).flatten ++ H.units ++
        (List.replicate R P.units).flatten ++ List.replicate T tail)

/-- `center` wraps nowhere and gives a text of the width, or the one that it has got where that is
not shorter. -/
def CenterSafe (w : World) (rng : View) (width : ℕ) (padding : View) (tail : CodeUnit) : Prop :=
  ∃ H P, rng.text w.values = some H ∧ padding.text w.values = some P ∧
    (centerUnits H.toSpan width P.toSpan tail).run.All Event.Exact ∧
    ∃ r, Gives w (center rng width padding tail) r ∧ r.length = max H.size width ∧
      (width ≤ H.size → r = H.units)

/-- **`center` never gives the frame** that it lays out: its result refers to a string that has been
destroyed. -/
theorem center_never_lays_out (w : World) (rng : View) (width : ℕ) (padding : View)
    (tail : CodeUnit) : ¬ CenterLaysOut w rng width padding tail := by
  rintro ⟨H, P, -, -, -, L, R, T, -, -, -, -, hgives⟩
  exact not_gives (returning_reference _ w) hgives

/-- **`center` never gives a text** of any width. -/
theorem center_never_safe (w : World) (rng : View) (width : ℕ) (padding : View)
    (tail : CodeUnit) : ¬ CenterSafe w rng width padding tail := by
  rintro ⟨H, P, -, -, -, r, hgives, -, -⟩
  exact not_gives (returning_reference _ w) hgives

/-- The call `center("abc", 30)` returns, and the string that it refers to has been destroyed. -/
theorem center_abc :
    let w : World := ⟨Heap.empty, []⟩
    let rng := View.literal [97, 98, 99]
    (∃ i w', center rng 30 (.literal [32]) 32 w = .ok i w' ∧ w'.strings[i]? = some none) ∧
      ¬ CenterLaysOut w rng 30 (.literal [32]) 32 := by
  intro w rng
  have hreturns : (center rng 30 (.literal [32]) 32).returns w = true := by decide +kernel
  obtain ⟨i, w', hw'⟩ := exists_of_returns hreturns
  refine ⟨⟨i, w', hw', returning_reference _ w i w' hw'⟩, ?_⟩
  rintro ⟨H, P, -, -, -, L, R, T, -, -, -, -, hgives⟩
  exact not_gives (returning_reference _ w) hgives

/-- A loop of too many turns overflows its counter. -/
theorem returning_forTurns {σ : Type} {body : Action σ Unit} {turns i : ℕ} {s : σ}
    {Q : Unit → σ → Prop} (hi : i < 2 ^ 31) (hturns : 2 ^ 31 ≤ i + turns) :
    Returning (forTurns body turns i) s Q := by
  induction turns generalizing i s with
  | zero => omega
  | succ turns ih =>
    refine returning_of_forall fun _ t => ?_
    exact returning_bind (returning_check fun hlt => ih hlt (by omega))

theorem returning_centerIn {rng padding : Span} {begin paddingBegin : Ptr} {width : ℕ}
    {tail : CodeUnit} {counts : CenterCounts} {h : Heap Cell} {Q : Core → Heap Cell → Prop}
    (hcounts : (centerCounts width rng.size padding.size).run.val = some counts)
    (hleft : 2 ^ 31 ≤ counts.left) :
    Returning (centerIn rng padding begin paddingBegin width tail) h Q := by
  rw [centerIn, hcounts]
  refine returning_bind (returning_pure (returning_zoom (returning_unwind (returning_bind ?_))))
  refine returning_of_forall fun _ _ => returning_bind ?_
  exact returning_forTurns (by decide) (by omega)

/-- With a width below the size of the text the gap wraps, and the loops that append the padding
overflow their counters; with an empty padding the gap is divided by zero.  Neither call returns. -/
theorem center_below_size :
    let w : World := ⟨Heap.empty, []⟩
    let rng := View.literal [104, 101, 108, 108, 111]
    (Event.diff 3 5 ∈ (centerCounts 3 5 1).run.reads ∧ ¬ (Event.diff 3 5).Exact) ∧
      Returning (center rng 3 (.literal [32]) 32) w (fun _ _ => False) ∧
      center rng 7 (.literal []) 32 w = .error .undefined w ∧
      ¬ CenterSafe w rng 3 (.literal [32]) 32 := by
  intro w rng
  have hcounts : Yields (centerCounts 3 5 1) ⟨2 ^ 63 - 1, 2 ^ 63 - 1, 0⟩
    [.diff 3 5, .diff (2 ^ 64 - 2) (2 ^ 63 - 1), .diff (2 ^ 64 - 2) (2 ^ 63 - 1),
      .diff (2 ^ 63 - 1) (2 ^ 63 - 1)] := rfl
  refine ⟨⟨by decide +kernel, by decide⟩, ?_, rfl, ?_⟩
  · refine returning_bind (returning_bind (returning_get ?_))
    refine returning_bind (returning_pure (returning_bind (returning_get ?_)))
    refine returning_bind (returning_pure (returning_zoom ?_))
    exact returning_centerIn hcounts.val (by decide)
  · rintro ⟨H, P, -, -, -, r, hgives, -, -⟩
    exact not_gives (returning_reference _ w) hgives

/-! ### `capitalize` -/

/-- `capitalize` gives the text with its first scalar value in upper case, and reads nothing outside
of it; what it gives has as many scalar values, and is given again for itself. -/
def CapitalizesFirst (w : World) (rng : View) (cs : List Char) : Prop :=
  ∃ H, rng.text w.values = some H ∧ H.units = encode cs ∧
    (capitalizeUnits H.toSpan).run.All (Event.Within H) ∧
    ∃ r, Gives w (capitalize rng) r ∧ r = encode (cs.modifyHead Char.toUpper) ∧
      r.length = H.size ∧ (∀ R : Text, R.units = r → len R.toSpan = len H.toSpan) ∧
      Gives w (capitalize (.literal r)) r

/-- **`capitalize` never gives the text** with its first scalar value in upper case. -/
theorem capitalize_never_first (w : World) (rng : View) (cs : List Char) :
    ¬ CapitalizesFirst w rng cs := by
  rintro ⟨H, -, -, -, r, hgives, -⟩
  exact not_gives (returning_reference _ w) hgives

/-- The call `capitalize("hello")` returns, and the string that it refers to has been destroyed.  Of
the empty text `capitalize` reads a first unit, and takes the size minus one. -/
theorem capitalize_hello :
    let w : World := ⟨Heap.empty, []⟩
    let rng := View.literal (encode ['h', 'e', 'l', 'l', 'o'])
    ((∃ i w', capitalize rng w = .ok i w' ∧ w'.strings[i]? = some none) ∧
      ¬ CapitalizesFirst w rng ['h', 'e', 'l', 'l', 'o']) ∧
    let E := Text.ofUnits [] 0 (by decide)
    (Event.units 0 1 ∈ (capitalizeUnits E.toSpan).run.reads ∧ ¬ (Event.units 0 1).Within E) ∧
      Event.diff 0 1 ∈ (capitalizeUnits E.toSpan).run.reads ∧ ¬ (Event.diff 0 1).Within E := by
  intro w rng
  refine ⟨⟨?_, ?_⟩, by decide +kernel⟩
  · have hreturns : (capitalize rng).returns w = true := by decide +kernel
    obtain ⟨i, w', hw'⟩ := exists_of_returns hreturns
    exact ⟨i, w', hw', returning_reference _ w i w' hw'⟩
  · rintro ⟨H, -, -, -, r, hgives, -⟩
    exact not_gives (returning_reference _ w) hgives

end FbString

end PythonicCpp
