import PythonicCpp.Store.Results

/-!
# How strings grow

* `pushBack_each` : a text that is put together unit by unit asks for memory a number of times that
  is logarithmic in its size.
* `Core.Bounded` : what the masked capacity of a string can be.
* `reserve_too_much` : room for `2 ^ 62` units or more is never made, although the computation of
  the size of the block may wrap.
-/

namespace PythonicCpp

namespace FbString

open RefCounted

variable {s t : Self} {h : Heap Cell} {c : Core} {u : List Cell} {l : List CodeUnit} {n : ℕ}
  {P : Core → Heap Cell → Prop}

/-! ### Unit by unit -/

/-- One `push_back` after another. -/
theorem ends_pushBacks (hs : s.Shows u) (hn : u.length + l.length + sizeofRefCounted < 2 ^ 64) :
    Ends (forM l pushBack) s
      (fun _ t => s.Becomes (u ++ l.map some) t ∧ s.Grows (u.length + l.length) t)
      fun t => ∃ i < l.length, s.Becomes (u ++ (l.take i).map some) t := by
  induction l generalizing s u with
  | nil =>
    rw [List.forM_nil, ends_pure, List.map_nil, List.append_nil]
    exact ⟨hs.becomes, .refl s _⟩
  | cons a l ih =>
    have hlen : u.length + 1 + l.length = u.length + (a :: l).length := by
      rw [List.length_cons]
      omega
    rw [List.forM_cons, ends_bind]
    refine (pushBack_spec hs (by omega) a).mono ?_ ?_
    · rintro _ t ⟨hbec, hgrows⟩
      have hrest := ih hbec.shows (by rw [List.length_append, List.length_singleton]; omega)
      rw [List.length_append, List.length_singleton, hlen] at hrest
      refine hrest.mono ?_ ?_
      · rintro _ t' ⟨hbec', hgrows'⟩
        rw [List.append_assoc] at hbec'
        exact ⟨hbec.trans hbec', (hgrows.mono (by omega)).trans hgrows'⟩
      · rintro t' ⟨i, hi, hbec'⟩
        rw [List.append_assoc] at hbec'
        exact ⟨i + 1, Nat.succ_lt_succ hi, hbec.trans hbec'⟩
    · rintro _ rfl
      refine ⟨0, Nat.succ_pos _, ?_⟩
      rw [List.take_zero, List.map_nil, List.append_nil]
      exact hs.refused

/-- **A text put together unit by unit** costs few requests.  When one is refused, the string holds
what has been put into it before. -/
theorem pushBack_each (hs : s.Shows u) (l : List CodeUnit)
    (hn : u.length + l.length + sizeofRefCounted < 2 ^ 64) :
    Ends (forM l pushBack) s
      (fun _ t => s.Becomes (u ++ l.map some) t ∧
        t.heap.next ≤ s.heap.next + 2 * Nat.log 2 (u.length + l.length) + 2)
      fun t => ∃ i < l.length, s.Becomes (u ++ (l.take i).map some) t := by
  refine (ends_pushBacks hs hn).imp ?_
  rintro _ t ⟨hbec, hgrows⟩
  exact ⟨hbec, hgrows.within.2⟩

/-- Two units, appended to a string that shares its block. -/
theorem pushBack_each_shared :
    let s : Self := ⟨sharedHeap, shared⟩
    let l : List CodeUnit := [97, 98]
    Ends (forM l pushBack) s
      (fun _ t => s.Becomes (sharedText.map some ++ l.map some) t ∧
        t.heap.next ≤ s.heap.next + 2 * Nat.log 2 (300 + l.length) + 2)
      fun t => ∃ i < l.length, s.Becomes (sharedText.map some ++ (l.take i).map some) t := by
  intro s l
  have hs : s.Shows (sharedText.map some) := shared_shows
  have hpush := pushBack_each hs l (by rw [length_sharedText]; decide)
  rwa [length_sharedText] at hpush

/-! ### Too much room -/

/-- The string has less than `2 ^ 62` units, and room for less. -/
def Core.Bounded : Core → Prop
  | .small _ => True
  | .ml m => m.size < 2 ^ 62 ∧ m.capacity < 2 ^ 62

theorem Core.Shows.bounded (hc : c.Shows h u) : c.Bounded := by
  cases c with
  | small cells => trivial
  | ml m =>
    have hle := MediumLarge.Shows.le hc
    have hlt := MediumLarge.Shows.lt hc
    rw [← MediumLarge.Shows.size hc] at hle
    exact ⟨by omega, hlt⟩

theorem returning_setCapacity {size : ℕ} (hsize : size < 2 ^ 62) (p cap : ℕ) (cat : Category) :
    Returning (setCapacity p size cap cat) h fun c _ => c.Bounded := by
  refine returning_bind (returning_demand fun category => returning_pure ⟨hsize, ?_⟩)
  dsimp only
  rw [capacityExtractMask, and_low_bits]
  exact Nat.mod_lt _ (by decide)

theorem returning_smallSize (cells : List Cell) :
    Returning (smallSize cells) h fun size _ => size < 2 ^ 62 := by
  refine returning_bind (returning_demand fun last => ?_)
  refine returning_bind (returning_demand fun shifted => ?_)
  refine returning_bind (returning_check fun _ => ?_)
  refine returning_pure ?_
  simp only [maxSmallSize]
  omega

/-- The capacity that a string has got is below `2 ^ 62`, whatever has been asked for. -/
theorem returning_reserveSmall (cells : List Cell) (n : ℕ) :
    Returning (reserveSmall cells n) h fun c _ => c.Bounded := by
  unfold reserveSmall
  split_ifs
  · exact returning_pure trivial
  · refine returning_of_forall fun p h₁ => returning_bind ?_
    intro size h₂ hsize
    have hlt := returning_smallSize cells size h₂ hsize
    exact returning_of_forall fun _ h₃ => returning_setCapacity hlt _ _ _
  · refine returning_of_forall fun r h₁ => returning_bind ?_
    intro size h₂ hsize
    have hlt := returning_smallSize cells size h₂ hsize
    exact returning_of_forall fun _ h₃ => returning_setCapacity hlt _ _ _

theorem returning_reserveBy (hc : c.Bounded) (n : ℕ) :
    Returning (reserveBy n c) h fun c' _ => c'.Bounded := by
  cases c with
  | small cells => exact returning_reserveSmall cells n
  | ml m =>
    rw [reserveBy]
    cases m.category with
    | isMedium =>
      dsimp only
      unfold reserveMedium
      split_ifs
      · exact returning_pure hc
      · exact returning_of_forall fun p h₁ => returning_setCapacity hc.1 _ _ _
      · refine returning_bind fun c' h₁ hc' => ?_
        have hbounded := returning_reserveSmall resetCells n c' h₁ hc'
        cases c' with
        | small cells => exact returning_throw _
        | ml nascent =>
          refine returning_of_forall fun l h₂ => returning_of_forall fun _ h₃ => ?_
          exact returning_of_forall fun _ h₄ => returning_pure ⟨hc.1, hbounded.2⟩
    | isLarge =>
      dsimp only
      unfold reserveLarge
      refine returning_of_forall fun r h₁ => ?_
      split_ifs
      · refine returning_of_forall fun r h₂ => returning_of_forall fun l h₃ => ?_
        refine returning_of_forall fun _ h₄ => returning_of_forall fun _ h₅ => ?_
        exact returning_setCapacity hc.1 _ _ _
      · exact returning_of_forall fun p h₂ => returning_setCapacity hc.1 _ _ _
      · exact returning_pure hc

theorem returning_capacity (hc : c.Bounded) :
    Returning c.capacity h fun capacity _ => capacity < 2 ^ 62 := by
  cases c with
  | small cells => exact returning_pure (by decide)
  | ml m =>
    rw [Core.capacity]
    cases m.category with
    | isMedium => exact returning_pure hc.2
    | isLarge =>
      refine returning_of_forall fun r h₁ => ?_
      split_ifs
      · exact returning_pure hc.1
      · exact returning_pure hc.2

/-- **Too much room** is never made: the assertion at the end of `reserve` does not hold.  As long
as the size of the block does not wrap, the request fails before, and the string stays as it is. -/
theorem reserve_too_much (hn : 2 ^ 62 ≤ n) (hs : s.Shows u) :
    (∀ t, reserve n s ≠ .ok () t) ∧
      (n + sizeofRefCounted < 2 ^ 64 → reserve n s = .error .badAlloc s.refused) := by
  have hnever : ∀ t, reserve n s ≠ .ok () t := by
    intro t ht
    have hreturning : Returning (reserve n) s fun _ _ => False := by
      unfold reserve update
      refine returning_bind (returning_get (returning_bind (returning_zoom ?_)))
      refine returning_bind fun c h₁ hc => ?_
      have hbounded := returning_reserveBy (Core.Shows.bounded hs) n c h₁ hc
      refine returning_bind fun capacity h₂ hcapacity => ?_
      have hlt := returning_capacity hbounded capacity h₂ hcapacity
      exact returning_bind (returning_check fun hle => absurd hle (by omega))
    exact hreturning () t ht
  refine ⟨hnever, fun hfits => ?_⟩
  rcases (ends_reserve hs hfits).exists with ⟨_, t, ht, -⟩ | ⟨t, ht, rfl⟩
  · exact absurd ht (hnever t)
  · exact ht

theorem reserve_too_much_shared :
    reserve (2 ^ 62) ⟨sharedHeap, shared⟩ =
      .error .badAlloc (Self.refused ⟨sharedHeap, shared⟩) :=
  (reserve_too_much (n := 2 ^ 62) (by decide) (s := ⟨sharedHeap, shared⟩) shared_shows).2
    (by decide)

end FbString

end PythonicCpp
