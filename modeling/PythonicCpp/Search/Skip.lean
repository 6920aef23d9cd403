import PythonicCpp.Search.Reads
import PythonicCpp.Search.Steps

/-!
# The skip in every run

`get_skip()` computes the skip when it is first called, in a loop over the field `__skip` itself.

* `SkipAt d p s` : what `__skip` may be where the control is at `p`.
* `State.Inv` : the invariant of a state; `step_inv` and `enumerates_inv` establish it.
* `getSkip_spec` : every call of `get_skip()` returns the same skip, which is the largest one that
  misses no match.
-/

namespace PythonicCpp

open Scan

namespace FindView

/-- What `__skip` may be: a lower bound of the skip while it is computed, the skip when it has been,
and otherwise one of zero and the skip. -/
def SkipAt (d : List CodeUnit) : Point → ℕ → Prop
  | .skipLoop _, s => SkipAtLeast d s
  | .skipped _, s => IsSkip d s
  | _, s => s = 0 ∨ IsSkip d s

/-- The invariant of a state: the view searches `H` for `D`, whatever its skip is, which is one that
may be. -/
structure State.Inv (s : State) (H D : Text) : Prop where
  view : (s.view.setSkip 0).Inv H D
  skip : SkipAt D.units s.point s.view.skip

variable {H D : Text} {s : State} {x : Traced Read State}

/-- **Each step keeps the invariant.** -/
theorem step_inv (hD : D.units ≠ []) (h : s.Inv H D) (hs : step s = some x) : x.val.Inv H D := by
  obtain ⟨p, v⟩ := s
  obtain ⟨hview, hskip⟩ := h
  have hlen : D.units.length = v.nsize := hview.length_units
  -- `__skip` changes in `get_skip()` only, and no other field that the invariant tells of changes
  have hv : 0 < v.nsize := hview.nsize_pos_iff.2 hD
  cases p with
  | entry =>
    obtain rfl := Option.some.inj hs
    rw [Traced.val_pure]
    split_ifs
    · exact ⟨hview, hskip⟩
    · exact ⟨hview, hskip⟩
  | outer i =>
    obtain rfl := Option.some.inj hs
    rw [Traced.val_pure]
    split_ifs
    · exact ⟨hview, hskip⟩
    · exact ⟨hview.notFound, hskip⟩
  | scan i =>
    obtain rfl := Option.some.inj hs
    rw [Traced.val_bind, Traced.val_pure]
    split_ifs
    · exact ⟨hview.notFound, hskip⟩
    · exact ⟨hview, hskip⟩
    · exact ⟨hview, hskip⟩
  | compare i j =>
    obtain rfl := Option.some.inj hs
    rw [Traced.val_bind, Traced.val_bind, Traced.val_pure]
    split_ifs
    · exact ⟨hview, hskip⟩
    · exact ⟨hview.found hv, hskip⟩
    · exact ⟨hview, hskip⟩
  | getSkip i =>
    obtain rfl := Option.some.inj hs
    rw [Traced.val_pure]
    split_ifs with hzero
    · exact ⟨hview, skipAtLeast_one hD⟩
    · exact ⟨hview, hskip.resolve_left hzero⟩
  | skipLoop i =>
    change SkipAtLeast D.units v.skip at hskip
    rw [step] at hs
    split_ifs at hs with hle
    · obtain rfl := Option.some.inj hs
      have hlt : v.skip < v.nsize := by omega
      have hunit := hview.needle_eq_last_iff hv hlt
      rw [Traced.val_bind, Traced.val_pure]
      split_ifs with hne
      · exact ⟨hview, hskip.succ (hlen ▸ hlt) (mt hunit.1 hne)⟩
      · exact ⟨hview, hskip.isSkip fun _ => hunit.2 (not_not.1 hne)⟩
    · obtain rfl := Option.some.inj hs
      exact ⟨hview, hskip.isSkip fun hlt => absurd hlt (by omega)⟩
  | skipped i =>
    obtain rfl := Option.some.inj hs
    exact ⟨hview, .inr hskip⟩
  | ret => exact nomatch hs

/-- The constructor establishes the invariant, and calls keep it. -/
theorem enumerates_inv (hD : D.units ≠ []) (h : Enumerates H D s) : s.Inv H D := by
  induction h with
  | start =>
    rw [start, Traced.val_bind]
    split_ifs
    · exact ⟨⟨rfl, rfl, rfl, rfl, .inl rfl⟩, .inl rfl⟩
    · exact ⟨⟨rfl, rfl, rfl, rfl, .inl rfl⟩, .inl rfl⟩
    · exact ⟨⟨rfl, rfl, rfl, rfl, .inl rfl⟩, .inl rfl⟩
  | step _ hs ih => exact step_inv hD ih hs
  | call _ ih => exact ⟨ih.view, ih.skip⟩

/-- A call of `get_skip()`, from a state outside its loop, returns the skip. -/
theorem getSkip_of_inv (hD : D.units ≠ []) {k : ℕ} (hk : IsSkip D.units k) (h : s.Inv H D)
    (hout : ∀ i, s.point ≠ .skipLoop i) (i : ℤ) :
    ∃ rs, Runs step ⟨.getSkip i, s.view⟩ rs ⟨.skipped i, s.view.setSkip k⟩ ∧
      ∀ r ∈ rs, r.InNeedle D := by
  obtain ⟨p, v⟩ := s
  obtain ⟨hview, hskip⟩ := h
  have hskip : v.skip = 0 ∨ IsSkip D.units v.skip := by
    cases p with
    | skipLoop i => exact absurd rfl (hout i)
    | skipped _ => exact .inr hskip
    | _ => exact hskip
  have hI : v.Inv H D := ⟨hview.haystack, hview.needle, hview.nsize, hview.lastNeedle, hskip⟩
  have hv := hI.nsize_pos_iff.2 hD
  rw [hk.unique (isSkip_getSkip hI hv)]
  exact ⟨_, computes_getSkip v i, hI.getSkip_inNeedle hv⟩

theorem exists_isSkip (hD : D.units ≠ []) : ∃ k, IsSkip D.units k := by
  -- the value of the first call, in the needle itself
  obtain ⟨v, hv, hI, -⟩ := new_eq_search (mt D.units_eq_nil_iff.2 hD) (le_refl D.size)
  exact ⟨_, isSkip_getSkip hI hv⟩

end FindView

/-- **The skip is sound, tight and stable.**  Every call of `get_skip()` that the constructor or a
call of `next()` makes, on any haystack, returns the least distance from the last unit of the needle
back to a unit equal to it, and reads units of the needle only.  No match begins within the skip,
and a shorter one than the needle is the longest with that property. -/
theorem getSkip_spec (D : Text) (hD : D.units ≠ []) :
    ∃ k, IsLeast {s | 1 ≤ s ∧ s ≤ D.size ∧
        (s = D.size ∨ D.units[D.size - 1 - s]? = D.units[D.size - 1]?)} k ∧
      (∀ H s, FindView.Enumerates H D s →
        (∀ i, s.point = .skipped i → s.view.skip = k) ∧
        ((∀ i, s.point ≠ .skipLoop i) → ∀ i, ∃ rs,
          Runs FindView.step ⟨.getSkip i, s.view⟩ rs ⟨.skipped i, s.view.setSkip k⟩ ∧
            ∀ r ∈ rs, r.InNeedle D)) ∧
      (∀ (m : ℤ → CodeUnit) (a : ℤ), some (m (a + (D.size - 1 : ℕ))) = D.units[D.size - 1]? →
        block m a D.size ≠ D.units → ∀ t, 0 < t → t < k → block m (a + t) D.size ≠ D.units) ∧
      (k < D.size → ∀ a : ℤ, ∃ m : ℤ → CodeUnit,
        some (m (a + (D.size - 1 : ℕ))) = D.units[D.size - 1]? ∧
          block m a D.size ≠ D.units ∧ block m (a + k) D.size = D.units) := by
  obtain ⟨k, hk⟩ := FindView.exists_isSkip hD
  rw [← D.length_units]
  refine ⟨k, hk.isLeast, fun H s hs => ⟨fun i hi => ?_, fun hout i => ?_⟩,
    fun m a hlast _ t h₀ ht => hk.no_match hD hlast.symm h₀ ht, fun hlt a => ?_⟩
  · have hskip := (FindView.enumerates_inv hD hs).skip
    rw [hi] at hskip
    exact IsSkip.unique hskip hk
  · exact FindView.getSkip_of_inv hD hk (FindView.enumerates_inv hD hs) hout i
  · have : Nontrivial CodeUnit := ⟨0, 1, by decide⟩
    obtain ⟨m, hlast, hmiss, hcopy⟩ := hk.tight hlt a
    exact ⟨m, hlast.symm, hmiss, hcopy⟩

theorem getSkip_spec_abcb :
    IsLeast {s : ℕ | 1 ≤ s ∧ s ≤ 4 ∧
      (s = 4 ∨ ([97, 98, 99, 98] : List CodeUnit)[4 - 1 - s]? = some 98)} 2 := by
  obtain ⟨k, hk, -⟩ := getSkip_spec (Text.ofUnits [97, 98, 99, 98] 0 (by decide)) (by decide)
  have hle : k ≤ 2 := hk.2 (by decide)
  have hne : k ≠ 1 := fun h => absurd hk.1 (by rw [h]; decide)
  obtain rfl : k = 2 := by
    have := hk.1.1
    omega
  exact hk

end PythonicCpp
