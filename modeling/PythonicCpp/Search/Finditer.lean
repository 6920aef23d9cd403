import PythonicCpp.Search.Next
import Mathlib.Order.Bounds.Defs

/-!
# `finditer` and the plain search

The view selects the leftmost non-overlapping copies of the needle in the *storage*
(`FindView.offsets_new`): its loop is bounded by the position a copy begins at, not by the one it
ends at.  A copy that begins inside the haystack and runs past its end is therefore selected too.

* `finditer_plain` : when the unit stored right after the haystack does not occur in the needle
  there is no such copy, and the view is the plain left-to-right search.
* `window_search_iff` : a search of a window is the plain search of a copy of the window iff no
  copy of the needle straddles the end of the window where the plain search finishes.
-/

namespace PythonicCpp

open Scan

/-- `count(haystack, needle, start, end)` : `ranges::distance` of a view. -/
def count (haystack needle : Span) (start : ℕ) (stop : End) : ℕ :=
  (finditer (haystack.slice start stop) needle 0 .rangesEnd).val.offsets.length

variable {H D : Text}

/-! ### Matches in the storage and occurrences in the text -/

theorem occursAt_units {p : ℕ} :
    OccursAt H.units D.units p ↔ p + D.size ≤ H.size ∧ MatchAt H D p := by
  rw [MatchAt, ← D.length_units]
  exact occursAt_block

/-- A copy of the needle that begins inside the haystack and runs past its end contains the unit
stored right after the haystack. -/
theorem MatchAt.add_le {p : ℕ} (hm : MatchAt H D p) (hnext : H.next ∉ D.units) (hp : p ≤ H.size) :
    p + D.size ≤ H.size := by
  by_contra hlt
  refine hnext ?_
  rw [MatchAt] at hm
  rw [← hm, Text.next, mem_block]
  have := H.last_eq
  exact ⟨H.size - p, by omega, by congr 1; omega⟩

theorem storageSearch_eq_plainSearch (hD : D.units ≠ []) (hnext : H.next ∉ D.units) :
    storageSearch H D = plainSearch H.units D.units := by
  by_cases hlt : H.size < D.size
  · rw [storageSearch, if_pos (.inl hlt), plainSearch_eq_nil (by simpa using hlt)]
  · refine (storageSearch_spec hD (not_lt.1 hlt)).unique ?_
    have h := plainSearch_spec (h := H.units) hD
    rw [H.length_units, D.length_units] at h
    refine h.congr fun q _ hq => occursAt_units.trans ?_
    exact and_iff_right_of_imp fun hm => hm.add_le hnext hq.le

theorem finditer_all (H D : Text) :
    finditer H.toSpan D.toSpan 0 .rangesEnd = FindView.new H.toSpan D.toSpan := by
  rw [finditer, Span.slice_zero]

theorem finditer_offsets (hD : D.units ≠ []) (hnext : H.next ∉ D.units) :
    (finditer H.toSpan D.toSpan 0 .rangesEnd).val.offsets = plainSearch H.units D.units := by
  rw [finditer_all, FindView.offsets_new, storageSearch_eq_plainSearch hD hnext]

theorem count_eq (hD : D.units ≠ []) (hnext : H.next ∉ D.units) :
    count H.toSpan D.toSpan 0 .rangesEnd = (plainSearch H.units D.units).length := by
  rw [count, Span.slice_zero, finditer_offsets hD hnext]

/-- **The optimised search is the plain search.**  With a unit right after the haystack that does
not occur in the needle, the view yields the offsets of the plain left-to-right non-overlapping
search.  After `m` calls of `next()` it is done exactly when no occurrence is left at or after the
end of the `m`-th one, and shows the lowest one left otherwise. -/
theorem finditer_plain (H D : Text) (hD : D.units ≠ []) (hnext : H.next ∉ D.units) :
    let view := (finditer H.toSpan D.toSpan 0 .rangesEnd).val
    let ps := plainSearch H.units D.units
    view.offsets = ps ∧ (H.size < D.size → view.Done) ∧
      ∀ m, ((view.nexts m).val.Done →
          ∀ q, finish D.size 0 (ps.take m) ≤ q → ¬ OccursAt H.units D.units q) ∧
        (¬ (view.nexts m).val.Done →
          IsLeast {q | finish D.size 0 (ps.take m) ≤ q ∧ OccursAt H.units D.units q}
            (view.nexts m).val.foundAt) := by
  intro view ps
  obtain ⟨hI, hS⟩ := FindView.new_spec H D
  rw [← finditer_all, storageSearch_eq_plainSearch hD hnext] at hS
  rw [← finditer_all] at hI
  refine ⟨finditer_offsets hD hnext, fun hlt => hS.done_iff.2 ?_, fun m => ?_⟩
  · exact plainSearch_eq_nil (by simpa using hlt)
  · have hdrop := (plainSearch_spec (h := H.units) hD).drop m
    obtain ⟨-, hSm⟩ := FindView.nexts_spec m hI hS
    rw [D.length_units] at hdrop
    constructor
    · intro hdone
      exact (hdrop.eq_nil_iff_of_lt fun q hq => hq.lt hD).1 (hSm.done_iff.1 hdone)
    · intro hdone
      obtain ⟨p, qs, hps⟩ := List.exists_cons_of_ne_nil (mt hSm.done_iff.2 hdone)
      rw [hps] at hdrop hSm
      rw [show (view.nexts m).val.foundAt = p from hSm.1]
      exact hdrop.isLeast

theorem finditer_plain_abcab :
    (finditer (Text.ofUnits [97, 98, 99, 97, 98] 0 (by decide)).toSpan
      (Text.ofUnits [97, 98] 0 (by decide)).toSpan 0 .rangesEnd).val.offsets = [0, 3] := by
  have h := (finditer_plain (Text.ofUnits [97, 98, 99, 97, 98] 0 (by decide))
    (Text.ofUnits [97, 98] 0 (by decide)) (by decide) (by decide)).1
  rw [h, Text.units_ofUnits, Text.units_ofUnits]
  decide

/-! ### Windows -/

theorem matchAt_window {start stop p : ℕ} (h : start ≤ stop) (hstop : stop ≤ H.size) :
    MatchAt (H.window start stop h hstop) D p ↔ MatchAt H D (start + p) := by
  rw [MatchAt, MatchAt, Nat.cast_add, ← add_assoc]
  rfl

theorem finditer_pos {start stop : ℕ} (h : start ≤ stop) (hstop : stop ≤ H.size) :
    (finditer H.toSpan D.toSpan start (.pos stop)).val.offsets =
      storageSearch (H.window start stop h hstop) D := by
  rw [finditer, H.slice_pos h hstop, FindView.offsets_new]

theorem count_pos {start stop : ℕ} (h : start ≤ stop) (hstop : stop ≤ H.size) :
    count H.toSpan D.toSpan start (.pos stop) =
      (storageSearch (H.window start stop h hstop) D).length := by
  rw [count, H.slice_pos h hstop, finditer_all, FindView.offsets_new]

/-- The search of the storage is the plain search iff no copy of the needle that runs past the
end of the haystack begins where the plain search finishes, or later. -/
theorem storageSearch_eq_iff (hD : D.units ≠ []) (hle : D.size ≤ H.size) :
    storageSearch H D = plainSearch H.units D.units ↔
      ∀ q, finish D.size 0 (plainSearch H.units D.units) ≤ q → q < H.size →
        H.size < q + D.size → ¬ MatchAt H D q := by
  have hps := plainSearch_spec (h := H.units) hD
  rw [H.length_units, D.length_units] at hps
  have hiff := hps.mono_iff (Q := MatchAt H D) (fun q hq => (occursAt_units.1 hq).2)
    fun p q hqp hp hq => occursAt_units.2 ⟨by have := (occursAt_units.1 hp).1; omega, hq⟩
  calc storageSearch H D = plainSearch H.units D.units
      ↔ Leftmost (MatchAt H D) H.size D.size 0 (plainSearch H.units D.units) :=
        ⟨fun h => h ▸ storageSearch_spec hD hle, (storageSearch_spec hD hle).unique⟩
    _ ↔ _ := hiff
    _ ↔ _ := by
        refine ⟨fun h q hq hqn _ => h q hq hqn, fun h q hq hqn hm => ?_⟩
        rcases Nat.lt_or_ge H.size (q + D.size) with hlt | hge
        · exact h q hq hqn hlt hm
        · exact hps.finish_clear q hq hqn (occursAt_units.2 ⟨hge, hm⟩)

/-- A needle of a single unit cannot run past the end of the haystack, whatever is stored there. -/
theorem finditer_offsets_of_one (hD : D.size = 1) :
    (finditer H.toSpan D.toSpan 0 .rangesEnd).val.offsets = plainSearch H.units D.units := by
  have hne : D.units ≠ [] := mt D.units_eq_nil_iff.1 (by omega)
  rw [finditer_all, FindView.offsets_new]
  by_cases hle : D.size ≤ H.size
  · exact (storageSearch_eq_iff hne hle).2 fun q _ hq hlt => by omega
  · rw [storageSearch, if_pos (.inl (not_le.1 hle)), plainSearch_eq_nil (by simpa using hle)]

/-- In the storage of `H` a copy of `D` straddles the end of the window `[start, stop)`: it begins
at offset `p` of the window, where the plain search of the window finishes or later, and runs past
the end.  There is none for a needle longer than the window, which is not searched for. -/
def Straddles (H D : Text) (start stop p : ℕ) : Prop :=
  D.size ≤ stop - start ∧
    finish D.size 0 (plainSearch ((H.units.drop start).take (stop - start)) D.units) ≤ p ∧
    p < stop - start ∧ stop - start < p + D.size ∧ MatchAt H D (start + p)

theorem storageSearch_window_iff {start stop : ℕ} (hD : D.units ≠ []) (h : start ≤ stop)
    (hstop : stop ≤ H.size) :
    storageSearch (H.window start stop h hstop) D =
        plainSearch ((H.units.drop start).take (stop - start)) D.units ↔
      ∀ p, ¬ Straddles H D start stop p := by
  rw [← H.units_window h hstop]
  by_cases hle : D.size ≤ (H.window start stop h hstop).size
  · rw [storageSearch_eq_iff hD hle]
    simp only [Straddles, matchAt_window, H.size_window, H.units_window] at hle ⊢
    simp only [hle, true_and, not_and]
  · rw [storageSearch, if_pos (.inl (not_le.1 hle)), plainSearch_eq_nil (by simpa using hle)]
    rw [H.size_window] at hle
    exact iff_of_true rfl fun p hp => hle hp.1

/-- **When a window search is the search of the copied window**: `finditer` and `count` agree with
the plain search of a separate copy of the window, no offset reaches past the window, exactly when
no copy of the needle straddles its end.  Two texts for which this holds and which agree on the
window give the same results. -/
theorem window_search_iff (H D : Text) (start stop : ℕ) (hD : D.units ≠ []) (h : start ≤ stop)
    (hstop : stop ≤ H.size) :
    let w := (H.units.drop start).take (stop - start)
    ((finditer H.toSpan D.toSpan start (.pos stop)).val.offsets = plainSearch w D.units ∧
        count H.toSpan D.toSpan start (.pos stop) = (plainSearch w D.units).length ∧
        (∀ p ∈ (finditer H.toSpan D.toSpan start (.pos stop)).val.offsets,
          p + D.size ≤ stop - start) ↔
      ∀ p, ¬ Straddles H D start stop p) ∧
    ∀ H' : Text, stop ≤ H'.size → (H'.units.drop start).take (stop - start) = w →
      (∀ p, ¬ Straddles H D start stop p) → (∀ p, ¬ Straddles H' D start stop p) →
      (finditer H'.toSpan D.toSpan start (.pos stop)).val.offsets =
          (finditer H.toSpan D.toSpan start (.pos stop)).val.offsets ∧
        count H'.toSpan D.toSpan start (.pos stop) =
          count H.toSpan D.toSpan start (.pos stop) := by
  intro w
  have hw : w.length = stop - start := by
    rw [List.length_take, List.length_drop, H.length_units]
    omega
  refine ⟨?_, fun H' hstop' hw' hno hno' => ?_⟩
  · rw [← storageSearch_window_iff hD h hstop, finditer_pos h hstop, count_pos h hstop]
    refine ⟨fun h => h.1, fun heq => ⟨heq, by rw [heq], fun p hp => ?_⟩⟩
    rw [heq] at hp
    have := (mem_plainSearch hD hp).add_le
    rwa [D.length_units, hw] at this
  · rw [← storageSearch_window_iff hD h hstop] at hno
    rw [← storageSearch_window_iff hD h hstop', hw'] at hno'
    rw [finditer_pos h hstop, finditer_pos h hstop', count_pos h hstop, count_pos h hstop', hno,
      hno']
    exact ⟨rfl, rfl⟩

theorem window_search_abac :
    let H := Text.ofUnits [97, 98, 97, 99] 0 (by decide)
    let H' := Text.ofUnits [97, 98, 97, 100] 0 (by decide)
    let D := Text.ofUnits [97, 98] 0 (by decide)
    (finditer H'.toSpan D.toSpan 0 (.pos 3)).val.offsets =
      (finditer H.toSpan D.toSpan 0 (.pos 3)).val.offsets := by
  intro H H' D
  have hno := (window_search_iff H D 0 3 (by decide) (by decide) (by decide)).1.1
    ⟨by decide +kernel, by decide +kernel, by decide +kernel⟩
  have hno' := (window_search_iff H' D 0 3 (by decide) (by decide) (by decide)).1.1
    ⟨by decide +kernel, by decide +kernel, by decide +kernel⟩
  exact ((window_search_iff H D 0 3 (by decide) (by decide) (by decide)).2 H' (by decide)
    (by decide) hno hno').1

/-- In the window `aa` of `aab` the search for `ab` finds the copy that ends after the window. -/
theorem window_search_past_end :
    let H := Text.ofUnits [97, 97, 98] 0 (by decide)
    let D := Text.ofUnits [97, 98] 0 (by decide)
    (finditer H.toSpan D.toSpan 0 (.pos 2)).val.offsets = [1] ∧
      count H.toSpan D.toSpan 0 (.pos 2) = 1 ∧
      plainSearch ((H.units.drop 0).take (2 - 0)) D.units = [] := by
  decide +kernel

end PythonicCpp
