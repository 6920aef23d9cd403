import PythonicCpp.Text.CodePoints
import PythonicCpp.Scan.Malformed

/-!
# `code_points` on any bytes

`CodePointsView` steps over what follows a lead without looking at it, and ends when it shows an
empty code point.

* `CodePointsView.Inv` : the view shows an empty code point only at its end.
* `CodePointsView.items_iterate` : what is left after a number of calls of `next()`.
* `codePoints_partition` : the code points of any text partition it.
* `codePoints_len_iff` : there are as many of them as `len` counts where the continuation units are
  those that the leads announce.
-/

namespace PythonicCpp

open Scan

namespace CodePointsView

variable {v : CodePointsView}

/-- The view is as the constructor and `next()` leave it. -/
structure Inv (v : CodePointsView) : Prop where
  size_lt : v.last - v.cur < 2 ^ 63
  done : v.Done → v.cur = v.last

theorem next_inv (hlt : v.last - v.cur < 2 ^ 63) : v.next.Inv := by
  by_cases hend : v.cur = v.last
  · rw [next, if_pos hend]
    exact ⟨hlt, fun _ => hend⟩
  · obtain ⟨-, hlast, -, hcur⟩ := next_cur hend
    exact ⟨by rw [hlast, hcur]; omega, fun hdone => absurd hdone (next_split hend hlt).1⟩

/-- Once done, the view stays done. -/
theorem Inv.next_done (hI : v.Inv) (h : v.Done) : v.next.Done := v.next_done (hI.done h)

/-- What is left after `m` calls of `next()`. -/
theorem Inv.items_iterate (hI : v.Inv) (m : ℕ) : (next^[m] v).Inv ∧
    (next^[m] v).items = v.items.drop m := by
  induction m generalizing v with
  | zero => exact ⟨hI, rfl⟩
  | succ m ih =>
    have hnext := next_inv hI.size_lt
    rw [Function.iterate_succ_apply]
    refine ⟨(ih hnext).1, (ih hnext).2.trans ?_⟩
    by_cases hdone : v.Done
    · rw [items, dif_pos (hI.next_done hdone), items, dif_pos hdone, List.drop_nil, List.drop_nil]
    · rw [items.eq_1 v, dif_neg hdone, List.drop_succ_cons]

theorem done_iff : v.Done ↔ v.items = [] := by
  by_cases h : v.Done
  · rw [items, dif_pos h]
    exact iff_of_true h rfl
  · rw [items, dif_neg h]
    exact iff_of_false h (List.cons_ne_nil _ _)

/-- Each code point yielded lies in what is left of the view, and is one to four units long. -/
theorem mem_items_next (hlt : v.last - v.cur < 2 ^ 63) {s : Span} (hs : s ∈ v.next.items) :
    (1 ≤ s.size ∧ s.size ≤ 4) ∧ s.storage = v.storage ∧ v.cur ≤ s.first ∧ s.last ≤ v.last ∧
      s.last = s.first + s.size := by
  induction hm : (v.last - v.cur).toNat using Nat.strong_induction_on generalizing v with
  | _ m ih =>
    by_cases hend : v.cur = v.last
    · rw [items, dif_pos (v.next_done hend)] at hs
      cases hs
    · obtain ⟨hstorage, hlast, hpoint, hcur⟩ := next_cur hend
      have hpos := stepOf_pos (v.storage v.cur)
      have hle := v.cur_le
      rw [items, dif_neg (next_split hend hlt).1, List.mem_cons] at hs
      rcases hs with rfl | hs
      · have hstep := stepOf_le (v.storage v.cur)
        rw [next_size hend hlt, hpoint]
        exact ⟨by omega, rfl, le_rfl, v.next.cur_le.trans_eq hlast, hcur⟩
      · obtain ⟨hsize, hst, hfirst, hl, hsl⟩ :=
          ih (v.next.last - v.next.cur).toNat (by omega) (by omega) hs rfl
        exact ⟨hsize, hst.trans hstorage, by omega, by omega, hsl⟩

end CodePointsView

/-- **`code_points` partitions any text.**  Each item has one to four units and lies inside the
text, the items concatenate to the text, and after `m` calls of `next()` the view is done exactly
when the first `m` items are the whole text. -/
theorem codePoints_partition (t : Text) :
    let view := CodePointsView.new t
    let items := codePoints t
    (∀ s ∈ items, (1 ≤ s.size ∧ s.size ≤ 4) ∧ s.storage = t.storage ∧ t.first ≤ s.first ∧
        s.last ≤ t.last ∧ s.last = s.first + s.size) ∧
      (items.map Span.units).flatten = t.units ∧
      (∀ m, (CodePointsView.next^[m] view).Done ↔
        ((items.take m).map Span.units).flatten = t.units) ∧
      ∀ m (hm : m < items.length), (CodePointsView.next^[m] view).codePoint = items[m] := by
  intro view items
  have hI : view.Inv := CodePointsView.next_inv t.size_lt
  have hflat : (items.map Span.units).flatten = t.units := by
    rw [codePoints_eq, splitLeads_flatten]
  have hmem : ∀ s ∈ items, (1 ≤ s.size ∧ s.size ≤ 4) ∧ s.storage = t.storage ∧
      t.first ≤ s.first ∧ s.last ≤ t.last ∧ s.last = s.first + s.size := fun s hs =>
    CodePointsView.mem_items_next t.size_lt hs
  have hitems : ∀ m, (CodePointsView.next^[m] view).items = items.drop m := fun m =>
    (hI.items_iterate m).2
  have hunits : ∀ s ∈ items, s.units ≠ [] := fun s hs h => by
    have hlen := congrArg List.length h
    rw [Span.units, length_block] at hlen
    exact absurd (hmem s hs).1.1 (by simp [hlen])
  refine ⟨hmem, hflat, fun m => ?_, fun m hm => ?_⟩
  · -- no item is empty, so something is left to yield as long as an item is
    have hsplit : t.units =
        ((items.take m).map Span.units).flatten ++ ((items.drop m).map Span.units).flatten := by
      rw [← List.flatten_append, ← List.map_append, List.take_append_drop, hflat]
    have hrest : ((items.drop m).map Span.units).flatten = [] ↔ items.drop m = [] := by
      cases hdrop : items.drop m with
      | nil => exact iff_of_true rfl rfl
      | cons s ss =>
        have hs : s ∈ items := List.mem_of_mem_drop (hdrop ▸ List.mem_cons_self)
        exact iff_of_false (List.append_ne_nil_of_left_ne_nil (hunits s hs) _)
          (List.cons_ne_nil s ss)
    rw [CodePointsView.done_iff, hitems m, ← hrest, hsplit, List.self_eq_append_right]
  · have hcons := hitems m
    rw [List.drop_eq_getElem_cons hm] at hcons
    have hdone := mt CodePointsView.done_iff.1 (hcons ▸ List.cons_ne_nil _ _)
    rw [CodePointsView.items, dif_neg hdone] at hcons
    exact (List.cons.inj hcons).1

/-- How many code points there are depends on the units alone. -/
theorem length_codePoints (t : Text) :
    (codePoints t).length = len t.toSpan ↔
      strays isLead stepOf 0 t.units = swallowed isLead stepOf 0 t.units := by
  rw [← length_splitLeads_iff, len_eq, ← codePoints_eq, List.length_map]

/-- **When `code_points` and `len` agree.**  They do when the continuation units of the text are
those that its leads announce, as far as the text goes; and exactly then they agree on every
beginning of the text as well. -/
theorem codePoints_len_iff (t : Text) :
    (Announced isLead stepOf 0 t.units → (codePoints t).length = len t.toSpan) ∧
      ((∀ k (hk : k ≤ t.size), (codePoints (t.window 0 k (Nat.zero_le k) hk)).length =
          len (t.window 0 k (Nat.zero_le k) hk).toSpan) ↔ Announced isLead stepOf 0 t.units) := by
  have hwindow : ∀ k (hk : k ≤ t.size),
      (t.window 0 k (Nat.zero_le k) hk).units = t.units.take k := fun k hk => by
    rw [Text.units_window, List.drop_zero, Nat.sub_zero]
  refine ⟨fun h => (length_codePoints t).2 ?_, ?_⟩
  · have hall := announced_iff.2 h t.size
    rwa [List.take_of_length_le (by simp)] at hall
  · rw [← announced_iff]
    constructor
    · intro h k
      have hle := h (min k t.size) (Nat.min_le_right k _)
      rw [length_codePoints, hwindow] at hle
      rwa [← t.length_units, ← List.take_eq_take_min] at hle
    · intro h k hk
      rw [length_codePoints, hwindow]
      exact h k

/-- A lead of three units that is followed by `a` alone: `code_points` swallows the `a`. -/
theorem codePoints_len_broken :
    let t := Text.ofUnits [0xe4, 0x61] 0 (by decide)
    (codePoints t).length = 1 ∧ len t.toSpan = 2 := by
  decide +kernel

end PythonicCpp
