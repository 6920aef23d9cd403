import PythonicCpp.Search.Reads

/-!
# `endswith`

`endswith` compares the needle with the slice of the window that is counted back from its end by
the size of the needle.  Nothing checks that this slice begins inside the window.

* `equal`, `equalFrom` : `ranges::equal` of two sized ranges, and its loop.
* `endswith` : the function.
* `endswith_iff` : when `endswith` decides the suffix of the window and compares nothing outside it.
-/

namespace PythonicCpp

open Scan

/-- The loop of `ranges::equal`, with `n` units of the first range and `k` of the second to go. -/
def equalFrom (haystack needle : ℤ → CodeUnit) (begin0 begin1 : ℤ) : ℕ → ℕ → Traced Read Bool
  | n + 1, k + 1 => do
    let a ← .read (.haystack begin0) (haystack begin0)
    let b ← .read (.needle begin1) (needle begin1)
    if a = b then equalFrom haystack needle (begin0 + 1) (begin1 + 1) n k else pure false
  | 0, 0 => pure true
  | _, _ => pure false

/-- `ranges::equal(haystack, needle)`: the sizes are compared first. -/
def equal (haystack needle : Span) : Traced Read Bool :=
  if toPtrdiff haystack.size ≠ toPtrdiff needle.size then pure false
  else
    equalFrom haystack.storage needle.storage haystack.first needle.first haystack.size needle.size

/-- `endswith(haystack, needle, start, end)`. -/
def endswith (haystack needle : Span) (start : ℕ) (stop : End) : Traced Read Bool :=
  let needleLen := needle.size
  equal ((haystack.slice start stop).sliceFromEnd needleLen) needle

variable {W D : Text}

/-! ### The comparison -/

theorem equalFrom_val (m m' : ℤ → CodeUnit) (a a' : ℤ) (n : ℕ) :
    (equalFrom m m' a a' n n).val = true ↔ block m a n = block m' a' n := by
  induction n generalizing a a' with
  | zero => simp [equalFrom]
  | succ n ih =>
    rw [equalFrom, Traced.val_bind, Traced.val_bind, Traced.val_read, Traced.val_read, block_succ,
      block_succ, List.cons.injEq]
    split_ifs with hab
    · rw [ih, and_iff_right hab]
    · exact iff_of_false (by simp) fun h => hab h.1

/-- The comparison reads what it compares, and always the first unit. -/
theorem equalFrom_inBounds (m m' : ℤ → CodeUnit) {a a' : ℤ} {n : ℕ} (ha : a + n ≤ W.last)
    (hD : D.first ≤ a') (hn : a' + n ≤ D.last) :
    (equalFrom m m' a a' n n).All (Read.InBounds W D) ↔ n = 0 ∨ W.first ≤ a := by
  induction n generalizing a a' with
  | zero => simp [equalFrom]
  | succ n ih =>
    have hneedle : Read.InBounds W D (.needle a') := ⟨hD, by omega⟩
    have hhay : Read.InBounds W D (.haystack a) ↔ W.first ≤ a := by
      rw [Read.InBounds]
      omega
    rw [equalFrom, Traced.all_bind, Traced.all_bind, Traced.all_read, Traced.all_read,
      and_iff_right hneedle, hhay, or_iff_right (Nat.succ_ne_zero n)]
    refine and_iff_left_of_imp fun hle => ?_
    rw [Traced.val_read, Traced.val_read]
    split_ifs
    · exact (ih (by omega) (by omega) (by omega)).2 (.inr (by omega))
    · exact Traced.all_pure _

/-- The slice that `endswith` compares ends with the window and has the size of the needle,
wherever the window begins; for an empty needle it is an empty one. -/
theorem sliceFromEnd_eq (W D : Text) :
    ∃ a : ℤ, W.sliceFromEnd D.size = ⟨W.storage, a, a + D.size⟩ ∧
      (a = W.last - D.size ∨ D.size = 0 ∧ a = W.first) := by
  have hsize : toPtrdiff D.size = D.size := by
    have := D.size_lt'
    exact toPtrdiff_of_lt (by omega) (by omega)
  rw [Span.sliceFromEnd, hsize, neg_neg]
  refine ⟨_, rfl, ?_⟩
  split_ifs
  · exact .inl (by omega)
  · exact .inr ⟨by omega, by omega⟩

/-- The comparison of the needle with the units before the end of the window, on which nothing
depends where the window begins. -/
theorem equal_sliceFromEnd (W D : Text) :
    ((equal (W.sliceFromEnd D.size) D.toSpan).val = true ↔
        block W.storage (W.last - D.size) D.size = D.units) ∧
      ((equal (W.sliceFromEnd D.size) D.toSpan).All (Read.InBounds W D) ↔ D.size ≤ W.size) := by
  obtain ⟨a, hslice, ha⟩ := sliceFromEnd_eq W D
  have hsize : (Span.mk W.storage a (a + D.size)).size = D.size :=
    Span.size_of_last rfl (D.size_lt'.trans (by decide))
  have hlast := D.last_eq
  have hWlast := W.last_eq
  rw [hslice, equal, if_neg (by rw [hsize, not_not]), hsize]
  dsimp only
  refine ⟨?_, ?_⟩
  · rw [equalFrom_val]
    rcases ha with rfl | ⟨hzero, -⟩
    · rfl
    · rw [Span.units, hzero]
      exact iff_of_true rfl rfl
  · rw [equalFrom_inBounds _ _ (by omega) le_rfl (by omega)]
    omega

/-- **When `endswith` decides the suffix of the window**: its result is the right one and it
compares nothing outside the window exactly when the needle is not longer than the window.  For a
longer needle the slice it compares begins before the window. -/
theorem endswith_iff (H D : Text) (start stop : ℕ) (h : start ≤ stop) (hstop : stop ≤ H.size) :
    ((endswith H.toSpan D.toSpan start (.pos stop)).val = true ↔
          D.size ≤ stop - start ∧ (H.units.drop (stop - D.size)).take D.size = D.units) ∧
        (endswith H.toSpan D.toSpan start (.pos stop)).All
          (Read.InBounds (H.window start stop h hstop) D) ↔
      D.size ≤ stop - start := by
  obtain ⟨hval, hreads⟩ := equal_sliceFromEnd (H.window start stop h hstop) D
  rw [endswith, H.slice_pos h hstop, hval, hreads, H.size_window]
  refine ⟨fun h => h.2, fun hle => ⟨?_, hle⟩⟩
  have hlast : (H.window start stop h hstop).last - D.size = H.first + (stop - D.size : ℕ) := by
    simp only [Text.window]
    omega
  rw [and_iff_right hle, hlast, H.drop_take_units (by omega)]
  rfl

theorem endswith_hello :
    (endswith (Text.ofUnits [104, 101, 108, 108, 111] 0 (by decide)).toSpan
      (Text.ofUnits [108, 111] 0 (by decide)).toSpan 2 (.pos 5)).val = true := by
  have h := (endswith_iff (Text.ofUnits [104, 101, 108, 108, 111] 0 (by decide))
    (Text.ofUnits [108, 111] 0 (by decide)) 2 5 (by decide) (by decide)).2 (by decide)
  exact h.1.2 (by decide)

/-- The window `lo` of `hello` ends with `ello`: the comparison begins before the window. -/
theorem endswith_before_window :
    let H := Text.ofUnits [104, 101, 108, 108, 111] 0 (by decide)
    let D := Text.ofUnits [101, 108, 108, 111] 0 (by decide)
    (endswith H.toSpan D.toSpan 3 (.pos 5)).val = true ∧ ¬ D.size ≤ 5 - 3 ∧
      Read.haystack 1 ∈ (endswith H.toSpan D.toSpan 3 (.pos 5)).reads := by
  decide +kernel

end PythonicCpp
