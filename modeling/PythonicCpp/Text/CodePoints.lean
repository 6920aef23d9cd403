import PythonicCpp.Text.Span
import PythonicCpp.Scan.LeadCode

/-!
# `len` and `code_points`

Two independent classifications of code units: `len` counts the units that do not continue a code
point, `CodePointsView` steps over as many units as the first one of a code point tells.

* `len` : the loop of the function.
* `CodePointsView`, `CodePointsView.next`, `CodePointsView.new` : the view and its members.
* `CodePointsView.items` : the code points the view yields up to its end; `codePoints` are those
  of a text.
* `len_eq`, `codePoints_eq` : both as functions of the units of the text.
-/

namespace PythonicCpp

open Scan

/-! ### `len` -/

/-- `(c & 0xc0) != 0x80`. -/
def isLead (c : CodeUnit) : Bool := c &&& 0xc0 != 0x80

/-- The loop of `len`, with `n` units to go. -/
def lenFrom (storage : ℤ → CodeUnit) (cur : ℤ) (length : ℕ) : ℕ → ℕ
  | 0 => length
  | n + 1 => lenFrom storage (cur + 1) (if isLead (storage cur) then length + 1 else length) n

/-- `len(rng)`. -/
def len (rng : Span) : ℕ := lenFrom rng.storage rng.first 0 rng.size

theorem lenFrom_eq (storage : ℤ → CodeUnit) (cur : ℤ) (length n : ℕ) :
    lenFrom storage cur length n = length + (block storage cur n).countP isLead := by
  induction n generalizing cur length with
  | zero => rfl
  | succ n ih =>
    rw [lenFrom, ih, block_succ, List.countP_cons]
    split_ifs <;> omega

/-- **`len` counts the units that begin a code point.** -/
theorem len_eq (rng : Span) : len rng = rng.units.countP isLead := by
  rw [len, lenFrom_eq, Nat.zero_add, Span.units]

/-! ### `code_points` -/

/-- The number of units `CodePointsView::next` steps over. -/
def stepOf (code : CodeUnit) : ℕ :=
  if code ≤ 0xc1 then 1 else if code ≤ 0xdf then 2 else if code ≤ 0xef then 3 else 4

theorem stepOf_pos (code : CodeUnit) : 0 < stepOf code := by
  unfold stepOf
  split_ifs <;> decide

theorem stepOf_le (code : CodeUnit) : stepOf code ≤ 4 := by
  unfold stepOf
  split_ifs <;> decide

/-- `ranges::next(it, n, bound)` for `n` that is not negative. -/
def boundedNext (it : ℤ) (n : ℕ) (bound : ℤ) : ℤ := if n ≥ bound - it then bound else it + n

/-- The view of code points. -/
structure CodePointsView where
  /-- The storage its iterators point into. -/
  storage : ℤ → CodeUnit
  /-- `__cur` : where the next code point begins. -/
  cur : ℤ
  /-- `__end`. -/
  last : ℤ
  /-- `__code_point` : the current code point. -/
  codePoint : Span
  /-- The view does not run past its end. -/
  cur_le : cur ≤ last

namespace CodePointsView

variable (v : CodePointsView)

/-- `cursor::done()`. -/
def Done : Prop := v.codePoint.size = 0

instance : Decidable v.Done := inferInstanceAs (Decidable (v.codePoint.size = 0))

/-- `next()`. -/
def next : CodePointsView :=
  if v.cur = v.last then { v with codePoint := ⟨v.storage, 0, 0⟩ }
  else
    let codePointEnd := boundedNext v.cur (stepOf (v.storage v.cur)) v.last
    { v with
      codePoint := ⟨v.storage, v.cur, codePointEnd⟩
      cur := codePointEnd
      cur_le := by
        change boundedNext _ _ _ ≤ _
        unfold boundedNext
        split_ifs <;> omega }

/-- The constructor. -/
def new (rng : Text) : CodePointsView :=
  next ⟨rng.storage, rng.first, rng.last, ⟨rng.storage, 0, 0⟩, rng.first_le⟩

/-- What is left of the view. -/
def measure : ℕ := 2 * (v.last - v.cur).toNat + if v.Done then 0 else 1

theorem next_done (h : v.cur = v.last) : v.next.Done := by
  rw [next, if_pos h]
  rfl

variable {v}

/-- `next()` steps to the end of the next code point: as many units as its first unit tells, or up
to the end. -/
theorem next_cur (h : v.cur ≠ v.last) :
    v.next.storage = v.storage ∧ v.next.last = v.last ∧
      v.next.codePoint = ⟨v.storage, v.cur, v.next.cur⟩ ∧
      v.next.cur = v.cur + (min (stepOf (v.storage v.cur)) (v.last - v.cur).toNat : ℕ) := by
  have hle := v.cur_le
  rw [next, if_neg h]
  refine ⟨rfl, rfl, rfl, ?_⟩
  simp only [boundedNext]
  split_ifs <;> omega

/-- **Each call of `next()` makes progress.** -/
theorem next_progress (h : ¬ v.Done) : v.next.measure < v.measure := by
  by_cases hend : v.cur = v.last
  · have hcur : v.next.cur = v.cur ∧ v.next.last = v.last := by
      rw [next, if_pos hend]
      exact ⟨rfl, rfl⟩
    rw [measure, measure, if_pos (v.next_done hend), if_neg h, hcur.1, hcur.2]
    omega
  · obtain ⟨-, hlast, -, hcur⟩ := next_cur hend
    have hpos := stepOf_pos (v.storage v.cur)
    have hle := v.cur_le
    rw [measure, measure, if_neg h, hlast, hcur]
    split_ifs <;> omega

/-- The code points the view yields when it is iterated up to its end. -/
def items (v : CodePointsView) : List Span :=
  if _h : v.Done then [] else v.codePoint :: items v.next
termination_by v.measure
decreasing_by exact next_progress _h

/-- The first part of what is stored, split by leads, and what is left after it. -/
theorem splitLeads_block {m : ℤ → CodeUnit} {a : ℤ} {n : ℕ} (hn : 0 < n) :
    splitLeads stepOf (block m a n) =
      block m a (min (stepOf (m a)) n) ::
        splitLeads stepOf
          (block m (a + (min (stepOf (m a)) n : ℕ)) (n - min (stepOf (m a)) n)) := by
  obtain ⟨k, rfl⟩ := Nat.exists_eq_succ_of_ne_zero hn.ne'
  rw [block_succ, splitLeads_cons _ (stepOf_pos _), ← block_succ, take_block, drop_block]
  rcases Nat.le_total (stepOf (m a)) k.succ with hle | hle
  · rw [Nat.min_eq_left hle]
  · rw [Nat.min_eq_right hle, Nat.sub_eq_zero_of_le hle, Nat.sub_self, block_zero, block_zero]

/-- Where the view is not at its end, `next()` shows as many units as the lead tells, or what is
left. -/
theorem next_size (h : v.cur ≠ v.last) (hlt : v.last - v.cur < 2 ^ 63) :
    v.next.codePoint.size = min (stepOf (v.storage v.cur)) (v.last - v.cur).toNat := by
  obtain ⟨-, -, hpoint, hcur⟩ := next_cur h
  rw [hpoint]
  exact Span.size_of_last hcur (by omega)

/-- Where the view is not at its end, `next()` shows the first part of what is left, split by
leads, and leaves the rest. -/
theorem next_split (h : v.cur ≠ v.last) (hlt : v.last - v.cur < 2 ^ 63) :
    ¬ v.next.Done ∧
      splitLeads stepOf (block v.storage v.cur (v.last - v.cur).toNat) =
        v.next.codePoint.units ::
          splitLeads stepOf (block v.storage v.next.cur (v.last - v.next.cur).toNat) := by
  obtain ⟨-, -, hpoint, hcur⟩ := next_cur h
  have hpos := stepOf_pos (v.storage v.cur)
  have hle := v.cur_le
  have hsize := next_size h hlt
  have hrest : (v.last - v.next.cur).toNat =
      (v.last - v.cur).toNat - min (stepOf (v.storage v.cur)) (v.last - v.cur).toNat := by
    omega
  refine ⟨by rw [Done, hsize]; omega, ?_⟩
  rw [splitLeads_block (by omega), Span.units, hsize, hrest, hpoint, hcur]

/-- **The view yields what is left of it, split by leads.** -/
theorem items_next (hlt : v.last - v.cur < 2 ^ 63) :
    v.next.items.map Span.units =
      splitLeads stepOf (block v.storage v.cur (v.last - v.cur).toNat) := by
  induction hm : (v.last - v.cur).toNat using Nat.strong_induction_on generalizing v with
  | _ m ih =>
    by_cases hend : v.cur = v.last
    · have hm₀ : m = 0 := by omega
      rw [items, dif_pos (v.next_done hend), hm₀, block_zero, splitLeads, List.map_nil]
    · obtain ⟨hdone, hsplit⟩ := next_split hend hlt
      obtain ⟨hstorage, hlast, -, hcur⟩ := next_cur hend
      have hpos := stepOf_pos (v.storage v.cur)
      have hle := v.cur_le
      have hrest := ih (v.next.last - v.next.cur).toNat (by omega) (by omega) rfl
      rw [items, dif_neg hdone, List.map_cons, hrest, ← hm, hsplit, hstorage, hlast]

end CodePointsView

/-- `code_points(rng)`, as the list of what it yields. -/
def codePoints (rng : Text) : List Span := (CodePointsView.new rng).items

/-- **`code_points` splits a text by leads.** -/
theorem codePoints_eq (rng : Text) :
    (codePoints rng).map Span.units = splitLeads stepOf rng.units := by
  have hsize : rng.size = (rng.last - rng.first).toNat := by
    have := rng.coe_size
    omega
  rw [codePoints, CodePointsView.new, CodePointsView.items_next rng.size_lt, Span.units, hsize]

end PythonicCpp
