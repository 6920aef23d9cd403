import PythonicCpp.Machine.Basic
import PythonicCpp.Machine.Memory

/-!
# Ranges of code units and their slices

The functions of the library take random access ranges of code units: string views, strings and
slices of these.  Such a range is a pair of pointers into some storage.

* `Span` : any pair of pointers, as pointer arithmetic can produce it.
* `Text` : a span that is a real range: it does not run backwards, and its length is a
  `ptrdiff_t`.
* `Span.slice`, `Span.sliceFromEnd` : the three forms of `view::slice` in use.  None of them looks
  at the size of the range.
* `Text.window` : the slices that stay inside the text.
-/

namespace PythonicCpp

/-- A code unit (`char`), as its eight bits. -/
abbrev CodeUnit := UInt8

/-- A random access range of code units. -/
structure Span where
  /-- The storage the range points into. -/
  storage : ℤ → CodeUnit
  /-- `begin()`. -/
  first : ℤ
  /-- `end()`. -/
  last : ℤ

/-- The end position of a slice: `ranges::end`, or a number of code units. -/
inductive End where
  /-- `ranges::end`. -/
  | rangesEnd
  /-- Position `n`. -/
  | pos (n : ℕ)

namespace Span

/-- `ranges::size`. -/
def size (s : Span) : ℕ := toSizeT (s.last - s.first)

/-- The code units of the range. -/
def units (s : Span) : List CodeUnit := block s.storage s.first s.size

/-- `view::slice(start, end)`.  With `ranges::end` this is `view::drop_exactly(start)`. -/
def slice (s : Span) (start : ℕ) : End → Span
  | .rangesEnd => { s with first := s.first + toPtrdiff start }
  | .pos stop =>
    let it := s.first + toPtrdiff start
    ⟨s.storage, it, it + (toPtrdiff stop - toPtrdiff start)⟩

/-- `view::slice(ranges::end - dist, ranges::end)`: `pos_at_` counts a negative position from the
end and any other from the beginning. -/
def sliceFromEnd (s : Span) (dist : ℕ) : Span :=
  let pos := -toPtrdiff dist
  let it := if 0 > pos then s.last + pos else s.first + pos
  ⟨s.storage, it, it + -pos⟩

theorem size_of_last {s : Span} {n : ℕ} (h : s.last = s.first + n) (hn : n < 2 ^ 64) :
    s.size = n := by
  rw [size, h, add_sub_cancel_left, toSizeT_natCast hn]

theorem slice_zero (s : Span) : s.slice 0 .rangesEnd = s := by
  simp [slice, toPtrdiff]

/-- A part of the units of a range, as it is stored. -/
theorem drop_take_units (s : Span) {i k : ℕ} (h : i + k ≤ s.size) :
    (s.units.drop i).take k = block s.storage (s.first + i) k := by
  rw [units, drop_block, take_block, Nat.min_eq_left (by omega)]

end Span

/-- A range that does not run backwards and whose length fits a `ptrdiff_t`, as that of every
object does. -/
structure Text extends Span where
  first_le : first ≤ last
  size_lt : last - first < 2 ^ 63

namespace Text

variable (t : Text)

theorem coe_size : (t.size : ℤ) = t.last - t.first := by
  have := t.first_le
  have := t.size_lt
  exact toSizeT_of_lt (by omega) (by omega)

theorem size_lt' : t.size < 2 ^ 63 := by
  have := t.size_lt
  have := t.coe_size
  omega

theorem last_eq : t.last = t.first + t.size := by
  have := t.coe_size
  omega

@[simp] theorem length_units : t.units.length = t.size := length_block ..

theorem units_eq_nil_iff : t.units = [] ↔ t.size = 0 := by
  rw [← List.length_eq_zero_iff, length_units]

/-- The unit stored right after the text. -/
def next : CodeUnit := t.storage t.last

/-- A text of its own with the units of `l`, followed by `x`. -/
def ofUnits (l : List CodeUnit) (x : CodeUnit) (h : l.length < 2 ^ 63) : Text where
  storage := ofList l x
  first := 0
  last := l.length
  first_le := Int.natCast_nonneg _
  size_lt := by omega

@[simp] theorem size_ofUnits {l : List CodeUnit} {x : CodeUnit} (h : l.length < 2 ^ 63) :
    (ofUnits l x h).size = l.length := by
  have := (ofUnits l x h).coe_size
  simpa [ofUnits] using this

@[simp] theorem units_ofUnits {l : List CodeUnit} {x : CodeUnit} (h : l.length < 2 ^ 63) :
    (ofUnits l x h).units = l := by
  rw [Span.units, size_ofUnits]
  exact block_ofList l x

/-! ### Windows -/

/-- The window `[start, stop)` of the text, in the storage of the text. -/
def window (start stop : ℕ) (h : start ≤ stop) (hstop : stop ≤ t.size) : Text where
  storage := t.storage
  first := t.first + start
  last := t.first + stop
  first_le := by omega
  size_lt := by have := t.size_lt'; omega

variable {start stop : ℕ} (h : start ≤ stop) (hstop : stop ≤ t.size)

@[simp] theorem size_window : (t.window start stop h hstop).size = stop - start := by
  have := (t.window start stop h hstop).coe_size
  simp only [window] at this ⊢
  omega

theorem units_window :
    (t.window start stop h hstop).units = (t.units.drop start).take (stop - start) := by
  rw [Span.units, size_window, t.drop_take_units (by omega)]
  rfl

theorem slice_pos : t.slice start (.pos stop) = (t.window start stop h hstop).toSpan := by
  have := t.size_lt'
  simp only [Span.slice, window, Span.mk.injEq, true_and]
  rw [toPtrdiff_of_lt (x := start), toPtrdiff_of_lt (x := stop)] <;> omega

theorem slice_rangesEnd (h : start ≤ t.size) :
    t.slice start .rangesEnd = (t.window start t.size h le_rfl).toSpan := by
  have := t.size_lt'
  have := t.last_eq
  simp only [Span.slice, window, Span.mk.injEq, true_and]
  rw [toPtrdiff_of_lt (x := start)] <;> omega

end Text

end PythonicCpp
