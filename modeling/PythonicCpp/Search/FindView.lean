import PythonicCpp.Text.Span

/-!
# The search view

`FindView` searches a haystack for a needle: it compares the last unit of the needle first, and
after a mismatch skips ahead by a lazily computed distance.  It holds the offset of the current
match and the position to resume from, so that each call of `next` moves to the next match.

* `FindView` : the fields of the view.  Reading a field of it reads no code unit; each code unit
  read through an iterator is traced.
* `FindView.scanLast`, `FindView.compare`, `FindView.search` : the three nested loops of `next()`.
* `FindView.next`, `FindView.getSkip`, `FindView.new` : the members of the class.
* `FindView.nexts`, `FindView.offsets` : calling `next()` a number of times, and up to the end.
* `FindView.step` : one step of `next()` and `get_skip()`, from one of the points `FindView.Point`
  where they test something; `FindView.start` is the state in which the constructor calls `next()`.
* `finditer` : the view over a slice of the haystack.

The loops are total: each is a well-founded recursion on the distance to the position it stops at.
The test `++i == __haystack_end` needs `i < __haystack_end` for that, which is an argument of
`scanLast`.
-/

namespace PythonicCpp

/-- `std::string::npos`. -/
def npos : ℕ := 2 ^ 64 - 1

/-- The read of one code unit. -/
inductive Read where
  /-- Through an iterator into the haystack, at address `a`. -/
  | haystack (a : ℤ)
  /-- Through an iterator into the needle, at address `a`. -/
  | needle (a : ℤ)
  deriving DecidableEq, Repr

/-- The search view. -/
structure FindView where
  /-- `__haystack_begin` and `__haystack_end`. -/
  haystack : Span
  /-- `__haystack_cur` : where the search resumes. -/
  haystackCur : ℤ
  /-- `__needle`. -/
  needle : Span
  /-- `__found_at` : the offset of the current match, `npos` when there is none. -/
  foundAt : ℕ
  /-- `__nsize`. -/
  nsize : ℕ
  /-- `__skip` : zero until it is computed. -/
  skip : ℕ
  /-- `__last_needle`. -/
  lastNeedle : CodeUnit
  /-- The view of an empty needle is done. -/
  nsize_pos : foundAt ≠ npos → 0 < nsize

namespace FindView

variable (v : FindView)

/-- `*i` for an iterator `i` into the haystack. -/
def readHaystack (i : ℤ) : Traced Read CodeUnit := .read (.haystack i) (v.haystack.storage i)

/-- `__needle[j]`. -/
def readNeedle (j : ℕ) : Traced Read CodeUnit :=
  .read (.needle (v.needle.first + j)) (v.needle.storage (v.needle.first + j))

/-- `cursor::done()`. -/
def Done : Prop := v.foundAt = npos

instance : Decidable v.Done := inferInstanceAs (Decidable (v.foundAt = npos))

/-- `__found_at = npos`. -/
def notFound : FindView := { v with foundAt := npos, nsize_pos := absurd rfl }

/-- `__found_at = size_t(i - __haystack_begin); __haystack_cur = i + __nsize`. -/
def found (hv : 0 < v.nsize) (i : ℤ) : FindView :=
  { v with
    foundAt := toSizeT (i - v.haystack.first)
    haystackCur := i + v.nsize
    nsize_pos := fun _ => hv }

/-- `__skip = s`. -/
def setSkip (s : ℕ) : FindView := { v with skip := s }

/-- The loop of `get_skip()`. -/
def skipFrom (nsize_1 skip : ℕ) (hs : 0 < skip) : Traced Read {s : ℕ // 0 < s} := do
  if _h : skip ≤ nsize_1 then
    let c ← v.readNeedle (nsize_1 - skip)
    if c ≠ v.lastNeedle then skipFrom nsize_1 (skip + 1) (Nat.succ_pos _)
    else pure ⟨skip, hs⟩
  else pure ⟨skip, hs⟩
termination_by nsize_1 + 1 - skip

/-- `get_skip()`, which also stores the value it returns in `__skip`. -/
def getSkip : Traced Read {s : ℕ // 0 < s} :=
  if h : v.skip = 0 then v.skipFrom (v.nsize - 1) 1 Nat.one_pos
  else pure ⟨v.skip, Nat.pos_of_ne_zero h⟩

/-- The first inner loop of `next()`: step to the first position from `i` on whose last unit is
that of the needle, `none` when the end of the haystack comes first.  `lo` is a bound that the
loop stays above. -/
def scanLast (lo i : ℤ) (hlo : lo ≤ i) (hi : i < v.haystack.last) :
    Traced Read (Option {i' : ℤ // lo ≤ i' ∧ i' < v.haystack.last}) := do
  let c ← v.readHaystack (i + (v.nsize - 1 : ℕ))
  if c ≠ v.lastNeedle then
    if h : i + 1 = v.haystack.last then pure none
    else scanLast lo (i + 1) (by omega) (by omega)
  else pure (some ⟨i, hlo, hi⟩)
termination_by (v.haystack.last - i).toNat

/-- The second inner loop of `next()`: whether the needle, from its unit `j` on, is at `i`. -/
def compare (i : ℤ) (j : ℕ) (hj : j < v.nsize) : Traced Read Bool := do
  let a ← v.readHaystack (i + j)
  let b ← v.readNeedle j
  if a ≠ b then pure false
  else if h : j + 1 = v.nsize then pure true
  else compare i (j + 1) (by omega)
termination_by v.nsize - j

/-- The outer loop of `next()`, at position `i`. -/
def search (v : FindView) (hv : 0 < v.nsize) (i : ℤ) : Traced Read FindView := do
  if hi : i < v.haystack.last then
    match ← v.scanLast i i le_rfl hi with
    | none => pure v.notFound
    | some i' =>
      if ← v.compare i' 0 hv then pure (v.found hv i')
      else
        -- the last unit matches, another one does not
        let s ← v.getSkip
        search (v.setSkip s) hv (i' + (s : ℕ))
  else pure v.notFound
termination_by (v.haystack.last - i).toNat
decreasing_by simp only [setSkip]; omega

/-- `next()`. -/
def next : Traced Read FindView :=
  if h : v.Done then pure v else v.search (v.nsize_pos h) v.haystackCur

/-- The constructor.  The last unit of the needle is read before any size is looked at. -/
def new (haystack needle : Span) : Traced Read FindView := do
  -- `ranges::back(needle)`, also of an empty needle
  let lastNeedle ← .read (.needle (needle.last - 1)) (needle.storage (needle.last - 1))
  if haystack.size < needle.size then
    pure ⟨haystack, haystack.first, needle, npos, needle.size, 0, lastNeedle, absurd rfl⟩
  else if h : needle.size = 0 then
    pure ⟨haystack, haystack.first, needle, npos, needle.size, 0, lastNeedle, absurd rfl⟩
  else
    next ⟨haystack, haystack.first, needle, 0, needle.size, 0, lastNeedle,
      fun _ => Nat.pos_of_ne_zero h⟩

/-- `m` calls of `next()`. -/
def nexts : ℕ → FindView → Traced Read FindView
  | 0, v => pure v
  | m + 1, v => do nexts m (← v.next)

/-! ### Step by step -/

/-- Where the control is: the loops of `next()` and `get_skip()`, and the values of their local
variables. -/
inductive Point where
  /-- `if (__found_at == npos)`. -/
  | entry
  /-- `while (i < __haystack_end)`. -/
  | outer (i : ℤ)
  /-- `while (i[nsize_1] != __last_needle)`. -/
  | scan (i : ℤ)
  /-- `if (i[j] != __needle[j])`. -/
  | compare (i : ℤ) (j : ℕ)
  /-- `get_skip()` is called: `if (__skip == 0)`. -/
  | getSkip (i : ℤ)
  /-- `while (__skip <= nsize_1 && ..)`. -/
  | skipLoop (i : ℤ)
  /-- `get_skip()` has returned: `i += __skip`. -/
  | skipped (i : ℤ)
  /-- `next()` has returned. -/
  | ret

/-- The control and the view. -/
structure State where
  /-- Where the control is. -/
  point : Point
  /-- The view. -/
  view : FindView

/-- One step.  The ends of the inner loops are tests of equality, as in the source.  Only a view of
a needle that is not empty gets past the entry, so `nsize_1` does not wrap. -/
def step : State → Option (Traced Read State)
  | ⟨.entry, v⟩ => some (pure (if v.Done then ⟨.ret, v⟩ else ⟨.outer v.haystackCur, v⟩))
  | ⟨.outer i, v⟩ =>
    some (pure (if i < v.haystack.last then ⟨.scan i, v⟩ else ⟨.ret, v.notFound⟩))
  | ⟨.scan i, v⟩ => some do
    let c ← v.readHaystack (i + (v.nsize - 1 : ℕ))
    pure <|
      if c ≠ v.lastNeedle then
        -- `++i == __haystack_end`
        if i + 1 = v.haystack.last then ⟨.ret, v.notFound⟩ else ⟨.scan (i + 1), v⟩
      else ⟨.compare i 0, v⟩
  | ⟨.compare i j, v⟩ => some do
    let a ← v.readHaystack (i + j)
    let b ← v.readNeedle j
    pure <|
      if a ≠ b then ⟨.getSkip i, v⟩
      -- `++j == __nsize`
      else if h : j + 1 = v.nsize then ⟨.ret, v.found (h ▸ Nat.succ_pos j) i⟩
      else ⟨.compare i (j + 1), v⟩
  | ⟨.getSkip i, v⟩ =>
    some (pure (if v.skip = 0 then ⟨.skipLoop i, v.setSkip 1⟩ else ⟨.skipped i, v⟩))
  | ⟨.skipLoop i, v⟩ =>
    if v.skip ≤ v.nsize - 1 then some do
      let c ← v.readNeedle (v.nsize - 1 - v.skip)
      pure (if c ≠ v.lastNeedle then ⟨.skipLoop i, v.setSkip (v.skip + 1)⟩ else ⟨.skipped i, v⟩)
    else some (pure ⟨.skipped i, v⟩)
  | ⟨.skipped i, v⟩ => some (pure ⟨.outer (i + v.skip), v⟩)
  | ⟨.ret, _⟩ => none

/-- The constructor, up to its call of `next()`. -/
def start (haystack needle : Span) : Traced Read State := do
  let lastNeedle ← .read (.needle (needle.last - 1)) (needle.storage (needle.last - 1))
  if haystack.size < needle.size then
    pure ⟨.ret, haystack, haystack.first, needle, npos, needle.size, 0, lastNeedle, absurd rfl⟩
  else if h : needle.size = 0 then
    pure ⟨.ret, haystack, haystack.first, needle, npos, needle.size, 0, lastNeedle, absurd rfl⟩
  else
    pure ⟨.entry, haystack, haystack.first, needle, 0, needle.size, 0, lastNeedle,
      fun _ => Nat.pos_of_ne_zero h⟩

end FindView

/-- `finditer(haystack, needle, start, end)`. -/
def finditer (haystack needle : Span) (start : ℕ) (stop : End) : Traced Read FindView :=
  FindView.new (haystack.slice start stop) needle

end PythonicCpp
