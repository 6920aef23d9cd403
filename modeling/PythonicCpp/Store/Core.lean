import PythonicCpp.Machine.Basic
import PythonicCpp.Machine.Blocks
import PythonicCpp.Machine.Words
import PythonicCpp.Text.Span

/-!
# `fbstring_core`

The strings that the library returns keep a short text in place, a text of medium length in a block
of its own, and a long one in a block with a reference count that copies of the string share.

* `Core` : the data members.  `MediumLarge` are those of a string whose text is not in place.
* `Core.size`, `Core.capacity` : the observers.
* `construct`, `copy`, `destroy` : the constructors and the destructor.
* `Core.reserve`, `Core.expandNoinit`, `Core.shrink`, `mutableDataLarge` : the operations.  Each
  allocates before it changes anything, so that a string is as it was when the allocation fails.
-/

namespace PythonicCpp

/-- A unit in memory, indeterminate until it is written. -/
abbrev Cell := Option CodeUnit

namespace FbString

/-- An action on the heap. -/
abbrev Mem := Action (Heap Cell)

/-- `Category`, of a string whose text is not in place. -/
inductive Category where
  /-- `isMedium`: the text has a block of its own. -/
  | isMedium
  /-- `isLarge`: the block begins with a reference count. -/
  | isLarge
  deriving DecidableEq, Repr

/-- `category_type`. -/
def Category.bits : Category → ℕ
  | isMedium => 0x8000000000000000
  | isLarge => 0x4000000000000000

/-- `categoryExtractMask`. -/
def categoryExtractMask : ℕ := 0xC000000000000000

/-- `capacityExtractMask`. -/
def capacityExtractMask : ℕ := 0x3FFFFFFFFFFFFFFF

/-- The category whose bits are in a word.  With both of the bits it is none. -/
def Category.ofWord (capacity_ : ℕ) : Option Category :=
  if capacity_ &&& categoryExtractMask = isMedium.bits then some isMedium
  else if capacity_ &&& categoryExtractMask = isLarge.bits then some isLarge
  else none

/-- `MediumLarge`.  The two top bits of its `capacity_` are the category. -/
structure MediumLarge where
  /-- `data_`, as the address of its block. -/
  data : ℕ
  /-- `size_`. -/
  size : ℕ
  /-- `capacity_`, without the category. -/
  capacity : ℕ
  /-- The category. -/
  category : Category
  deriving DecidableEq, Repr

/-- The data members of `fbstring_core`. -/
inductive Core where
  /-- `small_`.  The last cell tells how much room is left. -/
  | small (cells : List Cell)
  /-- `ml_`. -/
  | ml (m : MediumLarge)
  deriving DecidableEq, Repr

/-- `maxSmallSize`. -/
def maxSmallSize : ℕ := 23

/-- `maxMediumSize`. -/
def maxMediumSize : ℕ := 254

/-- `sizeof(RefCounted)`: the counter, one unit, and padding. -/
def sizeofRefCounted : ℕ := 16

/-- `sizeof(refCount_)`. -/
def sizeofRefCount : ℕ := 8

/-! ### Categories -/

theorem Category.or_bits {n : ℕ} (hn : n < 2 ^ 62) (cat : Category) :
    n ||| cat.bits = cat.bits + n := by
  cases cat with
  | isMedium => exact or_tag hn (k := 2)
  | isLarge => exact or_tag hn (k := 1)

/-- A capacity below `2 ^ 62` leaves the category as it is, and is read back. -/
theorem Category.ofWord_or_bits {n : ℕ} (hn : n < 2 ^ 62) (cat : Category) :
    ofWord (n ||| cat.bits) = some cat ∧ (n ||| cat.bits) &&& capacityExtractMask = n := by
  rw [or_bits hn, ofWord, categoryExtractMask, capacityExtractMask, and_top_bits, and_low_bits]
  cases cat with
  | isMedium =>
    have hdiv : (isMedium.bits + n) / 2 ^ 62 % 4 = 2 := by
      simp only [bits]
      omega
    refine ⟨by rw [hdiv]; rfl, ?_⟩
    simp only [bits]
    omega
  | isLarge =>
    have hdiv : (isLarge.bits + n) / 2 ^ 62 % 4 = 1 := by
      simp only [bits]
      omega
    refine ⟨by rw [hdiv]; rfl, ?_⟩
    simp only [bits]
    omega

/-! ### Allocation -/

/-- `goodMallocSize`. -/
def goodMallocSize (minSize : ℕ) : ℕ := if minSize = 0 then 0 else minSize

@[simp] theorem goodMallocSize_eq (n : ℕ) : goodMallocSize n = n := by
  unfold goodMallocSize
  split_ifs with hn
  · exact hn.symm
  · rfl

/-- A new block of `size` bytes, for units alone. -/
def newBlock (size : ℕ) : Block Cell := ⟨none, List.replicate size none, nofun⟩

/-- A new block of `size` bytes that begins with a counter, which is one. -/
def newCounted (size : ℕ) : Block Cell :=
  ⟨some 1, List.replicate (size - sizeofRefCount) none, by decide⟩

/-- `checkedMalloc`, for units alone. -/
def checkedMalloc (size : ℕ) : Mem ℕ := allocate size (newBlock size)

/-- `free`, of a block that has no counter. -/
def free (p : ℕ) : Mem Unit := do
  let b ← lookup p
  check (b.refs = none)
  set ((← get).erase p)

/-- `smartRealloc`.  `header` is the size of the counter in front of the units, zero without one.
The block may stay where it is; as no caller can tell, it moves. -/
def smartRealloc (p header currentSize currentCapacity newCapacity : ℕ) : Mem ℕ := do
  let b ← lookup p
  check (currentSize ≤ currentCapacity ∧ currentCapacity < newCapacity)
  let slack := currentCapacity - currentSize
  -- with too much slack only the part in use is copied
  let copied := if slack * 2 > currentSize then currentSize else header + b.cells.length
  check (header ≤ copied ∧ copied ≤ header + b.cells.length)
  let cells := b.cells.take (copied - header) ++ List.replicate newCapacity none
  let result ← allocate newCapacity ⟨b.refs, cells.take (newCapacity - header), b.pos⟩
  set ((← get).erase p)
  pure result

namespace RefCounted

/-- `RefCounted::refs`. -/
def refs (p : ℕ) : Mem ℕ := do
  let b ← lookup p
  demand b.refs

/-- `RefCounted::incrementRefs`. -/
def incrementRefs (p : ℕ) : Mem Unit := do
  let r ← refs p
  set ((← get).setRefs p (r + 1) r.succ_ne_zero)

/-- `RefCounted::decrementRefs`. -/
def decrementRefs (p : ℕ) : Mem Unit := do
  match ← refs p with
  | 0 => throw .undefined
  | 1 => set ((← get).erase p)
  | r + 2 => set ((← get).setRefs p (r + 1) r.succ_ne_zero)

/-- `RefCounted::create(&size)`: the new block, and the new value of `size`. -/
def create (size : ℕ) : Mem (ℕ × ℕ) := do
  let allocSize := goodMallocSize (toSizeT (sizeofRefCounted + size))
  let result ← allocate allocSize (newCounted allocSize)
  -- the counter is written into the block
  check (sizeofRefCount ≤ allocSize)
  pure (result, toSizeT ((allocSize : ℤ) - sizeofRefCounted))

/-- `RefCounted::reallocate`. -/
def reallocate (data currentSize currentCapacity newCapacity : ℕ) : Mem ℕ := do
  check (0 < newCapacity ∧ currentSize < newCapacity)
  check ((← refs data) = 1)
  smartRealloc data sizeofRefCount (toSizeT (sizeofRefCounted + currentSize))
    (toSizeT (sizeofRefCounted + currentCapacity)) (toSizeT (sizeofRefCounted + newCapacity))

end RefCounted

open RefCounted

/-- The string with `setCapacity(cap, cat)`.  Bits of the capacity may fall on those of the
category, and are read as such. -/
def setCapacity (data size cap : ℕ) (cat : Category) : Mem Core := do
  let capacity_ := cap ||| cat.bits
  -- a string of no category does not get past the assertions on its capacity
  let category ← demand (Category.ofWord capacity_)
  pure (.ml ⟨data, size, capacity_ &&& capacityExtractMask, category⟩)

/-! ### Strings in place -/

/-- `smallSize`. -/
def smallSize (cells : List Cell) : Mem ℕ := do
  let last ← demand cells[maxSmallSize]?
  let smallShifted ← demand last
  check (smallShifted.toNat ≤ maxSmallSize)
  pure (maxSmallSize - smallShifted.toNat)

/-- `setSmallSize`. -/
def setSmallSize (cells : List Cell) (s : ℕ) : Mem Core := do
  check (s ≤ maxSmallSize)
  let cells := cells.set maxSmallSize (some (UInt8.ofNat (maxSmallSize - s)))
  pure (.small (cells.set s (some 0)))

/-- What `reset` leaves in `small_`. -/
def resetCells : List Cell :=
  some 0 :: List.replicate 15 none ++ List.replicate 7 (some 0) ++
    [some (UInt8.ofNat maxSmallSize)]

/-- `reset`: the empty string. -/
def reset : Core := .small resetCells

/-! ### Observers -/

/-- `size`. -/
def Core.size : Core → Mem ℕ
  | small cells => smallSize cells
  | ml m => pure m.size

/-- `capacity`.  A shared string has none to spare. -/
def Core.capacity : Core → Mem ℕ
  | small _ => pure maxSmallSize
  | ml m =>
    match m.category with
    | .isMedium => pure m.capacity
    | .isLarge => do
      if (← refs m.data) > 1 then pure m.size else pure m.capacity

/-! ### Constructors and destructor -/

/-- `initSmall`, copying unit by unit. -/
def initSmall (data : List Cell) : Mem Core :=
  setSmallSize (data ++ List.replicate (maxSmallSize + 1 - data.length) none) data.length

/-- `initMedium`. -/
def initMedium (data : List Cell) : Mem Core := do
  let size := data.length
  let allocSize := goodMallocSize (1 + size)
  let p ← checkedMalloc allocSize
  store p 0 data
  let c ← setCapacity p size (allocSize - 1) .isMedium
  store p size [some 0]
  pure c

/-- `initLarge`. -/
def initLarge (data : List Cell) : Mem Core := do
  let size := data.length
  let (p, effectiveCapacity) ← create size
  store p 0 data
  let c ← setCapacity p size effectiveCapacity .isLarge
  store p size [some 0]
  pure c

/-- `fbstring_core(data, size)`. -/
def construct (data : List Cell) : Mem Core :=
  if data.length ≤ maxSmallSize then initSmall data
  else if data.length ≤ maxMediumSize then initMedium data
  else initLarge data

/-- `copyMedium`. -/
def copyMedium (m : MediumLarge) : Mem Core := do
  let allocSize := goodMallocSize (1 + m.size)
  let p ← checkedMalloc allocSize
  -- also copies the terminator
  store p 0 (← load m.data 0 (m.size + 1))
  setCapacity p m.size (allocSize - 1) .isMedium

/-- `copyLarge`. -/
def copyLarge (m : MediumLarge) : Mem Core := do
  incrementRefs m.data
  pure (.ml m)

/-- `fbstring_core(rhs)`, with `copySmall`. -/
def copy : Core → Mem Core
  | .small cells => pure (.small cells)
  | .ml m =>
    match m.category with
    | .isMedium => copyMedium m
    | .isLarge => copyLarge m

/-- `~fbstring_core()`. -/
def destroy : Core → Mem Unit
  | .small _ => pure ()
  | .ml m =>
    match m.category with
    | .isMedium => free m.data
    | .isLarge => decrementRefs m.data

/-! ### Operations -/

/-- `mutableDataLarge`. -/
def mutableDataLarge (m : MediumLarge) : Mem Core := do
  if (← refs m.data) > 1 then
    let (p, effectiveCapacity) ← create m.capacity
    check (m.capacity ≤ effectiveCapacity)
    store p 0 (← load m.data 0 (m.size + 1))
    decrementRefs m.data
    pure (.ml { m with data := p })
  else
    pure (.ml m)

/-- `mutableData`, as the string it leaves. -/
def Core.mutableData : Core → Mem Core
  | small cells => pure (.small cells)
  | ml m =>
    match m.category with
    | .isMedium => pure (.ml m)
    | .isLarge => mutableDataLarge m

/-- `reserveLarge`. -/
def reserveLarge (m : MediumLarge) (minCapacity : ℕ) : Mem Core := do
  if (← refs m.data) > 1 then
    let (p, minCapacity) ← create (max minCapacity m.capacity)
    store p 0 (← load m.data 0 (m.size + 1))
    decrementRefs m.data
    setCapacity p m.size minCapacity .isLarge
  else if minCapacity > m.capacity then
    let p ← reallocate m.data m.size m.capacity minCapacity
    setCapacity p m.size minCapacity .isLarge
  else
    pure (.ml m)

/-- `reserveSmall`. -/
def reserveSmall (cells : List Cell) (minCapacity : ℕ) : Mem Core := do
  if minCapacity ≤ maxSmallSize then
    pure (.small cells)
  else if minCapacity ≤ maxMediumSize then
    let allocSizeBytes := goodMallocSize (1 + minCapacity)
    let p ← checkedMalloc allocSizeBytes
    let size ← smallSize cells
    store p 0 (cells.take (size + 1))
    setCapacity p size (allocSizeBytes - 1) .isMedium
  else
    let (p, minCapacity) ← create minCapacity
    let size ← smallSize cells
    store p 0 (cells.take (size + 1))
    setCapacity p size minCapacity .isLarge

/-- `reserveMedium`. -/
def reserveMedium (m : MediumLarge) (minCapacity : ℕ) : Mem Core := do
  if minCapacity ≤ m.capacity then
    pure (.ml m)
  else if minCapacity ≤ maxMediumSize then
    let capacityBytes := goodMallocSize (1 + minCapacity)
    let p ← smartRealloc m.data 0 (m.size + 1) (m.capacity + 1) capacityBytes
    setCapacity p m.size (capacityBytes - 1) .isMedium
  else
    let .ml nascent ← reserveSmall resetCells minCapacity | throw .undefined
    store nascent.data 0 (← load m.data 0 (m.size + 1))
    destroy (.ml m)
    pure (.ml { nascent with size := m.size })

/-- The `switch` of `reserve`. -/
def reserveBy (minCapacity : ℕ) : Core → Mem Core
  | .small cells => reserveSmall cells minCapacity
  | .ml m =>
    match m.category with
    | .isMedium => reserveMedium m minCapacity
    | .isLarge => reserveLarge m minCapacity

/-- `reserve`. -/
def Core.reserve (c : Core) (minCapacity : ℕ) : Mem Core := do
  let c' ← reserveBy minCapacity c
  check (minCapacity ≤ (← c'.capacity))
  pure c'

/-- What `expandNoinit` does once there is room for `newSz` units. -/
def setSize (newSz : ℕ) (c : Core) : Mem Core := do
  check (newSz ≤ (← c.capacity))
  match c with
  | .small _ => throw .undefined
  | .ml m => do
    store m.data newSz [some 0]
    pure (.ml { m with size := newSz })

/-- `expandNoinit`: the string it leaves, and the offset of the pointer it returns. -/
def Core.expandNoinit (c : Core) (delta : ℕ) (expGrowth : Bool) : Mem (Core × ℕ) := do
  check ((← c.size) ≤ (← c.capacity))
  let sz ← c.size
  let newSz := toSizeT (sz + delta)
  match c with
  | small cells =>
    if newSz ≤ maxSmallSize then
      pure (← setSmallSize cells newSz, sz)
    else
      let c ← reserveSmall cells (if expGrowth then max newSz (2 * maxSmallSize) else newSz)
      pure (← setSize newSz c, sz)
  | ml m =>
    let capacity ← Core.capacity (.ml m)
    if newSz > capacity then
      -- ensures that the string is not shared
      let grown := toSizeT (1 + (toSizeT (capacity * 3) / 2 : ℕ))
      let c ← Core.reserve (.ml m) (if expGrowth then max newSz grown else newSz)
      pure (← setSize newSz c, sz)
    else
      pure (← setSize newSz (.ml m), sz)

/-- `shrinkMedium`. -/
def shrinkMedium (m : MediumLarge) (delta : ℕ) : Mem Core := do
  check (delta ≤ m.size)
  store m.data (m.size - delta) [some 0]
  pure (.ml { m with size := m.size - delta })

/-- `shrinkLarge`. -/
def shrinkLarge (m : MediumLarge) (delta : ℕ) : Mem Core := do
  check (delta ≤ m.size)
  if delta ≠ 0 then
    let c ← construct (← load m.data 0 (m.size - delta))
    destroy (.ml m)
    pure c
  else
    pure (.ml m)

/-- `shrink`, with `shrinkSmall`. -/
def Core.shrink (c : Core) (delta : ℕ) : Mem Core :=
  match c with
  | small cells => do
    let sz ← smallSize cells
    check (delta ≤ sz)
    setSmallSize cells (sz - delta)
  | ml m =>
    match m.category with
    | .isMedium => shrinkMedium m delta
    | .isLarge => do
      if (← refs m.data) = 1 then shrinkMedium m delta else shrinkLarge m delta

end FbString

end PythonicCpp
