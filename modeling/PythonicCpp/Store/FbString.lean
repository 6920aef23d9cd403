import PythonicCpp.Store.Room

/-!
# `basic_fbstring`

The member functions that the library calls, on the string `this` of a state.

* `Self`, `Method` : the heap together with the string, and the actions on them.
* `Ptr` : a pointer to units, which may point into the string itself.
* `append`, `appendFill`, `pushBack`, `resize`, `assign`, `reserve`, `setAt` : the functions.  Each
  asserts on entry and on exit that the string is sane.
-/

namespace PythonicCpp

namespace FbString

/-- The state of a member function: the heap, and the string it is called on. -/
structure Self where
  /-- The heap. -/
  heap : Heap Cell
  /-- The string. -/
  this : Core

/-- A member function. -/
abbrev Method := Action Self

/-- A pointer to units. -/
inductive Ptr where
  /-- Into storage that no string owns: the units that it points to. -/
  | units (l : List Cell)
  /-- Into `small_` of the string. -/
  | inPlace (off : ℕ)
  /-- Into the block at `p`. -/
  | block (p off : ℕ)

/-- `s + k`. -/
def Ptr.add : Ptr → ℕ → Ptr
  | units l, k => .units (l.drop k)
  | inPlace off, k => .inPlace (off + k)
  | block p off, k => .block p (off + k)

/-- How far behind `oldData` the pointer points, if it points to one of the `oldSize` units from
there on. -/
def Ptr.offsetIn : Ptr → Ptr → ℕ → Option ℕ
  | inPlace off, inPlace old, oldSize =>
    if old ≤ off ∧ ¬ old + oldSize ≤ off then some (off - old) else none
  | block p off, block q old, oldSize =>
    if p = q ∧ old ≤ off ∧ ¬ old + oldSize ≤ off then some (off - old) else none
  | _, _, _ => none

/-- The ranges of `n` units do not overlap, as `podCopy` asserts. -/
def Ptr.Apart (n : ℕ) : Ptr → Ptr → Prop
  | inPlace off, inPlace off' => off + n ≤ off' ∨ off' + n ≤ off
  | block p off, block q off' => p = q → off + n ≤ off' ∨ off' + n ≤ off
  | _, _ => True

instance {n : ℕ} : (s d : Ptr) → Decidable (s.Apart n d)
  | .units _, _ => inferInstanceAs (Decidable True)
  | .inPlace off, .inPlace off' => inferInstanceAs (Decidable (off + n ≤ off' ∨ off' + n ≤ off))
  | .block p off, .block q off' =>
    inferInstanceAs (Decidable (p = q → off + n ≤ off' ∨ off' + n ≤ off))
  | .inPlace _, .units _ => inferInstanceAs (Decidable True)
  | .inPlace _, .block _ _ => inferInstanceAs (Decidable True)
  | .block _ _, .units _ => inferInstanceAs (Decidable True)
  | .block _ _, .inPlace _ => inferInstanceAs (Decidable True)

/-- Where the text of a string begins. -/
def Core.begin : Core → Ptr
  | small _ => .inPlace 0
  | ml m => .block m.data 0

/-! ### Access -/

/-- An action on the heap. -/
def onHeap {α : Type} (x : Mem α) : Method α := x.zoom Self.heap fun h s => { s with heap := h }

/-- The string becomes what an action on the heap makes of it. -/
def update (f : Core → Mem Core) : Method Unit := do
  let c ← onHeap (f (← get).this)
  set { (← get) with this := c }

/-- Read `n` units. -/
def Ptr.read (n : ℕ) : Ptr → Method (List Cell)
  | units l => do
    check (n ≤ l.length)
    pure (l.take n)
  | inPlace off => do
    let .small cells := (← get).this | throw .undefined
    check (off + n ≤ cells.length)
    pure ((cells.drop off).take n)
  | block p off => onHeap (load p off n)

/-- Write units. -/
def Ptr.write (l : List Cell) : Ptr → Method Unit
  | units _ => throw .undefined
  | inPlace off => do
    let .small cells := (← get).this | throw .undefined
    check (off + l.length ≤ cells.length)
    set { (← get) with this := .small (overwrite cells off l) }
  | block p off => onHeap (store p off l)

/-- `podMove(s, s + n, d)`. -/
def podMove (s : Ptr) (n : ℕ) (d : Ptr) : Method Unit := do
  let l ← s.read n
  d.write l

/-- `podCopy(s, s + n, d)`. -/
def podCopy (s : Ptr) (n : ℕ) (d : Ptr) : Method Unit := do
  check (s.Apart n d)
  podMove s n d

/-- `podFill(d, d + n, c)`. -/
def podFill (d : Ptr) (n : ℕ) (c : CodeUnit) : Method Unit :=
  d.write (List.replicate n (some c))

/-! ### Observers -/

/-- `size`. -/
def size : Method ℕ := do onHeap (← get).this.size

/-- `capacity`. -/
def capacity : Method ℕ := do onHeap (← get).this.capacity

/-- `data`.  `c_str` asserts that there is a terminator. -/
def data : Method Ptr := do
  let p := (← get).this.begin
  let terminator ← (p.add (← size)).read 1
  check (terminator = [some 0])
  pure p

/-- `isSane`, as far as its conditions can fail; the comparison of `begin()[size()]` with zero is
the assertion of `data`. -/
def isSane : Method Unit := do
  let _ ← data
  check ((← size) ≤ (← capacity))

/-! ### Member functions -/

/-- `reserve`. -/
def reserve (n : ℕ) : Method Unit := update fun c => c.reserve n

/-- `begin`, of a string that is not `const`. -/
def mutableData : Method Ptr := do
  update Core.mutableData
  pure (← get).this.begin

/-- `expandNoinit`. -/
def expandNoinit (delta : ℕ) (expGrowth : Bool) : Method Ptr := do
  let (c, sz) ← onHeap ((← get).this.expandNoinit delta expGrowth)
  set { (← get) with this := c }
  pure (c.begin.add sz)

/-- `shrink`. -/
def shrink (delta : ℕ) : Method Unit := update fun c => c.shrink delta

/-- `push_back`. -/
def pushBack (c : CodeUnit) : Method Unit := do
  let pData ← expandNoinit 1 true
  pData.write [some c]

/-- `append(s, n)`. -/
def append (s : Ptr) (n : ℕ) : Method Unit := do
  isSane
  if n = 0 then
    isSane
  else
    let oldSize ← size
    let oldData ← data
    let pData ← expandNoinit n true
    match s.offsetIn oldData oldSize with
    | some off =>
      check (off + n ≤ oldSize)
      -- the storage may have moved
      podMove ((← data).add off) n pData
    | none => podCopy s n pData
    isSane

/-- `append(n, c)`. -/
def appendFill (n : ℕ) (c : CodeUnit) : Method Unit := do
  isSane
  let pData ← expandNoinit n true
  podFill pData n c
  isSane

/-- `resize`. -/
def resize (n : ℕ) (c : CodeUnit) : Method Unit := do
  isSane
  let size ← size
  if n ≤ size then
    shrink (size - n)
  else
    let delta := n - size
    let pData ← expandNoinit delta false
    podFill pData delta c
  isSane

/-- `assign(s, n)`. -/
def assign (s : Ptr) (n : ℕ) : Method Unit := do
  isSane
  if n = 0 then
    resize 0 0
  else if (← size) ≥ n then
    -- the pointer is that of before the call of `mutableData`
    let d ← mutableData
    podMove s n d
    shrink ((← size) - n)
  else
    resize 0 0
    let d ← expandNoinit n false
    podCopy s n d
  isSane

/-- `s[pos] = c`. -/
def setAt (pos : ℕ) (c : CodeUnit) : Method Unit := do
  let d ← mutableData
  (d.add pos).write [some c]

end FbString

end PythonicCpp
