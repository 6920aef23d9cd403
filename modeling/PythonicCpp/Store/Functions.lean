import PythonicCpp.Edit.Capitalize
import PythonicCpp.Edit.Center
import PythonicCpp.Edit.ExpandTabs
import PythonicCpp.Search.Reads
import PythonicCpp.Store.FbString

/-!
# The functions of the library, on the heap

`sub`, `center`, `capitalize` and `expandtabs` build their results in a local `fbstring`.  Here are
their bodies with the calls that they make of it; their texts are given by pointers.

* `withResult` : a local string, which is destroyed when an exception leaves the function.
* `subIn`, `centerIn`, `capitalizeIn`, `expandtabsIn` : the functions.
-/

namespace PythonicCpp

namespace FbString

/-- `p + k`; there is nothing before the start. -/
def Ptr.plus (p : Ptr) (k : ℤ) : Method Ptr := do
  check (0 ≤ k)
  pure (p.add k.toNat)

/-- `auto result = Result()`, what the body makes of it, and its return. -/
def withResult (body : Method Unit) : Mem Core :=
  Action.zoom (fun h => ⟨h, reset⟩) (fun s _ => s.heap) <|
    Action.unwind (do
      body
      pure (← get).this) (do onHeap (destroy (← get).this))

/-- `for (int i = ..; i < n; i++)`, with `turns` to go. -/
def forTurns {σ : Type} (body : Action σ Unit) : ℕ → ℕ → Action σ Unit
  | 0, _ => pure ()
  | turns + 1, i => do
    body
    -- the increment of the counter overflows at the end of its range
    check (i + 1 < 2 ^ 31)
    forTurns body turns (i + 1)

/-! ### `sub` -/

/-- The body of the loop of `sub`.  The callback returns a view. -/
def subTurn (needleLen : ℕ) (begin : Ptr) (repl : ℕ → Method (Ptr × ℕ)) (lastPos : ℤ) (pos : ℕ) :
    Method ℤ := do
  append (← begin.plus lastPos) (toSizeT (pos - lastPos))
  let replaced ← repl pos
  append replaced.1 replaced.2
  pure (toInt (toSizeT (pos + needleLen)))

/-- `sub(haystack, needle, repl)`, where the units of the haystack are at `begin`.  What is stored
around the haystack and the needle is in `stored` and `storedNeedle`. -/
def subIn (haystack needle stored storedNeedle : Span) (begin : Ptr)
    (repl : ℕ → Method (Ptr × ℕ)) : Mem Core :=
  withResult do
    let needleLen := needle.size
    reserve haystack.size
    let found := finditer haystack needle 0 .rangesEnd
    -- the search reads past the end of the haystack
    check (FindView.ReadsWithin stored storedNeedle found)
    let lastPos ← found.val.offsets.foldlM (subTurn needleLen begin repl) 0
    append (← begin.plus lastPos) (toSizeT (haystack.size - lastPos))

/-! ### `center` -/

/-- `center(rng, width, padding, tail)`. -/
def centerIn (rng padding : Span) (begin paddingBegin : Ptr) (width : ℕ) (tail : CodeUnit) :
    Mem Core := do
  let counts ← demand (centerCounts width rng.size padding.size).run.val
  withResult do
    reserve width
    forTurns (append paddingBegin padding.size) counts.left 0
    append begin rng.size
    forTurns (append paddingBegin padding.size) counts.right 0
    forTurns (pushBack tail) counts.tail 0

/-! ### `capitalize` -/

/-- `capitalize(rng)`. -/
def capitalizeIn (rng : Span) (begin : Ptr) : Mem Core :=
  withResult do
    let head ← demand (← begin.read 1).head?.join
    let headCapitalized := toupper (charToInt head)
    reserve rng.size
    pushBack (intToChar headCapitalized)
    append (begin.add 1) (toSizeT (rng.size - 1))

/-! ### `expandtabs` -/

/-- The buffer of `expandtabs`. -/
def spacesIn (tabSize : ℕ) : Mem Core :=
  withResult do
    reserve tabSize
    forTurns (pushBack 0x20) tabSize 0

/-- Where a string other than `result` begins. -/
def viewOf : Core → Ptr
  | .small cells => .units cells
  | .ml m => .block m.data 0

/-- The callback of `expandtabs`.  The buffer is not `const`, and stays where it is when it is made
writable. -/
def tabView (spaces : Core) (tabSize i : ℕ) : Method (Ptr × ℕ) := do
  let view ← demand (tabSpaces (List.replicate tabSize 0x20) tabSize i).run.val
  let begun ← onHeap spaces.mutableData
  check (begun = spaces)
  pure (viewOf spaces, view.size)

/-- `expandtabs(haystack, tab_size)`. -/
def expandtabsIn (haystack : Span) (begin : Ptr) (tabSize : ℕ) : Mem Core := do
  let spaces ← spacesIn tabSize
  let sub := subIn haystack tabText.toSpan haystack tabText.toSpan begin (tabView spaces tabSize)
  let result ← sub.unwind (destroy spaces)
  destroy spaces
  pure result

end FbString

end PythonicCpp
