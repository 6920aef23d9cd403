import PythonicCpp.Store.Functions
import Mathlib.Data.List.ReduceOption

/-!
# Programs with strings

A program has variables that may hold a string each, and one heap for all of them.  It constructs,
copies, moves, edits and destroys strings, and calls the functions of the library.  A string may be
edited with the units of another one, or with its own.

* `World`, `Command`, `exec` : the variables, the commands, and what they do to the heap.
* `World.values` : the texts of the variables.
* `Command.apply` : what the commands do to the texts, for strings that are plain values.
-/

namespace PythonicCpp

namespace FbString

/-- The heap, and the variables.  One without a string has not been constructed, or has been
destroyed. -/
structure World where
  /-- The heap. -/
  heap : Heap Cell
  /-- The variables. -/
  strings : List (Option Core)

/-- An action on the heap and the variables. -/
abbrev Program := Action World

/-- Where the units of an `append` or an `assign` are. -/
inductive Source where
  /-- In memory that no string owns. -/
  | elsewhere (l : List CodeUnit)
  /-- In the string `j`, from `off` on: `s[j].data() + off, n`. -/
  | part (j off n : ℕ)
  deriving DecidableEq, Repr

/-- The member functions that change a string. -/
inductive Edit where
  /-- `reserve(n)`. -/
  | reserve (n : ℕ)
  /-- `begin()`, which makes the string writable. -/
  | begin
  /-- `push_back(c)`. -/
  | pushBack (c : CodeUnit)
  /-- `append(s, n)`. -/
  | append (s : Source)
  /-- `append(n, c)`. -/
  | appendFill (n : ℕ) (c : CodeUnit)
  /-- `resize(n, c)`. -/
  | resize (n : ℕ) (c : CodeUnit)
  /-- `assign(s, n)`. -/
  | assign (s : Source)
  /-- `(*this)[pos] = c`. -/
  | setAt (pos : ℕ) (c : CodeUnit)
  deriving DecidableEq, Repr

/-- A `TextView`. -/
inductive View where
  /-- A literal, which is followed by a zero. -/
  | literal (l : List CodeUnit)
  /-- A view of the string `j`, from `off` on. -/
  | part (j off n : ℕ)
  deriving DecidableEq, Repr

/-- The functions that make a new string. -/
inductive Function where
  /-- `sub(haystack, needle, repl)`. -/
  | sub (haystack needle : View) (repl : ℕ → View)
  /-- `center(rng, width, padding, tail)`. -/
  | center (rng : View) (width : ℕ) (padding : View) (tail : CodeUnit)
  /-- `capitalize(rng)`. -/
  | capitalize (rng : View)
  /-- `expandtabs(haystack, tab_size)`. -/
  | expandtabs (haystack : View) (tabSize : ℕ)

/-- The commands of a program. -/
inductive Command where
  /-- `fbstring(s, n)`. -/
  | construct (i : ℕ) (l : List CodeUnit)
  /-- `fbstring(s[j])`. -/
  | copy (i j : ℕ)
  /-- `fbstring(std::move(s[j]))`. -/
  | move (i j : ℕ)
  /-- `~fbstring()`. -/
  | destroy (i : ℕ)
  /-- `s[i].swap(s[j])`. -/
  | swap (i j : ℕ)
  /-- `s[i] = s[j]`. -/
  | copyAssign (i j : ℕ)
  /-- `s[i] = std::move(s[j])`. -/
  | moveAssign (i j : ℕ)
  /-- A member function of `s[i]`. -/
  | edit (i : ℕ) (e : Edit)
  /-- The string that a function has made at its return statement. -/
  | result (i : ℕ) (f : Function)

/-- The text of a string, as its size and its units tell it. -/
def Core.text (h : Heap Cell) : Core → List CodeUnit
  | small cells =>
    (cells.take (maxSmallSize - (cells[maxSmallSize]?.join).elim 0 UInt8.toNat)).reduceOption
  | ml m => ((h.blocks m.data).elim [] fun b => b.cells.take m.size).reduceOption

/-- The texts of the variables. -/
def World.values (w : World) : List (Option (List CodeUnit)) :=
  w.strings.map (Option.map (Core.text w.heap))

/-- What is stored around the units of a view.  After the last unit of a literal or of a string
there is a terminator. -/
def View.stored (vs : List (Option (List CodeUnit))) : View → Option Span
  | literal l => some ⟨ofList l 0, 0, l.length + 1⟩
  | part j _ _ => do
    let v ← vs[j]?.join
    pure ⟨ofList v 0, 0, v.length + 1⟩

/-! ### The commands on the heap -/

section Exec

/-- The string in a variable. -/
def string (i : ℕ) : Program Core := do demand (← get).strings[i]?.join

/-- The variable holds no string. -/
def vacant (i : ℕ) : Program Unit := do check ((← get).strings[i]? = some none)

/-- A variable gets another string, or loses the one it has. -/
def put (i : ℕ) (o : Option Core) : Program Unit := do
  set { (← get) with strings := (← get).strings.set i o }

/-- An action on the heap. -/
def inHeap {α : Type} (x : Mem α) : Program α := x.zoom World.heap fun h w => { w with heap := h }

/-- A call of a member function. -/
def call {α : Type} (i : ℕ) (x : Method α) : Program α := do
  let c ← string i
  x.zoom (fun w => ⟨w.heap, c⟩) fun s w => ⟨s.heap, w.strings.set i (some s.this)⟩

/-- `data()` of the string `j`, for a member function of the string `i`. -/
def dataOf (i j : ℕ) : Program Ptr := do
  match ← string j with
  | .small cells => pure (if i = j then .inPlace 0 else .units cells)
  | .ml m => pure (.block m.data 0)

/-- The pointer, and the number of units. -/
def Source.arguments (i : ℕ) : Source → Program (Ptr × ℕ)
  | elsewhere l => pure (.units (l.map some), l.length)
  | part j off n => do pure ((← dataOf i j).add off, n)

/-- A call of a member function that changes the string. -/
def Edit.exec (i : ℕ) : Edit → Program Unit
  | reserve n => call i (FbString.reserve n)
  | begin => do let _ ← call i mutableData
  | pushBack c => call i (FbString.pushBack c)
  | append s => do
    let (p, n) ← s.arguments i
    call i (FbString.append p n)
  | appendFill n c => call i (FbString.appendFill n c)
  | resize n c => call i (FbString.resize n c)
  | assign s => do
    let (p, n) ← s.arguments i
    call i (FbString.assign p n)
  | setAt pos c => call i (FbString.setAt pos c)

/-- The argument of a function: a view, and the pointer to its units. -/
def View.argument (w : World) : View → Option (Span × Ptr)
  | literal l => some (⟨ofList l 0, 0, l.length⟩, .units (l.map some))
  | part j off n => do
    let c ← w.strings[j]?.join
    pure (⟨ofList (c.text w.heap) 0, off, off + n⟩, (viewOf c).add off)

/-- A call of a function. -/
def Function.exec : Function → Program Core
  | sub haystack needle repl => do
    let w ← get
    let h ← demand (haystack.argument w)
    let d ← demand (needle.argument w)
    let stored ← demand (haystack.stored w.values)
    let storedNeedle ← demand (needle.stored w.values)
    inHeap <| subIn h.1 d.1 stored storedNeedle h.2 fun pos => do
      let replaced ← demand ((repl pos).argument w)
      pure (replaced.2, replaced.1.size)
  | center rng width padding tail => do
    let h ← demand (rng.argument (← get))
    let p ← demand (padding.argument (← get))
    inHeap (centerIn h.1 p.1 h.2 p.2 width tail)
  | capitalize rng => do
    let h ← demand (rng.argument (← get))
    inHeap (capitalizeIn h.1 h.2)
  | expandtabs haystack tabSize => do
    let h ← demand (haystack.argument (← get))
    inHeap (expandtabsIn h.1 h.2 tabSize)

/-- A command. -/
def exec : Command → Program Unit
  | .construct i l => do
    vacant i
    put i (some (← inHeap (FbString.construct (l.map some))))
  | .copy i j => do
    vacant i
    put i (some (← inHeap (FbString.copy (← string j))))
  | .move i j => do
    vacant i
    put i (some (← string j))
    put j (some reset)
  | .destroy i => do
    inHeap (FbString.destroy (← string i))
    put i none
  | .swap i j => do
    let t ← string i
    put i (some (← string j))
    put j (some t)
  | .copyAssign i j => do
    call i isSane
    if i = j then
      call i isSane
    else
      let n ← inHeap (← string j).size
      (Edit.assign (.part j 0 n)).exec i
      call i isSane
  | .moveAssign i j => do
    if i = j then
      pure ()
    else
      inHeap (FbString.destroy (← string i))
      put i (some (← string j))
      put j (some reset)
  | .edit i e => e.exec i
  | .result i f => do
    vacant i
    put i (some (← f.exec))

end Exec

/-! ### The commands on texts -/

/-- A text is short enough: with its counter it has a size that fits a `size_t`. -/
def fits (l : List CodeUnit) : Option (List CodeUnit) :=
  if l.length + sizeofRefCounted < 2 ^ 64 then some l else none

/-- The units. -/
def Source.text (vs : List (Option (List CodeUnit))) : Source → Option (List CodeUnit)
  | elsewhere l => some l
  | part j off n => do
    let v ← vs[j]?.join
    if off + n ≤ v.length then some ((v.drop off).take n) else none

/-- The text that a member function makes of the text `u`.  There is none where the function may
not be called. -/
def Edit.apply (vs : List (Option (List CodeUnit))) (u : List CodeUnit) :
    Edit → Option (List CodeUnit)
  | reserve n => if n + sizeofRefCounted < 2 ^ 64 then some u else none
  | begin => some u
  | pushBack c => fits (u ++ [c])
  | append s => do fits (u ++ (← s.text vs))
  | appendFill n c =>
    if u.length + n + sizeofRefCounted < 2 ^ 64 then some (u ++ List.replicate n c) else none
  | resize n c =>
    if n + sizeofRefCounted < 2 ^ 64 then some (u.take n ++ List.replicate (n - u.length) c)
    else none
  | assign s => do fits (← s.text vs)
  | setAt pos c => if pos < u.length then some (u.set pos c) else none

/-- The text of a view.  A string has a terminator after its last unit. -/
def View.text (vs : List (Option (List CodeUnit))) : View → Option Text
  | literal l => if h : l.length < 2 ^ 63 then some (.ofUnits l 0 h) else none
  | part j off n => do
    let v ← vs[j]?.join
    if h : v.length < 2 ^ 63 ∧ off + n ≤ v.length then
      some ((Text.ofUnits v 0 h.1).window off (off + n) (Nat.le_add_right off n)
        (by rw [Text.size_ofUnits]; exact h.2))
    else none

/-- The text that a function has made at its return statement. -/
def Function.apply (vs : List (Option (List CodeUnit))) : Function → Option (List CodeUnit)
  | sub haystack needle repl => do
    let h ← haystack.text vs
    let d ← needle.text vs
    let stored ← haystack.stored vs
    let storedNeedle ← needle.stored vs
    let found := finditer h.toSpan d.toSpan 0 .rangesEnd
    if d.units ≠ [] ∧ h.next ∉ d.units ∧ h.size < 2 ^ 31 ∧
        FindView.ReadsWithin stored storedNeedle found then
      fits (← PythonicCpp.sub h.toSpan d.toSpan fun pos => do
        pure (← (repl pos).text vs).toSpan)
    else none
  | center rng width padding tail => do
    let h ← rng.text vs
    let p ← padding.text vs
    if width + sizeofRefCounted < 2 ^ 64 then
      fits (← (PythonicCpp.centerUnits h.toSpan width p.toSpan tail).run.val)
    else none
  | capitalize rng => do
    let h ← rng.text vs
    if h.units ≠ [] then fits (← (PythonicCpp.capitalizeUnits h.toSpan).run.val) else none
  | expandtabs haystack tabSize => do
    let h ← haystack.text vs
    if h.size < 2 ^ 31 ∧ 0 < tabSize ∧ tabSize < 2 ^ 31 then
      (PythonicCpp.expandtabs h.toSpan tabSize).run.val
    else none

/-- What a command does to the texts, each of which belongs to its variable alone.  There is nothing
that it does where it may not be used. -/
def Command.apply (vs : List (Option (List CodeUnit))) :
    Command → Option (List (Option (List CodeUnit)))
  | construct i l => do
    if vs[i]? = some none then pure (vs.set i (some (← fits l))) else none
  | copy i j => do
    let v ← vs[j]?.join
    if vs[i]? = some none then pure (vs.set i (some v)) else none
  | move i j => do
    let v ← vs[j]?.join
    if vs[i]? = some none then pure ((vs.set i (some v)).set j (some [])) else none
  | destroy i => do
    let _ ← vs[i]?.join
    pure (vs.set i none)
  | swap i j => do
    let u ← vs[i]?.join
    let v ← vs[j]?.join
    pure ((vs.set i (some v)).set j (some u))
  | copyAssign i j => do
    let _ ← vs[i]?.join
    let v ← vs[j]?.join
    pure (vs.set i (some v))
  | moveAssign i j => do
    let _ ← vs[i]?.join
    let v ← vs[j]?.join
    if i = j then pure vs else pure ((vs.set i (some v)).set j (some []))
  | edit i e => do
    let u ← vs[i]?.join
    pure (vs.set i (some (← e.apply vs u)))
  | result i f => do
    if vs[i]? = some none then pure (vs.set i (some (← f.apply vs))) else none

/-- The variable that a command assigns to, unit by unit. -/
def Command.assigns : Command → Option ℕ
  | copyAssign i _ => some i
  | edit i (.assign _) => some i
  | _ => none

end FbString

end PythonicCpp
