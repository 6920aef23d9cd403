import PythonicCpp.Machine.Basic
import PythonicCpp.Machine.Cells
import PythonicCpp.Machine.Ends
import Mathlib.Logic.Function.Basic

/-!
# A heap of counted blocks

Blocks of cells are allocated at addresses that are never used again.  A block may keep a reference
count; one that does not has a single holder.

## Main definitions

* `Block`, `Heap` : blocks and heaps; no block keeps the count zero, and no address from `next` on
  has a block.
* `allocate`, `lookup`, `load`, `store` : the accesses.  A use of an address without a block, and
  an access outside the cells of a block, are undefined.
* `Keeps h os h' os'` : what happens to the heap when the holders of the addresses `os` exchange
  them for `os'`, and the cells of no block that anyone else holds change.
* `Counted h os` : the addresses `os` are held, and nothing else.

## Main results

* `Keeps.trans`, `keeps_push`, `keeps_erase`, `keeps_setRefs`, `keeps_setCells` : exchanges.
* `Counted.keeps` : an exchange keeps the counts exact.
* `Counted.eq_none` : without a holder there is no block.
-/

namespace PythonicCpp

/-- A block of memory. -/
structure Block (α : Type) where
  /-- The reference count, if the block keeps one. -/
  refs : Option ℕ
  /-- The cells. -/
  cells : List α
  pos : refs ≠ some 0

/-- A heap. -/
@[ext] structure Heap (α : Type) where
  /-- The blocks. -/
  blocks : ℕ → Option (Block α)
  /-- The number of requests made so far, which is the next address. -/
  next : ℕ
  /-- The allocator refuses request `k`, of size `n`. -/
  refuses : ℕ → ℕ → Bool
  fresh : ∀ a, next ≤ a → blocks a = none
  huge : ∀ k n, 2 ^ 62 ≤ n → refuses k n = true

namespace Block

variable {α : Type}

/-- The number of holders that a block allows for. -/
def count (b : Block α) : ℕ := b.refs.getD 1

theorem count_pos (b : Block α) : 0 < b.count := by
  have hpos := b.pos
  unfold count
  rcases hr : b.refs with _ | _ | r
  · exact Nat.one_pos
  · exact absurd hr hpos
  · exact r.succ_pos

theorem count_of_refs {b : Block α} {r : ℕ} (h : b.refs = some r) : b.count = r := by
  rw [count, h, Option.getD_some]

theorem count_of_none {b : Block α} (h : b.refs = none) : b.count = 1 := by
  rw [count, h, Option.getD_none]

/-- The block with other cells. -/
def withCells (b : Block α) (cells : List α) : Block α := ⟨b.refs, cells, b.pos⟩

/-- The block with another reference count. -/
def withRefs (b : Block α) (r : ℕ) (hr : r ≠ 0) : Block α :=
  ⟨some r, b.cells, fun h => hr (Option.some.inj h)⟩

end Block

namespace Heap

variable {α : Type} (h : Heap α)

/-- A heap without blocks, which refuses only the requests that it has to. -/
def empty : Heap α where
  blocks _ := none
  next := 0
  refuses _ n := decide (2 ^ 62 ≤ n)
  fresh _ _ := rfl
  huge _ _ hn := decide_eq_true hn

/-- The number of holders that the heap allows for. -/
def count (a : ℕ) : ℕ := (h.blocks a).elim 0 Block.count

/-- A new block. -/
def push (b : Block α) : Heap α where
  blocks := Function.update h.blocks h.next (some b)
  next := h.next + 1
  refuses := h.refuses
  fresh a ha := by
    rw [Function.update_of_ne (by omega)]
    exact h.fresh a (by omega)
  huge := h.huge

/-- A request that is refused. -/
def skip : Heap α where
  blocks := h.blocks
  next := h.next + 1
  refuses := h.refuses
  fresh a ha := h.fresh a (by omega)
  huge := h.huge

/-- A change of the block at `a`, if there is one. -/
def change (a : ℕ) (f : Block α → Option (Block α)) : Heap α where
  blocks := Function.update h.blocks a ((h.blocks a).bind f)
  next := h.next
  refuses := h.refuses
  fresh a' ha' := by
    by_cases heq : a' = a
    · subst heq
      rw [Function.update_self, h.fresh a' ha', Option.bind_none]
    · rw [Function.update_of_ne heq, h.fresh a' ha']
  huge := h.huge

/-- The block at `a` is freed. -/
def erase (a : ℕ) : Heap α := h.change a fun _ => none

/-- The block at `a` gets other cells. -/
def setCells (a : ℕ) (cells : List α) : Heap α := h.change a fun b => some (b.withCells cells)

/-- The block at `a` gets another reference count. -/
def setRefs (a r : ℕ) (hr : r ≠ 0) : Heap α := h.change a fun b => some (b.withRefs r hr)

variable {h} {a : ℕ} {b : Block α}

theorem count_of_some (hb : h.blocks a = some b) : h.count a = b.count := by
  rw [count, hb, Option.elim_some]

theorem lt_next (hb : h.blocks a = some b) : a < h.next := by
  by_contra hlt
  rw [h.fresh a (by omega)] at hb
  cases hb

theorem count_next : h.count h.next = 0 := by
  rw [count, h.fresh _ (Nat.le_refl _), Option.elim_none]

theorem blocks_push_self (b : Block α) : (h.push b).blocks h.next = some b :=
  Function.update_self ..

theorem blocks_push_of_ne (ha : a ≠ h.next) (b : Block α) :
    (h.push b).blocks a = h.blocks a := Function.update_of_ne ha ..

theorem blocks_push_of_some (hb : h.blocks a = some b) (b' : Block α) :
    (h.push b').blocks a = some b :=
  (blocks_push_of_ne (Nat.ne_of_lt (lt_next hb)) b').trans hb

theorem blocks_change_self {f : Block α → Option (Block α)} (hb : h.blocks a = some b) :
    (h.change a f).blocks a = f b := by
  change Function.update h.blocks a ((h.blocks a).bind f) a = _
  rw [Function.update_self, hb, Option.bind_some]

theorem blocks_change_of_ne {f : Block α → Option (Block α)} {a' : ℕ} (hne : a' ≠ a) :
    (h.change a f).blocks a' = h.blocks a' := Function.update_of_ne hne ..

theorem count_change_of_ne {f : Block α → Option (Block α)} {a' : ℕ} (hne : a' ≠ a) :
    (h.change a f).count a' = h.count a' := by
  rw [count, blocks_change_of_ne hne, count]

theorem blocks_setCells_self (hb : h.blocks a = some b) (cells : List α) :
    (h.setCells a cells).blocks a = some (b.withCells cells) := blocks_change_self hb

/-- Writing the cells that are there. -/
theorem setCells_self (hb : h.blocks a = some b) : h.setCells a b.cells = h := by
  refine Heap.ext (funext fun a' => ?_) rfl rfl
  by_cases heq : a' = a
  · subst heq
    exact (blocks_change_self hb).trans hb.symm
  · exact blocks_change_of_ne heq

end Heap

/-! ### Accesses -/

section Accesses

variable {α : Type}

/-- A new block, for a request of `size` bytes. -/
def allocate (size : ℕ) (b : Block α) : Action (Heap α) ℕ := do
  let h ← get
  if h.refuses h.next size then
    set h.skip
    throw .badAlloc
  else
    set (h.push b)
    pure h.next

/-- The block at an address. -/
def lookup (a : ℕ) : Action (Heap α) (Block α) := do
  let h ← get
  demand (h.blocks a)

/-- The `n` cells at `off` of a block. -/
def load (a off n : ℕ) : Action (Heap α) (List α) := do
  let b ← lookup a
  check (off + n ≤ b.cells.length)
  pure ((b.cells.drop off).take n)

/-- Write the cells of a block from `off` on. -/
def store (a off : ℕ) (new : List α) : Action (Heap α) Unit := do
  let h ← get
  let b ← lookup a
  check (off + new.length ≤ b.cells.length)
  set (h.setCells a (overwrite b.cells off new))

variable {h : Heap α} {a off n size : ℕ} {b : Block α} {new : List α} {E : Heap α → Prop}

theorem ends_allocate {Q : ℕ → Heap α → Prop} (hE : E h.skip)
    (hQ : size < 2 ^ 62 → Q h.next (h.push b)) : Ends (allocate size b) h Q E := by
  rw [allocate, ends_bind, ends_get]
  split_ifs with hrefuses
  · exact hE
  · refine hQ ?_
    by_contra hsize
    exact hrefuses (h.huge h.next size (by omega))

theorem ends_lookup {Q : Block α → Heap α → Prop} (hb : h.blocks a = some b) (hQ : Q b h) :
    Ends (lookup a) h Q E := by
  rw [lookup, ends_bind, ends_get, ends_demand]
  exact ⟨b, hb, hQ⟩

theorem ends_load {Q : List α → Heap α → Prop} (hb : h.blocks a = some b)
    (hn : off + n ≤ b.cells.length) (hQ : Q ((b.cells.drop off).take n) h) :
    Ends (load a off n) h Q E := by
  rw [load, ends_bind]
  refine ends_lookup hb ?_
  rw [ends_bind, ends_check, ends_pure]
  exact ⟨hn, hQ⟩

theorem ends_store {Q : Unit → Heap α → Prop} (hb : h.blocks a = some b)
    (hn : off + new.length ≤ b.cells.length)
    (hQ : Q () (h.setCells a (overwrite b.cells off new))) : Ends (store a off new) h Q E := by
  rw [store, ends_bind, ends_get, ends_bind]
  refine ends_lookup hb ?_
  rw [ends_bind, ends_check, ends_set]
  exact ⟨hn, hQ⟩

end Accesses

/-! ### Exchanges -/

/-- The holders of the addresses `os` exchange them for `os'`.  The counts follow, and of a block
with another holder the cells stay. -/
structure Keeps {α : Type} (h : Heap α) (os : List ℕ) (h' : Heap α) (os' : List ℕ) : Prop where
  count : ∀ a, h'.count a + os.count a = h.count a + os'.count a
  frame : ∀ a b, h.blocks a = some b → os.count a < b.count →
    ∃ b', h'.blocks a = some b' ∧ b'.cells = b.cells ∧ b'.refs.isSome = b.refs.isSome

/-- The addresses `os` are held, and nothing else. -/
def Counted {α : Type} (h : Heap α) (os : List ℕ) : Prop := ∀ a, h.count a = os.count a

section Keeps

variable {α : Type} {h h' h'' : Heap α} {os os' os'' ps : List ℕ} {a : ℕ} {b : Block α}

theorem Keeps.refl (h : Heap α) (os : List ℕ) : Keeps h os h os :=
  ⟨fun _ => rfl, fun _ b hb _ => ⟨b, hb, rfl, rfl⟩⟩

theorem Keeps.trans (hk : Keeps h os h' os') (hk' : Keeps h' os' h'' os'') :
    Keeps h os h'' os'' := by
  refine ⟨fun a => ?_, fun a b hb hlt => ?_⟩
  · have := hk.count a
    have := hk'.count a
    omega
  · obtain ⟨b', hb', hcells, hrefs⟩ := hk.frame a b hb hlt
    -- the other holders are as many as before
    have hcount := hk.count a
    rw [Heap.count_of_some hb, Heap.count_of_some hb'] at hcount
    obtain ⟨b'', hb'', hcells', hrefs'⟩ := hk'.frame a b' hb' (by omega)
    exact ⟨b'', hb'', hcells'.trans hcells, hrefs'.trans hrefs⟩

/-- Only how often an address is held matters. -/
theorem Keeps.congr {qs qs' : List ℕ} (hk : Keeps h os h' os')
    (hos : ∀ a, qs.count a = os.count a) (hos' : ∀ a, qs'.count a = os'.count a) :
    Keeps h qs h' qs' := by
  refine ⟨fun a => ?_, fun a b hb hlt => hk.frame a b hb (by rwa [← hos])⟩
  rw [hos, hos']
  exact hk.count a

/-- What else is held does not matter. -/
theorem Keeps.append (hk : Keeps h os h' os') (ps : List ℕ) :
    Keeps h (os ++ ps) h' (os' ++ ps) := by
  refine ⟨fun a => ?_, fun a b hb hlt => hk.frame a b hb ?_⟩
  · have := hk.count a
    simp only [List.count_append]
    omega
  · rw [List.count_append] at hlt
    omega

/-- A new thing is acquired, and then the old one released. -/
theorem Keeps.replace (hk : Keeps h [] h' os') (hk' : Keeps h' os h'' []) :
    Keeps h os h'' os' := by
  have hold := hk.append os
  have hnew := hk'.append os'
  refine hold.trans (hnew.congr (fun a => ?_) fun _ => rfl)
  rw [List.count_append, List.count_append, Nat.add_comm]

theorem keeps_skip (h : Heap α) (os : List ℕ) : Keeps h os h.skip os :=
  ⟨fun _ => rfl, fun _ b hb _ => ⟨b, hb, rfl, rfl⟩⟩

/-- A new block, for a holder. -/
theorem keeps_push (os : List ℕ) (hb : b.count = 1) : Keeps h os (h.push b) (h.next :: os) := by
  refine ⟨fun a => ?_, fun a b' hb' _ => ⟨b', Heap.blocks_push_of_some hb' b, rfl, rfl⟩⟩
  by_cases ha : a = h.next
  · subst ha
    rw [Heap.count_of_some (Heap.blocks_push_self b), Heap.count_next, List.count_cons_self, hb]
    omega
  · have hcount : (h.push b).count a = h.count a := by
      rw [Heap.count, Heap.blocks_push_of_ne ha, Heap.count]
    rw [hcount, List.count_cons_of_ne (Ne.symm ha)]

/-- The last holder frees its block. -/
theorem keeps_erase (os : List ℕ) (hb : h.blocks a = some b) (hcount : b.count = 1) :
    Keeps h (a :: os) (h.erase a) os := by
  refine ⟨fun a' => ?_, fun a' b' hb' hlt => ?_⟩ <;> by_cases ha : a' = a
  · subst ha
    have hzero : (h.erase a').count a' = 0 := by
      rw [Heap.count, Heap.erase, Heap.blocks_change_self hb, Option.elim_none]
    rw [hzero, Heap.count_of_some hb, hcount, List.count_cons_self]
    omega
  · rw [Heap.erase, Heap.count_change_of_ne ha, List.count_cons_of_ne (Ne.symm ha)]
  · subst ha
    obtain rfl := Option.some.inj (hb.symm.trans hb')
    rw [List.count_cons_self] at hlt
    omega
  · exact ⟨b', (Heap.blocks_change_of_ne ha).trans hb', rfl, rfl⟩

/-- One holder more, or one less. -/
theorem keeps_setRefs {r s : ℕ} (hb : h.blocks a = some b) (hr : b.refs = some r) (hs : s ≠ 0)
    (hother : ∀ a', a' ≠ a → os.count a' = os'.count a')
    (hself : s + os.count a = r + os'.count a) : Keeps h os (h.setRefs a s hs) os' := by
  have hset : (h.setRefs a s hs).blocks a = some (b.withRefs s hs) := Heap.blocks_change_self hb
  refine ⟨fun a' => ?_, fun a' b' hb' _ => ?_⟩ <;> by_cases ha : a' = a
  · subst ha
    rw [Heap.count_of_some hset, Heap.count_of_some hb, Block.count_of_refs hr]
    exact hself
  · rw [Heap.setRefs, Heap.count_change_of_ne ha, hother a' ha]
  · subst ha
    obtain rfl := Option.some.inj (hb.symm.trans hb')
    exact ⟨_, hset, rfl, by rw [hr]; rfl⟩
  · exact ⟨b', (Heap.blocks_change_of_ne ha).trans hb', rfl, rfl⟩

/-- The only holders of a block write it. -/
theorem keeps_setCells (cells : List α) (hb : h.blocks a = some b) (hle : b.count ≤ os.count a) :
    Keeps h os (h.setCells a cells) os := by
  have hset := Heap.blocks_setCells_self hb cells
  refine ⟨fun a' => ?_, fun a' b' hb' hlt => ?_⟩ <;> by_cases ha : a' = a
  · subst ha
    rw [Heap.count_of_some hset, Heap.count_of_some hb]
    rfl
  · rw [Heap.setCells, Heap.count_change_of_ne ha]
  · subst ha
    obtain rfl := Option.some.inj (hb.symm.trans hb')
    omega
  · exact ⟨b', (Heap.blocks_change_of_ne ha).trans hb', rfl, rfl⟩

/-- Writing a new block. -/
theorem Keeps.write (hk : Keeps h [] h' [a]) (hb : h'.blocks a = some b) (hcount : b.count = 1)
    (cells : List α) : Keeps h [] (h'.setCells a cells) [a] :=
  hk.trans (keeps_setCells cells hb (by rw [hcount, List.count_singleton_self]))

/-! ### Accounts -/

/-- **An exchange keeps the counts exact.** -/
theorem Counted.keeps (hc : Counted h (os ++ ps)) (hk : Keeps h os h' os') :
    Counted h' (os' ++ ps) := fun a => by
  have hcount := hc a
  have := hk.count a
  rw [List.count_append] at *
  omega

/-- Without a holder there is no block. -/
theorem Counted.eq_none (hc : Counted h os) (ha : a ∉ os) : h.blocks a = none := by
  have hcount := hc a
  rw [List.count_eq_zero_of_not_mem ha] at hcount
  rcases hb : h.blocks a with _ | b
  · rfl
  · rw [Heap.count_of_some hb] at hcount
    exact absurd b.count_pos (by omega)

end Keeps

end PythonicCpp
