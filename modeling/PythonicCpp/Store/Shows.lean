import PythonicCpp.Store.Core

/-!
# What an `fbstring_core` shows

* `Core.Shows h u c` : the string `c` holds the text `u`, with its terminator, in the heap `h`.
* `Core.held` : the blocks it holds a reference to.
* `Core.room` : its capacity.
* `Core.Shows.keeps` : a string shows its text for as long as it is not the only holder of what an
  exchange is about.
* `Arises h u h' c` : the string `c` is new.
* `construct_spec`, `copy_spec`, `destroy_spec` : the constructors and the destructor.
* `shared`, `sharedHeap` : an example, a string that shares its block.
-/

namespace PythonicCpp

namespace FbString

open RefCounted

/-- The cells of a block beyond the capacity: the terminator, and the padding of `RefCounted`. -/
def Category.slack : Category → ℕ
  | isMedium => 1
  | isLarge => sizeofRefCounted - sizeofRefCount

/-- `small_` holds the text `u`. -/
structure SmallShows (cells u : List Cell) : Prop where
  length : cells.length = maxSmallSize + 1
  le : u.length ≤ maxSmallSize
  last : cells[maxSmallSize]? = some (some (UInt8.ofNat (maxSmallSize - u.length)))
  text : Terminated (some 0) u cells

/-- The block `b` holds the text `u`, and is one that `m` can have. -/
structure MediumLarge.Backs (m : MediumLarge) (b : Block Cell) (u : List Cell) : Prop where
  text : Terminated (some 0) u b.cells
  length : b.cells.length = m.capacity + m.category.slack
  refs : b.refs.isSome = decide (m.category = .isLarge)

/-- `ml_` holds the text `u`. -/
structure MediumLarge.Shows (h : Heap Cell) (u : List Cell) (m : MediumLarge) : Prop where
  size : m.size = u.length
  le : u.length ≤ m.capacity
  lt : m.capacity < 2 ^ 62
  block : ∃ b, h.blocks m.data = some b ∧ m.Backs b u

namespace Core

/-- The string holds the text `u`. -/
def Shows (h : Heap Cell) (u : List Cell) : Core → Prop
  | small cells => SmallShows cells u
  | ml m => m.Shows h u

/-- The blocks that the string holds a reference to. -/
def held : Core → List ℕ
  | small _ => []
  | ml m => [m.data]

/-- The value of `capacity`. -/
def room (h : Heap Cell) : Core → ℕ
  | small _ => maxSmallSize
  | ml m => if 1 < h.count m.data then m.size else m.capacity

/-- No other string has the block. -/
def Alone (h : Heap Cell) (c : Core) : Prop := ∀ a ∈ c.held, h.count a = 1

end Core

variable {h h' : Heap Cell} {cells u l : List Cell} {m : MediumLarge} {c : Core} {b : Block Cell}
  {os os' : List ℕ} {p n : ℕ} {E : Heap Cell → Prop}

/-! ### Strings in place -/

theorem toNat_ofNat_room (n : ℕ) :
    (UInt8.ofNat (maxSmallSize - n)).toNat = maxSmallSize - n :=
  UInt8.toNat_ofNat_of_lt (by simp only [maxSmallSize, UInt8.size]; omega)

theorem SmallShows.ends_smallSize (hs : SmallShows cells u) {Q : ℕ → Heap Cell → Prop}
    (hQ : Q u.length h) : Ends (smallSize cells) h Q E := by
  rw [smallSize, ends_bind, ends_demand]
  refine ⟨_, hs.last, ?_⟩
  rw [ends_bind, ends_demand]
  refine ⟨_, rfl, ?_⟩
  rw [ends_bind, ends_check, ends_pure, toNat_ofNat_room, Nat.sub_sub_self hs.le]
  exact ⟨Nat.sub_le _ _, hQ⟩

/-- What `setSmallSize` leaves. -/
theorem smallShows_set (hlen : cells.length = maxSmallSize + 1) (hle : u.length ≤ maxSmallSize)
    (htake : cells.take u.length = u) :
    SmallShows ((cells.set maxSmallSize (some (UInt8.ofNat (maxSmallSize - u.length)))).set
      u.length (some 0)) u := by
  refine ⟨by simp [hlen], hle, ?_, terminated_iff.2 ?_⟩
  · by_cases heq : u.length = maxSmallSize
    · rw [heq, List.getElem?_set_self (by simp [hlen]), Nat.sub_self]
      rfl
    · rw [List.getElem?_set_ne heq, List.getElem?_set_self (by omega)]
  · rw [List.take_add_one, List.getElem?_set_self (by simp; omega), Option.toList_some,
      List.take_set_of_le (Nat.le_refl _), List.take_set_of_le hle, htake]

theorem ends_setSmallSize (hlen : cells.length = maxSmallSize + 1) (hle : u.length ≤ maxSmallSize)
    (htake : cells.take u.length = u) {Q : Core → Heap Cell → Prop}
    (hQ : ∀ cells', SmallShows cells' u → Q (.small cells') h) :
    Ends (setSmallSize cells u.length) h Q E := by
  rw [setSmallSize, ends_bind, ends_check, ends_pure]
  exact ⟨hle, hQ _ (smallShows_set hlen hle htake)⟩

theorem SmallShows.take_eq (hs : SmallShows cells u) : cells.take u.length = u := by
  obtain ⟨rest, hrest⟩ := hs.text
  rw [hrest, List.take_left]

theorem smallShows_reset : SmallShows resetCells [] :=
  ⟨rfl, Nat.zero_le _, rfl, _, rfl⟩

/-! ### Blocks -/

theorem MediumLarge.Backs.isSome_iff (hb : m.Backs b u) :
    b.refs.isSome = true ↔ m.category = .isLarge := by
  rw [hb.refs, decide_eq_true_iff]

/-- The block of a large string has a count. -/
theorem MediumLarge.Backs.exists_refs (hb : m.Backs b u) (hm : m.category = .isLarge) :
    b.refs = some b.count := by
  obtain ⟨r, hr⟩ := Option.isSome_iff_exists.1 (hb.isSome_iff.2 hm)
  rw [Block.count_of_refs hr, hr]

/-- The block of a medium string has none. -/
theorem MediumLarge.Backs.refs_eq_none (hb : m.Backs b u) (hm : m.category = .isMedium) :
    b.refs = none := by
  rw [← Option.not_isSome_iff_eq_none, hb.isSome_iff, hm]
  decide

theorem ends_refs (hb : h.blocks p = some b) {r : ℕ} (hr : b.refs = some r)
    {Q : ℕ → Heap Cell → Prop} (hQ : Q r h) : Ends (refs p) h Q E := by
  rw [refs, ends_bind]
  refine ends_lookup hb ?_
  rw [ends_demand]
  exact ⟨r, hr, hQ⟩

theorem Core.Shows.ends_size (hc : c.Shows h u) {Q : ℕ → Heap Cell → Prop} (hQ : Q u.length h) :
    Ends c.size h Q E := by
  cases c with
  | small cells => exact hc.ends_smallSize hQ
  | ml m =>
    rw [Core.size, ends_pure, hc.size]
    exact hQ

theorem Core.Shows.ends_capacity (hc : c.Shows h u) {Q : ℕ → Heap Cell → Prop}
    (hQ : Q (c.room h) h) : Ends c.capacity h Q E := by
  cases c with
  | small cells => exact hQ
  | ml m =>
    obtain ⟨b, hb, hback⟩ := hc.block
    rw [Core.room, Heap.count_of_some hb] at hQ
    rw [Core.capacity]
    cases hm : m.category with
    | isMedium =>
      rw [Block.count_of_none (hback.refs_eq_none hm), if_neg (Nat.lt_irrefl 1)] at hQ
      exact hQ
    | isLarge =>
      simp only [ends_bind]
      refine ends_refs hb (hback.exists_refs hm) ?_
      split_ifs at hQ ⊢ <;> exact hQ

theorem Core.Shows.le_room (hc : c.Shows h u) : u.length ≤ c.room h := by
  cases c with
  | small cells => exact hc.le
  | ml m =>
    rw [Core.room]
    split_ifs
    · exact hc.size.ge
    · exact hc.le

/-- A string that has room to spare has its block for itself. -/
theorem Core.Shows.count_eq_one (hc : (Core.ml m).Shows h u)
    (hlt : u.length < (Core.ml m).room h) : h.count m.data = 1 := by
  obtain ⟨b, hb, -⟩ := hc.block
  have hpos := b.count_pos
  rw [Core.room] at hlt
  rw [Heap.count_of_some hb] at hlt ⊢
  split_ifs at hlt
  · exact absurd hc.size (by omega)
  · omega

theorem alone_small (h : Heap Cell) (cells : List Cell) : (Core.small cells).Alone h :=
  fun _ ha => absurd ha List.not_mem_nil

/-- **A string shows its text** in every exchange of things that it is not the only holder of. -/
theorem Core.Shows.keeps (hc : c.Shows h u) (hk : Keeps h os h' os')
    (hother : ∀ a ∈ c.held, os.count a < h.count a) : c.Shows h' u := by
  cases c with
  | small cells => exact hc
  | ml m =>
    obtain ⟨b, hb, hback⟩ := hc.block
    have hlt := hother m.data (List.mem_singleton_self _)
    rw [Heap.count_of_some hb] at hlt
    obtain ⟨b', hb', hcells, hrefs⟩ := hk.frame _ b hb hlt
    refine ⟨hc.size, hc.le, hc.lt, b', hb', ?_, ?_, hrefs.trans hback.refs⟩
    · rw [hcells]
      exact hback.text
    · rw [hcells]
      exact hback.length

theorem Core.Shows.count_pos (hc : c.Shows h u) : ∀ a ∈ c.held, 0 < h.count a := by
  cases c with
  | small cells => exact fun _ ha => absurd ha List.not_mem_nil
  | ml m =>
    intro a ha
    obtain ⟨b, hb, -⟩ := hc.block
    rw [List.mem_singleton.1 ha, Heap.count_of_some hb]
    exact b.count_pos

/-- Nothing that the string depends on has been touched. -/
theorem Core.Shows.fresh (hc : c.Shows h u) (hk : Keeps h [] h' os') : c.Shows h' u :=
  hc.keeps hk fun a ha => by
    rw [List.count_nil]
    exact hc.count_pos a ha

/-! ### New blocks -/

theorem ends_setCapacity {q size cap : ℕ} {cat : Category} (hcap : cap < 2 ^ 62)
    {Q : Core → Heap Cell → Prop} (hQ : Q (.ml ⟨q, size, cap, cat⟩) h) :
    Ends (setCapacity q size cap cat) h Q E := by
  obtain ⟨hcat, hlow⟩ := Category.ofWord_or_bits hcap cat
  rw [setCapacity, ends_bind, ends_demand]
  refine ⟨cat, hcat, ?_⟩
  rw [ends_pure, hlow]
  exact hQ

theorem ends_checkedMalloc {Q : ℕ → Heap Cell → Prop} (hE : E h.skip)
    (hQ : n < 2 ^ 62 → Q h.next (h.push (newBlock n))) : Ends (checkedMalloc n) h Q E :=
  ends_allocate hE hQ

/-- `RefCounted::create` allocates a block of the size it is asked for, as long as that fits a
`size_t` with the counter. -/
theorem ends_create (hn : n + sizeofRefCounted < 2 ^ 64) {Q : ℕ × ℕ → Heap Cell → Prop}
    (hE : E h.skip) (hQ : n < 2 ^ 62 → Q (h.next, n) (h.push (newCounted (n + sizeofRefCounted)))) :
    Ends (create n) h Q E := by
  have hsize : toSizeT (sizeofRefCounted + n) = n + sizeofRefCounted := by
    rw [← Nat.cast_add, toSizeT_natCast (by omega), Nat.add_comm]
  have hback : toSizeT (((n + sizeofRefCounted : ℕ) : ℤ) - sizeofRefCounted) = n := by
    rw [Nat.cast_add, add_sub_cancel_right, toSizeT_natCast (by omega)]
  simp only [create, goodMallocSize_eq, hsize, ends_bind]
  refine ends_allocate hE fun hlt => ?_
  rw [ends_check, ends_pure, hback, hsize]
  exact ⟨(by decide : sizeofRefCount ≤ sizeofRefCounted).trans (Nat.le_add_left ..),
    hQ (by omega)⟩

@[simp] theorem length_cells_newBlock (n : ℕ) : (newBlock n).cells.length = n :=
  List.length_replicate ..

@[simp] theorem length_cells_newCounted (n : ℕ) :
    (newCounted (n + sizeofRefCounted)).cells.length = n + Category.slack .isLarge :=
  List.length_replicate ..

/-! ### Constructors and destructor -/

/-- The string `c` is new: it holds the text `u`, and its block was nobody's. -/
structure Arises (h : Heap Cell) (u : List Cell) (h' : Heap Cell) (c : Core) : Prop where
  keeps : Keeps h [] h' c.held
  shows : c.Shows h' u
  fresh : ∀ a ∈ c.held, h.count a = 0

/-- A new block has one holder, which may use all of its room. -/
theorem Arises.room (ha : Arises h u h' (.ml m)) :
    h'.count m.data = 1 ∧ (Core.ml m).room h' = m.capacity := by
  have hcount := ha.keeps.count m.data
  have hfresh := ha.fresh m.data (List.mem_singleton_self _)
  rw [List.count_nil, Core.held, List.count_singleton_self] at hcount
  rw [Core.room, if_neg (by omega)]
  exact ⟨by omega, rfl⟩

/-- A new block has a single holder. -/
theorem Arises.alone (ha : Arises h u h' c) : c.Alone h' := by
  cases c with
  | small cells => exact alone_small h' cells
  | ml m =>
    intro a hmem
    rw [List.mem_singleton.1 hmem]
    exact ha.room.1

/-- A string whose text has been written into a new block shows it. -/
theorem arises_write (hk : Keeps h [] h' [m.data]) (hfresh : h.count m.data = 0)
    (hb : h'.blocks m.data = some b) (hcount : b.count = 1) (hsize : m.size = u.length)
    (hle : u.length ≤ m.capacity) (hlt : m.capacity < 2 ^ 62)
    (hlen : cells.length = m.capacity + m.category.slack)
    (hrefs : b.refs.isSome = decide (m.category = .isLarge))
    (htext : Terminated (some 0) u cells) : Arises h u (h'.setCells m.data cells) (.ml m) :=
  ⟨hk.write hb hcount cells, ⟨hsize, hle, hlt, _, Heap.blocks_setCells_self hb cells,
    htext, hlen, hrefs⟩, fun a ha => by rwa [List.mem_singleton.1 ha]⟩

/-- The text and its terminator, copied into a new block. -/
theorem ends_copyText (hk : Keeps h [] h' [m.data]) (hfresh : h.count m.data = 0)
    (hb : h'.blocks m.data = some b) (hcount : b.count = 1) (hsize : m.size = u.length)
    (hle : u.length ≤ m.capacity) (hlt : m.capacity < 2 ^ 62)
    (hlen : b.cells.length = m.capacity + m.category.slack)
    (hrefs : b.refs.isSome = decide (m.category = .isLarge)) {Q : Core → Heap Cell → Prop}
    (hQ : ∀ h', Arises h u h' (.ml m) → Q (.ml m) h') :
    Ends (do
      store m.data 0 (u ++ [some 0])
      setCapacity m.data m.size m.capacity m.category) h' Q E := by
  have hslack : 1 ≤ m.category.slack := by cases m.category <;> decide
  have hroom : 0 + (u ++ [some 0] : List Cell).length ≤ b.cells.length := by
    rw [List.length_append, List.length_singleton]
    omega
  rw [ends_bind]
  refine ends_store hb hroom (ends_setCapacity hlt ?_)
  exact hQ _ (arises_write hk hfresh hb hcount hsize hle hlt
    ((length_overwrite hroom).trans hlen) hrefs terminated_copy)

theorem initSmall_spec (hl : l.length ≤ maxSmallSize) :
    Ends (initSmall l) h (fun c h' => Arises h l h' c) E := by
  refine ends_setSmallSize ?_ hl (List.take_left ..) fun cells' hs =>
    ⟨Keeps.refl h [], hs, fun _ ha => absurd ha List.not_mem_nil⟩
  rw [List.length_append, List.length_replicate]
  omega

/-- The text is written into a new block, and its terminator after it. -/
theorem ends_writeText (hk : Keeps h [] h' [m.data]) (hfresh : h.count m.data = 0)
    (hb : h'.blocks m.data = some b) (hcount : b.count = 1) (hsize : m.size = l.length)
    (hle : l.length ≤ m.capacity) (hlt : m.capacity < 2 ^ 62)
    (hlen : b.cells.length = m.capacity + m.category.slack)
    (hrefs : b.refs.isSome = decide (m.category = .isLarge)) :
    Ends (do
      store m.data 0 l
      let c ← setCapacity m.data m.size m.capacity m.category
      store m.data m.size [some 0]
      pure c) h' (fun c h' => Arises h l h' c) E := by
  have hslack : 1 ≤ m.category.slack := by cases m.category <;> decide
  have hroom : 0 + l.length ≤ b.cells.length := by omega
  have hlen' : (overwrite b.cells 0 l).length = b.cells.length := length_overwrite hroom
  have hroom' : l.length + [some (0 : CodeUnit)].length ≤ (overwrite b.cells 0 l).length := by
    rw [hlen', List.length_singleton]
    omega
  simp only [ends_bind, hsize]
  refine ends_store hb hroom (ends_setCapacity hlt ?_)
  have hb' := Heap.blocks_setCells_self hb (overwrite b.cells 0 l)
  refine ends_store hb' hroom' ?_
  rw [ends_pure, ← hsize]
  exact arises_write (hk.write hb hcount _) hfresh hb' hcount hsize hle hlt
    (((length_overwrite (hsize ▸ hroom')).trans hlen').trans hlen) hrefs
    (hsize ▸ terminated_write (by omega))

/-- **The constructor**: a string with the text, which depends on nothing that was there. -/
theorem construct_spec (hl : l.length + sizeofRefCounted < 2 ^ 64) :
    Ends (construct l) h (fun c h' => Arises h l h' c) (· = h.skip) := by
  unfold construct
  split_ifs with hsmall hmedium
  · exact initSmall_spec hsmall
  · simp only [initMedium, goodMallocSize_eq, Nat.add_sub_cancel_left]
    rw [ends_bind]
    refine ends_checkedMalloc rfl fun hlt => ?_
    exact ends_writeText (m := ⟨h.next, l.length, l.length, .isMedium⟩) (keeps_push [] rfl)
      Heap.count_next (Heap.blocks_push_self _) rfl rfl le_rfl (by simp only; omega)
      (by simp [Category.slack, Nat.add_comm]) rfl
  · simp only [initLarge]
    rw [ends_bind]
    refine ends_create hl rfl fun hlt => ?_
    exact ends_writeText (m := ⟨h.next, l.length, l.length, .isLarge⟩) (keeps_push [] rfl)
      Heap.count_next (Heap.blocks_push_self _) rfl rfl le_rfl hlt (by simp) rfl

/-- **The destructor** releases what the string holds. -/
theorem destroy_spec (hc : c.Shows h u) :
    Ends (destroy c) h (fun _ h' => Keeps h c.held h' []) E := by
  cases c with
  | small cells => exact Keeps.refl h []
  | ml m =>
    obtain ⟨b, hb, hback⟩ := hc.block
    rw [destroy]
    cases hm : m.category with
    | isMedium =>
      have hrefs := hback.refs_eq_none hm
      simp only [free, ends_bind]
      refine ends_lookup hb ?_
      rw [ends_check, ends_get, ends_set]
      exact ⟨hrefs, keeps_erase [] hb (Block.count_of_none hrefs)⟩
    | isLarge =>
      have hrefs := hback.exists_refs hm
      have hpos := b.count_pos
      simp only [decrementRefs, ends_bind]
      refine ends_refs hb hrefs ?_
      rcases hr : b.count with _ | _ | r
      · omega
      · rw [ends_bind, ends_get, ends_set]
        exact keeps_erase [] hb hr
      · rw [ends_bind, ends_get, ends_set]
        refine keeps_setRefs hb (hr ▸ hrefs) r.succ_ne_zero (fun a ha => ?_) ?_
        · rw [Core.held, List.count_singleton, if_neg (by simpa using Ne.symm ha), List.count_nil]
        · rw [Core.held, List.count_singleton_self, List.count_nil]

/-- **The copy constructor**: a second string with the text, which shares its block with the first
one or with nobody. -/
theorem copy_spec (hc : c.Shows h u) :
    Ends (copy c) h (fun c' h' => Keeps h [] h' c'.held ∧ c'.Shows h' u ∧
      (c' = c ∨ c'.Alone h')) (· = h.skip) := by
  cases c with
  | small cells => exact ⟨Keeps.refl h [], hc, .inl rfl⟩
  | ml m =>
    obtain ⟨b, hb, hback⟩ := hc.block
    rw [copy]
    cases hm : m.category with
    | isMedium =>
      simp only [copyMedium, goodMallocSize_eq, Nat.add_sub_cancel_left]
      rw [ends_bind]
      refine ends_checkedMalloc rfl fun hlt => ?_
      rw [ends_bind]
      have hb' := Heap.blocks_push_of_some hb (newBlock (1 + m.size))
      have hlen := hback.text.length_lt
      have hsize := hc.size
      refine ends_load hb' (by omega) ?_
      rw [hsize, hback.text.read_all]
      exact ends_copyText (m := ⟨h.next, u.length, u.length, .isMedium⟩) (keeps_push [] rfl)
        Heap.count_next (Heap.blocks_push_self _) rfl rfl le_rfl (by simp only; omega)
        (by simp [Category.slack, Nat.add_comm]) rfl fun h' ha =>
          ⟨ha.keeps, ha.shows, .inr ha.alone⟩
    | isLarge =>
      have hrefs := hback.exists_refs hm
      simp only [copyLarge, incrementRefs, ends_bind]
      refine ends_refs hb hrefs ?_
      rw [ends_get, ends_set, ends_pure]
      have hk : Keeps h [] (h.setRefs m.data (b.count + 1) b.count.succ_ne_zero) [m.data] := by
        refine keeps_setRefs hb hrefs b.count.succ_ne_zero (fun a ha => ?_) ?_
        · rw [List.count_singleton, if_neg (by simpa using Ne.symm ha), List.count_nil]
        · rw [List.count_singleton_self, List.count_nil]
      exact ⟨hk, hc.fresh hk, .inl rfl⟩

/-! ### An example -/

/-- A text that is too long for a string of medium size. -/
@[irreducible] def sharedText : List CodeUnit := List.replicate 300 97

/-- A heap in which two strings share a block. -/
def sharedHeap : Heap Cell :=
  Heap.empty.push ⟨some 2, sharedText.map some ++ some 0 :: List.replicate 7 none, by decide⟩

/-- One of these strings. -/
def shared : Core := .ml ⟨0, 300, 300, .isLarge⟩

theorem length_sharedText : (sharedText.map (some : CodeUnit → Cell)).length = 300 := by
  rw [List.length_map, sharedText, List.length_replicate]

theorem shared_shows : shared.Shows sharedHeap (sharedText.map some) := by
  refine ⟨length_sharedText.symm, length_sharedText.le, by decide, _, Heap.blocks_push_self _,
    ⟨_, rfl⟩, ?_, rfl⟩
  rw [List.length_append, length_sharedText, List.length_cons, List.length_replicate]
  rfl

end FbString

end PythonicCpp
