import PythonicCpp.Store.Shows
import Mathlib.Tactic.IntervalCases

/-!
# The bytes of a string

`small_` and `ml_` share 24 bytes.  The last of them is the size of a string in place, and the top
of `capacity_` otherwise; its two top bits are the category.

* `Bytes` : the union, and the members as they are read from it.
* `Bytes.core` : the string that the bytes are taken for.
* `Core.Stored` : the bytes are those of a string.  What is indeterminate may be anything.
* `core_of_stored` : the bytes of a string are taken for that string.
* `initSmallWords` : the path of `initSmall` that copies words.
-/

namespace PythonicCpp

namespace FbString

/-- The union of `small_` and `ml_`. -/
structure Bytes where
  /-- The bytes. -/
  bytes : List UInt8
  length_eq : bytes.length = 24

namespace Bytes

variable (b : Bytes)

/-- `ml_.data_`. -/
def data : ℕ := leWord (b.bytes.take 8)

/-- `ml_.size_`. -/
def size : ℕ := leWord ((b.bytes.drop 8).take 8)

/-- `ml_.capacity_`. -/
def capacity_ : ℕ := leWord (b.bytes.drop 16)

/-- `ml_.capacity()`. -/
def capacity : ℕ := b.capacity_ &&& capacityExtractMask

/-- `category`. -/
def category : ℕ := b.capacity_ &&& categoryExtractMask

/-- The string that the bytes are taken for. -/
def core : Option Core :=
  if b.category = 0 then
    some (.small (b.bytes.map some))
  else if b.category = Category.isMedium.bits then
    some (.ml ⟨b.data, b.size, b.capacity, .isMedium⟩)
  else if b.category = Category.isLarge.bits then
    some (.ml ⟨b.data, b.size, b.capacity, .isLarge⟩)
  else none

/-- `reset`: one word and one unit are written. -/
def reset : Bytes where
  bytes := 0 :: (b.bytes.drop 1).take 15 ++ leBytes 8 (maxSmallSize <<< 56)
  length_eq := by simp [b.length_eq]

end Bytes

/-- `ml_`, with `setCapacity`. -/
def MediumLarge.bytes (m : MediumLarge) : Bytes where
  bytes := leBytes 8 m.data ++ leBytes 8 m.size ++ leBytes 8 (m.capacity ||| m.category.bits)
  length_eq := by simp

/-- The bytes of the string. -/
def Core.Stored (b : Bytes) : Core → Prop
  | small cells => ∀ (i : ℕ) (x : UInt8), cells[i]? = some (some x) → b.bytes[i]? = some x
  | ml m => b = m.bytes

variable {b : Bytes} {m : MediumLarge} {c : Core} {h h' : Heap Cell} {cells : List Cell}
  {u : List CodeUnit}

/-! ### The category -/

theorem Bytes.capacityWord_lt (b : Bytes) : b.capacity_ < 2 ^ 64 := by
  have hlt := leWord_lt (b.bytes.drop 16)
  rw [List.length_drop, b.length_eq] at hlt
  exact hlt

theorem Bytes.category_eq (b : Bytes) : b.category = b.capacity_ / 2 ^ 62 * 2 ^ 62 := by
  have hlt := b.capacityWord_lt
  rw [category, categoryExtractMask, and_top_bits, Nat.mod_eq_of_lt]
  omega

theorem Bytes.capacity_eq (b : Bytes) : b.capacity = b.capacity_ % 2 ^ 62 := and_low_bits _

/-- The last byte alone tells whether the text is in place. -/
theorem Bytes.category_eq_zero_iff {x : UInt8} (hx : b.bytes[23]? = some x) :
    b.category = 0 ↔ x.toNat < 64 := by
  have hdrop : b.bytes.drop 16 = (b.bytes.drop 16).take 7 ++ [x] := by
    have hlast : (b.bytes.drop 16)[7]? = some x := by rwa [List.getElem?_drop]
    rw [← Option.toList_some, ← hlast, ← List.take_add_one, List.take_of_length_le]
    simp [b.length_eq]
  have hlow := leWord_lt ((b.bytes.drop 16).take 7)
  have hlen : ((b.bytes.drop 16).take 7).length = 7 := by simp [b.length_eq]
  rw [Bytes.category_eq, Bytes.capacity_, hdrop, leWord_append, leWord_cons, hlen]
  rw [hlen] at hlow
  have hnil : leWord [] = 0 := rfl
  omega

/-! ### What is stored is read -/

theorem MediumLarge.bytes_bytes (m : MediumLarge) : m.bytes.bytes =
    leBytes 8 m.data ++ (leBytes 8 m.size ++ leBytes 8 (m.capacity ||| m.category.bits)) :=
  List.append_assoc ..

theorem MediumLarge.capacityWord_bytes (hcap : m.capacity < 2 ^ 62) :
    m.bytes.capacity_ = m.category.bits + m.capacity := by
  have hbits := Category.or_bits hcap m.category
  have hlt : m.category.bits + m.capacity < 256 ^ 8 := by
    cases m.category with
    | isMedium => simp only [Category.bits]; omega
    | isLarge => simp only [Category.bits]; omega
  have hdrop : m.bytes.bytes.drop 16 = leBytes 8 (m.capacity ||| m.category.bits) :=
    List.drop_left' (by simp)
  rw [Bytes.capacity_, hdrop, hbits, leWord_leBytes hlt]

/-- The members of a string whose text is not in place. -/
theorem MediumLarge.core_bytes (hdata : m.data < 2 ^ 64) (hsize : m.size < 2 ^ 64)
    (hcap : m.capacity < 2 ^ 62) : m.bytes.core = some (.ml m) := by
  have hcapacity_ := MediumLarge.capacityWord_bytes hcap
  have hd : m.bytes.data = m.data := by
    have htake : m.bytes.bytes.take 8 = leBytes 8 m.data := by
      rw [MediumLarge.bytes_bytes, List.take_left' (length_leBytes ..)]
    rw [Bytes.data, htake, leWord_leBytes hdata]
  have hs : m.bytes.size = m.size := by
    have htake : (m.bytes.bytes.drop 8).take 8 = leBytes 8 m.size := by
      rw [MediumLarge.bytes_bytes, List.drop_left' (length_leBytes ..),
        List.take_left' (length_leBytes ..)]
    rw [Bytes.size, htake, leWord_leBytes hsize]
  obtain ⟨data, size, capacity, category⟩ := m
  rw [Bytes.core, hd, hs, Bytes.category_eq, Bytes.capacity_eq, hcapacity_]
  dsimp only at hcap
  cases category with
  | isMedium =>
    have hdiv : (Category.isMedium.bits + capacity) / 2 ^ 62 = 2 := by
      simp only [Category.bits]
      omega
    have hmod : (Category.isMedium.bits + capacity) % 2 ^ 62 = capacity := by
      simp only [Category.bits]
      omega
    rw [hdiv, hmod]
    rfl
  | isLarge =>
    have hdiv : (Category.isLarge.bits + capacity) / 2 ^ 62 = 1 := by
      simp only [Category.bits]
      omega
    have hmod : (Category.isLarge.bits + capacity) % 2 ^ 62 = capacity := by
      simp only [Category.bits]
      omega
    rw [hdiv, hmod]
    rfl

/-- The text of a string in place. -/
theorem SmallShows.of_stored (hs : SmallShows cells (u.map some))
    (hb : (Core.small cells).Stored b) : SmallShows (b.bytes.map some) (u.map some) := by
  have htake := terminated_iff.1 hs.text
  -- the text and its terminator are determinate
  have hall : u.map some ++ [some 0] = (u ++ [0]).map some := by simp
  have hprefix : u ++ [0] <+: b.bytes := by
    refine List.prefix_iff_getElem?.2 fun i hi => hb i _ ?_
    have hlt : i < (u.map (some : CodeUnit → Cell)).length + 1 := by simpa using hi
    rw [← List.getElem?_take_of_lt hlt, htake, hall, List.getElem?_map,
      List.getElem?_eq_getElem hi, Option.map_some]
  refine ⟨by rw [List.length_map, b.length_eq]; rfl, hs.le, ?_, terminated_iff.2 ?_⟩
  · rw [List.getElem?_map, hb _ _ hs.last]
    rfl
  · obtain ⟨rest, hrest⟩ := hprefix
    rw [← hrest, List.map_append, hall]
    exact List.take_left' (by simp)

/-- **The bytes of a string are taken for that string**: one with the same category, and the same
text. -/
theorem core_of_stored (hc : c.Shows h (u.map some)) (hdata : ∀ a ∈ c.held, a < 2 ^ 64)
    (hb : c.Stored b) :
    ∃ c', b.core = some c' ∧ c'.Shows h (u.map some) ∧ ∀ m, c = .ml m ∨ c' = .ml m → c' = c := by
  cases c with
  | small cells =>
    have hs : SmallShows cells (u.map some) := hc
    have hlast := hb _ _ hs.last
    have hzero : b.category = 0 := by
      rw [Bytes.category_eq_zero_iff hlast, toNat_ofNat_room]
      simp only [maxSmallSize]
      omega
    refine ⟨.small (b.bytes.map some), ?_, hs.of_stored hb, ?_⟩
    · rw [Bytes.core, if_pos hzero]
    · rintro m (hm | hm)
      · cases hm
      · cases hm
  | ml m =>
    obtain rfl : b = m.bytes := hb
    have hle := MediumLarge.Shows.le hc
    have hsize := MediumLarge.Shows.size hc
    have hlt := MediumLarge.Shows.lt hc
    refine ⟨.ml m, ?_, hc, fun _ _ => rfl⟩
    exact MediumLarge.core_bytes (hdata _ (List.mem_singleton_self _)) (by omega) hlt

/-- Whatever the bytes were before, `reset` leaves those of the empty string. -/
theorem stored_reset (b : Bytes) : FbString.reset.Stored b.reset := by
  intro i x hx
  have hlen : ((b.bytes.drop 1).take 15).length = 15 := by simp [b.length_eq]
  have hword : leBytes 8 (maxSmallSize <<< 56) = [0, 0, 0, 0, 0, 0, 0, 23] := by decide
  have hlt := (List.getElem?_eq_some_iff.1 hx).1
  change i < 24 at hlt
  show (0 :: (b.bytes.drop 1).take 15 ++ leBytes 8 (maxSmallSize <<< 56))[i]? = some x
  rw [hword]
  rcases Nat.lt_or_ge i 16 with hi | hi
  · rcases i with _ | i
    · obtain rfl : 0 = x := Option.some.inj (Option.some.inj hx)
      rfl
    · have hnone : resetCells[i + 1]? = some none := by
        have : i < 15 := by omega
        interval_cases i <;> rfl
      rw [hnone] at hx
      cases hx
  · rw [List.getElem?_append_right (by simp; omega)]
    rw [List.length_cons, hlen]
    interval_cases i <;> exact congrArg some (Option.some.inj (Option.some.inj hx))

/-- The bytes of a string that shares its block. -/
theorem core_of_stored_shared : ∃ c', (MediumLarge.bytes ⟨0, 300, 300, .isLarge⟩).core = some c' ∧
    c'.Shows sharedHeap (sharedText.map some) ∧
    ∀ m, shared = .ml m ∨ c' = .ml m → c' = shared :=
  core_of_stored shared_shows (by decide) rfl

/-- **The category takes two bits of the capacity**, so that larger capacities are not read back. -/
theorem core_bytes_iff (hdata : m.data < 2 ^ 64) (hsize : m.size < 2 ^ 64) :
    m.bytes.core = some (.ml m) ↔ m.capacity < 2 ^ 62 := by
  refine ⟨fun hcore => ?_, MediumLarge.core_bytes hdata hsize⟩
  have hcap : m.bytes.capacity = m.capacity := by
    rw [Bytes.core] at hcore
    split_ifs at hcore
    · cases hcore
    · exact congrArg MediumLarge.capacity (Core.ml.inj (Option.some.inj hcore))
    · exact congrArg MediumLarge.capacity (Core.ml.inj (Option.some.inj hcore))
  rw [← hcap, Bytes.capacity_eq]
  exact Nat.mod_lt _ (Nat.two_pow_pos 62)

theorem core_bytes_iff_too_large :
    ¬ (MediumLarge.mk 0 0 (2 ^ 62) .isMedium).bytes.core =
      some (.ml (MediumLarge.mk 0 0 (2 ^ 62) .isMedium)) := fun hcore =>
  absurd ((core_bytes_iff (by decide) (by decide)).1 hcore) (lt_irrefl _)

/-! ### Copying words -/

/-- `initSmall` of a text at an aligned address: whole words are copied, with what comes after the
text. -/
def initSmallWords (data after : List Cell) : Mem Core := do
  let words := (data.length + 7) / 8
  check (8 * words ≤ data.length + after.length)
  setSmallSize ((data ++ after).take (8 * words) ++ List.replicate (24 - 8 * words) none)
    data.length

/-- Whatever there is after the text, `setSmallSize` leaves the text. -/
theorem exists_setSmallSize {l : List CodeUnit} {rest : List Cell} (hl : l.length ≤ maxSmallSize)
    (hlen : l.length + rest.length = maxSmallSize + 1) (h : Heap Cell) :
    ∃ c, setSmallSize (l.map some ++ rest) l.length h = .ok c h ∧ c.Shows h (l.map some) := by
  have hset : Ends (setSmallSize (l.map some ++ rest) (l.map (some : CodeUnit → Cell)).length) h
      (fun c h' => h' = h ∧ c.Shows h (l.map some)) fun _ => False := by
    refine ends_setSmallSize ?_ ?_ (List.take_left ..) fun _ hs => ⟨rfl, hs⟩
    · rwa [List.length_append, List.length_map]
    · rwa [List.length_map]
  rw [List.length_map] at hset
  rcases hset.exists with ⟨c, h', hrun, rfl, hshows⟩ | ⟨_, _, hfalse⟩
  · exact ⟨c, hrun, hshows⟩
  · exact hfalse.elim

/-- **Copying words is copying units**: both leave the text, and nothing else on the heap.  The
words that are read are those that units of the text are in, so that none of them is out of reach.
-/
theorem initSmallWords_spec {l : List CodeUnit} (hl : l.length ≤ maxSmallSize) (after : List Cell)
    (hafter : 8 * ((l.length + 7) / 8) ≤ l.length + after.length) (h : Heap Cell) :
    (∃ c c', initSmallWords (l.map some) after h = .ok c h ∧ initSmall (l.map some) h = .ok c' h ∧
      c.Shows h (l.map some) ∧ c'.Shows h (l.map some)) ∧
    ∀ a j, 8 ∣ a → j < 8 * ((l.length + 7) / 8) → ∃ i < l.length, (a + j) / 8 = (a + i) / 8 := by
  have hlt : l.length ≤ 23 := hl
  refine ⟨?_, fun a j ha hj => ⟨min j (l.length - 1), by omega, by omega⟩⟩
  have hwords : (l.map some ++ after).take (8 * ((l.length + 7) / 8)) ++
      List.replicate (24 - 8 * ((l.length + 7) / 8)) none = l.map some ++
        (after.take (8 * ((l.length + 7) / 8) - l.length) ++
          List.replicate (24 - 8 * ((l.length + 7) / 8)) none) := by
    rw [List.take_append, List.take_of_length_le (by rw [List.length_map]; omega), List.length_map,
      List.append_assoc]
  have hlen : l.length + (after.take (8 * ((l.length + 7) / 8) - l.length) ++
      List.replicate (24 - 8 * ((l.length + 7) / 8)) none).length = maxSmallSize + 1 := by
    rw [List.length_append, List.length_take, List.length_replicate, maxSmallSize]
    omega
  obtain ⟨c, hrun, hshows⟩ := exists_setSmallSize hl hlen h
  have hlen' : l.length + (List.replicate (maxSmallSize + 1 - l.length) (none : Cell)).length =
      maxSmallSize + 1 := by
    rw [List.length_replicate]
    omega
  obtain ⟨c', hrun', hshows'⟩ := exists_setSmallSize hl hlen' h
  refine ⟨c, c', ?_, ?_, hshows, hshows'⟩
  · unfold initSmallWords check
    rw [List.length_map, if_pos hafter, hwords]
    exact hrun
  · rw [initSmall, List.length_map]
    exact hrun'

theorem initSmallWords_spec_abc : ∃ c, initSmallWords ([97, 98, 99].map some)
    [some 0, none, none, none, none] Heap.empty = .ok c Heap.empty := by
  obtain ⟨⟨c, -, hrun, -⟩, -⟩ := initSmallWords_spec (l := [97, 98, 99]) (by decide)
    [some 0, none, none, none, none] (by decide) Heap.empty
  exact ⟨c, hrun⟩

end FbString

end PythonicCpp
