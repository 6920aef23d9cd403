import PythonicCpp.Store.Shows

/-!
# Making room

* `Becomes h c v h' c'` : the string `c` has become `c'`, which holds the text `v`, and nobody else
  can tell.
* `mutableData_spec` : a string that is going to be written has its block for itself.
* `reserve_spec` : `reserve` keeps the text, and there is room for what was asked for.
* `expandNoinit_spec`, `shrink_spec` : the text is made longer, or cut.
-/

namespace PythonicCpp

namespace FbString

open RefCounted

/-- The string `c` has become `c'`, which holds the text `v`.  The blocks of other holders are as
they were, and if the string has changed, then it shares its block with none of them. -/
structure Becomes (h : Heap Cell) (c : Core) (v : List Cell) (h' : Heap Cell) (c' : Core) :
    Prop where
  keeps : Keeps h c.held h' c'.held
  shows : c'.Shows h' v
  moved : ∀ a ∈ c'.held, a ∈ c.held ∨ h.count a = 0
  settled : c' = c ∨ c'.Alone h'

variable {h h' h'' : Heap Cell} {cells u v : List Cell} {m : MediumLarge} {c c' : Core}
  {b : Block Cell} {p n : ℕ} {E : Heap Cell → Prop}

theorem Core.Shows.count_held_le (hc : c.Shows h u) (a : ℕ) : c.held.count a ≤ h.count a := by
  by_cases ha : a ∈ c.held
  · have hpos := hc.count_pos a ha
    have hone : c.held.count a ≤ c.held.length := List.count_le_length
    cases c with
    | small cells => exact absurd ha List.not_mem_nil
    | ml m => exact hone.trans hpos
  · rw [List.count_eq_zero_of_not_mem ha]
    exact Nat.zero_le _

theorem Core.Shows.becomes (hc : c.Shows h u) : Becomes h c u h c :=
  ⟨Keeps.refl h _, hc, fun _ => .inl, .inl rfl⟩

theorem Arises.becomes {cells : List Cell} (ha : Arises h v h' c') :
    Becomes h (.small cells) v h' c' :=
  ⟨ha.keeps, ha.shows, fun a hmem => .inr (ha.fresh a hmem), .inr ha.alone⟩

theorem Becomes.trans (hb : Becomes h c u h' c') {c'' : Core} (hb' : Becomes h' c' v h'' c'') :
    Becomes h c v h'' c'' := by
  refine ⟨hb.keeps.trans hb'.keeps, hb'.shows, fun a ha => ?_, ?_⟩
  · rcases hb'.moved a ha with ha' | hzero
    · exact hb.moved a ha'
    · by_cases hold : a ∈ c.held
      · exact .inl hold
      · have hcount := hb.keeps.count a
        rw [hzero, List.count_eq_zero_of_not_mem hold] at hcount
        exact .inr (by omega)
  · rcases hb'.settled with rfl | halone
    · rcases hb.settled with rfl | halone
      · exact .inl rfl
      · refine .inr fun a ha => ?_
        have hcount := hb'.keeps.count a
        rw [← halone a ha]
        omega
    · exact .inr halone

/-- The old string is released, once there is a new one. -/
theorem Core.Shows.released (hc : c.Shows h u) (ha : Arises h v h' c')
    (hk' : Keeps h' c.held h'' []) : Becomes h c v h'' c' := by
  refine ⟨ha.keeps.replace hk', ha.shows.keeps hk' fun a hmem => ?_,
    fun a hmem => .inr (ha.fresh a hmem), .inr fun a hmem => ?_⟩
  · have hle := hc.count_held_le a
    have hpos := List.count_pos_iff.2 hmem
    have hcount := ha.keeps.count a
    rw [List.count_nil] at hcount
    omega
  · have hle := hc.count_held_le a
    have hcount := hk'.count a
    rw [ha.fresh a hmem] at hle
    rw [ha.alone a hmem, List.count_nil] at hcount
    omega

/-- The old string is destroyed, once there is a new one. -/
theorem Core.Shows.ends_destroy (hc : c.Shows h u) (ha : Arises h v h' c')
    {Q : Unit → Heap Cell → Prop} (hQ : ∀ h'', Becomes h c v h'' c' → Q () h'') :
    Ends (destroy c) h' Q E :=
  (destroy_spec (hc.fresh ha.keeps)).imp fun _ h'' hk' => hQ h'' (hc.released ha hk')

/-- A block that was nobody's has one holder, which may use all of its room. -/
theorem Becomes.room_fresh (hbec : Becomes h c v h' (.ml m)) (hc : c.Shows h u)
    (hfresh : h.count m.data = 0) : h'.count m.data = 1 ∧ (Core.ml m).room h' = m.capacity := by
  have hle := hc.count_held_le m.data
  have hcount := hbec.keeps.count m.data
  rw [Core.held, List.count_singleton_self] at hcount
  rw [Core.room, if_neg (by omega)]
  exact ⟨by omega, rfl⟩

/-! ### Large strings -/

theorem destroy_large (hm : m.category = .isLarge) : destroy (.ml m) = decrementRefs m.data := by
  rw [destroy, hm]

/-- A large string moves to a new block. -/
theorem ends_moveText {α : Type} (hc : (Core.ml m).Shows h u) (hm : m.category = .isLarge)
    (hle : u.length ≤ n) (hlt : n < 2 ^ 62) {x : Mem α} {Q : α → Heap Cell → Prop}
    (hx : ∀ h', Becomes h (.ml m) u h' (.ml ⟨h.next, m.size, n, .isLarge⟩) → Ends x h' Q E) :
    Ends (do
      store h.next 0 (← load m.data 0 (m.size + 1))
      decrementRefs m.data
      x) (h.push (newCounted (n + sizeofRefCounted))) Q E := by
  obtain ⟨b, hb, hback⟩ := hc.block
  have hsize := hc.size
  have hlen := hback.text.length_lt
  have hroom : 0 + (u ++ [some 0] : List Cell).length ≤
      (newCounted (n + sizeofRefCounted)).cells.length := by
    rw [List.length_append, List.length_singleton, length_cells_newCounted]
    have : 1 ≤ Category.slack .isLarge := by decide
    omega
  rw [ends_bind]
  refine ends_load (Heap.blocks_push_of_some hb _) (by omega) ?_
  rw [hsize, hback.text.read_all, ends_bind]
  refine ends_store (Heap.blocks_push_self _) hroom ?_
  have hnew := arises_write (m := ⟨h.next, m.size, n, .isLarge⟩)
    (b := newCounted (n + sizeofRefCounted)) (keeps_push [] rfl) Heap.count_next
    (Heap.blocks_push_self _) rfl hsize hle hlt
    ((length_overwrite hroom).trans (length_cells_newCounted n)) rfl terminated_copy
  rw [ends_bind, ← destroy_large hm]
  rw [hsize] at hx hnew
  exact hc.ends_destroy hnew hx

theorem mutableDataLarge_spec (hc : (Core.ml m).Shows h u) (hm : m.category = .isLarge) :
    Ends (mutableDataLarge m) h
      (fun c' h' => Becomes h (.ml m) u h' c' ∧ c'.Alone h' ∧
        (c' = .ml m ∧ h' = h ∨ 1 < h.count m.data)) (· = h.skip) := by
  obtain ⟨b, hb, hback⟩ := hc.block
  have hlt := hc.lt
  simp only [mutableDataLarge]
  rw [ends_bind]
  refine ends_refs hb (hback.exists_refs hm) ?_
  split_ifs with hshared
  · rw [ends_bind]
    refine ends_create (by simp only [sizeofRefCounted]; omega) rfl fun _ => ?_
    rw [ends_bind, ends_check]
    refine ⟨le_rfl, ends_moveText hc hm hc.le hlt fun h' hbec => ?_⟩
    rw [ends_pure, hm]
    refine ⟨hbec, fun a ha => ?_, .inr (Heap.count_of_some hb ▸ hshared)⟩
    rw [List.mem_singleton.1 ha]
    exact (hbec.room_fresh hc Heap.count_next).1
  · have hpos := b.count_pos
    refine ⟨hc.becomes, fun a ha => ?_, .inl ⟨rfl, rfl⟩⟩
    rw [List.mem_singleton.1 ha, Heap.count_of_some hb]
    omega

/-- **`mutableData`**: the string has its block for itself.  It has moved only if it shared it. -/
theorem mutableData_spec (hc : c.Shows h u) :
    Ends c.mutableData h
      (fun c' h' => Becomes h c u h' c' ∧ c'.Alone h' ∧
        (c' = c ∧ h' = h ∨ ∃ m, c = .ml m ∧ 1 < h.count m.data)) (· = h.skip) := by
  cases c with
  | small cells => exact ⟨hc.becomes, alone_small h cells, .inl ⟨rfl, rfl⟩⟩
  | ml m =>
    rw [Core.mutableData]
    cases hm : m.category with
    | isMedium =>
      obtain ⟨b, hb, hback⟩ := hc.block
      refine ⟨hc.becomes, fun a ha => ?_, .inl ⟨rfl, rfl⟩⟩
      rw [List.mem_singleton.1 ha, Heap.count_of_some hb,
        Block.count_of_none (hback.refs_eq_none hm)]
    | isLarge =>
      refine (mutableDataLarge_spec hc hm).imp ?_
      rintro c' h' ⟨hbec, halone, hmoved⟩
      exact ⟨hbec, halone, hmoved.imp_right fun hshared => ⟨m, rfl, hshared⟩⟩

/-- A string that has its block for itself stays as it is. -/
theorem Core.Shows.ends_mutableData_alone (hc : c.Shows h u) (halone : c.Alone h)
    {Q : Core → Heap Cell → Prop} (hQ : Q c h) : Ends c.mutableData h Q E := by
  cases c with
  | small cells => exact hQ
  | ml m =>
    rw [Core.mutableData]
    cases hm : m.category with
    | isMedium => exact hQ
    | isLarge =>
      obtain ⟨b, hb, hback⟩ := hc.block
      have hone := halone m.data (List.mem_singleton_self _)
      rw [Heap.count_of_some hb] at hone
      simp only [mutableDataLarge]
      rw [ends_bind]
      refine ends_refs hb (hback.exists_refs hm) ?_
      rw [if_neg (by omega)]
      exact hQ

/-! ### Reallocation -/

theorem toSizeT_counted (hn : n + sizeofRefCounted < 2 ^ 64) :
    toSizeT (sizeofRefCounted + n) = sizeofRefCount + (n + Category.slack .isLarge) := by
  rw [← Nat.cast_add, toSizeT_natCast (by omega)]
  simp only [sizeofRefCounted, sizeofRefCount, Category.slack]
  omega

/-- A block that grows keeps the text, however much of it is copied. -/
theorem ends_smartRealloc (hd : ℕ) (hc : (Core.ml m).Shows h u) (hcount : h.count m.data = 1)
    (hn : m.capacity < n) {Q : ℕ → Heap Cell → Prop} (hE : E h.skip)
    (hQ : ∀ h', n < 2 ^ 62 → Becomes h (.ml m) u h' (.ml ⟨h.next, m.size, n, m.category⟩) →
      Q h.next h') :
    Ends (smartRealloc m.data hd (hd + (m.size + m.category.slack))
      (hd + (m.capacity + m.category.slack)) (hd + (n + m.category.slack))) h Q E := by
  obtain ⟨b, hb, hback⟩ := hc.block
  have hsize := hc.size
  have hle := hc.le
  have hlen := hback.length
  have hslack : 1 ≤ m.category.slack := by cases m.category <;> decide
  rw [Heap.count_of_some hb] at hcount
  simp only [smartRealloc]
  rw [ends_bind]
  refine ends_lookup hb ?_
  rw [ends_bind, ends_check]
  refine ⟨⟨by omega, by omega⟩, ?_⟩
  -- both ways of copying take the text and its terminator
  obtain ⟨k, hk, hsk, hkb⟩ : ∃ k, (if (hd + (m.capacity + m.category.slack) -
      (hd + (m.size + m.category.slack))) * 2 > hd + (m.size + m.category.slack) then
      hd + (m.size + m.category.slack) else hd + b.cells.length) = hd + k ∧
      m.size + m.category.slack ≤ k ∧ k ≤ b.cells.length := by
    split_ifs
    · exact ⟨_, rfl, le_rfl, by omega⟩
    · exact ⟨_, rfl, by omega, le_rfl⟩
  rw [hk, Nat.add_sub_cancel_left, Nat.add_sub_cancel_left, ends_bind, ends_check]
  refine ⟨⟨Nat.le_add_right _ _, by omega⟩, ?_⟩
  rw [ends_bind]
  refine ends_allocate hE fun hlt => ?_
  rw [ends_bind, ends_get, ends_bind, ends_set, ends_pure]
  have hpush : (b.cells.take k ++ List.replicate (hd + (n + m.category.slack)) none :
      List Cell).length = k + (hd + (n + m.category.slack)) := by
    rw [List.length_append, List.length_take_of_le hkb, List.length_replicate]
  have htext : Terminated (some 0) u ((b.cells.take k ++
      List.replicate (hd + (n + m.category.slack)) none).take (n + m.category.slack)) := by
    rw [terminated_iff, List.take_take, Nat.min_eq_left (by omega),
      List.take_append_of_le_length (by rw [List.length_take_of_le hkb]; omega), List.take_take,
      Nat.min_eq_left (by omega)]
    exact terminated_iff.1 hback.text
  have hshows : (Core.ml ⟨h.next, m.size, n, m.category⟩).Shows (h.push ⟨b.refs, _, b.pos⟩) u :=
    ⟨hsize, by simp only; omega, by simp only; omega, _, Heap.blocks_push_self _, htext,
      List.length_take_of_le (by omega), hback.refs⟩
  refine hQ _ (by omega) (hc.released ⟨?_, hshows, fun a ha => ?_⟩
    (keeps_erase [] (Heap.blocks_push_of_some hb _) hcount))
  · exact keeps_push [] hcount
  · rw [List.mem_singleton.1 ha]
    exact Heap.count_next

/-! ### `reserve` -/

/-- A string in place moves to a new block. -/
theorem ends_copySmall (hs : SmallShows cells u) (hm : m.data = h.next)
    (hb : b.count = 1) (hle : u.length ≤ m.capacity) (hlt : m.capacity < 2 ^ 62)
    (hlen : b.cells.length = m.capacity + m.category.slack)
    (hrefs : b.refs.isSome = decide (m.category = .isLarge)) :
    Ends (do
      let size ← smallSize cells
      store m.data 0 (cells.take (size + 1))
      setCapacity m.data size m.capacity m.category) (h.push b)
      (fun c h' => Arises h u h' c ∧ m.capacity ≤ c.room h') E := by
  rw [ends_bind]
  refine hs.ends_smallSize ?_
  rw [terminated_iff.1 hs.text]
  refine ends_copyText (m := { m with size := u.length }) (hm ▸ keeps_push [] hb)
    (hm ▸ Heap.count_next) (hm ▸ Heap.blocks_push_self b) hb rfl hle hlt hlen hrefs
    fun h' ha => ⟨ha, ?_⟩
  rw [ha.room.2]

theorem reserveSmall_spec (hs : SmallShows cells u) (hn : n + sizeofRefCounted < 2 ^ 64) :
    Ends (reserveSmall cells n) h
      (fun c h' => Arises h u h' c ∧ n ≤ c.room h') (· = h.skip) := by
  have hle := hs.le
  unfold reserveSmall
  split_ifs with hsmall hmedium
  · exact ⟨⟨Keeps.refl h [], hs, fun _ ha => absurd ha List.not_mem_nil⟩, hsmall⟩
  · simp only [goodMallocSize_eq, Nat.add_sub_cancel_left]
    rw [ends_bind]
    refine ends_checkedMalloc rfl fun hlt => ?_
    exact ends_copySmall (m := ⟨h.next, 0, n, .isMedium⟩) hs rfl rfl (by simp only; omega)
      (by simp only; omega) (by simp [Category.slack, Nat.add_comm]) rfl
  · rw [ends_bind]
    refine ends_create hn rfl fun hlt => ?_
    exact ends_copySmall (m := ⟨h.next, 0, n, .isLarge⟩) hs rfl rfl (by simp only; omega) hlt
      (by simp) rfl

theorem reserveLarge_spec (hc : (Core.ml m).Shows h u) (hm : m.category = .isLarge)
    (hn : n + sizeofRefCounted < 2 ^ 64) :
    Ends (reserveLarge m n) h
      (fun c' h' => Becomes h (.ml m) u h' c' ∧ n ≤ c'.room h' ∧ ∃ m', c' = .ml m')
      (· = h.skip) := by
  obtain ⟨b, hb, hback⟩ := hc.block
  have hrefs := hback.exists_refs hm
  have hcount := Heap.count_of_some hb
  have hlt := hc.lt
  have hle := hc.le
  have hsize := hc.size
  unfold reserveLarge
  rw [ends_bind]
  refine ends_refs hb hrefs ?_
  split_ifs with hshared hroom
  · rw [ends_bind]
    refine ends_create (by simp only [sizeofRefCounted] at *; omega) rfl fun hmax => ?_
    refine ends_moveText hc hm (hle.trans (Nat.le_max_right ..)) hmax fun h' hbec => ?_
    refine ends_setCapacity hmax ⟨hbec, ?_, _, rfl⟩
    rw [(hbec.room_fresh hc Heap.count_next).2]
    exact Nat.le_max_left ..
  · have hone : h.count m.data = 1 := by
      have := b.count_pos
      omega
    have hsmart := ends_smartRealloc (E := (· = h.skip)) (Q := fun p h' => n < 2 ^ 62 ∧
      p = h.next ∧ Becomes h (.ml m) u h' (.ml ⟨h.next, m.size, n, m.category⟩)) sizeofRefCount
      hc hone hroom rfl fun h' hn hbec => ⟨hn, rfl, hbec⟩
    rw [hm, ← toSizeT_counted (by simp only [sizeofRefCounted]; omega),
      ← toSizeT_counted (by simp only [sizeofRefCounted]; omega), ← toSizeT_counted hn] at hsmart
    simp only [reallocate]
    rw [ends_bind, ends_bind, ends_check]
    refine ⟨⟨by omega, by omega⟩, ?_⟩
    rw [ends_bind]
    refine ends_refs hb hrefs ?_
    rw [ends_bind, ends_check]
    refine ⟨hcount ▸ hone, hsmart.imp ?_⟩
    rintro p h' ⟨hn, rfl, hbec⟩
    refine ends_setCapacity hn ⟨hbec, ?_, _, rfl⟩
    rw [(hbec.room_fresh hc Heap.count_next).2]
  · refine ⟨hc.becomes, ?_, m, rfl⟩
    rw [Core.room, if_neg (by omega)]
    omega

theorem reserveMedium_spec (hc : (Core.ml m).Shows h u) (hm : m.category = .isMedium)
    (hn : n + sizeofRefCounted < 2 ^ 64) :
    Ends (reserveMedium m n) h
      (fun c' h' => Becomes h (.ml m) u h' c' ∧ n ≤ c'.room h' ∧ ∃ m', c' = .ml m')
      (· = h.skip) := by
  obtain ⟨b, hb, hback⟩ := hc.block
  have hone : h.count m.data = 1 := by
    rw [Heap.count_of_some hb, Block.count_of_none (hback.refs_eq_none hm)]
  have hle := hc.le
  have hsize := hc.size
  unfold reserveMedium
  split_ifs with hroom hmedium
  · refine ⟨hc.becomes, ?_, m, rfl⟩
    rwa [Core.room, if_neg (by omega)]
  · have hsmart := ends_smartRealloc (E := (· = h.skip)) (Q := fun p h' => n < 2 ^ 62 ∧
      p = h.next ∧ Becomes h (.ml m) u h' (.ml ⟨h.next, m.size, n, m.category⟩)) 0
      hc hone (by omega) rfl fun h' hn hbec => ⟨hn, rfl, hbec⟩
    simp only [hm, Category.slack, Nat.zero_add] at hsmart
    simp only [goodMallocSize_eq, Nat.add_comm 1 n, Nat.add_sub_cancel]
    rw [ends_bind]
    refine hsmart.imp ?_
    rintro p h' ⟨hn, rfl, hbec⟩
    refine ends_setCapacity hn ⟨hbec, ?_, _, rfl⟩
    rw [(hbec.room_fresh hc Heap.count_next).2]
  · rw [ends_bind]
    refine (reserveSmall_spec smallShows_reset hn).imp ?_
    rintro c h' ⟨ha, hnroom⟩
    have hk := ha.keeps
    have hs := ha.shows
    cases c with
    | small cells =>
      simp only [Core.room, maxSmallSize, maxMediumSize] at hnroom hmedium
      omega
    | ml nascent =>
      obtain ⟨b', hb', hback'⟩ := hs.block
      have hcap : n ≤ nascent.capacity := by
        rw [Core.room, hs.size, List.length_nil] at hnroom
        split_ifs at hnroom <;> omega
      have hfresh := ha.fresh nascent.data (List.mem_singleton_self _)
      have hroom' : 0 + (u ++ [some 0] : List Cell).length ≤ b'.cells.length := by
        rw [List.length_append, List.length_singleton, hback'.length]
        omega
      obtain ⟨b₁, hb₁, hback₁⟩ := (hc.fresh hk).block
      have hlen₁ := hback₁.text.length_lt
      rw [ends_bind]
      refine ends_load hb₁ (by omega) ?_
      rw [hsize, hback₁.text.read_all, ends_bind]
      refine ends_store hb' hroom' ?_
      have hnew := arises_write (m := { nascent with size := u.length }) hk hfresh hb'
        (Heap.count_of_some hb' ▸ ha.room.1) rfl (by simp only; omega) hs.lt
        ((length_overwrite hroom').trans hback'.length) hback'.refs terminated_copy
      rw [ends_bind]
      refine hc.ends_destroy hnew fun h'' hbec => ⟨hbec, ?_, _, rfl⟩
      rw [(hbec.room_fresh hc hfresh).2]
      exact hcap

/-- **`reserve`** keeps the text, and makes room. -/
theorem reserve_spec (hc : c.Shows h u) (hn : n + sizeofRefCounted < 2 ^ 64) :
    Ends (c.reserve n) h (fun c' h' => Becomes h c u h' c' ∧ n ≤ c'.room h' ∧
      ((∃ m, c = .ml m) → ∃ m', c' = .ml m')) (· = h.skip) := by
  have hby : Ends (reserveBy n c) h (fun c' h' => Becomes h c u h' c' ∧ n ≤ c'.room h' ∧
      ((∃ m, c = .ml m) → ∃ m', c' = .ml m')) (· = h.skip) := by
    cases c with
    | small cells =>
      refine (reserveSmall_spec hc hn).imp ?_
      rintro c' h' ⟨ha, hroom⟩
      refine ⟨ha.becomes, hroom, ?_⟩
      rintro ⟨m, hm⟩
      cases hm
    | ml m =>
      have hml : Ends (reserveBy n (.ml m)) h
          (fun c' h' => Becomes h (.ml m) u h' c' ∧ n ≤ c'.room h' ∧ ∃ m', c' = .ml m')
          (· = h.skip) := by
        rw [reserveBy]
        cases hm : m.category with
        | isMedium => exact reserveMedium_spec hc hm hn
        | isLarge => exact reserveLarge_spec hc hm hn
      refine hml.imp ?_
      rintro c' h' ⟨hbec, hroom, hml⟩
      exact ⟨hbec, hroom, fun _ => hml⟩
  refine hby.bind fun c' h' hc' => ?_
  rw [ends_bind]
  refine hc'.1.shows.ends_capacity ?_
  rw [ends_bind, ends_check]
  exact ⟨hc'.2.1, hc'⟩

/-! ### `expandNoinit` -/

theorem setSize_spec (hc : c.Shows h u) (hroom : u.length + n ≤ c.room h)
    (hml : maxSmallSize < u.length + n ∨ ∃ m, c = .ml m) :
    Ends (setSize (u.length + n) c) h
      (fun c' h' => (∃ g : List Cell, g.length = n ∧ Becomes h c (u ++ g) h' c') ∧
        (0 < n → c'.Alone h') ∧ c'.room h' = c.room h ∧ h'.next = h.next) E := by
  unfold setSize
  rw [ends_bind]
  refine hc.ends_capacity ?_
  rw [ends_bind, ends_check]
  refine ⟨hroom, ?_⟩
  cases c with
  | small cells =>
    rcases hml with hlt | ⟨m, hm⟩
    · exact absurd hroom (by simp only [Core.room]; omega)
    · cases hm
  | ml m =>
    obtain ⟨b, hb, hback⟩ := hc.block
    have hlen := hback.length
    have hslack : 1 ≤ m.category.slack := by cases m.category <;> decide
    have hcap : (Core.ml m).room h ≤ m.capacity := by
      rw [Core.room]
      split_ifs
      · exact hc.size ▸ hc.le
      · exact le_rfl
    obtain ⟨g, hg, htext⟩ := hback.text.expand (by omega : u.length + n < b.cells.length)
    have hwrite : u.length + n + [some (0 : CodeUnit)].length ≤ b.cells.length := by
      rw [List.length_singleton]
      omega
    have hkeeps : Keeps h [m.data]
        (h.setCells m.data (overwrite b.cells (u.length + n) [some 0])) [m.data] := by
      rcases Nat.eq_zero_or_pos n with rfl | hpos
      · -- the terminator that is there is written again, perhaps in a shared block
        rw [Nat.add_zero, hback.text.overwrite_self, Heap.setCells_self hb]
        exact Keeps.refl h _
      · have hone := hc.count_eq_one (by omega)
        exact keeps_setCells _ hb (by
          rw [List.count_singleton_self, ← Heap.count_of_some hb, hone])
    rw [ends_bind]
    refine ends_store hb hwrite ?_
    rw [ends_pure]
    have hb' := Heap.blocks_setCells_self hb (overwrite b.cells (u.length + n) [some 0])
    have halone : 0 < n → (Core.ml { m with size := u.length + n }).Alone
        (h.setCells m.data (overwrite b.cells (u.length + n) [some 0])) := fun hpos a ha => by
      have hone := hc.count_eq_one (by omega)
      rw [List.mem_singleton.1 ha, Heap.count_of_some hb']
      exact (Heap.count_of_some hb).symm.trans hone
    refine ⟨⟨g, hg, hkeeps, ⟨by rw [List.length_append, hg], ?_, hc.lt, _, hb', htext,
      (length_overwrite hwrite).trans hlen, hback.refs⟩, fun _ => .inl, ?_⟩, halone, ?_, rfl⟩
    · rw [List.length_append, hg]
      exact hroom.trans hcap
    · rcases Nat.eq_zero_or_pos n with rfl | hpos
      · exact .inl (by rw [Nat.add_zero, ← hc.size])
      · exact .inr (halone hpos)
    · have hcount := Heap.count_of_some hb'
      rw [Core.room, Core.room, hcount, Heap.count_of_some hb] at *
      have hsize := hc.size
      change (if 1 < b.count then u.length + n else m.capacity) = _
      split_ifs at hroom ⊢ <;> omega

/-- What `expandNoinit` of `n` units does to the string `c` with the text `u`.  The units that it
adds are whatever was there. -/
structure Expanded (h : Heap Cell) (c : Core) (u : List Cell) (n : ℕ) (expGrowth : Bool)
    (h' : Heap Cell) (c' : Core) : Prop where
  becomes : ∃ g : List Cell, g.length = n ∧ Becomes h c (u ++ g) h' c'
  alone : 0 < n → c'.Alone h'
  inRoom : u.length + n ≤ c.room h → c'.room h' = c.room h ∧ h'.next = h.next
  grows : expGrowth = true → c.room h < u.length + n → c.room h * 3 < c'.room h' * 2

/-- More room is made first. -/
theorem ends_setSize_of_room (hbec : Becomes h c u h' c') {expGrowth : Bool}
    (hlt : c.room h < u.length + n) (hroom : u.length + n ≤ c'.room h')
    (hml : maxSmallSize < u.length + n ∨ ∃ m, c' = .ml m)
    (hgrows : expGrowth = true → c.room h * 3 < c'.room h' * 2) :
    Ends (do pure (← setSize (u.length + n) c', u.length)) h'
      (fun r h' => r.2 = u.length ∧ Expanded h c u n expGrowth h' r.1) E := by
  rw [ends_bind]
  refine (setSize_spec hbec.shows hroom hml).imp ?_
  rintro c'' h'' ⟨⟨g, hg, hbec'⟩, halone, hroom', _⟩
  rw [ends_pure]
  refine ⟨rfl, ⟨g, hg, hbec.trans hbec'⟩, halone, fun hle => absurd hle (by omega),
    fun hexp _ => ?_⟩
  rw [hroom']
  exact hgrows hexp

theorem Core.Shows.room_lt (hc : c.Shows h u) : c.room h < 2 ^ 62 := by
  cases c with
  | small cells => simp only [Core.room, maxSmallSize]; omega
  | ml m =>
    have hlt := hc.lt
    have hle := hc.le
    have hsize := hc.size
    rw [Core.room]
    split_ifs <;> omega

/-- **`expandNoinit`** makes the text `n` units longer. -/
theorem expandNoinit_spec (hc : c.Shows h u) (hn : u.length + n + sizeofRefCounted < 2 ^ 64)
    (expGrowth : Bool) :
    Ends (c.expandNoinit n expGrowth) h
      (fun r h' => r.2 = u.length ∧ Expanded h c u n expGrowth h' r.1) (· = h.skip) := by
  have hlt := hc.room_lt
  have hnew : toSizeT ((u.length : ℤ) + n) = u.length + n := by
    rw [← Nat.cast_add, toSizeT_natCast (by omega)]
  unfold Core.expandNoinit
  rw [ends_bind]
  refine hc.ends_size ?_
  rw [ends_bind]
  refine hc.ends_capacity ?_
  rw [ends_bind, ends_check]
  refine ⟨hc.le_room, ?_⟩
  rw [ends_bind]
  refine hc.ends_size ?_
  rw [hnew]
  dsimp only
  cases c with
  | small cells =>
    by_cases hsmall : u.length + n ≤ maxSmallSize
    · -- the text stays in place
      have hlen := hc.length
      have hg : (u ++ (cells.drop u.length).take n).length = u.length + n := by
        rw [List.length_append, List.length_take, List.length_drop]
        omega
      dsimp only
      rw [if_pos hsmall, ends_bind, ← hg]
      refine ends_setSmallSize hlen (hg ▸ hsmall) ?_ fun cells' hs => ?_
      · rw [hg, List.take_add, hc.take_eq]
      · rw [ends_pure]
        refine ⟨rfl, ⟨_, ?_, Keeps.refl h [], hs, fun _ => .inl, .inr (alone_small h cells')⟩,
          fun _ => alone_small h cells', fun _ => ⟨rfl, rfl⟩, fun _ hlt => ?_⟩
        · rw [List.length_append] at hg
          omega
        · simp only [Core.room] at hlt
          omega
    · have hreq : (if expGrowth then max (u.length + n) (2 * maxSmallSize) else u.length + n) +
          sizeofRefCounted < 2 ^ 64 := by
        simp only [maxSmallSize, sizeofRefCounted] at hn ⊢
        split_ifs <;> omega
      dsimp only
      rw [if_neg hsmall, ends_bind]
      refine (reserveSmall_spec hc hreq).imp ?_
      rintro c' h' ⟨ha, hroom⟩
      refine ends_setSize_of_room ha.becomes (by simp only [Core.room]; omega) ?_ (.inl ?_)
        fun hexp => ?_
      · split_ifs at hroom <;> omega
      · omega
      · rw [if_pos hexp] at hroom
        simp only [Core.room, maxSmallSize] at *
        omega
  | ml m =>
    dsimp only
    rw [ends_bind]
    refine hc.ends_capacity ?_
    by_cases hmore : u.length + n > (Core.ml m).room h
    · have hgrown : toSizeT (1 + ((toSizeT (((Core.ml m).room h : ℤ) * 3) / 2 : ℕ) : ℤ)) =
          1 + (Core.ml m).room h * 3 / 2 := by
        have hthree : toSizeT (((Core.ml m).room h : ℤ) * 3) = (Core.ml m).room h * 3 := by
          exact_mod_cast toSizeT_natCast (x := (Core.ml m).room h * 3) (by omega)
        rw [hthree]
        exact_mod_cast toSizeT_natCast (x := 1 + (Core.ml m).room h * 3 / 2) (by omega)
      have hreq : (if expGrowth then max (u.length + n) (1 + (Core.ml m).room h * 3 / 2)
          else u.length + n) + sizeofRefCounted < 2 ^ 64 := by
        simp only [sizeofRefCounted] at hn ⊢
        split_ifs <;> omega
      rw [if_pos hmore, hgrown, ends_bind]
      refine (reserve_spec hc hreq).imp ?_
      rintro c' h' ⟨hbec, hroom, hml⟩
      refine ends_setSize_of_room hbec hmore ?_ (.inr (hml ⟨m, rfl⟩)) fun hexp => ?_
      · split_ifs at hroom <;> omega
      · rw [if_pos hexp] at hroom
        omega
    · rw [if_neg hmore, ends_bind]
      refine (setSize_spec hc (by omega) (.inr ⟨m, rfl⟩)).imp ?_
      rintro c' h' ⟨⟨g, hg, hbec⟩, halone, hroom, hnext⟩
      exact ⟨rfl, ⟨g, hg, hbec⟩, halone, fun _ => ⟨hroom, hnext⟩,
        fun _ hlt => absurd hlt (by omega)⟩

/-! ### `shrink` -/

theorem shrinkMedium_spec (hc : (Core.ml m).Shows h u) (hone : h.count m.data = 1)
    (hn : n ≤ u.length) :
    Ends (shrinkMedium m n) h
      (fun c' h' => Becomes h (.ml m) (u.take (u.length - n)) h' c') E := by
  obtain ⟨b, hb, hback⟩ := hc.block
  have hsize := hc.size
  have hle := hc.le
  have hlen := hback.text.length_lt
  have htake : (u.take (u.length - n)).length = u.length - n := List.length_take_of_le (by omega)
  have hwrite : u.length - n + [some (0 : CodeUnit)].length ≤ b.cells.length := by
    rw [List.length_singleton]
    omega
  rw [Heap.count_of_some hb] at hone
  rw [shrinkMedium, ends_bind, ends_check, hsize]
  refine ⟨hn, ?_⟩
  rw [ends_bind]
  refine ends_store hb hwrite ?_
  rw [ends_pure]
  have hb' := Heap.blocks_setCells_self hb (overwrite b.cells (u.length - n) [some 0])
  refine ⟨keeps_setCells _ hb ?_, ⟨htake.symm, ?_, hc.lt, _, hb', hback.text.shrink (by omega),
    (length_overwrite hwrite).trans hback.length, hback.refs⟩, fun _ => .inl, .inr fun a ha => ?_⟩
  · rw [hone, Core.held, List.count_singleton_self]
  · simp only [htake]
    omega
  · rw [List.mem_singleton.1 ha, Heap.count_of_some hb']
    exact hone

theorem shrinkLarge_spec (hc : (Core.ml m).Shows h u) (hn : n ≤ u.length) :
    Ends (shrinkLarge m n) h
      (fun c' h' => Becomes h (.ml m) (u.take (u.length - n)) h' c') (· = h.skip) := by
  obtain ⟨b, hb, hback⟩ := hc.block
  have hsize := hc.size
  have hle := hc.le
  have hlt := hc.lt
  have hlen := hback.text.length_lt
  rw [shrinkLarge, ends_bind, ends_check, hsize]
  refine ⟨hn, ?_⟩
  split_ifs with hzero
  · rw [ends_bind]
    refine ends_load hb (by omega) ?_
    rw [hback.text.read (by omega), List.drop_zero]
    refine (construct_spec ?_).bind ?_
    · rw [List.length_take]
      simp only [sizeofRefCounted]
      omega
    · rintro c' h' ha
      rw [ends_bind]
      exact hc.ends_destroy ha fun h'' hbec => hbec
  · obtain rfl : n = 0 := not_not.1 hzero
    rw [Nat.sub_zero, List.take_length]
    exact hc.becomes

/-- A string that has its block for itself is cut in place. -/
theorem shrink_spec_alone (hc : c.Shows h u) (halone : c.Alone h) (hn : n ≤ u.length) :
    Ends (c.shrink n) h (fun c' h' => Becomes h c (u.take (u.length - n)) h' c') E := by
  cases c with
  | small cells =>
    have htake : (u.take (u.length - n)).length = u.length - n :=
      List.length_take_of_le (by omega)
    have hle := hc.le
    have hcut : cells.take (u.length - n) = u.take (u.length - n) := by
      obtain ⟨rest, hrest⟩ := hc.text
      rw [hrest, List.take_append_of_le_length (by omega)]
    have hset := ends_setSmallSize (h := h) (E := E) hc.length
      (htake.le.trans (by omega)) (by rwa [htake])
      (Q := fun c' h' => Becomes h (.small cells) (u.take (u.length - n)) h' c')
      fun cells' hs => ⟨Keeps.refl h [], hs, fun _ => .inl, .inr (alone_small h cells')⟩
    rw [htake] at hset
    rw [Core.shrink, ends_bind]
    refine hc.ends_smallSize ?_
    rw [ends_bind, ends_check]
    exact ⟨hn, hset⟩
  | ml m =>
    obtain ⟨b, hb, hback⟩ := hc.block
    have hone := halone m.data (List.mem_singleton_self _)
    rw [Core.shrink]
    cases hm : m.category with
    | isMedium => exact shrinkMedium_spec hc hone hn
    | isLarge =>
      rw [ends_bind]
      refine ends_refs hb (hback.exists_refs hm) ?_
      rw [if_pos ((Heap.count_of_some hb).symm.trans hone)]
      exact shrinkMedium_spec hc hone hn

/-- **`shrink`** cuts the last `n` units of the text. -/
theorem shrink_spec (hc : c.Shows h u) (hn : n ≤ u.length) :
    Ends (c.shrink n) h (fun c' h' => Becomes h c (u.take (u.length - n)) h' c')
      (· = h.skip) := by
  by_cases halone : c.Alone h
  · exact shrink_spec_alone hc halone hn
  · cases c with
    | small cells => exact absurd (alone_small h cells) halone
    | ml m =>
      obtain ⟨b, hb, hback⟩ := hc.block
      have hshared : h.count m.data ≠ 1 := fun hone => halone fun a ha => by
        rwa [List.mem_singleton.1 ha]
      rw [Heap.count_of_some hb] at hshared
      rw [Core.shrink]
      cases hm : m.category with
      | isMedium => exact absurd (Block.count_of_none (hback.refs_eq_none hm)) hshared
      | isLarge =>
        rw [ends_bind]
        refine ends_refs hb (hback.exists_refs hm) ?_
        rw [if_neg hshared]
        exact shrinkLarge_spec hc hn

end FbString

end PythonicCpp
