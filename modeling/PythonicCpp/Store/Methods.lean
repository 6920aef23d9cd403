import PythonicCpp.Store.FbString
import PythonicCpp.Store.Requests
import Mathlib.Data.Nat.Log
import Mathlib.Tactic.Ring

/-!
# The member functions of `basic_fbstring`

* `Self.Becomes s v t` : the string of `s` has become the one of `t`, which holds the text `v`.
* `Ptr.Names s u l p` : the pointer `p` points to the units `l`, perhaps in the text `u` itself.
* `Self.Grows` : a string that has room stays where it is; one that has none gets half as much
  again, so that the requests are few.
* `append_spec`, `pushBack_spec`, `appendFill_spec`, `resize_spec`, `assign_spec`, `setAt_spec` :
  the functions.
-/

namespace PythonicCpp

namespace FbString

namespace Self

/-- The string holds the text `u`. -/
def Shows (s : Self) (u : List Cell) : Prop := s.this.Shows s.heap u

/-- The string has become the one of `t`, which holds the text `v`. -/
def Becomes (s : Self) (v : List Cell) (t : Self) : Prop :=
  FbString.Becomes s.heap s.this v t.heap t.this

/-- The capacity of the string. -/
def room (s : Self) : ℕ := s.this.room s.heap

/-- The state after a request that is refused. -/
def refused (s : Self) : Self := { s with heap := s.heap.skip }

/-- What room for a text of `n` units costs.  There are at most `k` requests; each makes the room,
with that of the terminator, larger by a half, and none is made before the string is full. -/
def Grows (s : Self) (n : ℕ) (t : Self) : Prop :=
  ∃ k, s.heap.Within k t.heap ∧ (s.room + 1) * 3 ^ k ≤ (t.room + 1) * 2 ^ k ∧
    (k = 0 → t.room = s.room) ∧ ∀ j, k = j + 1 → (s.room + 1) * 3 ^ j ≤ n * 2 ^ j

/-- The text of the string has been written over. -/
structure Rewritten (s : Self) (v : List Cell) (t : Self) : Prop where
  becomes : s.Becomes v t
  room : t.room = s.room
  next : t.heap.next = s.heap.next
  alone : s.this.Alone s.heap → t.this.Alone t.heap
  begin : t.this.begin = s.this.begin

end Self

/-- The pointer points to the units `l`, outside of the string. -/
def Ptr.Outside (s : Self) (l : List Cell) : Ptr → Prop
  | units l' => l <+: l'
  | inPlace _ => False
  | block p off => p ∉ s.this.held ∧ ∃ b, s.heap.blocks p = some b ∧
      off + l.length ≤ b.cells.length ∧ (b.cells.drop off).take l.length = l

/-- The pointer points to the units `l` of the text `u` of the string. -/
def Ptr.Inside (s : Self) (u l : List Cell) (p : Ptr) : Prop :=
  ∃ off, off + l.length ≤ u.length ∧ (u.drop off).take l.length = l ∧ p = s.this.begin.add off

/-- The pointer points to the units `l`. -/
def Ptr.Names (s : Self) (u l : List Cell) (p : Ptr) : Prop := p.Outside s l ∨ p.Inside s u l

variable {s t t' : Self} {u v l : List Cell} {p : Ptr} {n off : ℕ} {α : Type} {E : Self → Prop}

/-! ### States -/

theorem Self.Shows.becomes (hs : s.Shows u) : s.Becomes u s := Core.Shows.becomes hs

theorem Self.Shows.refused (hs : s.Shows u) : s.Becomes u s.refused :=
  ⟨keeps_skip s.heap _, Core.Shows.fresh hs (keeps_skip s.heap []), fun _ => .inl, .inl rfl⟩

theorem Self.Becomes.trans (h : s.Becomes u t) (h' : t.Becomes v t') : s.Becomes v t' :=
  FbString.Becomes.trans h h'

theorem Self.Becomes.shows (h : s.Becomes u t) : t.Shows u := FbString.Becomes.shows h

theorem Self.Grows.mono (h : s.Grows n t) {m : ℕ} (hnm : n ≤ m) : s.Grows m t := by
  obtain ⟨k, hk, hle, hzero, hfull⟩ := h
  exact ⟨k, hk, hle, hzero, fun j hj => (hfull j hj).trans (Nat.mul_le_mul_right _ hnm)⟩

theorem Self.Grows.refl (s : Self) (n : ℕ) : s.Grows n s :=
  ⟨0, .refl s.heap 0, le_rfl, fun _ => rfl, fun _ hj => absurd hj (Nat.succ_ne_zero _).symm⟩

/-- Growing twice. -/
theorem Self.Grows.trans (h : s.Grows n t) (h' : t.Grows n t') : s.Grows n t' := by
  obtain ⟨k, hk, hle, hzero, hfull⟩ := h
  obtain ⟨l, hl, hle', hzero', hfull'⟩ := h'
  refine ⟨k + l, hk.trans hl, ?_, fun hkl => ?_, fun j hj => ?_⟩
  · calc (s.room + 1) * 3 ^ (k + l) = (s.room + 1) * 3 ^ k * 3 ^ l := by rw [pow_add, Nat.mul_assoc]
      _ ≤ (t.room + 1) * 2 ^ k * 3 ^ l := Nat.mul_le_mul_right _ hle
      _ = (t.room + 1) * 3 ^ l * 2 ^ k := Nat.mul_right_comm ..
      _ ≤ (t'.room + 1) * 2 ^ l * 2 ^ k := Nat.mul_le_mul_right _ hle'
      _ = (t'.room + 1) * 2 ^ (k + l) := by rw [Nat.mul_assoc, ← pow_add, Nat.add_comm l k]
  · rw [hzero' (by omega), hzero (by omega)]
  · cases l with
    | zero => exact hfull j hj
    | succ l =>
      obtain rfl : j = k + l := by omega
      calc (s.room + 1) * 3 ^ (k + l) = (s.room + 1) * 3 ^ k * 3 ^ l := by
            rw [pow_add, Nat.mul_assoc]
        _ ≤ (t.room + 1) * 2 ^ k * 3 ^ l := Nat.mul_le_mul_right _ hle
        _ = (t.room + 1) * 3 ^ l * 2 ^ k := Nat.mul_right_comm ..
        _ ≤ n * 2 ^ l * 2 ^ k := Nat.mul_le_mul_right _ (hfull' l rfl)
        _ = n * 2 ^ (k + l) := by rw [Nat.mul_assoc, ← pow_add, Nat.add_comm l k]

/-- A string that has room asks for nothing. -/
theorem Self.Grows.of_room (h : s.Grows n t) (hn : n ≤ s.room) :
    t.heap.next = s.heap.next ∧ t.room = s.room := by
  obtain ⟨k, hk, -, hzero, hfull⟩ := h
  cases k with
  | zero => exact ⟨le_antisymm hk.2 hk.1, hzero rfl⟩
  | succ j =>
    have hpow : n * 2 ^ j < (s.room + 1) * 3 ^ j :=
      Nat.mul_lt_mul_of_lt_of_le (Nat.lt_succ_of_le hn) (Nat.pow_le_pow_left (by omega) j)
        (Nat.pow_pos (by omega))
    exact absurd (hfull j rfl) (by omega)

theorem two_pow_half_mul_le (j : ℕ) : 2 ^ (j / 2) * 2 ^ j ≤ 3 ^ j := by
  induction j using Nat.twoStepInduction with
  | zero => exact le_rfl
  | one => decide
  | more j ih _ =>
    rw [Nat.add_div_right j Nat.two_pos]
    calc 2 ^ (j / 2 + 1) * 2 ^ (j + 2) = 8 * (2 ^ (j / 2) * 2 ^ j) := by ring
      _ ≤ 9 * 3 ^ j := Nat.mul_le_mul (by decide) ih
      _ = 3 ^ (j + 2) := by ring

/-- **The requests are few**: their number is logarithmic in the size of the text. -/
theorem Self.Grows.within (h : s.Grows n t) : s.heap.Within (2 * Nat.log 2 n + 2) t.heap := by
  obtain ⟨k, hk, -, -, hfull⟩ := h
  refine hk.mono ?_
  cases k with
  | zero => exact Nat.zero_le _
  | succ j =>
    -- two requests more than double the room
    have hroom : 3 ^ j ≤ n * 2 ^ j :=
      (Nat.le_mul_of_pos_left _ (Nat.succ_pos _)).trans (hfull j rfl)
    have hdouble := two_pow_half_mul_le j
    have hle : 2 ^ (j / 2) ≤ n :=
      Nat.le_of_mul_le_mul_right (hdouble.trans hroom) (Nat.two_pow_pos j)
    have hlog := Nat.le_log_of_pow_le Nat.one_lt_two hle
    omega

theorem ends_onHeap {x : Mem α} {Q : α → Self → Prop} :
    Ends (onHeap x) s Q E ↔
      Ends x s.heap (fun a h => Q a ⟨h, s.this⟩) fun h => E ⟨h, s.this⟩ := ends_zoom

theorem ends_update {f : Core → Mem Core} {Q : Unit → Self → Prop} :
    Ends (update f) s Q E ↔
      Ends (f s.this) s.heap (fun c h => Q () ⟨h, c⟩) fun h => E ⟨h, s.this⟩ := by
  simp only [update, ends_bind, ends_get, ends_onHeap, ends_set]

/-! ### Reading and writing -/

/-- Reading the text of the string, and perhaps its terminator. -/
theorem Self.Shows.ends_read (hs : s.Shows u) (hn : off + n ≤ u.length + 1)
    {Q : List Cell → Self → Prop} (hQ : Q (((u ++ [some 0]).drop off).take n) s) :
    Ends ((s.this.begin.add off).read n) s Q E := by
  obtain ⟨h, this⟩ := s
  cases this with
  | small cells =>
    have hlen := SmallShows.length hs
    have hle := SmallShows.le hs
    simp only [Core.begin, Ptr.add, Nat.zero_add, Ptr.read]
    rw [ends_bind, ends_get, ends_bind, ends_check, ends_pure]
    refine ⟨by omega, ?_⟩
    rwa [(SmallShows.text hs).read_of_le hn]
  | ml m =>
    obtain ⟨b, hb, hback⟩ := MediumLarge.Shows.block hs
    have hlt := hback.text.length_lt
    simp only [Core.begin, Ptr.add, Nat.zero_add, Ptr.read]
    rw [ends_onHeap]
    refine ends_load hb (by omega) ?_
    rwa [hback.text.read_of_le hn]

/-- Reading units outside of the string, whatever has been done to it. -/
theorem Ptr.Outside.ends_read (hp : p.Outside s l) (h : s.Becomes v t)
    {Q : List Cell → Self → Prop} (hQ : Q l t) : Ends (p.read l.length) t Q E := by
  cases p with
  | units l' =>
    obtain ⟨rest, rfl⟩ := hp
    simp only [Ptr.read]
    rw [ends_bind, ends_check, ends_pure, List.take_left]
    exact ⟨by simp, hQ⟩
  | inPlace off => exact hp.elim
  | block q off =>
    obtain ⟨hheld, b, hb, hlen, htake⟩ := hp
    obtain ⟨b', hb', hcells, -⟩ := h.keeps.frame q b hb (by
      rw [List.count_eq_zero_of_not_mem hheld]
      exact b.count_pos)
    simp only [Ptr.read]
    rw [ends_onHeap]
    refine ends_load hb' (by rwa [hcells]) ?_
    rwa [hcells, htake]

/-- Writing over the text of the string. -/
theorem Self.Shows.ends_write (hs : s.Shows u) (halone : s.this.Alone s.heap ∨ l = [])
    (hn : off + l.length ≤ u.length) {Q : Unit → Self → Prop}
    (hQ : ∀ t, s.Rewritten (overwrite u off l) t → Q () t) :
    Ends ((s.this.begin.add off).write l) s Q E := by
  obtain ⟨h, this⟩ := s
  cases this with
  | small cells =>
    have hlen := SmallShows.length hs
    have hle := SmallShows.le hs
    simp only [Core.begin, Ptr.add, Nat.zero_add, Ptr.write]
    rw [ends_bind, ends_get, ends_bind, ends_check]
    refine ⟨by omega, ?_⟩
    rw [ends_bind, ends_get, ends_set]
    -- the cell that tells the size comes after the text
    have hlast : (overwrite cells off l)[maxSmallSize]? = cells[maxSmallSize]? :=
      getElem?_overwrite (by omega) (by omega)
    refine hQ _ ⟨⟨Keeps.refl h [], ⟨?_, ?_, ?_, (SmallShows.text hs).write hn⟩, fun _ => .inl,
      .inr (alone_small h _)⟩, rfl, rfl, fun _ => alone_small h _, rfl⟩
    · rw [length_overwrite (by omega), hlen]
    · rw [length_overwrite hn]
      exact hle
    · rw [hlast, length_overwrite hn]
      exact SmallShows.last hs
  | ml m =>
    obtain ⟨b, hb, hback⟩ := MediumLarge.Shows.block hs
    have hlt := hback.text.length_lt
    have hlen : (overwrite b.cells off l).length = b.cells.length :=
      length_overwrite (by omega)
    have hb' := Heap.blocks_setCells_self hb (overwrite b.cells off l)
    have hcount : (h.setCells m.data (overwrite b.cells off l)).count m.data = h.count m.data := by
      rw [Heap.count_of_some hb', Heap.count_of_some hb]
      rfl
    simp only [Core.begin, Ptr.add, Nat.zero_add, Ptr.write]
    rw [ends_onHeap]
    refine ends_store hb (by omega) (hQ _ ⟨⟨?_, ⟨?_, ?_, MediumLarge.Shows.lt hs, _, hb',
      hback.text.write hn, hlen.trans hback.length, hback.refs⟩, fun _ => .inl, .inl rfl⟩, ?_, rfl,
      ?_, rfl⟩)
    · rcases halone with halone | rfl
      · have hone := halone m.data (List.mem_singleton_self _)
        rw [Heap.count_of_some hb] at hone
        exact keeps_setCells _ hb (by rw [hone, Core.held, List.count_singleton_self])
      · rw [overwrite_nil, Heap.setCells_self hb]
        exact Keeps.refl h _
    · rw [length_overwrite hn]
      exact MediumLarge.Shows.size hs
    · rw [length_overwrite hn]
      exact MediumLarge.Shows.le hs
    · simp only [Self.room, Core.room, hcount]
    · intro halone a ha
      rw [List.mem_singleton.1 ha, hcount]
      exact halone m.data (List.mem_singleton_self _)

/-! ### Observers -/

theorem Self.Shows.ends_size (hs : s.Shows u) {Q : ℕ → Self → Prop} (hQ : Q u.length s) :
    Ends size s Q E := by
  rw [size, ends_bind, ends_get, ends_onHeap]
  exact Core.Shows.ends_size hs hQ

theorem Self.Shows.ends_capacity (hs : s.Shows u) {Q : ℕ → Self → Prop} (hQ : Q s.room s) :
    Ends capacity s Q E := by
  rw [capacity, ends_bind, ends_get, ends_onHeap]
  exact Core.Shows.ends_capacity hs hQ

theorem Self.Shows.ends_data (hs : s.Shows u) {Q : Ptr → Self → Prop} (hQ : Q s.this.begin s) :
    Ends data s Q E := by
  unfold data
  rw [ends_bind, ends_get]
  dsimp only
  rw [ends_bind]
  refine hs.ends_size ?_
  rw [ends_bind]
  refine hs.ends_read (le_refl _) ?_
  rw [ends_bind, ends_check, ends_pure, List.drop_left, List.take_succ_cons, List.take_zero]
  exact ⟨rfl, hQ⟩

theorem Self.Shows.ends_isSane (hs : s.Shows u) {Q : Unit → Self → Prop} (hQ : Q () s) :
    Ends isSane s Q E := by
  rw [isSane, ends_bind]
  refine hs.ends_data ?_
  rw [ends_bind]
  refine hs.ends_size ?_
  rw [ends_bind]
  refine hs.ends_capacity ?_
  rw [ends_check]
  exact ⟨Core.Shows.le_room hs, hQ⟩

/-! ### Growing -/

theorem Self.Shows.ends_expandNoinit (hs : s.Shows u)
    (hn : u.length + n + sizeofRefCounted < 2 ^ 64)
    {expGrowth : Bool} (hE : E s.refused) {Q : Ptr → Self → Prop}
    (hQ : ∀ t : Self, Expanded s.heap s.this u n expGrowth t.heap t.this →
      s.heap.Within 1 t.heap → Q (t.this.begin.add u.length) t) :
    Ends (expandNoinit n expGrowth) s Q E := by
  unfold expandNoinit
  rw [ends_bind, ends_get, ends_bind, ends_onHeap]
  refine ((expandNoinit_spec hs hn expGrowth).asks (asks_expandNoinit _ _ _)).mono ?_ ?_
  · rintro ⟨c', off⟩ h' ⟨⟨rfl, hx⟩, hwithin⟩
    exact hQ ⟨h', c'⟩ hx hwithin
  · rintro h' ⟨rfl, -⟩
    exact hE

/-- The units that have been added are written. -/
theorem Expanded.ends_write {expGrowth : Bool}
    (hx : Expanded s.heap s.this u n expGrowth t.heap t.this) (hw : s.heap.Within 1 t.heap)
    (hl : l.length = n)
    {Q : Unit → Self → Prop}
    (hQ : ∀ t', s.Becomes (u ++ l) t' → (expGrowth = true → s.Grows (u.length + n) t') →
      Q () t') : Ends ((t.this.begin.add u.length).write l) t Q E := by
  obtain ⟨g, hg, hbec⟩ := hx.becomes
  refine Self.Shows.ends_write (u := u ++ g) hbec.shows ?_ ?_ fun t' hwrite => hQ t' ?_ ?_
  · rcases n.eq_zero_or_pos with rfl | hpos
    · exact .inr (List.length_eq_zero_iff.1 hl)
    · exact .inl (hx.alone hpos)
  · rw [List.length_append, hg, hl]
  · rw [← overwrite_append_self g (hl.trans hg.symm)]
    exact hbec.trans hwrite.becomes
  · intro hexp
    have hroom : t'.room = t.this.room t.heap := hwrite.room
    unfold Self.Grows Heap.Within
    rw [hroom, hwrite.next]
    by_cases hle : u.length + n ≤ s.this.room s.heap
    · obtain ⟨hroom', hnext⟩ := hx.inRoom hle
      rw [hroom', hnext]
      exact Self.Grows.refl s _
    · refine ⟨1, hw, ?_, fun h => absurd h Nat.one_ne_zero, fun j hj => ?_⟩
      · have hhalf : s.room * 3 < t.this.room t.heap * 2 := hx.grows hexp (by omega)
        rw [pow_one, pow_one]
        omega
      · obtain rfl : j = 0 := by omega
        rw [pow_zero, Nat.mul_one, pow_zero, Nat.mul_one]
        exact Nat.not_le.1 hle

/-- **`push_back`**. -/
theorem pushBack_spec (hs : s.Shows u) (hn : u.length + 1 + sizeofRefCounted < 2 ^ 64)
    (c : CodeUnit) :
    Ends (pushBack c) s
      (fun _ t => s.Becomes (u ++ [some c]) t ∧ s.Grows (u.length + 1) t) (· = s.refused) := by
  rw [pushBack, ends_bind]
  refine hs.ends_expandNoinit hn ?_ fun t hx hwithin => ?_
  · rfl
  · exact hx.ends_write hwithin (List.length_singleton ..) fun t' hbec hgrows => ⟨hbec, hgrows rfl⟩

/-- **`append(n, c)`**. -/
theorem appendFill_spec (hs : s.Shows u) (hn : u.length + n + sizeofRefCounted < 2 ^ 64)
    (c : CodeUnit) :
    Ends (appendFill n c) s (fun _ t => s.Becomes (u ++ List.replicate n (some c)) t ∧
      s.Grows (u.length + n) t) (· = s.refused) := by
  rw [appendFill, ends_bind]
  refine hs.ends_isSane ?_
  rw [ends_bind]
  refine hs.ends_expandNoinit hn ?_ fun t hx hwithin => ?_
  · rfl
  · rw [ends_bind]
    refine hx.ends_write hwithin (List.length_replicate ..) fun t' hbec hgrows => ?_
    exact hbec.shows.ends_isSane ⟨hbec, hgrows rfl⟩

/-- A pointer into the text is found out. -/
theorem offsetIn_begin (c : Core) (hoff : off < n) :
    (c.begin.add off).offsetIn c.begin n = some off := by
  cases c <;> simp [Core.begin, Ptr.add, Ptr.offsetIn, hoff]

/-- So is one that does not point there. -/
theorem Ptr.Outside.offsetIn (hp : p.Outside s l) (n : ℕ) :
    p.offsetIn s.this.begin n = none := by
  obtain ⟨h, this⟩ := s
  cases p with
  | units l' => rfl
  | inPlace off => exact hp.elim
  | block q off =>
    cases this with
    | small cells => rfl
    | ml m =>
      have hne : q ≠ m.data := fun heq => hp.1 (List.mem_singleton.2 heq)
      exact if_neg fun h => hne h.1

/-- What is outside of the string stays outside of it. -/
theorem Ptr.Outside.apart (hp : p.Outside s l) (h : s.Becomes v t) (n off : ℕ) :
    p.Apart n (t.this.begin.add off) := by
  obtain ⟨h', this'⟩ := t
  cases p with
  | units l' => trivial
  | inPlace off' => exact hp.elim
  | block q off' =>
    obtain ⟨hheld, b, hb, -⟩ := hp
    cases this' with
    | small cells => trivial
    | ml m =>
      intro heq
      rcases h.moved m.data (List.mem_singleton_self _) with hold | hzero
      · exact absurd (heq ▸ hold) hheld
      · rw [← heq, Heap.count_of_some hb] at hzero
        exact absurd b.count_pos (by omega)

/-- **`append(s, n)`**, also of a part of the string itself. -/
theorem append_spec (hs : s.Shows u) (hp : p.Names s u l)
    (hn : u.length + l.length + sizeofRefCounted < 2 ^ 64) :
    Ends (append p l.length) s (fun _ t => s.Becomes (u ++ l) t ∧
      s.Grows (u.length + l.length) t) (· = s.refused) := by
  unfold append
  rw [ends_bind]
  refine hs.ends_isSane ?_
  split_ifs with hzero
  · rw [List.length_eq_zero_iff.1 hzero, List.append_nil]
    exact hs.ends_isSane ⟨hs.becomes, .refl s _⟩
  · rw [ends_bind]
    refine hs.ends_size ?_
    rw [ends_bind]
    refine hs.ends_data ?_
    rw [ends_bind]
    refine hs.ends_expandNoinit hn ?_ fun t hx hwithin => ?_
    · rfl
    · obtain ⟨g, hg, hbec⟩ := hx.becomes
      have hwrite : Ends ((t.this.begin.add u.length).write l) t (fun _ t' => Ends isSane t'
          (fun _ t' => s.Becomes (u ++ l) t' ∧ s.Grows (u.length + l.length) t')
          (· = s.refused)) (· = s.refused) :=
        hx.ends_write hwithin rfl fun t' hbec hgrows =>
          hbec.shows.ends_isSane ⟨hbec, hgrows rfl⟩
      rcases hp with hout | ⟨off, hle, htake, rfl⟩
      · rw [hout.offsetIn]
        dsimp only
        rw [ends_bind, podCopy, ends_bind, ends_check]
        refine ⟨hout.apart hbec _ _, ?_⟩
        rw [podMove, ends_bind]
        exact hout.ends_read hbec hwrite
      · rw [offsetIn_begin _ (by omega)]
        dsimp only
        rw [ends_bind, ends_check]
        refine ⟨hle, ?_⟩
        rw [ends_bind]
        refine Self.Shows.ends_data (u := u ++ g) hbec.shows ?_
        rw [ends_bind, podMove, ends_bind]
        refine Self.Shows.ends_read (u := u ++ g) hbec.shows ?_ ?_
        · rw [List.length_append]
          omega
        · rwa [List.append_assoc, List.drop_append_of_le_length (by omega),
            List.take_append_of_le_length (by rw [List.length_drop]; omega), htake]

/-! ### Cutting, and writing over -/

/-- **`resize`** cuts the text, or fills it up. -/
theorem resize_spec (hs : s.Shows u) (hn : n + sizeofRefCounted < 2 ^ 64) (c : CodeUnit) :
    Ends (resize n c) s
      (fun _ t => s.Becomes (u.take n ++ List.replicate (n - u.length) (some c)) t)
      (· = s.refused) := by
  unfold resize
  rw [ends_bind]
  refine hs.ends_isSane ?_
  rw [ends_bind]
  refine hs.ends_size ?_
  dsimp only
  split_ifs with hle
  · rw [Nat.sub_eq_zero_of_le hle, List.replicate_zero, List.append_nil, ends_bind, shrink,
      ends_update]
    refine (shrink_spec hs (Nat.sub_le _ _)).mono (fun c' h' hbec => ?_) ?_
    · rw [Nat.sub_sub_self hle] at hbec
      exact Self.Shows.ends_isSane (s := ⟨h', c'⟩) hbec.shows hbec
    · rintro h' rfl
      rfl
  · rw [List.take_of_length_le (by omega), ends_bind]
    refine hs.ends_expandNoinit (by omega) ?_ fun t hx hwithin => ?_
    · rfl
    · rw [ends_bind]
      refine hx.ends_write hwithin (List.length_replicate ..) fun t' hbec _ => ?_
      exact hbec.shows.ends_isSane hbec

/-- `begin`, of a string that is not `const`, gives it a block of its own.  What it named before
can still be read there. -/
theorem Self.Shows.ends_mutableData (hs : s.Shows u) (hE : E s.refused)
    {Q : Ptr → Self → Prop} (hQ : ∀ t, s.Becomes u t → t.this.Alone t.heap →
      (∀ off n, off + n ≤ u.length → ∀ {R : List Cell → Self → Prop},
        R ((u.drop off).take n) t → Ends ((s.this.begin.add off).read n) t R E) →
      Q t.this.begin t) : Ends mutableData s Q E := by
  rw [mutableData, ends_bind, ends_update]
  refine (mutableData_spec hs).mono ?_ ?_
  · rintro c' h' ⟨hbec, halone, hmoved⟩
    rw [ends_bind, ends_get, ends_pure]
    refine hQ ⟨h', c'⟩ hbec halone fun off n hle R hR => ?_
    obtain ⟨h, this⟩ := s
    rcases hmoved with ⟨rfl, rfl⟩ | ⟨m, rfl, hshared⟩
    · refine Self.Shows.ends_read hs (by omega) ?_
      rwa [List.drop_append_of_le_length (by omega),
        List.take_append_of_le_length (by rw [List.length_drop]; omega)]
    · -- the other holders keep the block
      obtain ⟨b, hb, hback⟩ := MediumLarge.Shows.block hs
      rw [Heap.count_of_some hb] at hshared
      obtain ⟨b', hb', hcells, -⟩ := hbec.keeps.frame m.data b hb (by
        rwa [Core.held, List.count_singleton_self])
      have hlt := hback.text.length_lt
      simp only [Core.begin, Ptr.add, Nat.zero_add, Ptr.read]
      rw [ends_onHeap]
      refine ends_load hb' (by rw [hcells]; omega) ?_
      rwa [hcells, hback.text.read hle]
  · rintro h' rfl
    exact hE

theorem add_zero_begin (c : Core) : c.begin.add 0 = c.begin := by cases c <;> rfl

theorem overwrite_singleton {x : Cell} (h : n < u.length) : overwrite u n [x] = u.set n x := by
  rw [List.set_eq_take_append_cons_drop, if_pos h, overwrite, List.append_assoc]
  rfl

/-- **`s[pos] = c`**. -/
theorem setAt_spec (hs : s.Shows u) (hn : n < u.length) (c : CodeUnit) :
    Ends (setAt n c) s (fun _ t => s.Becomes (u.set n (some c)) t) (· = s.refused) := by
  rw [setAt, ends_bind]
  refine hs.ends_mutableData ?_ fun t hbec halone _ => ?_
  · rfl
  · refine hbec.shows.ends_write (.inl halone) hn fun t' hw => ?_
    rw [← overwrite_singleton hn]
    exact hbec.trans hw.becomes

/-- **`reserve`**. -/
theorem ends_reserve (hs : s.Shows u) (hn : n + sizeofRefCounted < 2 ^ 64) :
    Ends (reserve n) s (fun _ t => s.Becomes u t ∧ n ≤ t.room ∧ s.heap.Within 1 t.heap)
      (· = s.refused) := by
  rw [reserve, ends_update]
  refine ((reserve_spec hs hn).asks (asks_reserve s.this n)).mono ?_ ?_
  · rintro c' h' ⟨⟨hbec, hroom, -⟩, hwithin⟩
    exact ⟨hbec, hroom, hwithin⟩
  · rintro h' ⟨rfl, -⟩
    rfl

/-- **`assign(s, n)`**, also of a part of the string itself.  When it fails, the old text may be
lost. -/
theorem assign_spec (hs : s.Shows u) (hp : p.Names s u l)
    (hl : l.length + sizeofRefCounted < 2 ^ 64) :
    Ends (assign p l.length) s (fun _ t => s.Becomes l t)
      fun t => s.Becomes u t ∨ s.Becomes [] t := by
  have hempty : Ends (resize 0 0) s (fun _ t => s.Becomes [] t) (· = s.refused) := by
    have hzero := resize_spec (n := 0) hs (by decide) 0
    rwa [List.take_zero, Nat.zero_sub, List.replicate_zero, List.append_nil] at hzero
  have hE : ∀ t, t = s.refused → s.Becomes u t ∨ s.Becomes [] t := by
    rintro t rfl
    exact .inl hs.refused
  unfold assign
  rw [ends_bind]
  refine hs.ends_isSane ?_
  split_ifs with hzero
  · rw [ends_bind, List.length_eq_zero_iff.1 hzero]
    exact hempty.mono (fun _ t hbec => hbec.shows.ends_isSane hbec) hE
  · rw [ends_bind]
    refine hs.ends_size ?_
    split_ifs with hle
    · rw [ends_bind]
      refine hs.ends_mutableData (.inl hs.refused) fun t hbec halone hold => ?_
      -- the text is written over, and the rest of it cut
      have hwrite : Ends (t.this.begin.write l) t (fun _ t' => Ends (do
          shrink ((← size) - l.length)
          isSane) t' (fun _ t' => s.Becomes l t') fun t => s.Becomes u t ∨ s.Becomes [] t) fun t =>
          s.Becomes u t ∨ s.Becomes [] t := by
        rw [← add_zero_begin]
        refine hbec.shows.ends_write (.inl halone) (by rwa [Nat.zero_add]) fun t' hw => ?_
        rw [overwrite_zero] at hw
        have hlen : (l ++ u.drop l.length).length - l.length = u.length - l.length := by
          rw [List.length_append, List.length_drop, Nat.add_sub_cancel_left]
        rw [ends_bind]
        refine hw.becomes.shows.ends_size ?_
        rw [ends_bind, shrink, ends_update]
        refine (shrink_spec_alone hw.becomes.shows (hw.alone halone) (Nat.sub_le _ _)).imp ?_
        intro c' h' hbec'
        rw [Nat.sub_sub_self (by simp), List.take_left] at hbec'
        exact Self.Shows.ends_isSane (s := ⟨h', c'⟩) hbec'.shows
          ((hbec.trans hw.becomes).trans hbec')
      rw [ends_bind, podMove, ends_bind]
      rcases hp with hout | ⟨off, hoff, htake, rfl⟩
      · exact hout.ends_read hbec hwrite
      · refine hold off _ hoff ?_
        rwa [htake]
    · rw [ends_bind]
      refine hempty.mono (fun _ t hbec => ?_) hE
      rw [ends_bind]
      refine hbec.shows.ends_expandNoinit ?_ ?_ fun t' hx hwithin => ?_
      · rwa [List.length_nil, Nat.zero_add]
      · exact .inr (hbec.trans hbec.shows.refused)
      · obtain ⟨g, hg, hbec'⟩ := hx.becomes
        rcases hp with hout | ⟨off, hoff, -⟩
        · rw [ends_bind, podCopy, ends_bind, ends_check]
          refine ⟨hout.apart (hbec.trans hbec') _ _, ?_⟩
          rw [podMove, ends_bind]
          refine hout.ends_read (hbec.trans hbec') ?_
          refine hx.ends_write hwithin rfl fun t'' hbec'' _ => ?_
          exact hbec''.shows.ends_isSane (hbec.trans hbec'')
        · exact absurd hoff (by omega)

end FbString

end PythonicCpp
