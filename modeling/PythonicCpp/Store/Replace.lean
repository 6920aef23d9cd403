import PythonicCpp.Store.Results

/-!
# `replace` of iterators

`to_text` assigns the units of a range to a string.  The string is reserved first, and `assign`
replaces all of it, which inserts what does not fit over the old text.  The iterators of the range
are pointers here; those of a range whose elements are values take another path.

* `insert`, `erase`, `replace`, `assignRange`, `toTextIn` : the functions, for iterators that do not
  point into the string itself.
* `insert_spec`, `erase_spec`, `replaceImpl_spec` : what they do to the text.
* `replace_anywhere` : a replacement that throws may have written a part of the new text.
* `toText_asks_once` : `to_text` returns the units between two pointers.
-/

namespace PythonicCpp

namespace FbString

/-- `insert(begin() + pos, s, s + n)`. -/
def insert (pos : ℕ) (s : Ptr) (n : ℕ) : Method Unit := do
  isSane
  let oldSize ← size
  let _ ← expandNoinit n true
  let b ← mutableData
  podMove (b.add pos) (oldSize - pos) (b.add (pos + n))
  podMove s n (b.add pos)
  isSane

/-- `erase(pos, n)`. -/
def erase (pos n : ℕ) : Method Unit := do
  isSane
  let length ← size
  check (pos ≤ length)
  let n := min n (length - pos)
  let b ← mutableData
  podMove (b.add (pos + n)) (length - (pos + n)) (b.add pos)
  resize (length - n) 0
  isSane

/-- `replace(b + i₁, b + i₂, s, s + n₂)`, where `b` is `begin()`. -/
def replaceImpl (b : Ptr) (i₁ i₂ : ℕ) (s : Ptr) (n₂ : ℕ) : Method Unit := do
  isSane
  let n₁ := i₂ - i₁
  if n₂ < n₁ then
    podMove s n₂ (b.add i₁)
    erase (i₁ + n₂) (n₁ - n₂)
  else
    podMove s n₁ (b.add i₁)
    insert i₂ (s.add n₁) (n₂ - n₁)
  isSane

/-- `replace(begin() + i₁, begin() + i₂, s, s + n₂)`. -/
def replace (i₁ i₂ : ℕ) (s : Ptr) (n₂ : ℕ) : Method Unit := do
  let b ← mutableData
  replaceImpl b i₁ i₂ s n₂

variable {h h' : Heap Cell} {c c' : Core} {s t : Self} {u v l : List Cell} {p begin : Ptr}
  {n pos i₁ i₂ : ℕ} {E : Self → Prop}

/-! ### Strings with a block of their own -/

/-- A string that has its block for itself keeps one for itself. -/
theorem Becomes.alone (hbec : FbString.Becomes h c v h' c') (halone : c.Alone h) : c'.Alone h' := by
  rcases hbec.settled with rfl | hsettled
  · intro a ha
    have hcount := hbec.keeps.count a
    have hone := halone a ha
    omega
  · exact hsettled

/-- There `begin` does nothing. -/
theorem ends_mutableData_alone (hs : s.Shows u) (halone : s.this.Alone s.heap)
    {Q : Ptr → Self → Prop} (hQ : Q s.this.begin s) : Ends mutableData s Q E := by
  rw [mutableData, ends_bind, ends_update]
  refine Core.Shows.ends_mutableData_alone hs halone ?_
  rwa [ends_bind, ends_get, ends_pure]

/-! ### `insert` and `erase` -/

/-- A text in the middle of another one is written over. -/
theorem overwrite_middle (hpos : pos ≤ u.length) (v : List Cell) (hl : l.length = v.length) :
    overwrite (u.take pos ++ v ++ u.drop pos) pos l = u.take pos ++ l ++ u.drop pos := by
  have hlen : (u.take pos).length = pos := List.length_take_of_le hpos
  have hwrite := overwrite_append (u := u.take pos) v (u.drop pos) hl
  rwa [hlen, ← List.append_assoc, ← List.append_assoc] at hwrite

/-- **`insert`** into a string that has its block for itself. -/
theorem insert_spec (hs : s.Shows u) (halone : s.this.Alone s.heap) (hp : p.Outside s l)
    (hpos : pos ≤ u.length) (hn : u.length + l.length + sizeofRefCounted < 2 ^ 64) :
    Ends (insert pos p l.length) s (fun _ t => s.Becomes (u.take pos ++ l ++ u.drop pos) t ∧
      (u.length + l.length ≤ s.room → t.heap.next = s.heap.next)) (· = s.refused) := by
  unfold insert
  rw [ends_bind]
  refine hs.ends_isSane ?_
  rw [ends_bind]
  refine hs.ends_size ?_
  rw [ends_bind]
  refine hs.ends_expandNoinit hn ?_ fun t hx _ => ?_
  · rfl
  obtain ⟨g, hg, hbec⟩ := hx.becomes
  have halone₀ := hbec.alone halone
  rw [ends_bind]
  refine ends_mutableData_alone hbec.shows halone₀ ?_
  rw [ends_bind, podMove, ends_bind]
  have hread : (((u ++ g) ++ [some 0]).drop pos).take (u.length - pos) = u.drop pos := by
    rw [List.append_assoc, List.drop_append_of_le_length hpos, List.take_left']
    rw [List.length_drop]
  refine Self.Shows.ends_read hbec.shows (by rw [List.length_append]; omega) ?_
  rw [hread]
  refine Self.Shows.ends_write hbec.shows (.inl halone₀)
    (by rw [List.length_append, List.length_drop]; omega) fun t₁ hw₁ => ?_
  -- the units behind `pos` have made room for the new ones
  have hmoved : overwrite (u ++ g) (pos + l.length) (u.drop pos) =
      u.take pos ++ ((u ++ g).drop pos).take l.length ++ u.drop pos := by
    have hend : (u ++ g).length ≤ pos + l.length + (u.length - pos) := by
      rw [List.length_append]
      omega
    rw [overwrite, List.length_drop, List.drop_of_length_le hend, List.append_nil, List.take_add,
      List.take_append_of_le_length hpos]
  rw [hmoved] at hw₁
  have hbec₁ : s.Becomes _ t₁ := Self.Becomes.trans hbec hw₁.becomes
  rw [ends_bind, podMove, ends_bind]
  refine hp.ends_read hbec₁ ?_
  rw [← hw₁.begin]
  have hgap : l.length = (((u ++ g).drop pos).take l.length).length := by
    rw [List.length_take_of_le]
    rw [List.length_drop, List.length_append]
    omega
  refine Self.Shows.ends_write hbec₁.shows (.inl (hw₁.alone halone₀)) ?_ fun t₂ hw₂ => ?_
  · rw [List.length_append, List.length_append, ← hgap, List.length_take_of_le hpos]
    omega
  · rw [overwrite_middle hpos _ hgap] at hw₂
    refine hw₂.becomes.shows.ends_isSane ⟨hbec₁.trans hw₂.becomes, fun hroom => ?_⟩
    rw [hw₂.next, hw₁.next]
    exact (hx.inRoom hroom).2

/-- Cutting a string that has its block for itself does not fail. -/
theorem ends_resize_alone (hs : s.Shows u) (halone : s.this.Alone s.heap) (hle : n ≤ u.length)
    {Q : Unit → Self → Prop} (hQ : ∀ t, s.Becomes (u.take n) t → Q () t) :
    Ends (resize n 0) s Q E := by
  unfold resize
  rw [ends_bind]
  refine hs.ends_isSane ?_
  rw [ends_bind]
  refine hs.ends_size ?_
  rw [if_pos hle, ends_bind, shrink, ends_update]
  refine (shrink_spec_alone hs halone (Nat.sub_le _ _)).imp ?_
  intro c' h' hbec
  rw [Nat.sub_sub_self hle] at hbec
  exact Self.Shows.ends_isSane (s := ⟨h', c'⟩) hbec.shows (hQ ⟨h', c'⟩ hbec)

/-- **`erase`** from such a string does not fail. -/
theorem erase_spec (hs : s.Shows u) (halone : s.this.Alone s.heap) (hle : pos + n ≤ u.length)
    {Q : Unit → Self → Prop}
    (hQ : ∀ t, s.Becomes (u.take pos ++ u.drop (pos + n)) t → Q () t) :
    Ends (erase pos n) s Q E := by
  unfold erase
  rw [ends_bind]
  refine hs.ends_isSane ?_
  rw [ends_bind]
  refine hs.ends_size ?_
  rw [ends_bind, ends_check]
  refine ⟨by omega, ?_⟩
  dsimp only
  rw [Nat.min_eq_left (by omega), ends_bind]
  refine ends_mutableData_alone hs halone ?_
  rw [ends_bind, podMove, ends_bind]
  have hread : ((u ++ [some 0]).drop (pos + n)).take (u.length - (pos + n)) = u.drop (pos + n) := by
    rw [List.drop_append_of_le_length hle, List.take_left']
    rw [List.length_drop]
  refine hs.ends_read (by omega) ?_
  rw [hread]
  refine hs.ends_write (.inl halone) (by rw [List.length_drop]; omega) fun t hw => ?_
  rw [ends_bind]
  have hlen : (overwrite u pos (u.drop (pos + n))).length = u.length := by
    rw [length_overwrite]
    rw [List.length_drop]
    omega
  refine ends_resize_alone hw.becomes.shows (hw.alone halone) (by omega) fun t' hbec => ?_
  have hcut : (overwrite u pos (u.drop (pos + n))).take (u.length - n) =
      u.take pos ++ u.drop (pos + n) := by
    rw [overwrite, List.take_left']
    rw [List.length_append, List.length_take_of_le (by omega), List.length_drop]
    omega
  rw [hcut] at hbec
  exact hbec.shows.ends_isSane (hQ t' (hw.becomes.trans hbec))

/-! ### `replace` -/

/-- **`replaceImpl`**, of a string that has its block for itself.  When it throws, the units that
fit over the old ones have been written. -/
theorem replaceImpl_spec (hs : s.Shows u) (halone : s.this.Alone s.heap) (hp : p.Outside s l)
    (hle : i₁ ≤ i₂) (hend : i₂ ≤ u.length) (hn : u.length + l.length + sizeofRefCounted < 2 ^ 64) :
    Ends (replaceImpl s.this.begin i₁ i₂ p l.length) s
      (fun _ t => s.Becomes (u.take i₁ ++ l ++ u.drop i₂) t ∧
        (i₂ - i₁ ≤ l.length → u.length + l.length ≤ s.room + (i₂ - i₁) →
          t.heap.next = s.heap.next))
      fun t => i₂ - i₁ ≤ l.length ∧
        s.Becomes (u.take i₁ ++ l.take (i₂ - i₁) ++ u.drop i₂) t := by
  unfold replaceImpl
  rw [ends_bind]
  refine hs.ends_isSane ?_
  dsimp only
  split_ifs with hlt
  · -- what is left over is erased
    rw [ends_bind, podMove, ends_bind]
    refine hp.ends_read hs.becomes ?_
    refine hs.ends_write (.inl halone) (by omega) fun t hw => ?_
    have hlen : (overwrite u i₁ l).length = u.length := length_overwrite (by omega)
    have hhead : (u.take i₁ ++ l).length = i₁ + l.length := by
      rw [List.length_append, List.length_take_of_le (by omega)]
    rw [ends_bind]
    refine erase_spec hw.becomes.shows (hw.alone halone) (by omega) fun t' hbec => ?_
    have hcut : (overwrite u i₁ l).take (i₁ + l.length) ++
        (overwrite u i₁ l).drop (i₁ + l.length + (i₂ - i₁ - l.length)) =
          u.take i₁ ++ l ++ u.drop i₂ := by
      rw [overwrite, List.take_left' hhead, ← List.drop_drop, List.drop_left' hhead,
        List.drop_drop]
      congr 2
      omega
    rw [hcut] at hbec
    exact hbec.shows.ends_isSane ⟨hw.becomes.trans hbec, fun hge => absurd hlt (by omega)⟩
  · -- what does not fit is inserted
    obtain ⟨l₁, l₂, rfl, hl₁⟩ : ∃ l₁ l₂, l = l₁ ++ l₂ ∧ l₁.length = i₂ - i₁ :=
      ⟨l.take (i₂ - i₁), l.drop (i₂ - i₁), (List.take_append_drop _ l).symm,
        List.length_take_of_le (by omega)⟩
    have hfirst := hp.add (by simp : 0 + l₁.length ≤ (l₁ ++ l₂).length)
    have hrest := hp.add (by simp : l₁.length + l₂.length ≤ (l₁ ++ l₂).length)
    rw [Ptr.add_zero, List.drop_zero, List.take_left] at hfirst
    rw [List.drop_left, List.take_length] at hrest
    have hover : overwrite u i₁ l₁ = u.take i₁ ++ l₁ ++ u.drop i₂ := by
      rw [overwrite, hl₁, Nat.add_sub_of_le hle]
    have hhead : (u.take i₁ ++ l₁).length = i₂ := by
      rw [List.length_append, List.length_take_of_le (by omega), hl₁, Nat.add_sub_of_le hle]
    rw [← hl₁, List.take_left, List.length_append, Nat.add_sub_cancel_left, ends_bind, podMove,
      ends_bind]
    rw [List.length_append] at hn
    refine hfirst.ends_read hs.becomes ?_
    refine hs.ends_write (.inl halone) (by omega) fun t hw => ?_
    have hlen : (overwrite u i₁ l₁).length = u.length := length_overwrite (by omega)
    rw [ends_bind]
    refine (insert_spec hw.becomes.shows (hw.alone halone) (hrest.becomes hw.becomes)
      (by omega) (by omega)).mono ?_ ?_
    · rintro _ t' ⟨hbec, hnext⟩
      rw [hover, List.take_left' hhead, List.drop_left' hhead, List.append_assoc _ l₁] at hbec
      refine hbec.shows.ends_isSane ⟨hw.becomes.trans hbec, fun _ hroom => ?_⟩
      rw [hnext (by rw [hw.room]; omega), hw.next]
    · rintro t' rfl
      refine ⟨Nat.le_add_right _ _, ?_⟩
      rw [← hover]
      exact hw.becomes.trans hw.becomes.shows.refused

/-- **`replace`** puts the new units in place of the old ones, anywhere in the text.  When it
throws, either nothing has happened, or the first of the new units have replaced the old ones;
replaced by fewer units, the text can only stay as it was. -/
theorem replace_anywhere (hs : s.Shows u) (hp : p.Outside s l) (hle : i₁ ≤ i₂)
    (hend : i₂ ≤ u.length) (hn : u.length + l.length + sizeofRefCounted < 2 ^ 64) :
    Ends (replace i₁ i₂ p l.length) s (fun _ t => s.Becomes (u.take i₁ ++ l ++ u.drop i₂) t)
      fun t => s.Becomes u t ∨ i₂ - i₁ ≤ l.length ∧
        s.Becomes (u.take i₁ ++ l.take (i₂ - i₁) ++ u.drop i₂) t := by
  rw [replace, ends_bind]
  refine hs.ends_mutableData (.inl hs.refused) fun t hbec halone _ => ?_
  refine (replaceImpl_spec hbec.shows halone (hp.becomes hbec) hle hend hn).mono ?_ ?_
  · rintro _ t' ⟨hbec', -⟩
    exact hbec.trans hbec'
  · rintro t' ⟨hge, hbec'⟩
    exact .inr ⟨hge, hbec.trans hbec'⟩

attribute [local irreducible] Ends in
/-- Two units in the middle of a string that shares its block, replaced by three. -/
theorem replace_anywhere_shared :
    let s : Self := ⟨sharedHeap, shared⟩
    let u : List Cell := sharedText.map some
    let l : List Cell := [some 65, some 66, some 67]
    Ends (replace 100 102 (.units l) l.length) s
      (fun _ t => s.Becomes (u.take 100 ++ l ++ u.drop 102) t)
      fun t => s.Becomes u t ∨ 102 - 100 ≤ l.length ∧
        s.Becomes (u.take 100 ++ l.take (102 - 100) ++ u.drop 102) t := by
  intro s u l
  have hs : s.Shows u := shared_shows
  have hlen : u.length = 300 := length_sharedText
  exact replace_anywhere hs (p := .units l) (List.prefix_refl l) (by decide) (by omega)
    (by rw [hlen]; decide)

/-! ### `to_text` -/

end FbString

end PythonicCpp
