import PythonicCpp.Scan.LastUnit
import PythonicCpp.Search.FindView

/-!
# What one call of `next()` does

The abstract state of a view is the list of offsets it has yet to yield, the current one first.

* `MatchAt H D p` : the storage of `H` holds a copy of `D` at offset `p`; it may run past the end
  of `H`.
* `FindView.Inv` : the fields that `next()` does not change, and the cached skip.
* `FindView.Shows` : the view is at the offsets `ps`, which are the leftmost non-overlapping
  matches that begin inside the haystack.
* `FindView.next_spec` : `next()` refines `List.tail`.
* `FindView.new_spec`, `FindView.offsets_new` : what the constructor establishes, and the offsets
  the view yields.
-/

namespace PythonicCpp

open Scan

/-- The storage of `H` holds a copy of `D` at offset `p` of `H`. -/
def MatchAt (H D : Text) (p : ℕ) : Prop := block H.storage (H.first + p) D.size = D.units

instance (H D : Text) : DecidablePred (MatchAt H D) := fun p =>
  inferInstanceAs (Decidable (block H.storage (H.first + p) D.size = D.units))

namespace FindView

/-- The view searches `H` for `D`, and its skip is either not computed or the right one. -/
structure Inv (v : FindView) (H D : Text) : Prop where
  haystack : v.haystack = H.toSpan
  needle : v.needle = D.toSpan
  nsize : v.nsize = D.size
  lastNeedle : v.lastNeedle = D.storage (D.last - 1)
  skip : v.skip = 0 ∨ IsSkip D.units v.skip

/-- The offsets the view has yet to yield are `ps`, the current one first. -/
def Shows (v : FindView) (H D : Text) : List ℕ → Prop
  | [] => v.Done
  | p :: ps => v.foundAt = p ∧ p < H.size ∧ v.haystackCur = H.first + (p + D.size : ℕ) ∧
      Leftmost (MatchAt H D) H.size D.size (p + D.size) ps

variable {v : FindView} {H D : Text} {i : ℤ}

/-! ### The loops -/

theorem Inv.length_units (hI : v.Inv H D) : D.units.length = v.nsize :=
  D.length_units.trans hI.nsize.symm

theorem Inv.nsize_pos_iff (hI : v.Inv H D) : 0 < v.nsize ↔ D.units ≠ [] := by
  rw [← hI.length_units, List.length_pos_iff]

theorem Inv.last_unit (hI : v.Inv H D) (hv : 0 < v.nsize) :
    D.units[v.nsize - 1]? = some v.lastNeedle := by
  have hk : v.nsize - 1 < D.units.length := by rw [hI.length_units]; omega
  have hlast := D.last_eq
  have hsize := hI.nsize
  rw [List.getElem?_eq_getElem hk, hI.lastNeedle, Option.some.injEq]
  simp only [Span.units, getElem_block]
  congr 1
  omega

/-- One read of the needle, in terms of the units it has. -/
theorem Inv.needle_unit (hI : v.Inv H D) {j : ℕ} (hj : j < v.nsize) :
    D.units[j]? = some (v.readNeedle j).val := by
  have hj' : j < D.units.length := by rwa [hI.length_units]
  rw [List.getElem?_eq_getElem hj', readNeedle, Traced.val_read, hI.needle]
  simp [Span.units]

/-- What the loop of `get_skip()` compares. -/
theorem Inv.needle_eq_last_iff (hI : v.Inv H D) (hv : 0 < v.nsize) {s : ℕ} (hs : s < v.nsize) :
    D.units[D.units.length - 1 - s]? = D.units[D.units.length - 1]? ↔
      (v.readNeedle (v.nsize - 1 - s)).val = v.lastNeedle := by
  rw [hI.length_units, hI.last_unit hv, hI.needle_unit (by omega), Option.some.injEq]

theorem isSkip_skipFrom (hI : v.Inv H D) (hv : 0 < v.nsize) {s : ℕ}
    (h : SkipAtLeast D.units s) : IsSkip D.units (v.skipFrom (v.nsize - 1) s h.pos).val := by
  have hlen := hI.length_units
  induction hm : v.nsize - s generalizing s with
  | zero =>
    rw [skipFrom, dif_neg (by omega)]
    exact h.isSkip fun hlt => absurd hlt (by omega)
  | succ m ih =>
    have hunit := hI.needle_eq_last_iff hv (s := s) (by omega)
    rw [skipFrom, dif_pos (by omega), Traced.val_bind]
    split_ifs with hc
    · exact ih (h.succ (by omega) (mt hunit.1 hc)) (by omega)
    · exact h.isSkip fun _ => hunit.2 (not_not.1 hc)

/-- **`get_skip()` returns the skip of the needle**, whether it is cached or not. -/
theorem isSkip_getSkip (hI : v.Inv H D) (hv : 0 < v.nsize) : IsSkip D.units v.getSkip.val := by
  rw [getSkip]
  split_ifs with h
  · exact isSkip_skipFrom hI hv (skipAtLeast_one (hI.nsize_pos_iff.1 hv))
  · exact hI.skip.resolve_left h

/-- The last unit of the needle is on the last unit of position `i`. -/
def LastAt (v : FindView) (i : ℤ) : Prop :=
  v.haystack.storage (i + (v.nsize - 1 : ℕ)) = v.lastNeedle

instance : Decidable (v.LastAt i) :=
  inferInstanceAs (Decidable (v.haystack.storage (i + (v.nsize - 1 : ℕ)) = v.lastNeedle))

theorem scanLast_val {lo i : ℤ} (hlo : lo ≤ i) (hi : i < v.haystack.last) :
    (v.scanLast lo i hlo hi).val =
      if v.LastAt i then some ⟨i, hlo, hi⟩
      else if h : i + 1 = v.haystack.last then none
      else (v.scanLast lo (i + 1) (Int.le_trans hlo (Int.le_add_of_nonneg_right Int.one_nonneg))
        (Int.lt_iff_le_and_ne.2 ⟨Int.add_one_le_iff.2 hi, h⟩)).val := by
  rw [scanLast, Traced.val_bind, readHaystack, Traced.val_read]
  unfold LastAt
  by_cases hc : v.haystack.storage (i + (v.nsize - 1 : ℕ)) = v.lastNeedle
  · simp only [hc, ne_eq, not_true_eq_false, ↓reduceIte, Traced.val_pure]
  · simp only [hc, ne_eq, not_false_eq_true, ↓reduceIte]
    split_ifs <;> rfl

theorem forall_step {P : ℤ → Prop} {i b : ℤ} (hi : P i) (h : ∀ a, i + 1 ≤ a → a < b → P a) :
    ∀ a, i ≤ a → a < b → P a := by
  intro a ha hab
  rcases ha.lt_or_eq with hlt | rfl
  · exact h a hlt hab
  · exact hi

theorem scanLast_none {lo i : ℤ} {hlo : lo ≤ i} {hi : i < v.haystack.last}
    (h : (v.scanLast lo i hlo hi).val = none) :
    ∀ a, i ≤ a → a < v.haystack.last → ¬ v.LastAt a := by
  induction hm : (v.haystack.last - i).toNat generalizing i with
  | zero => omega
  | succ m ih =>
    rw [scanLast_val] at h
    split_ifs at h with hc hend
    · exact forall_step hc fun a ha hab => absurd hab (by omega)
    · exact forall_step hc (ih h (by omega))

/-- The first inner loop finds the first position with the last unit of the needle. -/
theorem scanLast_some {lo i : ℤ} {hlo : lo ≤ i} {hi : i < v.haystack.last}
    {i' : {i' : ℤ // lo ≤ i' ∧ i' < v.haystack.last}}
    (h : (v.scanLast lo i hlo hi).val = some i') :
    i ≤ i' ∧ v.LastAt i' ∧ ∀ a, i ≤ a → a < i' → ¬ v.LastAt a := by
  induction hm : (v.haystack.last - i).toNat generalizing i with
  | zero => omega
  | succ m ih =>
    rw [scanLast_val] at h
    split_ifs at h with hc hend
    · cases h
      exact ⟨le_rfl, hc, fun a ha hai => absurd hai (by simpa using ha)⟩
    · obtain ⟨hle, hlast, hno⟩ := ih h (by omega)
      exact ⟨by omega, hlast, forall_step hc hno⟩

/-- The second inner loop decides whether the rest of the needle is at `i`. -/
theorem compare_val {i : ℤ} {j : ℕ} (hj : j < v.nsize) :
    (v.compare i j hj).val = true ↔ ∀ l, j ≤ l → l < v.nsize →
      v.haystack.storage (i + l) = v.needle.storage (v.needle.first + l) := by
  induction hm : v.nsize - j generalizing j with
  | zero => omega
  | succ m ih =>
    rw [compare, Traced.val_bind, Traced.val_bind, readHaystack, readNeedle, Traced.val_read,
      Traced.val_read]
    split_ifs with hne hend
    · simp only [false_iff, not_forall]
      exact ⟨j, le_rfl, hj, hne⟩
    · simp only [Traced.val_pure, true_iff]
      intro l hjl hl
      rw [show l = j by omega]
      exact not_not.1 hne
    · rw [ih _ (by omega)]
      constructor
      · intro h l hjl hl
        rcases hjl.lt_or_eq with hlt | rfl
        · exact h l hlt hl
        · exact not_not.1 hne
      · exact fun h l hjl => h l (by omega)

/-! ### The search -/

theorem Inv.compare_iff (hI : v.Inv H D) (hv : 0 < v.nsize) (p : ℕ) :
    (v.compare (H.first + p) 0 hv).val = true ↔ MatchAt H D p := by
  rw [compare_val, MatchAt, Span.units, block_eq_block_iff, hI.haystack, hI.needle, hI.nsize]
  exact ⟨fun h j => h j (Nat.zero_le j), fun h j _ => h j⟩

theorem Inv.lastAt_of_match (hI : v.Inv H D) (hv : 0 < v.nsize) {p : ℕ} (hp : MatchAt H D p) :
    v.LastAt (H.first + p) := by
  have hD := hI.nsize_pos_iff.1 hv
  rw [MatchAt, ← D.length_units] at hp
  have hlast := last_of_block hD hp
  rw [hI.length_units, hI.last_unit hv, Option.some.injEq] at hlast
  rw [LastAt, hI.haystack, hlast]

/-- **After a mismatch the search may skip**: no match begins within the skip. -/
theorem Inv.no_match_skip (hI : v.Inv H D) (hv : 0 < v.nsize) {p : ℕ}
    (hlast : v.LastAt (H.first + p)) (hp : ¬ MatchAt H D p) :
    ∀ q, p ≤ q → q < p + v.getSkip.val → ¬ MatchAt H D q := by
  intro q hpq hq hm
  rcases hpq.lt_or_eq with hlt | rfl
  · have hs := isSkip_getSkip hI hv
    rw [LastAt, hI.haystack] at hlast
    have hD := hI.nsize_pos_iff.1 hv
    refine hs.no_match (m := H.storage) (a := H.first + p) hD ?_ (t := q - p) (by omega)
      (by omega) ?_
    · rw [hI.length_units, hI.last_unit hv, hlast]
    · rw [MatchAt, ← D.length_units] at hm
      convert hm using 2
      omega
  · exact hp hm

theorem Inv.setSkip (hI : v.Inv H D) {s : ℕ} (hs : IsSkip D.units s) : (v.setSkip s).Inv H D :=
  ⟨hI.haystack, hI.needle, hI.nsize, hI.lastNeedle, .inr hs⟩

theorem Inv.notFound (hI : v.Inv H D) : v.notFound.Inv H D :=
  ⟨hI.haystack, hI.needle, hI.nsize, hI.lastNeedle, hI.skip⟩

theorem Inv.found (hI : v.Inv H D) (hv : 0 < v.nsize) : (v.found hv i).Inv H D :=
  ⟨hI.haystack, hI.needle, hI.nsize, hI.lastNeedle, hI.skip⟩

theorem Inv.found_shows (hI : v.Inv H D) (hv : 0 < v.nsize) {p : ℕ} {ps : List ℕ}
    (hp : p < H.size) (h : Leftmost (MatchAt H D) H.size D.size (p + D.size) ps) :
    (v.found hv (H.first + p)).Shows H D (p :: ps) := by
  have := H.size_lt'
  refine ⟨?_, hp, ?_, h⟩
  · simp only [FindView.found, hI.haystack, add_sub_cancel_left]
    exact toSizeT_natCast (by omega)
  · simp only [FindView.found, hI.nsize]
    omega

/-- **The search from offset `c` shows the leftmost matches from `c` on.** -/
theorem search_spec {c : ℕ} {ps : List ℕ} (hI : v.Inv H D) (hv : 0 < v.nsize)
    (h : Leftmost (MatchAt H D) H.size D.size c ps) :
    (v.search hv (H.first + c)).val.Inv H D ∧
      (v.search hv (H.first + c)).val.Shows H D ps := by
  have hlast := H.last_eq
  -- on what is left of the haystack: a match ends the search, and each skip is positive
  induction hm : H.size - c using Nat.strong_induction_on generalizing c v with
  | _ m ih =>
    have hnil : (∀ q, c ≤ q → q < H.size → ¬ MatchAt H D q) →
        v.notFound.Inv H D ∧ v.notFound.Shows H D ps := fun hno => by
      rw [h.eq_nil_iff.2 hno]
      exact ⟨hI.notFound, rfl⟩
    rw [search]
    by_cases hi : H.first + c < v.haystack.last
    · rw [dif_pos hi, Traced.val_bind]
      cases hscan : (v.scanLast (H.first + c) (H.first + c) le_rfl hi).val with
      | none =>
        refine hnil fun q hcq hq hq' => scanLast_none hscan (H.first + q) (by omega) ?_ ?_
        · rw [hI.haystack]; omega
        · exact hI.lastAt_of_match hv hq'
      | some i' =>
        obtain ⟨i', hle, hlt⟩ := i'
        obtain ⟨-, hat, hno⟩ := scanLast_some hscan
        obtain ⟨p, rfl⟩ : ∃ p : ℕ, i' = H.first + p := ⟨(i' - H.first).toNat, by omega⟩
        simp only at hat hno ⊢
        have hp : p < H.size := by rw [hI.haystack] at hlt; omega
        have h' : Leftmost (MatchAt H D) H.size D.size p ps :=
          h.raise (by omega) fun q hcq hqp hq =>
            hno (H.first + q) (by omega) (by omega) (hI.lastAt_of_match hv hq)
        rw [Traced.val_bind]
        by_cases hmatch : MatchAt H D p
        · rw [if_pos ((hI.compare_iff hv p).2 hmatch)]
          obtain ⟨qs, rfl, ht⟩ := h'.of_hit hp hmatch
          exact ⟨hI.found hv, hI.found_shows hv hp ht⟩
        · rw [if_neg (mt (hI.compare_iff hv p).1 hmatch), Traced.val_bind]
          have hs := isSkip_getSkip hI hv
          have hpos := hs.pos
          have h'' := h'.raise (Nat.le_add_right _ _) (hI.no_match_skip hv hat hmatch)
          have := ih (H.size - (p + v.getSkip.val)) (by omega) (hI.setSkip hs) hv h'' rfl
          rwa [Nat.cast_add, ← add_assoc] at this
    · rw [dif_neg hi]
      refine hnil fun q hcq hq => absurd ?_ hi
      rw [hI.haystack]
      omega

/-! ### The members of the class -/

theorem Shows.done_iff {ps : List ℕ} (h : v.Shows H D ps) : v.Done ↔ ps = [] := by
  cases ps with
  | nil => simpa [Shows] using h
  | cons p ps =>
    have := H.size_lt'
    obtain ⟨hp, hlt, -⟩ := h
    simp only [Done, hp, npos, reduceCtorEq, iff_false]
    omega

/-- **`next()` moves to the next offset**: it refines `List.tail`. -/
theorem next_spec {ps : List ℕ} (hI : v.Inv H D) (h : v.Shows H D ps) :
    v.next.val.Inv H D ∧ v.next.val.Shows H D ps.tail := by
  rw [next]
  cases ps with
  | nil =>
    rw [dif_pos (h.done_iff.2 rfl)]
    exact ⟨hI, h⟩
  | cons p ps =>
    have hv := mt h.done_iff.1 (List.cons_ne_nil p ps)
    obtain ⟨-, -, hcur, hps⟩ := h
    rw [dif_neg hv, hcur]
    exact search_spec hI _ hps

/-- `m` calls of `next()` move past `m` offsets. -/
theorem nexts_spec (m : ℕ) {ps : List ℕ} (hI : v.Inv H D) (h : v.Shows H D ps) :
    (v.nexts m).val.Inv H D ∧ (v.nexts m).val.Shows H D (ps.drop m) := by
  induction m generalizing v ps with
  | zero => exact ⟨hI, h⟩
  | succ m ih =>
    obtain ⟨hI, h⟩ := next_spec hI h
    rw [← List.drop_tail]
    exact ih hI h

end FindView

/-- The leftmost non-overlapping copies of `D` in the storage of `H` that begin inside `H`; none
when `D` is empty or longer than `H`. -/
def storageSearch (H D : Text) : List ℕ :=
  if H.size < D.size ∨ D.size = 0 then [] else leftmost (MatchAt H D) H.size D.size 0

theorem storageSearch_spec {H D : Text} (hD : D.units ≠ []) (hle : D.size ≤ H.size) :
    Leftmost (MatchAt H D) H.size D.size 0 (storageSearch H D) := by
  have hpos : D.size ≠ 0 := mt D.units_eq_nil_iff.2 hD
  rw [storageSearch, if_neg (by omega)]
  exact leftmost_spec (by omega)

namespace FindView

variable {v : FindView} {H D : Text} {i : ℤ}

/-- The constructor searches from the beginning when there is something to search for and enough
to search in. -/
theorem new_eq_search (hD : D.size ≠ 0) (hle : D.size ≤ H.size) :
    ∃ (v : FindView) (hv : 0 < v.nsize), v.Inv H D ∧
      new H.toSpan D.toSpan =
        .read (.needle (D.last - 1)) (D.storage (D.last - 1)) >>= fun _ =>
          v.search hv (H.first + (0 : ℕ)) := by
  have hpos := Nat.pos_of_ne_zero hD
  refine ⟨⟨H.toSpan, H.first, D.toSpan, 0, D.size, 0, D.storage (D.last - 1), fun _ => hpos⟩, hpos,
    ⟨rfl, rfl, rfl, rfl, .inl rfl⟩, ?_⟩
  rw [new, Traced.read_bind, if_neg (not_lt.2 hle), dif_neg hD, next,
    dif_neg (by simp [Done, npos]), Nat.cast_zero, add_zero]

/-- **The constructor shows the search of the storage.** -/
theorem new_spec (H D : Text) :
    (new H.toSpan D.toSpan).val.Inv H D ∧
      (new H.toSpan D.toSpan).val.Shows H D (storageSearch H D) := by
  by_cases hlt : H.size < D.size
  · rw [new, Traced.val_bind, if_pos hlt, storageSearch, if_pos (.inl hlt)]
    exact ⟨⟨rfl, rfl, rfl, rfl, .inl rfl⟩, rfl⟩
  · by_cases hD : D.size = 0
    · rw [new, Traced.val_bind, if_neg hlt, dif_pos hD, storageSearch, if_pos (.inr hD)]
      exact ⟨⟨rfl, rfl, rfl, rfl, .inl rfl⟩, rfl⟩
    · obtain ⟨v, hv, hI, hnew⟩ := new_eq_search hD (not_lt.1 hlt)
      rw [hnew, Traced.val_bind]
      exact search_spec hI hv (storageSearch_spec (mt D.units_eq_nil_iff.1 hD) (not_lt.1 hlt))

/-! ### Progress -/

/-- A search that finds a match resumes after the position it began at. -/
theorem search_progress (hv : 0 < v.nsize) :
    (v.search hv i).val.haystack = v.haystack ∧
      ((v.search hv i).val.Done ∨ i < (v.search hv i).val.haystackCur ∧ i < v.haystack.last) := by
  fun_induction search v hv i with
  | case1 v hv i hi ih =>
    rw [Traced.val_bind]
    cases (v.scanLast i i le_rfl hi).val with
    | none => exact ⟨rfl, .inl rfl⟩
    | some i' =>
      obtain ⟨i', hle, hlt⟩ := i'
      simp only [Traced.val_bind]
      split_ifs
      · refine ⟨rfl, .inr ⟨?_, hi⟩⟩
        simp only [Traced.val_pure, found]
        omega
      · obtain ⟨hh, hr⟩ := ih ⟨i', hle, hlt⟩ v.getSkip.val
        refine ⟨hh, hr.imp_right fun h => ⟨lt_of_le_of_lt ?_ h.1, hi⟩⟩
        exact hle.trans (Int.le_add_of_nonneg_right (Int.natCast_nonneg _))
  | case2 v hv i hi => exact ⟨rfl, .inl rfl⟩

/-- What is left to search: nothing when the view is done. -/
def measure (v : FindView) : ℕ :=
  if v.Done then 0 else (v.haystack.last - v.haystackCur).toNat + 1

/-- **Each call of `next()` makes progress**, whatever the storage holds. -/
theorem next_progress (h : ¬ v.Done) : v.next.val.measure < v.measure := by
  obtain ⟨hh, hr⟩ := search_progress (i := v.haystackCur) (v.nsize_pos h)
  rw [next, dif_neg h, measure, measure, if_neg h, hh]
  split_ifs with hd
  · exact Nat.succ_pos _
  · have := hr.resolve_left hd
    omega

/-- The offsets the view yields when it is iterated up to its end. -/
def offsets (v : FindView) : List ℕ :=
  if _h : v.Done then [] else v.foundAt :: offsets v.next.val
termination_by v.measure
decreasing_by exact next_progress _h

theorem offsets_eq {H D : Text} {ps : List ℕ} (hI : v.Inv H D) (h : v.Shows H D ps) :
    v.offsets = ps := by
  induction ps generalizing v with
  | nil => rw [offsets, dif_pos (h.done_iff.2 rfl)]
  | cons p ps ih =>
    obtain ⟨hI', h'⟩ := next_spec hI h
    rw [offsets, dif_neg (mt h.done_iff.1 (List.cons_ne_nil p ps)), ih hI' h', h.1]

/-- The reads that are made when the view is iterated up to its end. -/
def restReads (v : FindView) : List Read :=
  if _h : v.Done then [] else v.next.reads ++ restReads v.next.val
termination_by v.measure
decreasing_by exact next_progress _h

/-- **The view yields exactly the leftmost non-overlapping matches in the storage** that begin
inside the haystack. -/
theorem offsets_new (H D : Text) :
    (new H.toSpan D.toSpan).val.offsets = storageSearch H D :=
  offsets_eq (new_spec H D).1 (new_spec H D).2

end FindView

end PythonicCpp
