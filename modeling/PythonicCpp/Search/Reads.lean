import PythonicCpp.Search.Finditer

/-!
# The code units the search reads

Each read of the view is of one unit through an iterator.  `Read.InBounds` says that the iterator
points into its range.

* `Read.Within` : the unit is stored in larger ranges, such as a literal with its terminator.
* `FindView.AllReads` : the reads of a computation and of every later call of `next()`.
* `FindView.ReadsWithin` : the same for a view that is iterated, where it can be decided.
* `FindView.search_inBounds_iff` : the reads from a position on are in bounds iff the walk of the
  search (`Scan.lastStride`) keeps the needle within the haystack.
* `reads_inBounds_iff` : exactly when all reads of a view are in bounds.
-/

namespace PythonicCpp

open Scan

/-- The unit read is one of the range it is read from. -/
def Read.InBounds (H D : Text) : Read → Prop
  | haystack a => H.first ≤ a ∧ a < H.last
  | needle a => D.first ≤ a ∧ a < D.last

/-- The unit read is one of the needle. -/
def Read.InNeedle (D : Text) (r : Read) : Prop := ∃ j < D.size, r = .needle (D.first + j)

/-- The unit read is stored in the ranges. -/
def Read.Within (haystackRange needleRange : Span) : Read → Prop
  | haystack a => haystackRange.first ≤ a ∧ a < haystackRange.last
  | needle a => needleRange.first ≤ a ∧ a < needleRange.last

instance (h d : Span) : DecidablePred (Read.Within h d)
  | .haystack a => inferInstanceAs (Decidable (h.first ≤ a ∧ a < h.last))
  | .needle a => inferInstanceAs (Decidable (d.first ≤ a ∧ a < d.last))

theorem Read.InNeedle.inBounds {H D : Text} {r : Read} (h : r.InNeedle D) : r.InBounds H D := by
  obtain ⟨j, hj, rfl⟩ := h
  have := D.last_eq
  exact ⟨by omega, by omega⟩

/-- Its last unit is in bounds unless the needle is empty. -/
theorem Read.inBounds_back {H D : Text} : (needle (D.last - 1)).InBounds H D ↔ D.size ≠ 0 := by
  have := D.last_eq
  rw [InBounds]
  omega

namespace FindView

/-- The reads of `x` and of every later call of `next()` satisfy `ok`. -/
def AllReads (ok : Read → Prop) (x : Traced Read FindView) : Prop := ∀ m, (x >>= nexts m).All ok

/-- Iterating the view reads only what is stored in the ranges. -/
def ReadsWithin (haystackRange needleRange : Span) (x : Traced Read FindView) : Prop :=
  ∀ r ∈ x.reads ++ x.val.restReads, r.Within haystackRange needleRange

instance (h d : Span) : DecidablePred (ReadsWithin h d) := fun x =>
  inferInstanceAs (Decidable (∀ r ∈ x.reads ++ x.val.restReads, r.Within h d))

variable {v : FindView} {H D : Text} {ok : Read → Prop}

/-! ### Reads of a sequence of calls -/

theorem allReads_iff {x : Traced Read FindView} :
    AllReads ok x ↔ x.All ok ∧ AllReads ok (pure x.val) := by
  simp only [AllReads, Traced.all_bind, Traced.all_pure, Traced.val_pure, true_and]
  exact ⟨fun h => ⟨(h 0).1, fun m => (h m).2⟩, fun h m => ⟨h.1, h.2 m⟩⟩

theorem allReads_bind {α : Type} {x : Traced Read α} {f : α → Traced Read FindView} :
    AllReads ok (x >>= f) ↔ x.All ok ∧ AllReads ok (f x.val) := by
  rw [allReads_iff, Traced.all_bind, Traced.val_bind, and_assoc, ← allReads_iff]

theorem allReads_pure : AllReads ok (pure v) ↔ AllReads ok v.next := by
  simp only [AllReads, Traced.all_bind, Traced.all_pure, Traced.val_pure, true_and]
  constructor
  · intro h m
    exact Traced.all_bind.1 (h (m + 1))
  · intro h m
    cases m with
    | zero => exact Traced.all_pure v
    | succ m => exact Traced.all_bind.2 (h m)

theorem allReads_done (hv : v.Done) : AllReads ok (pure v) := by
  have hnext : v.next = pure v := by rw [next, dif_pos hv]
  intro m
  induction m with
  | zero => exact Traced.all_bind.2 ⟨Traced.all_pure v, Traced.all_pure v⟩
  | succ m ih =>
    refine Traced.all_bind.2 ⟨Traced.all_pure v, ?_⟩
    change (v.next >>= nexts m).All ok
    rwa [hnext]

/-- What is read when the view is iterated is what all calls of `next()` read. -/
theorem readsWithin_iff {h d : Span} {x : Traced Read FindView} :
    ReadsWithin h d x ↔ AllReads (Read.Within h d) x := by
  have hrest : ∀ v : FindView, AllReads (Read.Within h d) (pure v) ↔
      ∀ r ∈ v.restReads, r.Within h d := fun v => by
    fun_induction restReads v with
    | case1 v hdone => exact iff_of_true (allReads_done hdone) nofun
    | case2 v _ ih =>
      rw [allReads_pure, allReads_iff, ih, List.forall_mem_append]
      rfl
  rw [allReads_iff, hrest, ReadsWithin, List.forall_mem_append]
  rfl

/-! ### Reads of the loops -/

theorem Inv.readNeedle_inNeedle (hI : v.Inv H D) {j : ℕ} (hj : j < v.nsize) :
    (v.readNeedle j).All (Read.InNeedle D) := by
  rw [readNeedle, Traced.all_read, hI.needle]
  exact ⟨j, hI.nsize ▸ hj, rfl⟩

theorem readHaystack_inBounds {p : ℕ} (hp : p < H.size) :
    (v.readHaystack (H.first + p)).All (Read.InBounds H D) := by
  have := H.last_eq
  rw [readHaystack, Traced.all_read]
  exact ⟨by omega, by omega⟩

theorem Inv.skipFrom_inNeedle (hI : v.Inv H D) (hv : 0 < v.nsize) {s : ℕ} (hs : 0 < s) :
    (v.skipFrom (v.nsize - 1) s hs).All (Read.InNeedle D) := by
  induction hm : v.nsize - s generalizing s with
  | zero =>
    rw [skipFrom, dif_neg (by omega)]
    exact Traced.all_pure _
  | succ m ih =>
    rw [skipFrom]
    split_ifs with hle
    · refine Traced.all_bind.2 ⟨hI.readNeedle_inNeedle (by omega), ?_⟩
      split_ifs
      · exact ih _ (by omega)
      · exact Traced.all_pure _
    · exact Traced.all_pure _

/-- `get_skip()` reads units of the needle only. -/
theorem Inv.getSkip_inNeedle (hI : v.Inv H D) (hv : 0 < v.nsize) :
    v.getSkip.All (Read.InNeedle D) := by
  rw [getSkip]
  split_ifs
  · exact hI.skipFrom_inNeedle hv _
  · exact Traced.all_pure _

/-- Where the needle lies within the haystack, comparing it reads nothing else. -/
theorem Inv.compare_inBounds (hI : v.Inv H D) {p j : ℕ} (hj : j < v.nsize)
    (hp : p + D.size ≤ H.size) :
    (v.compare (H.first + p) j hj).All (Read.InBounds H D) := by
  have := hI.nsize
  induction hm : v.nsize - j generalizing j with
  | zero => omega
  | succ m ih =>
    have hread : (v.readHaystack (H.first + (p + j : ℕ))).All (Read.InBounds H D) :=
      readHaystack_inBounds (by omega)
    rw [Nat.cast_add, ← add_assoc] at hread
    rw [compare]
    have hneedle : (v.readNeedle j).All (Read.InBounds H D) :=
      (hI.readNeedle_inNeedle hj).imp Read.InNeedle.inBounds
    refine Traced.all_bind.2 ⟨hread, Traced.all_bind.2 ⟨hneedle, ?_⟩⟩
    split_ifs
    · exact Traced.all_pure _
    · exact Traced.all_pure _
    · exact ih _ (by omega)

theorem scanLast_all {lo i : ℤ} (hlo : lo ≤ i) (hi : i < v.haystack.last) :
    (v.scanLast lo i hlo hi).All ok ↔ ok (.haystack (i + (v.nsize - 1 : ℕ))) ∧
      (¬ v.LastAt i → ∀ h : i + 1 ≠ v.haystack.last,
        (v.scanLast lo (i + 1) (Int.le_trans hlo (Int.le_add_of_nonneg_right Int.one_nonneg))
          (Int.lt_iff_le_and_ne.2 ⟨Int.add_one_le_iff.2 hi, h⟩)).All ok) := by
  rw [scanLast, Traced.all_bind, readHaystack, Traced.all_read, Traced.val_read]
  refine and_congr_right fun _ => ?_
  unfold LastAt
  by_cases hc : v.haystack.storage (i + (v.nsize - 1 : ℕ)) = v.lastNeedle
  · simp only [hc, ne_eq, not_true_eq_false, ↓reduceIte, Traced.all_pure, false_implies]
  · simp only [hc, ne_eq, not_false_eq_true, ↓reduceIte, true_implies]
    split_ifs with hend
    · exact iff_of_true (Traced.all_pure _) fun h => absurd hend h
    · exact ⟨fun h _ => h, fun h => h hend⟩

/-- The first inner loop reads past the end of the haystack when it runs up to that end, unless the
needle has a single unit. -/
theorem Inv.scanLast_none_inBounds (hI : v.Inv H D) (hv : 0 < v.nsize) {lo i : ℤ} {hlo : lo ≤ i}
    {hi : i < v.haystack.last} (h₀ : H.first ≤ i) (h : (v.scanLast lo i hlo hi).val = none) :
    (v.scanLast lo i hlo hi).All (Read.InBounds H D) ↔ D.size = 1 := by
  have hnsize := hI.nsize
  have hlast : v.haystack.last = H.last := by rw [hI.haystack]
  induction hm : (v.haystack.last - i).toNat generalizing i with
  | zero => omega
  | succ m ih =>
    rw [scanLast_val] at h
    rw [scanLast_all, Read.InBounds]
    split_ifs at h with hc hend
    · simp only [hc, not_false_eq_true, hend, ne_eq, not_true_eq_false, IsEmpty.forall_iff,
        true_implies, and_true]
      omega
    · simp only [hc, not_false_eq_true, hend, ne_eq, forall_true_left,
        ih (by omega) h (by omega)]
      omega

/-- When it finds a position it has read up to the last unit of the needle there. -/
theorem Inv.scanLast_some_inBounds (hI : v.Inv H D) (hv : 0 < v.nsize) {lo i : ℤ} {hlo : lo ≤ i}
    {hi : i < v.haystack.last} {i' : {i' : ℤ // lo ≤ i' ∧ i' < v.haystack.last}}
    (h₀ : H.first ≤ i) (h : (v.scanLast lo i hlo hi).val = some i') :
    (v.scanLast lo i hlo hi).All (Read.InBounds H D) ↔ (i' : ℤ) + D.size ≤ H.last := by
  have hnsize := hI.nsize
  have hlast : v.haystack.last = H.last := by rw [hI.haystack]
  have hle := (scanLast_some h).1
  induction hm : (v.haystack.last - i).toNat generalizing i with
  | zero => omega
  | succ m ih =>
    have hval := h
    rw [scanLast_val] at h
    rw [scanLast_all, Read.InBounds]
    split_ifs at h with hc hend
    · have hi' : (i' : ℤ) = i := by rw [← Option.some.inj h]
      simp only [hc, not_true_eq_false, false_implies, and_true, hi']
      omega
    · have hle' := (scanLast_some h).1
      simp only [hc, not_false_eq_true, hend, ne_eq, forall_true_left,
        ih (by omega) h hle' (by omega)]
      omega

/-! ### Reads of the search -/

theorem Inv.lastAt_iff (hI : v.Inv H D) (hv : 0 < v.nsize) {p : ℕ} (hp : p + D.size ≤ H.size) :
    v.LastAt (H.first + p) ↔ LastUnitAt H.units D.units p := by
  have hlt : p + (v.nsize - 1) < H.units.length := by
    rw [H.length_units, hI.nsize]
    have := hI.nsize
    omega
  rw [LastUnitAt, D.length_units, H.length_units, and_iff_right hp, ← hI.nsize, hI.last_unit hv,
    List.getElem?_eq_getElem hlt, Option.some.injEq, LastAt, hI.haystack]
  simp only [Span.units, getElem_block, Nat.cast_add, add_assoc]

/-- Where the last unit of the needle is not, the walk takes a step of one. -/
theorem Inv.lastStride_eq_one (hI : v.Inv H D) (hv : 0 < v.nsize) {s q : ℕ}
    (hq : ¬ v.LastAt (H.first + q)) : lastStride H.units D.units s q = 1 := by
  refine if_neg fun hunit => hq ((hI.lastAt_iff hv ?_).2 hunit)
  simpa using hunit.1

/-- The call after a match resumes behind it. -/
theorem Inv.allReads_found (hI : v.Inv H D) (hv : 0 < v.nsize) {p : ℕ} (hp : p < H.size) :
    AllReads ok (pure (v.found hv (H.first + p))) ↔
      AllReads ok ((v.found hv (H.first + p)).search hv (H.first + (p + D.size : ℕ))) := by
  have hD : 0 < D.size := by rw [← hI.nsize]; exact hv
  have hshows := hI.found_shows hv hp (leftmost_spec hD)
  rw [allReads_pure, next, dif_neg (mt hshows.done_iff.1 (List.cons_ne_nil _ _)), hshows.2.2.1]

/-- **The search from position `c` reads within its ranges iff its walk fits.** -/
theorem search_inBounds_iff {s c : ℕ} (hI : v.Inv H D) (hv : 0 < v.nsize)
    (hs : IsSkip D.units s) :
    AllReads (Read.InBounds H D) (v.search hv (H.first + c)) ↔
      Fits (lastStride H.units D.units s) H.size D.size c := by
  have hlast := H.last_eq
  -- as in `search_spec`; here the call after a match is part of the walk
  induction hm : H.size - c using Nat.strong_induction_on generalizing c v with
  | _ m ih =>
    have hnsize := hI.nsize
    have hhay : v.haystack.last = H.last := by rw [hI.haystack]
    rw [search]
    by_cases hi : H.first + c < v.haystack.last
    · rw [dif_pos hi, allReads_bind]
      cases hscan : (v.scanLast (H.first + c) (H.first + c) le_rfl hi).val with
      | none =>
        have hno := scanLast_none hscan
        have hout : Fits (lastStride H.units D.units s) H.size D.size c ↔ D.size ≤ 1 :=
          Fits.run_out (by omega) fun q hq hqn =>
            hI.lastStride_eq_one hv (hno _ (by omega) (by omega))
        rw [hI.scanLast_none_inBounds hv (by omega) hscan, hout,
          and_iff_left (allReads_done (v := v.notFound) rfl)]
        omega
      | some i' =>
        obtain ⟨i', hle, hlt⟩ := i'
        obtain ⟨-, hat, hno⟩ := scanLast_some hscan
        obtain ⟨p, rfl⟩ : ∃ p : ℕ, i' = H.first + p := ⟨(i' - H.first).toNat, by omega⟩
        have hread := hI.scanLast_some_inBounds hv (by omega) hscan
        simp only at hat hno hread ⊢
        have hfit : H.first + p + D.size ≤ H.last ↔ p + D.size ≤ H.size := by omega
        have hrun : Fits (lastStride H.units D.units s) H.size D.size c ↔
            Fits (lastStride H.units D.units s) H.size D.size p :=
          Fits.run (by omega) (by omega) fun q hq hqp =>
            hI.lastStride_eq_one hv (hno _ (by omega) (by omega))
        rw [hread, hfit, hrun, Fits.of_lt (by omega), allReads_bind]
        refine and_congr_right fun hp => ?_
        rw [and_iff_right (hI.compare_inBounds hv hp), lastStride,
          if_pos ((hI.lastAt_iff hv hp).1 hat)]
        by_cases hmatch : MatchAt H D p
        · rw [if_pos ((hI.compare_iff hv p).2 hmatch), if_pos (occursAt_units.2 ⟨hp, hmatch⟩),
            D.length_units, hI.allReads_found hv (by omega)]
          exact ih (H.size - (p + D.size)) (by omega) (hI.found hv) hv rfl
        · have hs' := isSkip_getSkip hI hv
          have hpos := hs.pos
          rw [if_neg (mt (hI.compare_iff hv p).1 hmatch),
            if_neg fun h => hmatch (occursAt_units.1 h).2, allReads_bind,
            and_iff_right ((hI.getSkip_inNeedle hv).imp Read.InNeedle.inBounds), hs'.unique hs]
          have := ih (H.size - (p + s)) (by omega) (hI.setSkip hs) hv rfl
          rwa [Nat.cast_add, ← add_assoc] at this
    · rw [dif_neg hi]
      exact iff_of_true (allReads_done rfl) (.done (by omega))

theorem new_inBounds_iff {s : ℕ} (hD : D.size ≠ 0) (hle : D.size ≤ H.size)
    (hs : IsSkip D.units s) :
    AllReads (Read.InBounds H D) (new H.toSpan D.toSpan) ↔
      Fits (lastStride H.units D.units s) H.size D.size 0 := by
  obtain ⟨v, hv, hI, hnew⟩ := new_eq_search hD hle
  rw [hnew, allReads_bind, Traced.all_read, and_iff_right (Read.inBounds_back.2 hD)]
  exact search_inBounds_iff hI hv hs

end FindView

instance (H D : Text) : DecidablePred (Read.InBounds H D)
  | .haystack a => inferInstanceAs (Decidable (H.first ≤ a ∧ a < H.last))
  | .needle a => inferInstanceAs (Decidable (D.first ≤ a ∧ a < D.last))

/-- **When the search reads only its arguments**: exactly when the needle is not empty and it is
longer than the haystack, has a single unit, or its left-to-right scan of the haystack selects the
position where the needle ends flush with the haystack.  Otherwise the constructor reads before an
empty needle, or the loop reads past the end of the haystack. -/
theorem reads_inBounds_iff (H D : Text) :
    (∀ m, (FindView.new H.toSpan D.toSpan >>= FindView.nexts m).All (Read.InBounds H D)) ↔
      D.units ≠ [] ∧
        (H.size < D.size ∨ D.size = 1 ∨ H.size - D.size ∈ lastScan H.units D.units) := by
  change FindView.AllReads _ _ ↔ _
  by_cases hD : D.size = 0
  · refine iff_of_false (fun h => (Read.inBounds_back (H := H)).1 ?_ hD) fun h =>
      h.1 (D.units_eq_nil_iff.2 hD)
    exact Traced.all_read.1 (Traced.all_bind.1 (FindView.allReads_iff.1 h).1).1
  · have hne := mt D.units_eq_nil_iff.1 hD
    rw [and_iff_right hne]
    by_cases hlt : H.size < D.size
    · refine iff_of_true ?_ (.inl hlt)
      rw [FindView.new, FindView.allReads_bind, Traced.all_read,
        and_iff_right (Read.inBounds_back.2 hD), if_pos hlt]
      exact FindView.allReads_done rfl
    · have hle := not_lt.1 hlt
      obtain ⟨v, hv, hI, -⟩ := FindView.new_eq_search hD hle
      have hs := FindView.isSkip_getSkip hI hv
      have hfits := lastStride_fits_iff (h := H.units) hs hne (by simpa using hle)
      rw [H.length_units, D.length_units] at hfits
      rw [FindView.new_inBounds_iff hD hle hs, hfits, or_iff_right hlt]

/-- The search of `aa` for `ab` reads the unit after the haystack, and the search for an empty
needle the unit before the needle. -/
theorem reads_past_end :
    let H := Text.ofUnits [97, 97] 0 (by decide)
    let D := Text.ofUnits [97, 98] 0 (by decide)
    let E := Text.ofUnits [] 0 (by decide)
    (Read.haystack 2 ∈ (FindView.new H.toSpan D.toSpan).reads ∧
        ¬ (Read.haystack 2).InBounds H D) ∧
      Read.needle (-1) ∈ (FindView.new H.toSpan E.toSpan).reads ∧
        ¬ (Read.needle (-1)).InBounds H E := by
  decide +kernel

end PythonicCpp
