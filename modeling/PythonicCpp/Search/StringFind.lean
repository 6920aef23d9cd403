import PythonicCpp.Search.Find
import PythonicCpp.Search.Reads

/-!
# `find` of the string class

`FindView` has its loops from `basic_fbstring::find`.  There the position they stop at is the last
one where the needle fits into the haystack; in the view it is the end of the haystack.

* `FbString.find` : the function.
* `FbString.stringFind_first` : it returns the first occurrence from a position on, whatever comes
  after the haystack, and reads only its arguments.
* `FbString.find_eq_stringFind_iff` : when the view finds the same.
-/

namespace PythonicCpp

open Scan

namespace FindView

variable {v : FindView} {H D : Text} {ok : Read → Prop} {i : ℤ}

/-! ### The reads of the loops -/

theorem scanLast_all_of {lo : ℤ} (hlo : lo ≤ i) (hi : i < v.haystack.last)
    (hok : ∀ a, i ≤ a → a < v.haystack.last → ok (.haystack (a + (v.nsize - 1 : ℕ)))) :
    (v.scanLast lo i hlo hi).All ok := by
  induction hm : (v.haystack.last - i).toNat generalizing i with
  | zero => omega
  | succ m ih =>
    rw [scanLast_all]
    refine ⟨hok i le_rfl hi, fun _ hend => ih _ _ (fun a ha => hok a (by omega)) (by omega)⟩

theorem compare_all_of {j : ℕ} (hj : j < v.nsize)
    (hok : ∀ l < v.nsize, ok (.haystack (i + l)) ∧ ok (.needle (v.needle.first + l))) :
    (v.compare i j hj).All ok := by
  induction hm : v.nsize - j generalizing j with
  | zero => omega
  | succ m ih =>
    rw [compare]
    refine Traced.all_bind.2 ⟨Traced.all_read.2 (hok j hj).1,
      Traced.all_bind.2 ⟨Traced.all_read.2 (hok j hj).2, ?_⟩⟩
    split_ifs
    · exact Traced.all_pure _
    · exact Traced.all_pure _
    · exact ih _ (by omega)

/-- **The search reads where it stands**: the units of the haystack that the needle covers at the
positions up to where the search stops, and those of the needle. -/
theorem Inv.search_all (hI : v.Inv H D) (hv : 0 < v.nsize)
    (hneedle : ∀ l < D.size, ok (.needle (D.first + l)))
    (hok : ∀ a, i ≤ a → a < H.last → ∀ l < D.size, ok (.haystack (a + l))) :
    (v.search hv i).All ok := by
  have hsize := hI.nsize
  have hlast : v.haystack.last = H.last := by rw [hI.haystack]
  have hfirst : v.needle.first = D.first := by rw [hI.needle]
  induction hm : (H.last - i).toNat using Nat.strong_induction_on generalizing i v with
  | _ m ih =>
    rw [search]
    split_ifs with hi
    · refine Traced.all_bind.2 ⟨scanLast_all_of _ _ fun a ha hb => hok a ha (by omega) _ (by omega),
        ?_⟩
      cases (v.scanLast i i le_rfl hi).val with
      | none => exact Traced.all_pure _
      | some i' =>
        obtain ⟨i', hle, hlt⟩ := i'
        refine Traced.all_bind.2 ⟨compare_all_of hv fun l hl => ⟨?_, ?_⟩, ?_⟩
        · exact hok i' hle (by omega) l (by omega)
        · rw [hfirst]
          exact hneedle l (by omega)
        · split_ifs
          · exact Traced.all_pure _
          · have hs := isSkip_getSkip hI hv
            have hpos := hs.pos
            refine Traced.all_bind.2 ⟨(hI.getSkip_inNeedle hv).imp ?_, ?_⟩
            · rintro _ ⟨l, hl, rfl⟩
              exact hneedle l hl
            · show (search (v.setSkip v.getSkip.val) hv (i' + (v.getSkip.val : ℕ))).All ok
              exact ih _ (by omega) (hI.setSkip hs) hv (fun a ha => hok a (by omega)) hsize hlast
                hfirst rfl
    · exact Traced.all_pure _

end FindView

namespace FbString

/-- `find(needle, pos, nsize)` of a string.  The search is that of a view of the haystack up to
`iEnd`. -/
def find (haystack needle : Span) (pos : ℕ) : Traced Read ℕ := do
  let size := haystack.size
  let nsize := needle.size
  -- the sum wraps for a large position
  if toSizeT (nsize + pos) > size ∨ toSizeT (nsize + pos) < pos then pure npos
  else if h : nsize = 0 then pure pos
  else
    let nsize_1 := nsize - 1
    let lastNeedle ← .read (.needle (needle.first + nsize_1))
      (needle.storage (needle.first + nsize_1))
    let iEnd := haystack.last - nsize_1
    let v ← FindView.search
      ⟨⟨haystack.storage, haystack.first, iEnd⟩, haystack.first + pos, needle, pos, nsize, 0,
        lastNeedle, fun _ => Nat.pos_of_ne_zero h⟩ (Nat.pos_of_ne_zero h) (haystack.first + pos)
    pure v.foundAt

variable {H D : Text} {pos : ℕ}

/-- Where the needle fits into the haystack from the position on, the search is one of a window. -/
theorem find_eq_search (hD : D.size ≠ 0) (hle : pos + D.size ≤ H.size) :
    ∃ (v : FindView) (hv : 0 < v.nsize),
      v.Inv (H.window 0 (H.size - (D.size - 1)) (Nat.zero_le _) (Nat.sub_le _ _)) D ∧
      find H.toSpan D.toSpan pos = (do
        let _ ← .read (.needle (D.last - 1)) (D.storage (D.last - 1))
        let v ← v.search hv (H.first + pos)
        pure v.foundAt) := by
  have := H.size_lt'
  have := H.last_eq
  have hlast := D.last_eq
  have hsum : toSizeT ((D.size : ℤ) + pos) = D.size + pos := by
    rw [← Nat.cast_add, toSizeT_natCast (by omega)]
  have hback : D.first + (D.size - 1 : ℕ) = D.last - 1 := by omega
  have hpos := Nat.pos_of_ne_zero hD
  have hend : H.first + (H.size - (D.size - 1) : ℕ) = H.last - (D.size - 1 : ℕ) := by omega
  refine ⟨⟨⟨H.storage, H.first, H.last - (D.size - 1 : ℕ)⟩, H.first + pos, D.toSpan, pos, D.size, 0,
    D.storage (D.last - 1), fun _ => hpos⟩, hpos, ⟨?_, rfl, rfl, rfl, .inl rfl⟩, ?_⟩
  · simp [Text.window, hend]
  · rw [find, hsum, if_neg (by omega), dif_neg hD]
    dsimp only
    rw [hback, Traced.read_bind]

/-- Where it does not fit, there is no search. -/
theorem find_eq_npos (hpos : pos < 2 ^ 64) (hlt : H.size < pos + D.size) :
    find H.toSpan D.toSpan pos = pure npos := by
  have := D.size_lt'
  have hguard : toSizeT ((D.size : ℤ) + pos) > H.size ∨ toSizeT ((D.size : ℤ) + pos) < pos := by
    simp only [toSizeT]
    omega
  rw [find, if_pos hguard]

/-- An empty needle is found at once. -/
theorem find_eq_pos (hD : D.size = 0) (hle : pos ≤ H.size) :
    find H.toSpan D.toSpan pos = pure pos := by
  have := H.size_lt'
  have hsum : toSizeT ((D.size : ℤ) + pos) = pos := by
    rw [hD, Nat.cast_zero, zero_add, toSizeT_natCast (by omega)]
  rw [find, hsum, if_neg (by omega), dif_pos hD]

/-- The offsets that a search of the haystack up to `iEnd` can find are the occurrences. -/
theorem matchAt_window_iff (hD : D.size ≠ 0) (hle : D.size ≤ H.size) {p : ℕ} :
    p < (H.window 0 (H.size - (D.size - 1)) (Nat.zero_le _) (Nat.sub_le _ _)).size ∧
        MatchAt (H.window 0 (H.size - (D.size - 1)) (Nat.zero_le _) (Nat.sub_le _ _)) D p ↔
      OccursAt H.units D.units p := by
  have hfirst : (H.window 0 (H.size - (D.size - 1)) (Nat.zero_le _) (Nat.sub_le _ _)).first =
      H.first := by simp [Text.window]
  rw [occursAt_units, Text.size_window, MatchAt, hfirst]
  exact and_congr_left fun _ => by omega

theorem find_search_spec (hD : D.size ≠ 0) (hle : pos + D.size ≤ H.size) :
    (find H.toSpan D.toSpan pos).All (Read.InBounds H D) ∧
      ((find H.toSpan D.toSpan pos).val = npos ↔ ∀ p, pos ≤ p → ¬ OccursAt H.units D.units p) ∧
      ((find H.toSpan D.toSpan pos).val ≠ npos →
        IsLeast {p | pos ≤ p ∧ OccursAt H.units D.units p} (find H.toSpan D.toSpan pos).val) := by
  obtain ⟨v, hv, hI, hfind⟩ := find_eq_search hD hle
  have hmatch : ∀ {p}, _ ↔ OccursAt H.units D.units p := matchAt_window_iff hD (by omega)
  generalize hW : H.window 0 (H.size - (D.size - 1)) (Nat.zero_le _) (Nat.sub_le _ _) = W
    at hI hmatch
  have hfirst : W.first = H.first := by simp [← hW, Text.window]
  have hWlast := W.last_eq
  have hWsize : W.size = H.size - (D.size - 1) := by simp [← hW]
  have hlast := H.last_eq
  have hDlast := D.last_eq
  have hspec := leftmost_spec (P := MatchAt W D) (n := W.size) (c := pos) (Nat.pos_of_ne_zero hD)
  obtain ⟨-, hshows⟩ := FindView.search_spec hI hv hspec
  have hval : (find H.toSpan D.toSpan pos).val = (v.search hv (H.first + pos)).val.foundAt := by
    rw [hfind]
    rfl
  rw [hfirst] at hshows
  refine ⟨?_, ?_⟩
  · rw [hfind]
    refine Traced.all_bind.2 ⟨Traced.all_read.2 (Read.inBounds_back.2 hD), Traced.all_bind.2 ⟨?_,
      Traced.all_pure _⟩⟩
    refine hI.search_all hv (fun l hl => ⟨by omega, by omega⟩) fun a ha hlt l hl => ⟨?_, ?_⟩
    · omega
    · omega
  · rw [hval]
    cases hps : leftmost (MatchAt W D) W.size D.size pos with
    | nil =>
      rw [hps] at hspec hshows
      have hdone : (v.search hv (H.first + pos)).val.foundAt = npos := hshows
      refine ⟨iff_of_true hdone fun p hp hocc => ?_, absurd hdone⟩
      have hp' := hmatch.2 hocc
      exact hspec.eq_nil_iff.1 rfl p hp hp'.1 hp'.2
    | cons p ps =>
      rw [hps] at hspec hshows
      have hfound : (v.search hv (H.first + pos)).val.foundAt = p := hshows.1
      have hne := mt hshows.done_iff.1 (List.cons_ne_nil p ps)
      have hmem := hspec.mem List.mem_cons_self
      have hocc := hmatch.1 hmem.2
      refine ⟨iff_of_false hne fun hno => hno p hmem.1 hocc, fun _ => ?_⟩
      rw [hfound]
      exact ⟨⟨hmem.1, hocc⟩, fun q hq => hspec.isLeast.2 ⟨hq.1, (hmatch.2 hq.2).2⟩⟩

/-- **`find` of a string**: the first occurrence from the position on, `npos` when there is none.
What comes after the haystack does not matter, and is not read. -/
theorem stringFind_first (H D : Text) (hpos : pos < 2 ^ 64) :
    (find H.toSpan D.toSpan pos).All (Read.InBounds H D) ∧
      ((find H.toSpan D.toSpan pos).val = npos ↔ ∀ p, pos ≤ p → ¬ OccursAt H.units D.units p) ∧
      ((find H.toSpan D.toSpan pos).val ≠ npos →
        IsLeast {p | pos ≤ p ∧ OccursAt H.units D.units p} (find H.toSpan D.toSpan pos).val) := by
  have hsize := H.size_lt'
  rcases Nat.lt_or_ge H.size (pos + D.size) with hlt | hle
  · rw [find_eq_npos hpos hlt]
    refine ⟨Traced.all_pure _, iff_of_true rfl fun p hp hocc => ?_, absurd rfl⟩
    have := (occursAt_units.1 hocc).1
    omega
  · by_cases hD : D.size = 0
    · rw [find_eq_pos hD (by omega), Traced.val_pure]
      have hne : pos ≠ npos := by
        rw [npos]
        omega
      have hocc : OccursAt H.units D.units pos := by
        rw [D.units_eq_nil_iff.2 hD]
        exact ⟨by simpa using Nat.le_of_add_right_le hle, rfl⟩
      exact ⟨Traced.all_pure _, iff_of_false hne fun hno => hno pos le_rfl hocc,
        fun _ => ⟨⟨le_rfl, hocc⟩, fun p hp => hp.1⟩⟩
    · exact find_search_spec hD hle

/-- The string `abcab` holds `ab` at `3` from position `1` on. -/
theorem stringFind_first_ab :
    (find (Text.ofUnits [97, 98, 99, 97, 98] 0 (by decide)).toSpan
        (Text.ofUnits [97, 98] 0 (by decide)).toSpan 1).All
      (Read.InBounds (Text.ofUnits [97, 98, 99, 97, 98] 0 (by decide))
        (Text.ofUnits [97, 98] 0 (by decide))) :=
  (stringFind_first _ _ (by decide : 1 < 2 ^ 64)).1

/-! ### The view and the string -/

theorem storageSearch_eq_nil (h : H.size < D.size ∨ D.size = 0) : storageSearch H D = [] := if_pos h

theorem matchAt_drop_iff {start : ℕ} (h : start ≤ H.size) {p : ℕ} :
    MatchAt (H.window start H.size h le_rfl) D p ↔ MatchAt H D (start + p) := by
  rw [MatchAt, MatchAt, Nat.cast_add, ← add_assoc]
  rfl

/-- The view gives the first copy of the needle that begins in what it searches. -/
theorem find_eq_head {start : ℕ} (h : start ≤ H.size) :
    PythonicCpp.find H.toSpan D.toSpan start .rangesEnd =
      (storageSearch (H.window start H.size h le_rfl) D).head?.getD npos := by
  have hshows := (FindView.new_spec (H.window start H.size h le_rfl) D).2
  rw [PythonicCpp.find, finditer, H.slice_rangesEnd h]
  cases hps : storageSearch (H.window start H.size h le_rfl) D with
  | nil =>
    rw [hps] at hshows
    exact if_pos hshows
  | cons p ps =>
    rw [hps] at hshows
    exact (if_neg (mt hshows.done_iff.1 (List.cons_ne_nil p ps))).trans hshows.1

/-- The first copy from a position on is what the string finds iff the string finds anything. -/
theorem find_eq_iff_of_isLeast {start p : ℕ} (hlt : p < H.size)
    (hp : IsLeast {q | start ≤ q ∧ MatchAt H D q} p) :
    (find H.toSpan D.toSpan start).val = p ↔ ∃ q, start ≤ q ∧ OccursAt H.units D.units q := by
  have hsize := H.size_lt'
  have hstart : start ≤ p := hp.1.1
  obtain ⟨-, hnone, hsome⟩ := stringFind_first H D (by omega : start < 2 ^ 64)
  constructor
  · intro heq
    have hne : p ≠ npos := by
      rw [npos]
      omega
    rw [heq] at hsome
    exact ⟨p, (hsome hne).1⟩
  · rintro ⟨q, hq, hocc⟩
    have hleast := hsome fun hnp => hnone.1 hnp q hq hocc
    -- the first copy is not after the first occurrence, so it is within the haystack
    obtain ⟨hle, hfound⟩ := hleast.1
    obtain ⟨hfits, hfound⟩ := occursAt_units.1 hfound
    have hbefore : p ≤ _ := hp.2 ⟨hle, hfound⟩
    exact le_antisymm (hleast.2 ⟨hstart, occursAt_units.2 ⟨by omega, hp.1.2⟩⟩) hbefore

/-- **When the view finds what the string does**: exactly when the needle is not empty and it does
not fit, or it occurs, or no copy of it runs across the end of the haystack. -/
theorem find_eq_stringFind_iff (H D : Text) {start : ℕ} (h : start ≤ H.size) :
    ((find H.toSpan D.toSpan start).val =
        if PythonicCpp.find H.toSpan D.toSpan start .rangesEnd = npos then npos
        else start + PythonicCpp.find H.toSpan D.toSpan start .rangesEnd) ↔
      D.units ≠ [] ∧ (H.size < start + D.size ∨
        (∃ p, start ≤ p ∧ OccursAt H.units D.units p) ∨
        ∀ q, start ≤ q → q < H.size → H.size < q + D.size → ¬ MatchAt H D q) := by
  have hsize := H.size_lt'
  obtain ⟨-, hnone, -⟩ := stringFind_first H D (by omega : start < 2 ^ 64)
  rw [find_eq_head h]
  by_cases hD : D.size = 0
  · have hne : (find H.toSpan D.toSpan start).val ≠ npos := by
      rw [find_eq_pos hD h, Traced.val_pure, npos]
      omega
    rw [storageSearch_eq_nil (.inr hD)]
    exact iff_of_false hne fun hd => hd.1 (D.units_eq_nil_iff.2 hD)
  rw [and_iff_right (mt D.units_eq_nil_iff.1 hD)]
  rcases Nat.lt_or_ge H.size (start + D.size) with hlt | hle
  · rw [find_eq_npos (by omega) hlt, storageSearch_eq_nil (.inl (by rw [Text.size_window]; omega))]
    exact iff_of_true rfl (.inl hlt)
  have hspec := storageSearch_spec (H := H.window start H.size h le_rfl)
    (mt D.units_eq_nil_iff.1 hD) (by rw [Text.size_window]; omega)
  rw [Text.size_window] at hspec
  rw [or_iff_right (by omega)]
  cases hps : storageSearch (H.window start H.size h le_rfl) D with
  | nil =>
    rw [hps] at hspec
    have hno : ∀ q, start ≤ q → q < H.size → ¬ MatchAt H D q := fun q hq hlt hm =>
      hspec.eq_nil_iff.1 rfl (q - start) (Nat.zero_le _) (by omega)
        ((matchAt_drop_iff h).2 (by rwa [Nat.add_sub_cancel' hq]))
    refine iff_of_true (hnone.2 fun p hp hocc => ?_) (.inr fun q hq hlt _ => hno q hq hlt)
    have := occursAt_units.1 hocc
    exact hno p hp (by omega) this.2
  | cons p ps =>
    rw [hps] at hspec
    have hlt := (hspec.mem List.mem_cons_self).2.1
    have hleast : IsLeast {q | start ≤ q ∧ MatchAt H D q} (start + p) := by
      obtain ⟨⟨-, hm⟩, hleast⟩ := hspec.isLeast
      refine ⟨⟨Nat.le_add_right _ _, (matchAt_drop_iff h).1 hm⟩, fun q hq => ?_⟩
      have : p ≤ q - start := hleast ⟨Nat.zero_le _,
        (matchAt_drop_iff h).2 (by rw [Nat.add_sub_cancel' hq.1]; exact hq.2)⟩
      have := hq.1
      omega
    have hne : p ≠ npos := by
      rw [npos]
      omega
    rw [List.head?_cons, Option.getD_some, if_neg hne,
      find_eq_iff_of_isLeast (by omega) hleast]
    -- when the needle does not occur, its first copy runs across the end
    refine (or_iff_left_of_imp fun hno => ?_).symm
    by_contra hocc
    refine hno (start + p) (Nat.le_add_right _ _) (by omega) ?_ hleast.1.2
    exact not_le.1 fun hle => hocc ⟨start + p, hleast.1.1, occursAt_units.2 ⟨hle, hleast.1.2⟩⟩

/-- In `abcab` both find the `ab` at `3`. -/
theorem find_eq_stringFind_ab :
    (find (Text.ofUnits [97, 98, 99, 97, 98] 0 (by decide)).toSpan
        (Text.ofUnits [97, 98] 0 (by decide)).toSpan 1).val =
      if PythonicCpp.find (Text.ofUnits [97, 98, 99, 97, 98] 0 (by decide)).toSpan
          (Text.ofUnits [97, 98] 0 (by decide)).toSpan 1 .rangesEnd = npos then npos
      else 1 + PythonicCpp.find (Text.ofUnits [97, 98, 99, 97, 98] 0 (by decide)).toSpan
        (Text.ofUnits [97, 98] 0 (by decide)).toSpan 1 .rangesEnd :=
  (find_eq_stringFind_iff (Text.ofUnits [97, 98, 99, 97, 98] 0 (by decide))
    (Text.ofUnits [97, 98] 0 (by decide)) (by decide)).2
    ⟨by decide, .inr (.inl ⟨3, by decide, by decide⟩)⟩

end FbString

end PythonicCpp
