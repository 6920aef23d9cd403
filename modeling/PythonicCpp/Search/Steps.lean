import PythonicCpp.Machine.Runs
import PythonicCpp.Search.Next

/-!
# `next()` step by step

The loops of `FindView.next` are recursions that end by construction.  The machine `FindView.step`
makes the tests of the source one by one, and nothing in its definition makes it stop.

* `computes_next` : the machine carries out the traced `next()`, from every view.
* `Enumerates` : the states that the constructor and any number of calls go through.
* `enumerates_runs`, `enumerates_ret_iff` : from each of them the call under way returns, and those
  that have returned are the views that `nexts` gives.
* `enumeration_ends` : the enumeration ends, after no more offsets than the haystack has room for.
-/

namespace PythonicCpp

open Scan

namespace FindView

/-- The states that the constructor and any number of calls of `next()` go through. -/
inductive Enumerates (H D : Text) : State → Prop
  | start : Enumerates H D (start H.toSpan D.toSpan).val
  | step {s : State} {x : Traced Read State} :
      Enumerates H D s → step s = some x → Enumerates H D x.val
  | call {v : FindView} : Enumerates H D ⟨.ret, v⟩ → Enumerates H D ⟨.entry, v⟩

variable {v : FindView} {H D : Text} {i : ℤ}

/-! ### The machine carries out `next()` -/

theorem step_skipLoop (i : ℤ) (s : ℕ) :
    step ⟨.skipLoop i, v.setSkip s⟩ =
      if s ≤ v.nsize - 1 then some do
        let c ← v.readNeedle (v.nsize - 1 - s)
        pure <|
          if c ≠ v.lastNeedle then ⟨.skipLoop i, v.setSkip (s + 1)⟩ else ⟨.skipped i, v.setSkip s⟩
      else some (pure ⟨.skipped i, v.setSkip s⟩) := rfl

theorem computes_skipLoop (i : ℤ) {s : ℕ} (hs : 0 < s) :
    Computes step ⟨.skipLoop i, v.setSkip s⟩ (v.skipFrom (v.nsize - 1) s hs)
      fun s' => ⟨.skipped i, v.setSkip s'⟩ := by
  induction hm : v.nsize - s generalizing s with
  | zero =>
    rw [skipFrom, dif_neg (by omega)]
    exact .silent ((step_skipLoop i s).trans (if_neg (by omega))) (.pure rfl)
  | succ m ih =>
    rw [skipFrom, dif_pos (by omega)]
    refine .head ((step_skipLoop i s).trans (if_pos (by omega))) ?_
    split_ifs with hc
    · exact ih _ (by omega)
    · exact .pure rfl

theorem computes_getSkip (v : FindView) (i : ℤ) :
    Computes step ⟨.getSkip i, v⟩ v.getSkip fun s => ⟨.skipped i, v.setSkip s⟩ := by
  rw [getSkip]
  split_ifs with h
  · exact .silent (congrArg (some ∘ pure) (if_pos h)) (computes_skipLoop i _)
  · exact .silent (congrArg (some ∘ pure) (if_neg h)) (.pure rfl)

theorem computes_compare (hv : 0 < v.nsize) (i : ℤ) {j : ℕ} (hj : j < v.nsize) :
    Computes step ⟨.compare i j, v⟩ (v.compare i j hj)
      fun b => if b then ⟨.ret, v.found hv i⟩ else ⟨.getSkip i, v⟩ := by
  induction hm : v.nsize - j generalizing j with
  | zero => omega
  | succ m ih =>
    rw [compare]
    refine .head₂ rfl ?_
    split_ifs with hne hend
    · exact .pure rfl
    · exact .pure rfl
    · exact ih _ (by omega)

theorem computes_scan {lo i : ℤ} {hlo : lo ≤ i} {hi : i < v.haystack.last} :
    Computes step ⟨.scan i, v⟩ (v.scanLast lo i hlo hi) fun
      | none => ⟨.ret, v.notFound⟩
      | some i' => ⟨.compare i' 0, v⟩ := by
  induction hm : (v.haystack.last - i).toNat generalizing i with
  | zero => omega
  | succ m ih =>
    rw [scanLast]
    refine .head rfl ?_
    split_ifs with hc hend
    · exact .pure rfl
    · exact ih (by omega)
    · exact .pure rfl

theorem computes_search (hv : 0 < v.nsize) (i : ℤ) :
    Computes step ⟨.outer i, v⟩ (v.search hv i) (⟨.ret, ·⟩) := by
  fun_induction search v hv i with
  | case1 v hv i hi ih =>
    refine .silent (congrArg (some ∘ pure) (if_pos hi)) (.bind computes_scan ?_)
    cases (v.scanLast i i le_rfl hi).val with
    | none => exact .pure rfl
    | some i' =>
      refine .bind (computes_compare hv i' hv) ?_
      split_ifs
      · exact .pure rfl
      · exact .bind (computes_getSkip v i') (.silent rfl (ih i' v.getSkip.val))
  | case2 v hv i hi => exact .silent (congrArg (some ∘ pure) (if_neg hi)) (.pure rfl)

/-- **The machine carries out `next()`**, with its value and its reads, from every view. -/
theorem computes_next (v : FindView) : Computes step ⟨.entry, v⟩ v.next (⟨.ret, ·⟩) := by
  rw [next]
  split_ifs with h
  · exact .silent (congrArg (some ∘ pure) (if_pos h)) (.pure rfl)
  · exact .silent (congrArg (some ∘ pure) (if_neg h)) (computes_search _ _)

/-- From where it calls `next()`, the constructor goes on to its end. -/
theorem runs_new (haystack needle : Span) :
    ∃ rs, Runs step (start haystack needle).val rs ⟨.ret, (new haystack needle).val⟩ ∧
      (start haystack needle).reads ++ rs = (new haystack needle).reads := by
  simp only [start, new, Traced.val_bind]
  split_ifs
  · exact ⟨[], .refl _, rfl⟩
  · exact ⟨[], .refl _, rfl⟩
  · exact ⟨_, computes_next _, rfl⟩

/-! ### Runs of calls -/

theorem val_nexts_succ (m : ℕ) (v : FindView) :
    (v.nexts (m + 1)).val = (v.nexts m).val.next.val := by
  induction m generalizing v with
  | zero => rfl
  | succ m ih => exact ih v.next.val

/-- **Every call ends**: from each state the machine gets to the view after some number of calls. -/
theorem enumerates_runs {s : State} (h : Enumerates H D s) :
    ∃ rs m, Runs step s rs ⟨.ret, ((new H.toSpan D.toSpan).val.nexts m).val⟩ := by
  induction h with
  | start =>
    obtain ⟨rs, hrun, -⟩ := runs_new H.toSpan D.toSpan
    exact ⟨rs, 0, hrun⟩
  | step _ hs ih =>
    obtain ⟨rs, m, hrun⟩ := ih
    obtain ⟨qs, hrest⟩ := hrun.rest rfl hs
    exact ⟨qs, m, hrest⟩
  | @call v _ ih =>
    obtain ⟨rs, m, hrun⟩ := ih
    -- the call before has returned, so this is the end of its run
    obtain rfl : ((new H.toSpan D.toSpan).val.nexts m).val = v :=
      congrArg State.view (hrun.eq_of_halted rfl)
    have hnext := computes_next ((new H.toSpan D.toSpan).val.nexts m).val
    rw [Computes, ← val_nexts_succ] at hnext
    exact ⟨_, m + 1, hnext⟩

theorem enumerates_of_runs {s t : State} {rs : List Read} (h : Enumerates H D s)
    (hrun : Runs step s rs t) : Enumerates H D t :=
  hrun.invariant h fun _ _ h hs => h.step hs

/-- The calls of `nexts` are among the runs. -/
theorem enumerates_nexts (H D : Text) (m : ℕ) :
    Enumerates H D ⟨.ret, ((new H.toSpan D.toSpan).val.nexts m).val⟩ := by
  induction m with
  | zero =>
    obtain ⟨rs, hrun, -⟩ := runs_new H.toSpan D.toSpan
    exact enumerates_of_runs .start hrun
  | succ m ih =>
    rw [val_nexts_succ]
    exact enumerates_of_runs ih.call (computes_next _)

/-- The views that have returned are those after some number of calls. -/
theorem enumerates_ret_iff : Enumerates H D ⟨.ret, v⟩ ↔
    ∃ m, v = ((new H.toSpan D.toSpan).val.nexts m).val := by
  constructor
  · intro h
    obtain ⟨rs, m, hrun⟩ := enumerates_runs h
    exact ⟨m, (congrArg State.view (hrun.eq_of_halted rfl)).symm⟩
  · rintro ⟨m, rfl⟩
    exact enumerates_nexts H D m

end FindView

theorem storageSearch_sparse {H D : Text} (hD : D.units ≠ []) :
    (∀ p ∈ storageSearch H D, p < H.size ∧ MatchAt H D p) ∧
      (storageSearch H D).Pairwise (fun p q => p + D.size ≤ q) ∧
      (storageSearch H D).length ≤ (H.size + D.size - 1) / D.size := by
  have hpos : 0 < D.size := Nat.pos_of_ne_zero (mt D.units_eq_nil_iff.2 hD)
  rcases Nat.lt_or_ge H.size D.size with hlt | hle
  · rw [storageSearch, if_pos (.inl hlt)]
    exact ⟨fun p hp => absurd hp List.not_mem_nil, .nil, Nat.zero_le _⟩
  · have hps := storageSearch_spec hD hle
    refine ⟨fun p hp => (hps.mem hp).2, hps.pairwise, (Nat.le_div_iff_mul_le hpos).2 ?_⟩
    have := hps.length_mul_lt (by omega)
    omega

/-- **The enumeration ends and makes progress**, whatever the storage around the haystack holds.
From every state that the constructor and any calls go through, the call under way returns, and what
has returned is the view after some number of calls: it is at an offset of the list, or at the end
and stays there.  The offsets are copies of the needle that begin in the haystack, at least its size
apart. -/
theorem enumeration_ends (H D : Text) (hD : D.units ≠ []) :
    let view := (FindView.new H.toSpan D.toSpan).val
    (∀ s, FindView.Enumerates H D s →
        ∃ rs m, Runs FindView.step s rs ⟨.ret, (view.nexts m).val⟩) ∧
      (∀ v, FindView.Enumerates H D ⟨.ret, v⟩ ↔ ∃ m, v = (view.nexts m).val) ∧
      (∀ p ∈ view.offsets, p < H.size ∧ MatchAt H D p) ∧
      view.offsets.Pairwise (fun p q => p + D.size ≤ q) ∧
      view.offsets.length ≤ (H.size + D.size - 1) / D.size ∧
      (∀ m (hm : m < view.offsets.length), (view.nexts m).val.foundAt = view.offsets[m]) ∧
      ∀ m, (view.nexts m).val.Done ↔ view.offsets.length ≤ m := by
  intro view
  obtain ⟨hI, hshows⟩ := FindView.new_spec H D
  rw [← FindView.offsets_new] at hshows
  obtain ⟨hmem, hpairs, hlen⟩ := storageSearch_sparse (H := H) hD
  rw [← FindView.offsets_new] at hmem hpairs hlen
  refine ⟨fun s hs => FindView.enumerates_runs hs, fun v => FindView.enumerates_ret_iff, hmem,
    hpairs, hlen, fun m hm => ?_, fun m => ?_⟩
  · have h := (FindView.nexts_spec m hI hshows).2
    rw [List.drop_eq_getElem_cons hm] at h
    exact h.1
  · exact (FindView.nexts_spec m hI hshows).2.done_iff.trans List.drop_eq_nil_iff

theorem enumeration_ends_aba :
    let view := (FindView.new (Text.ofUnits [97, 98, 97] 0 (by decide)).toSpan
      (Text.ofUnits [97] 0 (by decide)).toSpan).val
    view.offsets.length ≤ 3 ∧ ∀ m, 3 ≤ m → (view.nexts m).val.Done := by
  intro view
  obtain ⟨-, -, -, -, hlen, -, hdone⟩ := enumeration_ends (Text.ofUnits [97, 98, 97] 0 (by decide))
    (Text.ofUnits [97] 0 (by decide)) (by decide)
  have hthree : view.offsets.length ≤ 3 := hlen.trans (by decide)
  exact ⟨hthree, fun m hm => (hdone m).2 (hthree.trans hm)⟩

end PythonicCpp
