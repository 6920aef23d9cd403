import PythonicCpp.Edit.Sub

/-!
# The positions of `sub`

`sub` keeps the end of the last match in `last_pos`.  The type of `last_pos` is that of the literal
it starts from, `int`; it is assigned sums of `size_t`, and subtracted from values of `size_t`.

* `SubEvent.Exact`, `ExactEvents` : no conversion and no difference changes a value.
* `subRun_events` : what `sub` does with `last_pos` does not depend on the callback.
* `sub_exact_iff` : this is exact exactly when every match ends below `2 ^ 31`.
-/

namespace PythonicCpp

open Scan

namespace SubEvent

/-- Nothing changes a value: `append` gets the units of the haystack from `last_pos` to `stop`, and
`last_pos` holds the sum it is assigned. -/
def Exact (haystack : Span) : SubEvent → Prop
  | append lastPos converted stop address count =>
    (converted : ℤ) = lastPos ∧ lastPos ≤ stop ∧ stop ≤ haystack.size ∧
      address = haystack.first + lastPos ∧ (count : ℤ) = stop - lastPos
  | assign pos needleLen sum lastPos => sum = pos + needleLen ∧ lastPos = sum

/-- `last_pos` and `stop` where the event is an `append`. -/
def ends : SubEvent → Option (ℤ × ℕ)
  | append lastPos _ stop _ _ => some (lastPos, stop)
  | assign _ _ _ _ => none

end SubEvent

/-- In the events of `sub` from offset `c` on, with matches at `ps`, nothing changes a value.  At
each `append`, `last_pos` is `c` or the end of the match before, and the units appended end at the
next match or at the end of the haystack. -/
structure ExactEvents (haystack : Span) (needleLen c : ℕ) (ps : List ℕ) (events : List SubEvent) :
    Prop where
  each : ∀ e ∈ events, e.Exact haystack
  ends : events.filterMap SubEvent.ends =
    ((c :: ps.map (· + needleLen)).map fun e : ℕ => (e : ℤ)).zip (ps ++ [haystack.size])

/-- What `sub` does with `last_pos`, from the value `c`, for matches at `ps`. -/
def subEvents (haystack : Span) (needleLen : ℕ) : ℤ → List ℕ → List SubEvent
  | c, [] => (subAppend haystack haystack.size ⟨[], c, []⟩).events
  | c, pos :: ps =>
    let state := subAssign pos needleLen (subAppend haystack pos ⟨[], c, []⟩)
    state.events ++ subEvents haystack needleLen state.lastPos ps

variable {H D : Text} {k : ℕ} {ps : List ℕ} {m : Type → Type} [Monad m] [LawfulMonad m]

/-! ### Every run -/

/-- The loop does with `last_pos` what `subEvents` tells, whatever the callback does. -/
theorem foldlM_events (repl : ℕ → m Span) (haystack : Span) (result : List CodeUnit) (c : ℤ)
    (events : List SubEvent) (ps : List ℕ) :
    (do
      let state ← ps.foldlM (subStep haystack k repl) ⟨result, c, events⟩
      pure (subAppend haystack haystack.size state)) =
      (do
        let state ← ps.foldlM (subStep haystack k repl) ⟨result, c, events⟩
        pure { subAppend haystack haystack.size state with
          events := events ++ subEvents haystack k c ps }) := by
  induction ps generalizing result c events with
  | nil => simp only [List.foldlM_nil, pure_bind, subEvents, subAppend, List.nil_append]
  | cons p ps ih =>
    simp only [List.foldlM_cons, subStep, bind_assoc, pure_bind]
    refine bind_congr fun replaced => ?_
    simp only [subEvents, subAppend, subAssign, List.nil_append, List.append_assoc] at ih ⊢
    rw [ih]
    simp only [List.append_assoc]

/-- **What `sub` does with `last_pos`** depends on the matches alone. -/
theorem subRun_events (haystack needle : Span) (repl : ℕ → m Span) :
    subRun haystack needle repl =
      (do
        let state ← subRun haystack needle repl
        pure { state with
          events := subEvents haystack needle.size 0
            (finditer haystack needle 0 .rangesEnd).val.offsets }) := by
  have hloop := foldlM_events (k := needle.size) repl haystack [] 0 []
    (finditer haystack needle 0 .rangesEnd).val.offsets
  rw [List.nil_append] at hloop
  simpa only [subRun, bind_assoc, pure_bind] using hloop

/-! ### The loop -/

/-- `last_pos` and the units appended, from an offset that `last_pos` holds. -/
theorem exact_append {c stop : ℕ} (hle : c ≤ stop) (hstop : stop ≤ H.size) :
    SubEvent.Exact H.toSpan
      (.append c (toSizeT c) stop (H.first + c) (toSizeT (stop - toSizeT c))) := by
  have := H.size_lt'
  refine ⟨?_, by exact_mod_cast hle, hstop, rfl, ?_⟩
  · rw [toSizeT_natCast (by omega)]
  · rw [toSizeT_sub_toSizeT, toSizeT_sub hle (by omega), Nat.cast_sub hle]

/-- The sum that `last_pos` is assigned. -/
theorem exact_assign {haystack : Span} {p : ℕ} (h : p + k < 2 ^ 31) :
    SubEvent.Exact haystack (.assign p k (toSizeT (p + k)) (toInt (toSizeT (p + k)))) := by
  have hsize : toSizeT ((p : ℤ) + k) = p + k := by rw [← Nat.cast_add, toSizeT_natCast (by omega)]
  refine ⟨hsize, ?_⟩
  rw [toInt_toSizeT_add h, hsize]

theorem subEvents_cons (haystack : Span) (c : ℤ) (p : ℕ) (ps : List ℕ) :
    subEvents haystack k c (p :: ps) =
      .append c (toSizeT c) p (haystack.first + c) (toSizeT (p - toSizeT c)) ::
        .assign p k (toSizeT (p + k)) (toInt (toSizeT (p + k))) ::
          subEvents haystack k (toInt (toSizeT (p + k))) ps := by
  simp only [subEvents, subAppend, subAssign, List.nil_append, List.cons_append]

/-- **The loop is exact** where every match ends below `2 ^ 31`. -/
theorem exactEvents {P : ℕ → Prop} {c : ℕ} (hps : Leftmost P H.size k c ps)
    (hP : ∀ q, P q → q + k ≤ H.size) (hc : c ≤ H.size) (h : ∀ p ∈ ps, p + k < 2 ^ 31) :
    ExactEvents H.toSpan k c ps (subEvents H.toSpan k c ps) := by
  induction hps with
  | @nil c _ =>
    refine ⟨fun e he => ?_, rfl⟩
    obtain rfl := List.mem_singleton.1 he
    exact exact_append hc le_rfl
  | @cons c p ps hcp hpn hp _ _ ih =>
    have hsum := h p List.mem_cons_self
    obtain ⟨heach, hends⟩ := ih (hP p hp) fun q hq => h q (List.mem_cons_of_mem p hq)
    rw [subEvents_cons, toInt_toSizeT_add hsum]
    refine ⟨fun e he => ?_, congrArg (((c : ℤ), p) :: ·) hends⟩
    rcases List.mem_cons.1 he with rfl | he
    · exact exact_append hcp hpn.le
    rcases List.mem_cons.1 he with rfl | he
    · rw [← toInt_toSizeT_add hsum]
      exact exact_assign hsum
    · exact heach e he

/-- The sum that `last_pos` is assigned for a match. -/
theorem assign_mem {c : ℤ} {p : ℕ} {haystack : Span} (hp : p ∈ ps) :
    .assign p k (toSizeT (p + k)) (toInt (toSizeT (p + k))) ∈ subEvents haystack k c ps := by
  induction ps generalizing c with
  | nil => cases hp
  | cons q ps ih =>
    rw [subEvents_cons]
    rcases List.mem_cons.1 hp with rfl | hp
    · exact List.mem_cons_of_mem _ List.mem_cons_self
    · exact List.mem_cons_of_mem _ (List.mem_cons_of_mem _ (ih hp))

/-- **When no conversion and no difference in `sub` changes a value**: exactly when every occurrence
that is replaced ends below `2 ^ 31`.  Every run does with `last_pos` what a run with a callback
without effects does. -/
theorem sub_exact_iff (H D : Text) (hD : D.units ≠ []) (hnext : H.next ∉ D.units) :
    let events := (Id.run (subRun H.toSpan D.toSpan fun _ => pure D.toSpan)).events
    (∀ {m : Type → Type} [Monad m] [LawfulMonad m] (repl : ℕ → m Span),
        subRun H.toSpan D.toSpan repl =
          (do
            let state ← subRun H.toSpan D.toSpan repl
            pure { state with events := events })) ∧
      (ExactEvents H.toSpan D.size 0 (plainSearch H.units D.units) events ↔
        ∀ p ∈ plainSearch H.units D.units, p + D.size < 2 ^ 31) := by
  intro events
  have hevents : events = subEvents H.toSpan D.size 0 (plainSearch H.units D.units) := by
    rw [← finditer_offsets hD hnext]
    exact congrArg (fun run => (Id.run run).events) (subRun_events H.toSpan D.toSpan _)
  have hspec := plainSearch_spec (h := H.units) hD
  rw [H.length_units, D.length_units] at hspec
  rw [hevents]
  refine ⟨fun repl => ?_, fun h p hp => ?_,
    exactEvents hspec (fun q hq => by simpa using hq.add_le) (Nat.zero_le _)⟩
  · rw [← finditer_offsets hD hnext]
    exact subRun_events H.toSpan D.toSpan repl
  · obtain ⟨hsum, hlast⟩ := h.each _ (assign_mem hp)
    have hlt : toInt (toSizeT ((p : ℤ) + D.size)) < 2 ^ 31 := Int.bmod_lt (by decide)
    omega

theorem sub_exact_dash :
    let H := Text.ofUnits [97, 45, 98] 0 (by decide)
    let D := Text.ofUnits [45] 0 (by decide)
    ExactEvents H.toSpan D.size 0 [1]
      (Id.run (subRun H.toSpan D.toSpan fun _ => pure D.toSpan)).events := by
  intro H D
  exact (sub_exact_iff H D (by decide) (by decide)).2.2 (by decide)

/-- A text of `2 ^ 31` units, all of them `a` but the last one, which is `-`. -/
def lateText : Text where
  storage a := if a = 2 ^ 31 - 1 then 45 else 97
  first := 0
  last := 2 ^ 31
  first_le := by decide
  size_lt := by decide

/-- The only match is at the end of `lateText`.  It ends at `2 ^ 31`, which `last_pos` does not
hold: the last `append` gets `2 ^ 32` units from an address `2 ^ 31` before the haystack. -/
theorem sub_past_int :
    let D := Text.ofUnits [45] 0 (by decide)
    let ps := (finditer lateText.toSpan D.toSpan 0 .rangesEnd).val.offsets
    let events := (Id.run (subRun lateText.toSpan D.toSpan fun _ => pure D.toSpan)).events
    ps = [2 ^ 31 - 1] ∧
      .append (-2 ^ 31) (2 ^ 64 - 2 ^ 31) (2 ^ 31) (-2 ^ 31) (2 ^ 32) ∈ events ∧
      ¬ ExactEvents lateText.toSpan D.size 0 ps events := by
  intro D ps events
  have hsize : lateText.size = 2 ^ 31 := by
    have h : (lateText.size : ℤ) = 2 ^ 31 - 0 := lateText.coe_size
    omega
  have hunits : D.units = [45] := Text.units_ofUnits _
  have hone : D.size = 1 := Text.size_ofUnits _
  have hD : D.units ≠ [] := by simp [hunits]
  have hmatch : ∀ q : ℕ, MatchAt lateText D q ↔ q = 2 ^ 31 - 1 := fun q => by
    have hq : ((0 : ℤ) + q = 2 ^ 31 - 1) ↔ q = 2 ^ 31 - 1 := by omega
    rw [MatchAt, hone, hunits, block_succ, block_zero, ← hq]
    simp [lateText]
  have hps : ps = [2 ^ 31 - 1] := by
    have h := storageSearch_spec (H := lateText) hD (by omega)
    rw [hsize, hone] at h
    change (finditer lateText.toSpan D.toSpan 0 .rangesEnd).val.offsets = _
    rw [finditer_all, FindView.offsets_new]
    refine h.unique (.cons (by decide) (by decide) ((hmatch _).2 rfl) (fun q _ hq hm => ?_)
      (.nil fun q hq hqn => by omega))
    have := (hmatch q).1 hm
    omega
  have hevents : events = subEvents lateText.toSpan 1 0 [2 ^ 31 - 1] := by
    rw [← hps, ← hone]
    exact congrArg (fun run => (Id.run run).events) (subRun_events lateText.toSpan D.toSpan _)
  have hlast : .append (-2 ^ 31) (2 ^ 64 - 2 ^ 31) (2 ^ 31) (-2 ^ 31) (2 ^ 32) ∈ events := by
    rw [hevents]
    decide
  refine ⟨hps, hlast, fun h => ?_⟩
  exact absurd (h.each _ hlast).1 (by decide)

end PythonicCpp
