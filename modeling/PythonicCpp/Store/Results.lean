import PythonicCpp.Store.Functions
import PythonicCpp.Store.Methods

/-!
# The results of the library

What the functions build in their local strings is what they compute on texts.

* `Appends s₀ x l a` : the action appends the units `l` to a string that has begun as the one of
  `s₀`.
* `Returns x h l n` : the local string that `x` has made at its return statement is a new one, with
  the units `l`, for which memory has been asked for once at most.
* `subIn_spec`, `centerIn_spec`, `capitalizeIn_spec`, `expandtabsIn_spec` : the functions.
-/

namespace PythonicCpp

namespace FbString

open Scan

/-- The action has the value `a`, and appends the units `l` to the string that has become of the one
of `s₀`. -/
def Appends {α : Type} (s₀ : Self) (x : Method α) (l : List Cell) (a : α) : Prop :=
  ∀ t u, s₀.Becomes u t → u.length + l.length + sizeofRefCounted < 2 ^ 64 →
    Ends x t (fun r t' => r = a ∧ s₀.Becomes (u ++ l) t' ∧ t.Grows (u.length + l.length) t')
      fun t' => ∃ v, s₀.Becomes v t'

variable {s₀ s t : Self} {h : Heap Cell} {p begin : Ptr} {l l' u v : List Cell} {α β : Type}
  {a : α} {b : β} {n k off : ℕ} {x : Method α} {f : α → Method β} {H D : Text}

/-! ### Pointers -/

/-- A pointer outside of the string stays valid, whatever is done to the string. -/
theorem Ptr.Outside.becomes (hp : p.Outside s l) (hbec : s.Becomes v t) : p.Outside t l := by
  cases p with
  | units l' => exact hp
  | inPlace off => exact hp.elim
  | block q off =>
    obtain ⟨hheld, b, hb, hlen, htake⟩ := hp
    have hzero : s.this.held.count q = 0 := List.count_eq_zero_of_not_mem hheld
    obtain ⟨b', hb', hcells, -⟩ := hbec.keeps.frame q b hb (hzero ▸ b.count_pos)
    refine ⟨fun hmem => ?_, b', hb', by rwa [hcells], by rwa [hcells]⟩
    rcases hbec.moved q hmem with hold | hnone
    · exact hheld hold
    · rw [Heap.count_of_some hb] at hnone
      exact absurd b.count_pos (by omega)

/-- Some of the units. -/
theorem Ptr.Outside.add (hp : p.Outside s l) (hle : off + n ≤ l.length) :
    (p.add off).Outside s ((l.drop off).take n) := by
  have hlen : ((l.drop off).take n).length = n := by
    rw [List.length_take_of_le]
    rw [List.length_drop]
    omega
  cases p with
  | units l' =>
    obtain ⟨rest, rfl⟩ := hp
    rw [Ptr.add, Ptr.Outside, List.drop_append_of_le_length (by omega)]
    exact (List.take_prefix _ _).trans (List.prefix_append _ _)
  | inPlace off' => exact hp.elim
  | block q off' =>
    obtain ⟨hheld, b, hb, hblock, htake⟩ := hp
    refine ⟨hheld, b, hb, by rw [hlen]; omega, ?_⟩
    rw [hlen, ← List.drop_drop, ← htake, List.drop_take, List.take_take, Nat.min_eq_left]
    omega

/-! ### Appending -/

theorem appends_pure (s₀ : Self) (a : α) : Appends s₀ (pure a) [] a := by
  intro t u hbec _
  rw [ends_pure, List.append_nil]
  exact ⟨rfl, hbec, .refl t _⟩

/-- One action after another. -/
theorem Appends.bind (hx : Appends s₀ x l a) (hf : Appends s₀ (f a) l' b) :
    Appends s₀ (x >>= f) (l ++ l') b := by
  intro t u hbec hn
  rw [List.length_append] at hn
  refine (hx t u hbec (by omega)).bind ?_
  rintro _ t' ⟨rfl, hbec', hgrows⟩
  refine (hf t' (u ++ l) hbec' (by rw [List.length_append]; omega)).imp ?_
  rintro r t'' ⟨rfl, hbec'', hgrows'⟩
  rw [List.length_append, Nat.add_assoc, ← List.length_append] at hgrows'
  rw [List.append_assoc] at hbec''
  exact ⟨rfl, hbec'', (hgrows.mono (by rw [List.length_append]; omega)).trans hgrows'⟩

/-- An action without units to append. -/
theorem Appends.bind_left (hx : Appends s₀ x [] a) (hf : Appends s₀ (f a) l b) :
    Appends s₀ (x >>= f) l b := hx.bind hf

theorem appends_check {q : Prop} [Decidable q] (hq : q) : Appends s₀ (check q) [] () := by
  intro t u hbec _
  rw [ends_check, List.append_nil]
  exact ⟨hq, rfl, hbec, .refl t _⟩

theorem appends_plus (s₀ : Self) (p : Ptr) (k : ℕ) : Appends s₀ (p.plus k) [] (p.add k) :=
  (appends_check (Int.natCast_nonneg k)).bind_left (appends_pure s₀ _)

/-- Units that are outside. -/
theorem appends_append (hp : p.Outside s₀ l) : Appends s₀ (append p l.length) l () := by
  intro t u hbec hn
  refine (append_spec hbec.shows (.inl (hp.becomes hbec)) hn).mono ?_ ?_
  · rintro _ t' ⟨hbec', hgrows⟩
    exact ⟨rfl, hbec.trans hbec', hgrows⟩
  · rintro _ rfl
    exact ⟨u, hbec.trans hbec.shows.refused⟩

theorem appends_pushBack (s₀ : Self) (c : CodeUnit) : Appends s₀ (pushBack c) [some c] () := by
  intro t u hbec hn
  refine (pushBack_spec hbec.shows hn c).mono ?_ ?_
  · rintro _ t' ⟨hbec', hgrows⟩
    exact ⟨rfl, hbec.trans hbec', hgrows⟩
  · rintro _ rfl
    exact ⟨u, hbec.trans hbec.shows.refused⟩

/-- A loop. -/
theorem appends_forTurns {body : Method Unit} (hbody : Appends s₀ body l ()) {i : ℕ}
    (hn : i + n < 2 ^ 31) : Appends s₀ (forTurns body n i) (List.replicate n l).flatten () := by
  induction n generalizing i with
  | zero => exact appends_pure s₀ ()
  | succ n ih =>
    rw [forTurns, List.replicate_succ, List.flatten_cons]
    refine hbody.bind ((appends_check ?_).bind_left (ih ?_))
    · omega
    · omega

/-! ### Results -/

theorem shows_reset (h : Heap Cell) : Self.Shows ⟨h, reset⟩ [] := smallShows_reset

/-- The action ends with a new string of the units `l`, which is what a function has in its local
variable at the return statement, or throws and leaves nothing behind.  Where `n` units are enough
for the string, it asks for memory once. -/
def Returns (x : Mem Core) (h : Heap Cell) (l : List CodeUnit) (n : ℕ) : Prop :=
  Ends x h (fun c h' => Arises h (l.map some) h' c ∧ (l.length ≤ n → h.Within 1 h'))
    fun h' => Keeps h [] h' []

/-- **A function that builds its result in a local string** gets to its return statement, or throws
and leaves nothing behind. -/
theorem withResult_spec {body : Method Unit} {r : List CodeUnit}
    (hbody : Ends body ⟨h, reset⟩
      (fun _ t => Self.Becomes ⟨h, reset⟩ (r.map some) t ∧ (r.length ≤ n → h.Within 1 t.heap))
      fun t => ∃ v, Self.Becomes ⟨h, reset⟩ v t) :
    Returns (withResult body) h r n := by
  rw [Returns, withResult, ends_zoom, ends_unwind, ends_bind]
  refine hbody.mono ?_ ?_
  · rintro _ t ⟨hbec, hwithin⟩
    rw [ends_bind, ends_get, ends_pure]
    refine ⟨⟨hbec.keeps, hbec.shows, fun a ha => ?_⟩, hwithin⟩
    exact (hbec.moved a ha).resolve_left List.not_mem_nil
  · rintro t ⟨v, hbec⟩
    rw [ends_bind, ends_get, ends_onHeap]
    refine (destroy_spec hbec.shows).imp ?_
    intro _ h' hk
    exact hbec.keeps.trans hk

/-- Room is made first. -/
theorem ends_reserve_appends {rest : Method Unit} {r : List CodeUnit}
    (hn : n + sizeofRefCounted < 2 ^ 64) (hrest : Appends ⟨h, reset⟩ rest (r.map some) ())
    (hr : r.length + sizeofRefCounted < 2 ^ 64) :
    Ends (do
      reserve n
      rest) ⟨h, reset⟩
      (fun _ t => Self.Becomes ⟨h, reset⟩ (r.map some) t ∧ (r.length ≤ n → h.Within 1 t.heap))
      fun t => ∃ v, Self.Becomes ⟨h, reset⟩ v t := by
  rw [ends_bind]
  refine (ends_reserve (shows_reset h) hn).mono ?_ ?_
  · rintro _ t ⟨hbec, hroom, hwithin⟩
    refine (hrest t [] hbec ?_).imp ?_
    · rwa [List.length_nil, Nat.zero_add, List.length_map]
    · rintro _ t' ⟨-, hbec', hgrows⟩
      rw [List.length_nil, Nat.zero_add, List.length_map] at hgrows
      refine ⟨hbec', fun hle => ?_⟩
      have hnext := (hgrows.of_room (hle.trans hroom)).1
      unfold Heap.Within
      rwa [hnext]
  · rintro _ rfl
    exact ⟨[], (shows_reset h).refused⟩

/-- In the heap, the pointer points to the units. -/
def Ptr.Reads (h : Heap Cell) (l : List CodeUnit) (p : Ptr) : Prop :=
  p.Outside ⟨h, reset⟩ (l.map some)

/-- A text in memory that no string owns. -/
theorem reads_ofUnits (h : Heap Cell) {w : List CodeUnit} (x : CodeUnit) (hw : w.length < 2 ^ 63) :
    (Ptr.units (w.map some)).Reads h (Text.ofUnits w x hw).units := by
  rw [Text.units_ofUnits]
  exact List.prefix_refl _

/-! ### `sub` -/

/-- What `sub` copies of the haystack. -/
theorem appends_between (hbegin : begin.Reads h H.units) {i j : ℕ} (hij : i ≤ j)
    (hj : j ≤ H.size) :
    Appends ⟨h, reset⟩ (append (begin.add i) (toSizeT ((j : ℤ) - i)))
      (((H.units.drop i).take (j - i)).map some) () := by
  have := H.size_lt'
  have hsize := toSizeT_sub hij (by omega)
  have hlen : (((H.units.drop i).take (j - i)).map some : List Cell).length = j - i := by
    rw [List.length_map, List.length_take_of_le]
    rw [List.length_drop, H.length_units]
    omega
  have hpart : (begin.add i).Outside ⟨h, reset⟩ (((H.units.map some).drop i).take (j - i)) :=
    hbegin.add (by
      rw [List.length_map, H.length_units]
      omega)
  rw [← List.map_drop, ← List.map_take] at hpart
  have happend := appends_append hpart
  rw [hsize]
  rwa [hlen] at happend

/-- The loop of `sub`, and what comes after it. -/
theorem appends_subTurns {P : ℕ → Prop} {c : ℕ} {ps : List ℕ} {repl : ℕ → Method (Ptr × ℕ)}
    {q : ℕ → Ptr × ℕ} {R : ℕ → List CodeUnit} (hn : H.size < 2 ^ 31)
    (hps : Leftmost P H.size D.size c ps) (hP : ∀ pos, P pos → pos + D.size ≤ H.size)
    (hc : c ≤ H.size) (hbegin : begin.Reads h H.units)
    (hrepl : ∀ pos ∈ ps, Appends ⟨h, reset⟩ (repl pos) [] (q pos) ∧
      (q pos).1.Reads h (R pos) ∧ (q pos).2 = (R pos).length) :
    Appends ⟨h, reset⟩ (do
      let lastPos ← ps.foldlM (subTurn D.size begin repl) (c : ℤ)
      append (← begin.plus lastPos) (toSizeT ((H.size : ℤ) - lastPos)))
      ((splice H.units D.size c (ps.map fun pos => (pos, R pos))).map some) () := by
  induction hps with
  | @nil c _ =>
    have hrest := appends_between hbegin hc le_rfl
    rw [List.take_of_length_le (by simp)] at hrest
    simp only [List.foldlM_nil, pure_bind, List.map_nil, splice]
    exact (appends_plus _ begin c).bind_left hrest
  | @cons c pos ps hcp _ hpos _ _ ih =>
    have hend := hP pos hpos
    obtain ⟨hcall, hreads, hsize⟩ := hrepl pos List.mem_cons_self
    have hrest := ih hend fun pos' hpos' => hrepl pos' (List.mem_cons_of_mem pos hpos')
    have hlast := toInt_toSizeT_add (by omega : pos + D.size < 2 ^ 31)
    have hbetween := appends_between hbegin hcp (by omega : pos ≤ H.size)
    have hreplaced := appends_append hreads
    rw [List.length_map, ← hsize] at hreplaced
    simp only [List.foldlM_cons, List.map_cons, splice, List.map_append, subTurn, bind_assoc,
      pure_bind, hlast, List.append_assoc]
    exact (appends_plus _ begin c).bind_left <|
      hbetween.bind <| hcall.bind_left <| hreplaced.bind hrest

/-- `sub` on the heap. -/
theorem subIn_spec {stored storedNeedle : Span} {repl : ℕ → Method (Ptr × ℕ)} {q : ℕ → Ptr × ℕ}
    {R : ℕ → List CodeUnit} {r : List CodeUnit} (hD : D.units ≠ []) (hn : H.size < 2 ^ 31)
    (hoffsets : (finditer H.toSpan D.toSpan 0 .rangesEnd).val.offsets =
      plainSearch H.units D.units)
    (hreads : FindView.ReadsWithin stored storedNeedle
      (finditer H.toSpan D.toSpan 0 .rangesEnd)) (hbegin : begin.Reads h H.units)
    (hrepl : ∀ pos ∈ plainSearch H.units D.units, Appends ⟨h, reset⟩ (repl pos) [] (q pos) ∧
      (q pos).1.Reads h (R pos) ∧ (q pos).2 = (R pos).length)
    (hr : r = splice H.units D.size 0 ((plainSearch H.units D.units).map fun pos => (pos, R pos)))
    (hlen : r.length + sizeofRefCounted < 2 ^ 64) :
    Returns (subIn H.toSpan D.toSpan stored storedNeedle begin repl) h r H.size := by
  have hps := plainSearch_spec (h := H.units) hD
  rw [H.length_units, D.length_units] at hps
  have hbody := appends_subTurns hn hps (fun pos hpos => by simpa using hpos.add_le)
    (Nat.zero_le _) hbegin hrepl
  rw [← hr, ← hoffsets] at hbody
  replace hbody := (appends_check hreads).bind_left (f := fun _ => _) hbody
  have hspec := ends_reserve_appends (n := H.size) (by simp only [sizeofRefCounted]; omega) hbody
    hlen
  rw [subIn]
  exact withResult_spec hspec

/-- **`sub` asks for memory once** when its result is not longer than the haystack.  Whatever
happens, it leaves nothing but the result behind. -/
theorem sub_asks_once (R : ℕ → Text) {stored storedNeedle : Span} {repl : ℕ → Method (Ptr × ℕ)}
    (hD : D.units ≠ []) (hnext : H.next ∉ D.units) (hn : H.size < 2 ^ 31)
    (hreads : FindView.ReadsWithin stored storedNeedle
      (finditer H.toSpan D.toSpan 0 .rangesEnd)) (hbegin : begin.Reads h H.units)
    (hrepl : ∀ pos, OccursAt H.units D.units pos → ∃ p : Ptr,
      Appends ⟨h, reset⟩ (repl pos) [] (p, (R pos).size) ∧ p.Reads h (R pos).units)
    (hlen : (Id.run (sub H.toSpan D.toSpan fun pos => pure (R pos).toSpan)).length +
      sizeofRefCounted < 2 ^ 64) :
    Returns (subIn H.toSpan D.toSpan stored storedNeedle begin repl) h
      (Id.run (sub H.toSpan D.toSpan fun pos => pure (R pos).toSpan)) H.size := by
  have : Nonempty Ptr := ⟨.units []⟩
  choose! p hp using hrepl
  refine subIn_spec (q := fun pos => (p pos, (R pos).size)) hD hn (finditer_offsets hD hnext) hreads
    hbegin (fun pos hpos => ?_) (sub_pure hD hnext hn fun pos => (R pos).toSpan) hlen
  obtain ⟨hcall, hreads⟩ := hp pos (mem_plainSearch hD hpos)
  exact ⟨hcall, hreads, (Text.length_units _).symm⟩

/-- A text of 30 units, the last of which is replaced. -/
theorem sub_asks_once_last :
    let l : List CodeUnit := List.replicate 29 104 ++ [108]
    let H := Text.ofUnits l 0 (by decide)
    Returns (subIn H.toSpan (Text.ofUnits [108] 0 (by decide)).toSpan ⟨H.storage, 0, 31⟩
      ⟨ofList [108] 0, 0, 2⟩ (.units (l.map some))
      fun _ => pure (.units ([95].map some), 1)) Heap.empty (List.replicate 29 104 ++ [95]) 30 := by
  intro l H
  have hr : Id.run (sub H.toSpan (Text.ofUnits [108] 0 (by decide)).toSpan fun _ =>
      pure (Text.ofUnits [95] 0 (by decide)).toSpan) = List.replicate 29 104 ++ [95] := by
    decide +kernel
  rw [← hr]
  exact sub_asks_once (fun _ => Text.ofUnits [95] 0 (by decide)) (by decide) (by decide) (by decide)
    (by decide +kernel) (reads_ofUnits _ (w := l) _ (by decide))
    (fun _ _ => ⟨_, appends_pure _ _, reads_ofUnits _ (w := [95]) _ (by decide)⟩)
    (by decide +kernel)

/-! ### `center` -/

/-- A loop that has come to its end has counted in an `int`. -/
theorem lt_of_forInt_val {γ : Type} {body : γ → γ} {r r' : γ}
    (hval : (forInt n body 0 r).run.val = some r') : n < 2 ^ 31 := by
  by_contra hlt
  rw [forInt_eq_failure (not_lt.1 hlt) (by decide)] at hval
  cases hval

theorem centerLoops_val {P : Text} {tail : CodeUnit} {counts : CenterCounts} {r : List CodeUnit}
    (hval : (centerLoops H.toSpan P.toSpan tail counts).run.val = some r) :
    (counts.left < 2 ^ 31 ∧ counts.right < 2 ^ 31 ∧ counts.tail < 2 ^ 31) ∧
      r = framed H.units P.units tail counts := by
  obtain ⟨r₁, hl, hrest⟩ := bind_eq_some hval
  obtain ⟨r₂, hr, ht⟩ := bind_eq_some hrest
  have hlt := lt_of_forInt_val hl
  have hrt := lt_of_forInt_val hr
  have htt := lt_of_forInt_val ht
  refine ⟨⟨hlt, hrt, htt⟩, ?_⟩
  rw [(yields_centerLoops hlt hrt htt).val] at hval
  exact (Option.some.inj hval).symm

/-- `center` on the heap. -/
theorem centerIn_spec {P : Text} {paddingBegin : Ptr} {width : ℕ} {tail : CodeUnit}
    {r : List CodeUnit} (hbegin : begin.Reads h H.units) (hpadding : paddingBegin.Reads h P.units)
    (hval : (centerUnits H.toSpan width P.toSpan tail).run.val = some r)
    (hwidth : width + sizeofRefCounted < 2 ^ 64) (hlen : r.length + sizeofRefCounted < 2 ^ 64) :
    Returns (centerIn H.toSpan P.toSpan begin paddingBegin width tail) h r width := by
  obtain ⟨counts, hcounts, hloops⟩ := bind_eq_some hval
  obtain ⟨⟨hl, hr, ht⟩, hframed⟩ := centerLoops_val hloops
  have hcopy := appends_append hbegin
  have hpad := appends_append hpadding
  rw [List.length_map, Text.length_units] at hcopy hpad
  have hbody := (appends_forTurns hpad (i := 0) (by omega : 0 + counts.left < 2 ^ 31)).bind
    (f := fun _ => _) <| hcopy.bind (f := fun _ => _) <|
      (appends_forTurns hpad (i := 0) (by omega : 0 + counts.right < 2 ^ 31)).bind
        (f := fun _ => _) <|
          appends_forTurns (appends_pushBack _ tail) (i := 0) (by omega : 0 + counts.tail < 2 ^ 31)
  have hunits : r.map some = (List.replicate counts.left (P.units.map some)).flatten ++
      (H.units.map some ++ ((List.replicate counts.right (P.units.map some)).flatten ++
        (List.replicate counts.tail [(some tail : Cell)]).flatten)) := by
    rw [hframed, framed]
    simp [List.map_flatten]
  rw [← hunits] at hbody
  rw [centerIn, Returns, ends_bind, ends_demand]
  exact ⟨counts, hcounts, withResult_spec (ends_reserve_appends hwidth hbody hlen)⟩

/-- **`center` asks for memory once** up to its return, for a string of exactly the width: the text
between the copies of the padding, of which the smaller half is on the left, and the tail. -/
theorem center_asks_once {P : Text} {paddingBegin : Ptr} (width : ℕ) (tail : CodeUnit)
    (hbegin : begin.Reads h H.units) (hpadding : paddingBegin.Reads h P.units) (hP : P.units ≠ [])
    (hle : H.size ≤ width) (hwidth : width + sizeofRefCounted < 2 ^ 64)
    (hcopies : (width - H.size) / P.size < 2 ^ 32 - 1)
    (htail : (width - H.size) % P.size < 2 ^ 31) :
    ∃ r, r.length = width ∧
      (∃ L R T, L ≤ R ∧ R ≤ L + 1 ∧ T < P.size ∧ (L + R) * P.size + T = width - H.size ∧
        r = (List.replicate L P.units).flatten ++ H.units ++
          (List.replicate R P.units).flatten ++ List.replicate T tail) ∧
      Returns (centerIn H.toSpan P.toSpan begin paddingBegin width tail) h r width := by
  have hsize : P.size ≠ 0 := mt P.units_eq_nil_iff.2 hP
  have hval : (centerUnits H.toSpan width P.toSpan tail).run.val =
      some (framed H.units P.units tail (balanced (width - H.size) P.size)) := by
    refine centerUnits_val hsize hle (by omega) ?_ htail
    simp only [balanced]
    omega
  have hlen : (framed H.units P.units tail (balanced (width - H.size) P.size)).length = width :=
    length_framed_balanced hle
  obtain ⟨hleft, hright⟩ := balanced_halves (width - H.size) P.size
  refine ⟨_, hlen, ⟨_, _, _, hleft, hright, Nat.mod_lt _ (Nat.pos_of_ne_zero hsize),
    balanced_partition _ _, rfl⟩, centerIn_spec hbegin hpadding hval hwidth ?_⟩
  rwa [hlen]

attribute [local irreducible] Ends in
/-- A width of 40 units, which are asked for. -/
theorem center_asks_once_long :
    let H := Text.ofUnits (List.replicate 30 97) 0 (by decide)
    let P := Text.ofUnits [32, 45] 0 (by decide)
    ∃ r, r.length = 40 ∧ Returns (centerIn H.toSpan P.toSpan
      (.units ((List.replicate 30 97).map some)) (.units ([32, 45].map some)) 40 46) Heap.empty r
        40 := by
  intro H P
  obtain ⟨r, hlen, -, hreturns⟩ := center_asks_once (H := H) (P := P) 40 46
    (reads_ofUnits Heap.empty (w := List.replicate 30 97) 0 (by decide))
    (reads_ofUnits _ (w := [32, 45]) 0 (by decide)) (by decide +kernel) (by decide) (by decide)
    (by decide) (by decide)
  exact ⟨r, hlen, hreturns⟩

/-! ### `capitalize` -/

theorem Ptr.add_zero (p : Ptr) : p.add 0 = p := by
  cases p <;> rfl

/-- `capitalize` on the heap. -/
theorem capitalizeIn_spec {r : List CodeUnit} (hbegin : begin.Reads h H.units)
    (hH : H.units ≠ []) (hval : (capitalizeUnits H.toSpan).run.val = some r)
    (hlen : H.size + sizeofRefCounted < 2 ^ 64) :
    Returns (capitalizeIn H.toSpan begin) h r H.size := by
  obtain ⟨c, l, hunits⟩ := List.exists_cons_of_ne_nil hH
  have hsize : H.size = l.length + 1 := by rw [← H.length_units, hunits, List.length_cons]
  rw [(yields_capitalizeUnits hH).val, hunits, List.modifyHead_cons] at hval
  obtain rfl := Option.some.inj hval
  have hhead : begin.Outside ⟨h, reset⟩ [some c] := by
    have hfirst : (begin.add 0).Outside ⟨h, reset⟩ (((H.units.map some).drop 0).take 1) :=
      hbegin.add (by simp [hsize])
    rwa [Ptr.add_zero, hunits] at hfirst
  have htail : (begin.add 1).Outside ⟨h, reset⟩ (l.map some) := by
    have hrest : (begin.add 1).Outside ⟨h, reset⟩ (((H.units.map some).drop 1).take l.length) :=
      hbegin.add (by simp [hsize, Nat.add_comm])
    rwa [hunits, List.map_cons, List.drop_succ_cons, List.drop_zero,
      List.take_of_length_le (by simp)] at hrest
  have hrest : toSizeT ((H.size : ℤ) - 1) = (l.map some : List Cell).length := by
    rw [hsize, Nat.cast_add, Nat.cast_one, add_sub_cancel_right, List.length_map,
      toSizeT_natCast (by omega)]
  have hbody : Appends ⟨h, reset⟩ (do
      pushBack (upperUnit c)
      append (begin.add 1) (toSizeT (H.size - 1))) ((upperUnit c :: l).map some) () := by
    rw [hrest]
    exact (appends_pushBack _ _).bind (appends_append htail)
  rw [capitalizeIn]
  refine withResult_spec ?_
  rw [ends_bind]
  refine hhead.ends_read (shows_reset h).becomes ?_
  rw [ends_bind, ends_demand]
  refine ⟨c, rfl, ends_reserve_appends hlen hbody ?_⟩
  rwa [List.length_cons, ← hsize]

/-- **`capitalize` asks for memory once** up to its return, for a string as long as the text. -/
theorem capitalize_asks_once (hbegin : begin.Reads h H.units) (hH : H.units ≠ [])
    (hlen : H.size + sizeofRefCounted < 2 ^ 64) :
    Returns (capitalizeIn H.toSpan begin) h (H.units.modifyHead upperUnit) H.size :=
  capitalizeIn_spec hbegin hH (yields_capitalizeUnits hH).val hlen

attribute [local irreducible] Ends in
/-- A text of 30 units, which are asked for. -/
theorem capitalize_asks_once_long :
    let H := Text.ofUnits (List.replicate 30 97) 0 (by decide)
    Returns (capitalizeIn H.toSpan (.units ((List.replicate 30 97).map some))) Heap.empty
      (65 :: List.replicate 29 97) 30 := by
  intro H
  have hr : H.units.modifyHead upperUnit = 65 :: List.replicate 29 97 := by decide +kernel
  have hreturns := capitalize_asks_once (H := H)
    (reads_ofUnits Heap.empty (w := List.replicate 30 97) 0 (by decide)) (by decide +kernel)
    (by decide)
  rwa [hr] at hreturns

/-! ### `expandtabs` -/

/-- The buffer of `expandtabs`. -/
theorem spacesIn_spec {tabSize : ℕ} (ht : tabSize < 2 ^ 31) :
    Returns (spacesIn tabSize) h (List.replicate tabSize 0x20) tabSize := by
  have hbody := appends_forTurns (appends_pushBack ⟨h, reset⟩ 0x20) (i := 0)
    (by omega : 0 + tabSize < 2 ^ 31)
  rw [List.flatten_replicate_singleton, ← List.map_replicate] at hbody
  have hlen : tabSize + sizeofRefCounted < 2 ^ 64 := by
    simp only [sizeofRefCounted]
    omega
  exact withResult_spec (ends_reserve_appends hlen hbody (by rwa [List.length_replicate]))

/-- A pointer to the text of a string other than the one that is built. -/
theorem Core.Shows.reads {c : Core} {w : List CodeUnit} (hc : c.Shows h (w.map some))
    (hn : n ≤ w.length) : (viewOf c).Reads h (w.take n) := by
  have hlen : ((w.take n).map some : List Cell).length = n := by
    rw [List.length_map, List.length_take_of_le hn]
  cases c with
  | small cells =>
    have hread : (cells.drop 0).take n = (((w.map some).drop 0).take n) :=
      (SmallShows.text hc).read (by rwa [Nat.zero_add, List.length_map])
    rw [List.drop_zero, List.drop_zero, ← List.map_take] at hread
    show (w.take n).map some <+: cells
    exact hread ▸ List.take_prefix n cells
  | ml m =>
    obtain ⟨b, hb, hback⟩ := MediumLarge.Shows.block hc
    have hlt := hback.text.length_lt
    rw [List.length_map] at hlt
    refine ⟨List.not_mem_nil, b, hb, ?_, ?_⟩
    · rw [hlen]
      omega
    · rw [hlen, hback.text.read (by rwa [Nat.zero_add, List.length_map]), List.drop_zero,
        List.map_take]

/-- The callback of `expandtabs` leaves the string that is built as it is. -/
theorem appends_tabView {spaces : Core} {tabSize i : ℕ}
    (hspaces : spaces.Shows h ((List.replicate tabSize (0x20 : CodeUnit)).map some))
    (halone : spaces.Alone h) (h₀ : 0 < tabSize) (ht : tabSize < 2 ^ 31) (hi : i + 1 < 2 ^ 31) :
    Appends ⟨h, reset⟩ (tabView spaces tabSize i) [] (viewOf spaces, tabSize - i % tabSize) := by
  intro t u hbec _
  have hkeeps : Keeps h [] t.heap t.this.held := hbec.keeps
  have hkept : spaces.Alone t.heap := by
    intro a ha
    have hcount := hkeeps.count a
    rw [List.count_nil, halone a ha, List.count_eq_zero_of_not_mem fun hmem => ?_] at hcount
    · omega
    · have hfresh := (hbec.moved a hmem).resolve_left List.not_mem_nil
      rw [halone a ha] at hfresh
      cases hfresh
  rw [tabView, ends_bind, ends_demand]
  refine ⟨_, (yields_tabSpaces h₀ ht _ hi).val, ?_⟩
  rw [ends_bind, ends_onHeap]
  refine (hspaces.fresh hkeeps).ends_mutableData_alone hkept ?_
  rw [ends_bind, ends_check, ends_pure, List.append_nil, size_buffer _ (by omega)]
  exact ⟨rfl, rfl, hbec, .refl t _⟩

/-- A new string that has been changed is a new string. -/
theorem Arises.becomes_arises {c c' : Core} {h' h'' : Heap Cell} (ha : Arises h u h' c)
    (hbec : FbString.Becomes h' c v h'' c') : Arises h v h'' c' := by
  refine ⟨ha.keeps.trans hbec.keeps, hbec.shows, fun a hmem => ?_⟩
  rcases hbec.moved a hmem with hold | hzero
  · exact ha.fresh a hold
  · have hcount := ha.keeps.count a
    rw [hzero, List.count_nil] at hcount
    omega

/-- A new string does not change what a pointer points to. -/
theorem Ptr.Reads.arises {c : Core} {h' : Heap Cell} {w : List CodeUnit} (hp : p.Reads h w)
    (ha : Arises h u h' c) : p.Reads h' w := by
  have hout : p.Outside ⟨h', c⟩ (w.map some) := Ptr.Outside.becomes hp (t := ⟨h', c⟩) ha.becomes
  cases p with
  | units l' => exact hout
  | inPlace off => exact hout
  | block q off => exact ⟨List.not_mem_nil, hout.2⟩

/-- What `expandtabs` returns is short enough for a string. -/
theorem expandtabs_splice {tabSize : ℕ} {r : List CodeUnit} (h₀ : 0 < tabSize)
    (ht : tabSize < 2 ^ 31) (hn : H.size < 2 ^ 31)
    (hval : (expandtabs H.toSpan tabSize).run.val = some r) :
    r = splice H.units tabText.size 0 ((plainSearch H.units tabText.units).map fun pos =>
      (pos, List.replicate (tabSize - pos % tabSize) (0x20 : CodeUnit))) ∧
      r.length + sizeofRefCounted < 2 ^ 64 := by
  constructor
  · rw [units_tabText, size_tabText, splice_tabs]
    rw [(yields_expandtabs h₀ ht hn).val] at hval
    exact (Option.some.inj hval).symm
  · obtain ⟨-, r', hval', hlt, -⟩ := expandtabs_spaces H tabSize hn h₀ ht
    obtain rfl := Option.some.inj (hval.symm.trans hval')
    simp only [sizeofRefCounted]
    omega

/-- The search for tabs reads nothing else. -/
theorem finditer_tabs_within (H : Text) : FindView.ReadsWithin H.toSpan tabText.toSpan
    (finditer H.toSpan tabText.toSpan 0 .rangesEnd) := by
  have hreads := (reads_inBounds_iff H tabText).2 ⟨by simp, .inr (.inl size_tabText)⟩
  rw [finditer_all, FindView.readsWithin_iff]
  intro m
  refine (hreads m).imp ?_
  rintro (_ | _)
  · exact id
  · exact id

/-- `expandtabs` on the heap. -/
theorem expandtabsIn_spec {tabSize : ℕ} {r : List CodeUnit} (hbegin : begin.Reads h H.units)
    (h₀ : 0 < tabSize) (ht : tabSize < 2 ^ 31) (hn : H.size < 2 ^ 31)
    (hval : (expandtabs H.toSpan tabSize).run.val = some r) :
    Ends (expandtabsIn H.toSpan begin tabSize) h (fun c h' => Arises h (r.map some) h' c)
      fun h' => Keeps h [] h' [] := by
  obtain ⟨hr, hlen⟩ := expandtabs_splice h₀ ht hn hval
  rw [expandtabsIn, ends_bind]
  refine (spacesIn_spec ht).mono ?_ fun _ => id
  rintro spaces h₁ ⟨ha, -⟩
  rw [ends_bind, ends_unwind]
  refine (subIn_spec (q := fun pos => (viewOf spaces, tabSize - pos % tabSize))
    (by simp) hn (finditer_tabs H) (finditer_tabs_within H) (hbegin.arises ha) ?_ hr
      hlen).mono ?_ ?_
  · intro pos hpos
    have hlt := (mem_plainSearch (by simp) hpos).lt (by simp)
    rw [H.length_units] at hlt
    have hreads := ha.shows.reads (n := tabSize - pos % tabSize)
      (by rw [List.length_replicate]; exact Nat.sub_le _ _)
    rw [List.take_replicate, Nat.min_eq_left (Nat.sub_le _ _)] at hreads
    exact ⟨appends_tabView ha.shows ha.alone h₀ ht (by omega), hreads, by simp⟩
  · rintro c h₂ ⟨ha₂, -⟩
    rw [ends_bind]
    refine ha.shows.ends_destroy ha₂ fun h₃ hbec => ?_
    rw [ends_pure]
    exact ha.becomes_arises hbec
  · intro h₂ hk
    have hk' : Keeps h₁ spaces.held h₂ spaces.held := hk.append spaces.held
    refine (destroy_spec (ha.shows.fresh hk)).imp ?_
    intro _ h₃ hk₃
    exact (ha.keeps.trans hk').trans hk₃

/-- **`expandtabs` leaves its buffer nowhere**: neither when it returns, nor when one of its
requests is refused. -/
theorem expandtabs_frees_spaces {tabSize : ℕ} (hbegin : begin.Reads h H.units) (h₀ : 0 < tabSize)
    (ht : tabSize < 2 ^ 31) (hn : H.size < 2 ^ 31) :
    ∃ r, (expandtabs H.toSpan tabSize).run.val = some r ∧
      Ends (expandtabsIn H.toSpan begin tabSize) h (fun c h' => Arises h (r.map some) h' c)
        fun h' => Keeps h [] h' [] := by
  have hval := (yields_expandtabs h₀ ht hn).val
  exact ⟨_, hval, expandtabsIn_spec hbegin h₀ ht hn hval⟩

attribute [local irreducible] Ends in
/-- A text of 30 units with a tab, and a buffer of 25 spaces. -/
theorem expandtabs_frees_spaces_long :
    let l : List CodeUnit := List.replicate 29 97 ++ [9]
    let H := Text.ofUnits l 0 (by decide)
    ∃ r, (expandtabs H.toSpan 25).run.val = some r ∧ r.length = 50 ∧
      Ends (expandtabsIn H.toSpan (.units (l.map some)) 25) Heap.empty
        (fun c h' => Arises Heap.empty (r.map some) h' c) fun h' => Keeps Heap.empty [] h' [] := by
  intro l H
  have hlen : (expandtabs H.toSpan 25).run.val.map List.length = some 50 := by decide +kernel
  refine (expandtabs_frees_spaces (H := H) (reads_ofUnits Heap.empty (w := l) 0 (by decide))
    (by decide : 0 < 25) (by decide) (by decide)).imp fun r h => ⟨h.1, ?_, h.2⟩
  rwa [h.1, Option.map_some, Option.some.injEq] at hlen

end FbString

end PythonicCpp
