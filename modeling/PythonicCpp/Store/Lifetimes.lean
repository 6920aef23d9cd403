import PythonicCpp.Search.StringFind
import PythonicCpp.Store.Results

/-!
# Pointers that outlive their strings

`center` and `capitalize` return a reference to their local string, and a view that is made for a
needle of its own keeps an iterator into the parameter of its constructor.

* `Ptr.Dangling h p` : the string that `p` points into is no more.
* `returnRef`, `needleBegin` : what a caller gets.
* `results_dangle`, `needle_dangles` : it is dangling, whatever the size of the text.
* `nexts_read_needle_iff` : when the later calls of `next()` use the iterator.
-/

namespace PythonicCpp

namespace FbString

/-- The pointer points into a string that has been destroyed, and nothing that the heap keeps: into
`small_` of it, or into a block that has been freed. -/
def Ptr.Dangling (h : Heap Cell) : Ptr → Prop
  | units _ => False
  | inPlace _ => True
  | block p _ => h.blocks p = none

/-- `return utf8_cast(result)` of the local string that `x` makes.  The cast of an lvalue holds a
reference, and the string is destroyed behind it. -/
def returnRef (x : Mem Core) : Mem Ptr := do
  let result ← x
  destroy result
  pure result.begin

/-- What a view keeps of the needle `c`, which is not a view itself.  `finditer` has a copy of it,
and the constructor takes `begin()` of a copy of that. -/
def needleBegin (c : Core) : Mem Ptr := do
  let needle ← copy c
  let begin ← Action.unwind (do
    let arg ← copy needle
    let arg ← Action.unwind arg.mutableData (destroy arg)
    -- the first search is over when the constructor returns
    destroy arg
    pure arg.begin) (destroy needle)
  destroy needle
  pure begin

variable {h h' : Heap Cell} {c d : Core} {l : List CodeUnit} {u : List Cell} {n a : ℕ}
  {begin paddingBegin : Ptr} {H P : Text} {E : Heap Cell → Prop}

/-! ### Strings that are destroyed -/

theorem eq_none_of_count (ha : h.count a = 0) : h.blocks a = none := by
  rcases hb : h.blocks a with _ | b
  · rfl
  · rw [Heap.count_of_some hb] at ha
    exact absurd b.count_pos (by omega)

/-- A block that is not there does not come back while strings are only released. -/
theorem Ptr.Dangling.keeps {p : Ptr} {os : List ℕ} (hp : p.Dangling h) (hk : Keeps h os h' []) :
    p.Dangling h' := by
  cases p with
  | units _ => exact hp
  | inPlace _ => trivial
  | block a off =>
    have hnone : h.blocks a = none := hp
    have hzero : h.count a = 0 := by rw [Heap.count, hnone, Option.elim_none]
    have hcount := hk.count a
    rw [hzero, List.count_nil] at hcount
    exact eq_none_of_count (by omega)

/-- **What pointed into a string** that shared its block with no other one dangles when the string
is destroyed. -/
theorem ends_destroy_begin (hc : c.Shows h u) (halone : c.Alone h) :
    Ends (destroy c) h (fun _ h' => Keeps h c.held h' [] ∧ c.begin.Dangling h') E := by
  refine (destroy_spec hc).imp ?_
  intro _ h' hk
  refine ⟨hk, ?_⟩
  cases c with
  | small cells => trivial
  | ml m =>
    have hone := halone m.data (List.mem_singleton_self _)
    have hcount := hk.count m.data
    rw [Core.held, List.count_singleton_self, List.count_nil] at hcount
    exact eq_none_of_count (by omega)

/-- A long text is not in place. -/
theorem Core.Shows.begin_eq_block (hc : c.Shows h u) (hlt : maxSmallSize < u.length) :
    ∃ a, c.begin = .block a 0 := by
  cases c with
  | small cells => exact absurd (SmallShows.le hc) (not_le.2 hlt)
  | ml m => exact ⟨m.data, rfl⟩

/-! ### Results -/

theorem returnRef_spec {x : Mem Core} (hx : Returns x h l n) :
    Ends (returnRef x) h
      (fun p h' => Keeps h [] h' [] ∧ p.Dangling h' ∧
        (maxSmallSize < l.length → ∃ a, p = .block a 0))
      fun h' => Keeps h [] h' [] := by
  rw [returnRef, ends_bind]
  refine hx.imp ?_
  rintro c h' ⟨ha, -⟩
  rw [ends_bind]
  refine (ends_destroy_begin ha.shows ha.alone).imp ?_
  rintro _ h'' ⟨hk, hdangling⟩
  rw [ends_pure]
  refine ⟨ha.keeps.trans hk, hdangling, fun hlt => ha.shows.begin_eq_block ?_⟩
  rwa [List.length_map]

/-- **The results of `center` and `capitalize` dangle.**  Whenever they compute a text, they return
a reference to a string that is gone, and that has left nothing behind; a result of more than 23
units has been freed. -/
theorem results_dangle (hbegin : begin.Reads h H.units) (hpadding : paddingBegin.Reads h P.units) :
    (∀ width tail r, (centerUnits H.toSpan width P.toSpan tail).run.val = some r →
      width + sizeofRefCounted < 2 ^ 64 → r.length + sizeofRefCounted < 2 ^ 64 →
      Ends (returnRef (centerIn H.toSpan P.toSpan begin paddingBegin width tail)) h
        (fun p h' => Keeps h [] h' [] ∧ p.Dangling h' ∧
          (maxSmallSize < r.length → ∃ a, p = .block a 0))
        fun h' => Keeps h [] h' []) ∧
    ∀ r, (capitalizeUnits H.toSpan).run.val = some r → H.units ≠ [] →
      H.size + sizeofRefCounted < 2 ^ 64 →
      Ends (returnRef (capitalizeIn H.toSpan begin)) h
        (fun p h' => Keeps h [] h' [] ∧ p.Dangling h' ∧
          (maxSmallSize < r.length → ∃ a, p = .block a 0))
        fun h' => Keeps h [] h' [] := by
  refine ⟨fun width tail r hval hwidth hlen => ?_, fun r hval hH hlen => ?_⟩
  · exact returnRef_spec (centerIn_spec hbegin hpadding hval hwidth hlen)
  · exact returnRef_spec (capitalizeIn_spec hbegin hH hval hlen)

attribute [local irreducible] Ends in
/-- Results of 30 units, which have been in blocks. -/
theorem results_dangle_long :
    let H := Text.ofUnits (List.replicate 30 97) 0 (by decide)
    let P := Text.ofUnits [32] 0 (by decide)
    let begin := Ptr.units ((List.replicate 30 97).map some)
    Ends (returnRef (centerIn H.toSpan P.toSpan begin (.units ([32].map some)) 40 32)) Heap.empty
        (fun p h' => Keeps Heap.empty [] h' [] ∧ p.Dangling h' ∧ ∃ a, p = .block a 0)
        (fun h' => Keeps Heap.empty [] h' []) ∧
      Ends (returnRef (capitalizeIn H.toSpan begin)) Heap.empty
        (fun p h' => Keeps Heap.empty [] h' [] ∧ p.Dangling h' ∧ ∃ a, p = .block a 0)
        fun h' => Keeps Heap.empty [] h' [] := by
  intro H P begin
  have hcenter : (centerUnits H.toSpan 40 P.toSpan 32).run.val = some
      (List.replicate 5 32 ++ List.replicate 30 97 ++ List.replicate 5 32) := by decide +kernel
  have hcapitalize : (capitalizeUnits H.toSpan).run.val =
      some (65 :: List.replicate 29 97) := by decide +kernel
  have hdangle := results_dangle
    (reads_ofUnits Heap.empty (w := List.replicate 30 97) 0 (by decide))
    (reads_ofUnits Heap.empty (w := [32]) 0 (by decide))
  refine ⟨?_, ?_⟩
  · refine (hdangle.1 40 32 _ hcenter (by decide) (by decide)).imp ?_
    rintro p h' ⟨hk, hp, hblock⟩
    exact ⟨hk, hp, hblock (by decide)⟩
  · refine (hdangle.2 _ hcapitalize (by decide) (by decide +kernel)).imp ?_
    rintro p h' ⟨hk, hp, hblock⟩
    exact ⟨hk, hp, hblock (by decide)⟩

/-! ### Needles -/

/-- The parameter of the constructor. -/
theorem ends_argument (hc : c.Shows h u) :
    Ends (do
      let arg ← copy c
      let arg ← Action.unwind arg.mutableData (destroy arg)
      destroy arg
      pure arg.begin) h
      (fun p h' => Keeps h [] h' [] ∧ p.Dangling h' ∧
        (maxSmallSize < u.length → ∃ a, p = .block a 0))
      fun h' => Keeps h [] h' [] := by
  rw [ends_bind]
  refine (copy_spec hc).mono ?_ ?_
  · rintro d h' ⟨hk, hd, -⟩
    rw [ends_bind, ends_unwind]
    refine (mutableData_spec hd).mono ?_ ?_
    · rintro d' h'' ⟨hbec, halone, -⟩
      rw [ends_bind]
      refine (ends_destroy_begin hbec.shows halone).imp ?_
      rintro _ h₃ ⟨hk', hdangling⟩
      rw [ends_pure]
      exact ⟨(hk.trans hbec.keeps).trans hk', hdangling, hbec.shows.begin_eq_block⟩
    · rintro _ rfl
      have hskip := hd.fresh (keeps_skip h' [])
      refine (destroy_spec hskip).imp ?_
      intro _ h'' hk'
      exact (hk.trans (keeps_skip h' d.held)).trans hk'
  · rintro _ rfl
    exact keeps_skip h []

/-- **The iterator into a needle dangles** as soon as the view has been made, whatever the needle is
and whoever shares it. -/
theorem needle_dangles (hc : c.Shows h u) :
    Ends (needleBegin c) h
      (fun p h' => Keeps h [] h' [] ∧ p.Dangling h' ∧
        (maxSmallSize < u.length → ∃ a, p = .block a 0))
      fun h' => Keeps h [] h' [] := by
  rw [needleBegin, ends_bind]
  refine (copy_spec hc).mono ?_ ?_
  · rintro d h₁ ⟨hk, hd, -⟩
    have hrelease : ∀ {h₂ h₃}, Keeps h₁ [] h₂ [] → Keeps h₂ d.held h₃ [] → Keeps h [] h₃ [] :=
      fun hk₁ hk₂ => (hk.trans (hk₁.append d.held)).trans hk₂
    rw [ends_bind, ends_unwind]
    refine (ends_argument hd).mono ?_ ?_
    · rintro p h₂ ⟨hk₁, hdangling, hblock⟩
      rw [ends_bind]
      refine (destroy_spec (hd.fresh hk₁)).imp ?_
      intro _ h₃ hk₂
      rw [ends_pure]
      exact ⟨hrelease hk₁ hk₂, hdangling.keeps hk₂, hblock⟩
    · intro h₂ hk₁
      refine (destroy_spec (hd.fresh hk₁)).imp ?_
      intro _ h₃ hk₂
      exact hrelease hk₁ hk₂
  · rintro _ rfl
    exact keeps_skip h []

attribute [local irreducible] Ends in
/-- A needle that shares its block. -/
theorem needle_dangles_shared :
    Ends (needleBegin shared) sharedHeap
      (fun p h' => Keeps sharedHeap [] h' [] ∧ p.Dangling h' ∧ ∃ a, p = .block a 0)
      fun h' => Keeps sharedHeap [] h' [] := by
  refine (needle_dangles shared_shows).imp ?_
  rintro p h' ⟨hk, hp, hblock⟩
  exact ⟨hk, hp, hblock (by rw [length_sharedText]; decide)⟩

end FbString

/-! ### The reads of the iterator -/

/-- The unit read is not one of the needle. -/
def Read.OfHaystack : Read → Prop
  | haystack _ => True
  | needle _ => False

namespace FindView

variable {v : FindView} {H D : Text} {p : ℕ} {ps : List ℕ} {i : ℤ}

theorem Inv.lastAt_iff_storage (hI : v.Inv H D) {q : ℕ} :
    v.LastAt (H.first + q) ↔
      H.storage (H.first + (q + (D.size - 1) : ℕ)) = D.storage (D.last - 1) := by
  rw [LastAt, hI.haystack, hI.nsize, hI.lastNeedle, Nat.cast_add, add_assoc]

/-- The comparison begins with a unit of the needle. -/
theorem not_all_compare (hv : 0 < v.nsize) : ¬ (v.compare i 0 hv).All Read.OfHaystack := by
  intro h
  rw [compare] at h
  exact Traced.all_read.1 (Traced.all_bind.1 (Traced.all_bind.1 h).2).1

/-- A search reads the needle iff it comes to a position with the last unit of the needle. -/
theorem Inv.search_allReads_iff (hI : v.Inv H D) (hv : 0 < v.nsize) (c : ℕ) :
    AllReads Read.OfHaystack (v.search hv (H.first + c)) ↔
      ∀ q, c ≤ q → q < H.size → ¬ v.LastAt (H.first + q) := by
  have hlast := H.last_eq
  have hend : v.haystack.last = H.last := by rw [hI.haystack]
  rw [search]
  split_ifs with hi
  · have hscan : (v.scanLast (H.first + c) (H.first + c) le_rfl hi).All Read.OfHaystack :=
      scanLast_all_of _ _ fun _ _ _ => trivial
    rw [allReads_bind, and_iff_right hscan]
    cases hval : (v.scanLast (H.first + c) (H.first + c) le_rfl hi).val with
    | none =>
      refine iff_of_true (allReads_done rfl) fun q hcq hq => ?_
      exact scanLast_none hval (H.first + q) (by omega) (by omega)
    | some i' =>
      obtain ⟨i', hle, hlt⟩ := i'
      obtain ⟨-, hat, -⟩ := scanLast_some hval
      obtain ⟨q, rfl⟩ : ∃ q : ℕ, i' = H.first + q := ⟨(i' - H.first).toNat, by omega⟩
      refine iff_of_false (fun h => not_all_compare hv (allReads_bind.1 h).1) fun h => ?_
      exact h q (by omega) (by omega) hat
  · refine iff_of_true (allReads_done rfl) fun q hcq hq => ?_
    omega

/-- **When the iterator into the needle is used after the view has been made**: exactly when, behind
the first match, the last unit of the needle is at a position where it would end another one. -/
theorem nexts_read_needle_iff (hD : D.units ≠ []) (hps : storageSearch H D = p :: ps) :
    (∀ m, ((new H.toSpan D.toSpan).val.nexts m).All Read.OfHaystack) ↔
      ∀ q, p + D.size ≤ q → q < H.size →
        H.storage (H.first + (q + (D.size - 1) : ℕ)) ≠ D.storage (D.last - 1) := by
  obtain ⟨hI, hshows⟩ := new_spec H D
  rw [hps] at hshows
  have hv := hI.nsize_pos_iff.2 hD
  have hdone := mt hshows.done_iff.1 (List.cons_ne_nil p ps)
  have hcur : (new H.toSpan D.toSpan).val.haystackCur = _ := hshows.2.2.1
  change AllReads Read.OfHaystack (pure _) ↔ _
  rw [allReads_pure, next, dif_neg hdone, hcur, hI.search_allReads_iff hv]
  refine forall_congr' fun q => ?_
  rw [hI.lastAt_iff_storage]

/-- In `abab` the search for `ab` goes on after its first match, and reads the needle again. -/
theorem nexts_read_needle_abab :
    ¬ ∀ m, ((new (Text.ofUnits [97, 98, 97, 98] 0 (by decide)).toSpan
      (Text.ofUnits [97, 98] 0 (by decide)).toSpan).val.nexts m).All Read.OfHaystack := by
  have hps : storageSearch (Text.ofUnits [97, 98, 97, 98] 0 (by decide))
      (Text.ofUnits [97, 98] 0 (by decide)) = [0, 2] := by decide
  exact fun h => (nexts_read_needle_iff (by decide) hps).1 h 2 (by decide) (by decide) (by decide)

end FindView

end PythonicCpp
