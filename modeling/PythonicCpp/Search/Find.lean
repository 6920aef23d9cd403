import PythonicCpp.Search.Finditer
import Mathlib.Order.Bounds.Basic

/-!
# `find`, `index` and the number of occurrences

`find` and `index` take the first offset of a view.  The view counts its offsets from the beginning
of the slice it searches, and neither adds the start of the slice to what it returns.

* `find_spec` : what `find` returns, for every start of the search.
* `lookups_iff` : `find` and `index` are those of Python, and repeating `find` enumerates the
  occurrences, only for the starts where this makes no difference.
* `count_max` : `count` is the largest number of pairwise disjoint occurrences.
-/

namespace PythonicCpp

open Scan

/-- `find(haystack, needle, start, end)`. -/
def find (haystack needle : Span) (start : ℕ) (stop : End) : ℕ :=
  let view := (finditer haystack needle start stop).val
  if view.Done then npos else view.foundAt

/-- `"not found"_u`. -/
def notFoundText : List CodeUnit := "not found".toUTF8.data.toList

/-- `index(haystack, needle, start, end)`. -/
def index (haystack needle : Span) (start : ℕ) (stop : End) : Except (List CodeUnit) ℕ :=
  let view := (finditer haystack needle start stop).val
  if view.Done then .error notFoundText else .ok view.foundAt

variable {H D : Text} {start : ℕ}

/-! ### The first occurrence -/

theorem index_eq_find (haystack needle : Span) (start : ℕ) (stop : End) :
    index haystack needle start stop =
      if (finditer haystack needle start stop).val.Done then .error notFoundText
      else .ok (find haystack needle start stop) := by
  rw [index, find]
  split_ifs <;> rfl

theorem finditer_shows (hD : D.units ≠ []) (hnext : H.next ∉ D.units) (hstart : start ≤ H.size) :
    (finditer H.toSpan D.toSpan start .rangesEnd).val.Shows
      (H.window start H.size hstart le_rfl) D (plainSearch (H.units.drop start) D.units) := by
  have hunits : (H.window start H.size hstart le_rfl).units = H.units.drop start := by
    rw [H.units_window hstart le_rfl, List.take_of_length_le (by simp)]
  have hnext' : (H.window start H.size hstart le_rfl).next = H.next := by
    rw [Text.next, Text.next, H.last_eq]
    rfl
  rw [finditer, H.slice_rangesEnd hstart, ← hunits,
    ← storageSearch_eq_plainSearch hD (by rwa [hnext'])]
  exact (FindView.new_spec _ D).2

/-- **`find` returns the distance from the start of the search** to the first occurrence, `npos`
when there is none. -/
theorem find_spec (hD : D.units ≠ []) (hnext : H.next ∉ D.units) (hstart : start ≤ H.size) :
    ((finditer H.toSpan D.toSpan start .rangesEnd).val.Done ↔
        find H.toSpan D.toSpan start .rangesEnd = npos) ∧
      (find H.toSpan D.toSpan start .rangesEnd = npos ↔
        ∀ p, start ≤ p → ¬ OccursAt H.units D.units p) ∧
      (find H.toSpan D.toSpan start .rangesEnd ≠ npos →
        IsLeast {p | start ≤ p ∧ OccursAt H.units D.units p}
          (start + find H.toSpan D.toSpan start .rangesEnd)) := by
  have hshows := finditer_shows hD hnext hstart
  have hlen : start ≤ H.units.length := by rwa [H.length_units]
  rw [← plainSearch_drop_eq_nil_iff hD hlen, find]
  cases hps : plainSearch (H.units.drop start) D.units with
  | nil =>
    rw [hps] at hshows
    have hdone : (finditer H.toSpan D.toSpan start .rangesEnd).val.Done := hshows
    simp [hdone]
  | cons p ps =>
    have hleast := plainSearch_drop_isLeast hD hlen hps
    rw [hps] at hshows
    have hdone := mt hshows.done_iff.1 (List.cons_ne_nil p ps)
    have hfound : (finditer H.toSpan D.toSpan start .rangesEnd).val.foundAt = p := hshows.1
    have hne : p ≠ npos := fun h => hdone (hfound.trans h)
    simpa [hdone, hfound, hne] using hleast

/-- `found` and `indexed` are what Python's `str.find` and `str.index` give from `start` on: the
lowest occurrence, or `npos` and an error exactly when there is none. -/
structure LooksUp (h d : List CodeUnit) (start found : ℕ) (indexed : Except (List CodeUnit) ℕ) :
    Prop where
  npos_iff : found = npos ↔ ∀ p, start ≤ p → ¬ OccursAt h d p
  least : found ≠ npos → IsLeast {p | start ≤ p ∧ OccursAt h d p} found
  index_ok : found ≠ npos → indexed = .ok found
  index_error : (∃ e, indexed = .error e) ↔ found = npos

/-- Calling `find` from `start`, and then from each result plus one until it is `npos`, gives
`ps`. -/
inductive FindRun (H D : Text) : ℕ → List ℕ → Prop
  | stop {start : ℕ} : find H.toSpan D.toSpan start .rangesEnd = npos → FindRun H D start []
  | next {start : ℕ} {ps : List ℕ} : find H.toSpan D.toSpan start .rangesEnd ≠ npos →
      FindRun H D (find H.toSpan D.toSpan start .rangesEnd + 1) ps →
      FindRun H D start (find H.toSpan D.toSpan start .rangesEnd :: ps)

theorem looksUp_iff (hD : D.units ≠ []) (hnext : H.next ∉ D.units) (hstart : start ≤ H.size) :
    LooksUp H.units D.units start (find H.toSpan D.toSpan start .rangesEnd)
        (index H.toSpan D.toSpan start .rangesEnd) ↔
      start = 0 ∨ ∀ p, start ≤ p → ¬ OccursAt H.units D.units p := by
  obtain ⟨hdone, hnpos, hleast⟩ := find_spec hD hnext hstart
  have hindex := index_eq_find H.toSpan D.toSpan start .rangesEnd
  rw [← hnpos]
  by_cases hfind : find H.toSpan D.toSpan start .rangesEnd = npos
  · refine iff_of_true ⟨hnpos, absurd hfind, absurd hfind, ?_⟩ (.inr hfind)
    rw [hindex, if_pos (hdone.2 hfind)]
    exact ⟨fun _ => hfind, fun _ => ⟨_, rfl⟩⟩
  · rw [if_neg (mt hdone.1 hfind)] at hindex
    rw [or_iff_left hfind, hindex]
    constructor
    · intro h
      have := (hleast hfind).unique (h.least hfind)
      omega
    · rintro rfl
      refine ⟨hnpos, fun _ => ?_, fun _ => rfl, iff_of_false nofun hfind⟩
      rw [← Nat.zero_add (find _ _ _ _)]
      exact hleast hfind

/-- A run with results, all of them occurrences at `start` or later, starts at `0`: otherwise its
first result is below the lowest such occurrence. -/
theorem FindRun.eq_zero {ps : List ℕ} (hD : D.units ≠ []) (hnext : H.next ∉ D.units)
    (hstart : start ≤ H.size) (hrun : FindRun H D start ps)
    (hmem : ∀ p ∈ ps, start ≤ p ∧ OccursAt H.units D.units p) (hps : ps ≠ []) : start = 0 := by
  obtain ⟨-, -, hleast⟩ := find_spec hD hnext hstart
  cases hrun with
  | stop _ => exact absurd rfl hps
  | next hfind _ =>
    have hle : start + find H.toSpan D.toSpan start .rangesEnd ≤
        find H.toSpan D.toSpan start .rangesEnd :=
      (hleast hfind).2 (hmem _ List.mem_cons_self)
    omega

theorem findRun_iff (hD : D.units ≠ []) (hnext : H.next ∉ D.units) (hstart : start ≤ H.size) :
    (∃ ps, FindRun H D start ps ∧ ps.Pairwise (· < ·) ∧
        ∀ p, p ∈ ps ↔ start ≤ p ∧ OccursAt H.units D.units p) ↔
      (∀ p, start ≤ p → ¬ OccursAt H.units D.units p) ∨
        start = 0 ∧ ∃! p, OccursAt H.units D.units p := by
  have hafter : ∀ {p}, OccursAt H.units D.units p → p + 1 ≤ H.size := by
    intro p hp
    have := hp.lt hD
    rw [H.length_units] at this
    omega
  constructor
  · rintro ⟨ps, hrun, hsort, hmem⟩
    rcases ps with _ | ⟨f, ps⟩
    · exact .inl fun p hle hp => absurd ((hmem p).2 ⟨hle, hp⟩) (List.not_mem_nil)
    · refine .inr ?_
      obtain rfl := hrun.eq_zero hD hnext hstart (fun p => (hmem p).1) (List.cons_ne_nil f ps)
      have hlt := (List.pairwise_cons.1 hsort).1
      have hocc := ((hmem f).1 List.mem_cons_self).2
      -- the rest of the run has only occurrences after `f`, and does not start at `0`
      have hmem' : ∀ p ∈ ps, f + 1 ≤ p ∧ OccursAt H.units D.units p := fun p hp =>
        ⟨hlt p hp, ((hmem p).1 (List.mem_cons_of_mem f hp)).2⟩
      have hps : ps = [] := by
        by_contra hne
        cases hrun with
        | next _ hrun' =>
          have := hrun'.eq_zero hD hnext (hafter hocc) hmem' hne
          omega
      refine ⟨rfl, f, hocc, fun q hq => ?_⟩
      have := (hmem q).2 ⟨Nat.zero_le q, hq⟩
      rwa [hps, List.mem_singleton] at this
  · obtain ⟨-, hnpos, hleast⟩ := find_spec hD hnext hstart
    rintro (hno | ⟨rfl, f, hocc, huniq⟩)
    · exact ⟨[], .stop (hnpos.2 hno), .nil, fun p =>
        ⟨fun hp => absurd hp List.not_mem_nil, fun ⟨hle, hp⟩ => absurd hp (hno p hle)⟩⟩
    · have hfind : find H.toSpan D.toSpan 0 .rangesEnd ≠ npos := fun h =>
        hnpos.1 h f (Nat.zero_le f) hocc
      have hf : find H.toSpan D.toSpan 0 .rangesEnd = f := by
        have := (hleast hfind).1.2
        rw [Nat.zero_add] at this
        exact huniq _ this
      have hstop : find H.toSpan D.toSpan (f + 1) .rangesEnd = npos := by
        refine (find_spec hD hnext (hafter hocc)).2.1.2 fun p hle hp => ?_
        have := huniq p hp
        omega
      refine ⟨[f], ?_, List.pairwise_singleton _ f, fun p => ?_⟩
      · have hrun : FindRun H D 0 [find H.toSpan D.toSpan 0 .rangesEnd] :=
          .next hfind (.stop (by rwa [hf]))
        rwa [hf] at hrun
      · rw [List.mem_singleton]
        exact ⟨fun h => ⟨Nat.zero_le p, h ▸ hocc⟩, fun h => huniq p h.2⟩

/-- **When `find` and `index` are those of Python**: exactly when the search starts at `0` or finds
nothing.  Repeating `find` from each result plus one enumerates the occurrences only when there is
none, or the only one is looked for from `0`. -/
theorem lookups_iff (H D : Text) (start : ℕ) (hD : D.units ≠ []) (hnext : H.next ∉ D.units)
    (hstart : start ≤ H.size) :
    (LooksUp H.units D.units start (find H.toSpan D.toSpan start .rangesEnd)
          (index H.toSpan D.toSpan start .rangesEnd) ↔
        start = 0 ∨ ∀ p, start ≤ p → ¬ OccursAt H.units D.units p) ∧
      ((∃ ps, FindRun H D start ps ∧ ps.Pairwise (· < ·) ∧
          ∀ p, p ∈ ps ↔ start ≤ p ∧ OccursAt H.units D.units p) ↔
        (∀ p, start ≤ p → ¬ OccursAt H.units D.units p) ∨
          start = 0 ∧ ∃! p, OccursAt H.units D.units p) :=
  ⟨looksUp_iff hD hnext hstart, findRun_iff hD hnext hstart⟩

theorem lookups_abc :
    LooksUp [97, 98, 99] [98] 0
      (find (Text.ofUnits [97, 98, 99] 0 (by decide)).toSpan
        (Text.ofUnits [98] 0 (by decide)).toSpan 0 .rangesEnd)
      (index (Text.ofUnits [97, 98, 99] 0 (by decide)).toSpan
        (Text.ofUnits [98] 0 (by decide)).toSpan 0 .rangesEnd) := by
  have h := (lookups_iff (Text.ofUnits [97, 98, 99] 0 (by decide))
    (Text.ofUnits [98] 0 (by decide)) 0 (by decide) (by decide) (by decide)).1.2 (.inl rfl)
  rwa [Text.units_ofUnits, Text.units_ofUnits] at h

/-- In `abcab` the first `ab` from position `1` on is at `3`; `find` gives `2`, where there is
none. -/
theorem find_from_one :
    let H := Text.ofUnits [97, 98, 99, 97, 98] 0 (by decide)
    let D := Text.ofUnits [97, 98] 0 (by decide)
    find H.toSpan D.toSpan 1 .rangesEnd = 2 ∧ ¬ OccursAt H.units D.units 2 ∧
      OccursAt H.units D.units 3 ∧ index H.toSpan D.toSpan 1 .rangesEnd = .ok 2 := by
  decide +kernel

/-! ### The number of occurrences -/

/-- **`count` is the largest number of pairwise disjoint occurrences**; the view enumerates such a
choice.  It is zero exactly when `find` and `index` find nothing. -/
theorem count_max (H D : Text) (hD : D.units ≠ []) (hnext : H.next ∉ D.units) :
    let n := count H.toSpan D.toSpan 0 .rangesEnd
    let ps := (finditer H.toSpan D.toSpan 0 .rangesEnd).val.offsets
    (ps.length = n ∧ (∀ p ∈ ps, OccursAt H.units D.units p) ∧
        ps.Pairwise fun p q => p + D.size ≤ q) ∧
      IsGreatest {m | ∃ S : Finset ℕ, S.card = m ∧ (∀ p ∈ S, OccursAt H.units D.units p) ∧
        ∀ p ∈ S, ∀ q ∈ S, p < q → p + D.size ≤ q} n ∧
      n * D.size ≤ H.size ∧ (n = 0 ↔ find H.toSpan D.toSpan 0 .rangesEnd = npos) ∧
      (n = 0 ↔ ∃ e, index H.toSpan D.toSpan 0 .rangesEnd = .error e) := by
  intro n ps
  have hps : ps = plainSearch H.units D.units := finditer_offsets hD hnext
  have hn : n = ps.length := by rw [hps]; exact count_eq hD hnext
  have hspec := plainSearch_spec (h := H.units) hD
  rw [← hps, D.length_units, H.length_units] at hspec
  have hzero : n = 0 ↔ ∀ p, 0 ≤ p → ¬ OccursAt H.units D.units p := by
    rw [hn, List.length_eq_zero_iff]
    exact hspec.eq_nil_iff_of_lt fun p hp => by simpa using hp.lt hD
  have hlook := (looksUp_iff hD hnext (Nat.zero_le _)).2 (.inl rfl)
  refine ⟨⟨hn.symm, fun p hp => (hspec.mem hp).2.2, hspec.pairwise⟩, ⟨?_, ?_⟩, ?_, ?_, ?_⟩
  · refine ⟨ps.toFinset, ?_, fun p hp => ?_, fun p hp q hq hpq => ?_⟩
    · rw [hn, List.toFinset_card_of_nodup (hspec.nodup (by simpa using List.length_pos_iff.2 hD))]
    · exact (hspec.mem (List.mem_toFinset.1 hp)).2.2
    · exact hspec.add_le (List.mem_toFinset.1 hp) (List.mem_toFinset.1 hq) hpq
  · rintro m ⟨S, rfl, hS, hsep⟩
    rw [hn, hps]
    exact plainSearch_max hD S hS (by simpa using hsep)
  · rw [hn, hps]
    simpa using plainSearch_length_mul_le (h := H.units) hD
  · rw [hzero, hlook.npos_iff]
  · rw [hzero, hlook.index_error, hlook.npos_iff]

theorem count_max_ababa :
    count (Text.ofUnits [97, 98, 97, 98, 97] 0 (by decide)).toSpan
        (Text.ofUnits [97, 98, 97] 0 (by decide)).toSpan 0 .rangesEnd * 3 ≤ 5 := by
  have h := (count_max (Text.ofUnits [97, 98, 97, 98, 97] 0 (by decide))
    (Text.ofUnits [97, 98, 97] 0 (by decide)) (by decide) (by decide)).2.2.1
  rwa [Text.size_ofUnits, Text.size_ofUnits] at h

end PythonicCpp
