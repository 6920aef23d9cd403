import PythonicCpp.Scan.Leftmost
import Mathlib.Algebra.BigOperators.Group.List.Basic
import Mathlib.Algebra.Ring.Nat

/-!
# Occurrences of one list in another

The plain left-to-right search for a list `d` in a list `h`, and the replacement of what it
finds, over any type of units.

## Main definitions

* `OccursAt h d p` : `d` occurs in `h` at position `p`.
* `plainSearch h d` : the positions of the leftmost non-overlapping occurrences.
* `splice h k last rs` : `h` from `last` on, with `k` units at each position of `rs` replaced.

## Main results

* `plainSearch_spec`, `plainSearch_max` : the search selects leftmost occurrences, and as many as
  any choice of disjoint ones.
* `splice_self` : replacing every occurrence of `d` by `d` changes nothing.
* `length_splice` : the length of the result.
-/

namespace PythonicCpp

namespace Scan

variable {α : Type*} [DecidableEq α] {h d : List α} {k : ℕ}

/-- `d` occurs in `h` at position `p`. -/
def OccursAt (h d : List α) (p : ℕ) : Prop :=
  p + d.length ≤ h.length ∧ (h.drop p).take d.length = d

instance (h d : List α) : DecidablePred (OccursAt h d) := fun p =>
  inferInstanceAs (Decidable (p + d.length ≤ h.length ∧ (h.drop p).take d.length = d))

/-- The positions found by the plain left-to-right non-overlapping search for `d` in `h`. -/
def plainSearch (h d : List α) : List ℕ := leftmost (OccursAt h d) h.length d.length 0

omit [DecidableEq α] in
theorem OccursAt.add_le {p : ℕ} (hp : OccursAt h d p) : p + d.length ≤ h.length := hp.1

omit [DecidableEq α] in
theorem OccursAt.lt (hd : d ≠ []) {p : ℕ} (hp : OccursAt h d p) : p < h.length := by
  have := hp.add_le
  have := List.length_pos_iff.2 hd
  omega

omit [DecidableEq α] in
theorem occursAt_iff_getElem {p : ℕ} (hp : p + d.length ≤ h.length) :
    OccursAt h d p ↔ ∀ j (hj : j < d.length), h[p + j] = d[j] := by
  constructor
  · rintro ⟨-, heq⟩ j hj
    have := List.getElem_of_eq heq.symm hj
    simpa using this.symm
  · intro hall
    refine ⟨hp, List.ext_getElem (by simp; omega) fun j _ hj => ?_⟩
    simpa using hall j hj

omit [DecidableEq α] in
theorem OccursAt.split {p : ℕ} (hp : OccursAt h d p) :
    h.drop p = d ++ h.drop (p + d.length) := by
  conv_lhs => rw [← List.take_append_drop d.length (h.drop p), hp.2, List.drop_drop]

omit [DecidableEq α] in
/-- Occurrences in what is left of `h` after its first `s` units. -/
theorem occursAt_drop {s p : ℕ} (hs : s ≤ h.length) :
    OccursAt (h.drop s) d p ↔ OccursAt h d (s + p) := by
  rw [OccursAt, OccursAt, List.length_drop, List.drop_drop]
  refine and_congr_left fun _ => ?_
  omega

theorem plainSearch_spec (hd : d ≠ []) :
    Leftmost (OccursAt h d) h.length d.length 0 (plainSearch h d) :=
  leftmost_spec (List.length_pos_iff.2 hd)

theorem mem_plainSearch (hd : d ≠ []) {p : ℕ} (hp : p ∈ plainSearch h d) : OccursAt h d p :=
  ((plainSearch_spec hd).mem hp).2.2

theorem plainSearch_eq_nil_iff (hd : d ≠ []) :
    plainSearch h d = [] ↔ ∀ p, ¬ OccursAt h d p := by
  rw [(plainSearch_spec hd).eq_nil_iff_of_lt fun q hq => hq.lt hd]
  exact forall_congr' fun p => imp_iff_right (Nat.zero_le p)

theorem plainSearch_eq_nil (hlt : h.length < d.length) : plainSearch h d = [] := by
  have hd : d ≠ [] := List.length_pos_iff.1 (by omega)
  refine (plainSearch_eq_nil_iff hd).2 fun p hp => ?_
  have := hp.add_le
  omega

theorem plainSearch_length_mul_le (hd : d ≠ []) :
    (plainSearch h d).length * d.length ≤ h.length := by
  have := (plainSearch_spec (h := h) hd).length_mul_le (fun q hq => hq.add_le) (Nat.zero_le _)
  omega

/-- **No choice of disjoint occurrences is larger** than the one the plain search makes. -/
theorem plainSearch_max (hd : d ≠ []) (S : Finset ℕ) (hS : ∀ p ∈ S, OccursAt h d p)
    (hsep : ∀ p ∈ S, ∀ q ∈ S, p < q → p + d.length ≤ q) :
    S.card ≤ (plainSearch h d).length := by
  refine (plainSearch_spec hd).length_max S (fun p hp => ?_) hsep
  exact ⟨Nat.zero_le p, (hS p hp).lt hd, hS p hp⟩

/-! ### Searching from a position on -/

theorem plainSearch_drop_eq_nil_iff {s : ℕ} (hd : d ≠ []) (hs : s ≤ h.length) :
    plainSearch (h.drop s) d = [] ↔ ∀ p, s ≤ p → ¬ OccursAt h d p := by
  rw [plainSearch_eq_nil_iff hd]
  constructor
  · intro hno p hsp hp
    refine hno (p - s) ?_
    rwa [occursAt_drop hs, Nat.add_sub_cancel' hsp]
  · intro hno p hp
    exact hno (s + p) (Nat.le_add_right s p) ((occursAt_drop hs).1 hp)

/-- The first position found in what is left of `h` after `s` units is the distance from `s` to the
first occurrence from `s` on. -/
theorem plainSearch_drop_isLeast {s p : ℕ} {ps : List ℕ} (hd : d ≠ []) (hs : s ≤ h.length)
    (hps : plainSearch (h.drop s) d = p :: ps) : IsLeast {q | s ≤ q ∧ OccursAt h d q} (s + p) := by
  have hspec := plainSearch_spec (h := h.drop s) hd
  rw [hps] at hspec
  obtain ⟨⟨-, hp⟩, hleast⟩ := hspec.isLeast
  refine ⟨⟨Nat.le_add_right s p, (occursAt_drop hs).1 hp⟩, fun q ⟨hsq, hq⟩ => ?_⟩
  have hle : p ≤ q - s := hleast ⟨Nat.zero_le _, by rwa [occursAt_drop hs, Nat.add_sub_cancel' hsq]⟩
  omega

/-! ### Splicing -/

/-- `h` from position `last` on, with the `k` units at each position `p` of `rs` replaced by the
list that comes with it. -/
def splice (h : List α) (k : ℕ) : ℕ → List (ℕ × List α) → List α
  | last, [] => h.drop last
  | last, (p, r) :: rs => (h.drop last).take (p - last) ++ r ++ splice h k (p + k) rs

omit [DecidableEq α] in
theorem drop_eq_take_append (h : List α) {i j : ℕ} (hij : i ≤ j) :
    h.drop i = (h.drop i).take (j - i) ++ h.drop j := by
  conv_lhs => rw [← List.take_append_drop (j - i) (h.drop i), List.drop_drop]
  rw [Nat.add_sub_cancel' hij]

omit [DecidableEq α] in
/-- **Replacing every occurrence of `d` by `d` changes nothing.** -/
theorem splice_self {n c : ℕ} {ps : List ℕ} (hps : Leftmost (OccursAt h d) n d.length c ps) :
    splice h d.length c (ps.map fun p => (p, d)) = h.drop c := by
  induction hps with
  | nil _ => rfl
  | cons hcp _ hp _ _ ih =>
    rw [List.map_cons, splice, ih, List.append_assoc, ← hp.split, ← drop_eq_take_append h hcp]

omit [DecidableEq α] in
/-- The length of a splice at disjoint positions: what is cut goes, what is put in comes. -/
theorem length_splice {n c : ℕ} {P : ℕ → Prop} {ps : List ℕ} (r : ℕ → List α)
    (hps : Leftmost P n k c ps) (hP : ∀ q, P q → q + k ≤ h.length) (hc : c ≤ h.length) :
    (splice h k c (ps.map fun p => (p, r p))).length + ps.length * k + c =
      h.length + (ps.map fun p => (r p).length).sum := by
  induction hps with
  | nil _ => simp [splice, hc]
  | @cons c p ps hcp _ hp _ _ ih =>
    have := ih (hP p hp)
    have := hP p hp
    simp only [List.map_cons, splice, List.length_append, List.length_take, List.length_drop,
      List.length_cons, List.sum_cons, Nat.succ_mul]
    rw [Nat.min_eq_left (by omega)]
    omega

end Scan

end PythonicCpp
