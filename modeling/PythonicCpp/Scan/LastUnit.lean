import PythonicCpp.Machine.Memory

/-!
# Skipping by the last unit

A search that compares the last unit of the needle `d` first can, after a mismatch at a position
on whose last unit is that of `d`, skip the distance from the last unit of `d` back to the
previous unit equal to it.

* `IsSkip d s` : `s` is that distance, the length of `d` when there is no such unit.
* `SkipAtLeast d s` : no shorter distance will do; what a search for the skip has found at `s`.
* `IsSkip.not_occursAt`, `IsSkip.no_match` : no copy of `d` begins within the distance.
* `IsSkip.tight` : one may begin right after it.
* `lastStride h d s` : the steps such a search of `h` takes.
* `lastStride_fits_iff` : when its steps never lead to a position from which `d` reaches past the
  end of `h`.
-/

namespace PythonicCpp

namespace Scan

variable {α : Type*} {d : List α} {s s' : ℕ}

/-- `s` is the distance from the last unit of `d` back to the previous unit equal to it, the
length of `d` when there is none. -/
structure IsSkip (d : List α) (s : ℕ) : Prop where
  pos : 0 < s
  le : s ≤ d.length
  stop : s < d.length → d[d.length - 1 - s]? = d[d.length - 1]?
  least : ∀ t, 0 < t → t < s → d[d.length - 1 - t]? ≠ d[d.length - 1]?

/-- The distance is at least `s`: no shorter one leads back to the last unit. -/
structure SkipAtLeast (d : List α) (s : ℕ) : Prop where
  pos : 0 < s
  le : s ≤ d.length
  least : ∀ t, 0 < t → t < s → d[d.length - 1 - t]? ≠ d[d.length - 1]?

theorem skipAtLeast_one (hd : d ≠ []) : SkipAtLeast d 1 where
  pos := Nat.one_pos
  le := List.length_pos_iff.2 hd
  least t h₀ ht := by omega

theorem SkipAtLeast.succ (h : SkipAtLeast d s) (hlt : s < d.length)
    (hne : d[d.length - 1 - s]? ≠ d[d.length - 1]?) : SkipAtLeast d (s + 1) where
  pos := Nat.succ_pos s
  le := hlt
  least t h₀ ht := by
    rcases Nat.lt_succ_iff_lt_or_eq.1 ht with ht | rfl
    · exact h.least t h₀ ht
    · exact hne

theorem SkipAtLeast.isSkip (h : SkipAtLeast d s)
    (hstop : s < d.length → d[d.length - 1 - s]? = d[d.length - 1]?) : IsSkip d s :=
  ⟨h.pos, h.le, hstop, h.least⟩

theorem IsSkip.unique (h : IsSkip d s) (h' : IsSkip d s') : s = s' := by
  rcases lt_trichotomy s s' with hlt | heq | hlt
  · exact absurd (h.stop (hlt.trans_le h'.le)) (h'.least s h.pos hlt)
  · exact heq
  · exact absurd (h'.stop (hlt.trans_le h.le)) (h.least s' h'.pos hlt)

theorem IsSkip.isLeast (hs : IsSkip d s) :
    IsLeast {t | 1 ≤ t ∧ t ≤ d.length ∧ (t = d.length ∨ d[d.length - 1 - t]? = d[d.length - 1]?)}
      s := by
  refine ⟨⟨hs.pos, hs.le, ?_⟩, fun t ht => not_lt.1 fun hlt => ?_⟩
  · rcases hs.le.lt_or_eq with hlt | heq
    · exact .inr (hs.stop hlt)
    · exact .inl heq
  · obtain ⟨h₀, -, rfl | hunit⟩ := ht
    · exact absurd hs.le (not_le.2 hlt)
    · exact hs.least t h₀ hlt hunit

/-- A copy of `d` at position `p` would lie within `h`, and its last unit is there. -/
def LastUnitAt (h d : List α) (p : ℕ) : Prop :=
  p + d.length ≤ h.length ∧ h[p + (d.length - 1)]? = d[d.length - 1]?

variable {h : List α} {c : ℕ}

theorem OccursAt.lastUnitAt (hd : d ≠ []) (hc : OccursAt h d c) : LastUnitAt h d c := by
  have hlt : d.length - 1 < d.length := by have := List.length_pos_iff.2 hd; omega
  have hle := hc.add_le
  refine ⟨hle, ?_⟩
  rw [List.getElem?_eq_getElem hlt, List.getElem?_eq_getElem (by omega),
    (occursAt_iff_getElem hle).1 hc _ hlt]

/-- **The skip is sound**: where the last unit of `d` is, no occurrence of `d` begins strictly
within the skip. -/
theorem IsSkip.not_occursAt (hs : IsSkip d s) (hlast : LastUnitAt h d c) {t : ℕ} (h₀ : 0 < t)
    (ht : t < s) : ¬ OccursAt h d (c + t) := by
  intro hocc
  have hle := hs.le
  have hfit := hocc.add_le
  have hj : d.length - 1 - t < d.length := by omega
  refine hs.least t h₀ ht ?_
  rw [← hlast.2, List.getElem?_eq_getElem hj, ← (occursAt_iff_getElem hfit).1 hocc _ hj,
    List.getElem?_eq_getElem (by omega)]
  congr 2
  omega

/-! ### In memory -/

theorem lastUnitAt_block {m : ℤ → α} {a : ℤ} {n p : ℕ} (hd : d ≠ []) :
    LastUnitAt (block m a n) d p ↔
      p + d.length ≤ n ∧ d[d.length - 1]? = some (m (a + (p + (d.length - 1) : ℕ))) := by
  have := List.length_pos_iff.2 hd
  rw [LastUnitAt, length_block]
  refine and_congr_right fun hp => ?_
  rw [List.getElem?_eq_getElem (by rw [length_block]; omega), getElem_block]
  exact eq_comm

/-- A copy of `d` in memory ends in the last unit of `d`. -/
theorem last_of_block {m : ℤ → α} {a : ℤ} (hd : d ≠ []) (h : block m a d.length = d) :
    d[d.length - 1]? = some (m (a + (d.length - 1 : ℕ))) := by
  have hocc : OccursAt (block m a d.length) d 0 :=
    occursAt_block.2 ⟨by omega, by simpa using h⟩
  have hlast := ((lastUnitAt_block hd).1 (hocc.lastUnitAt hd)).2
  rwa [Nat.zero_add] at hlast

/-- The skip is sound in memory. -/
theorem IsSkip.no_match (hs : IsSkip d s) {m : ℤ → α} {a : ℤ} (hd : d ≠ [])
    (hlast : d[d.length - 1]? = some (m (a + (d.length - 1 : ℕ)))) {t : ℕ} (h₀ : 0 < t)
    (ht : t < s) : block m (a + t) d.length ≠ d := by
  intro hm
  have hunit : LastUnitAt (block m a (t + d.length)) d 0 :=
    (lastUnitAt_block hd).2 ⟨by omega, by rwa [Nat.zero_add]⟩
  refine hs.not_occursAt hunit h₀ ht (occursAt_block.2 ⟨by omega, ?_⟩)
  rwa [Nat.zero_add]

/-- **The skip is tight**: where it is shorter than `d` a copy of `d` may begin right after it. -/
theorem IsSkip.tight [Nontrivial α] (hs : IsSkip d s) (hlt : s < d.length) (a : ℤ) :
    ∃ m : ℤ → α, d[d.length - 1]? = some (m (a + (d.length - 1 : ℕ))) ∧
      block m a d.length ≠ d ∧ block m (a + s) d.length = d := by
  have hpos := hs.pos
  obtain ⟨x, hx⟩ := exists_ne d[0]
  -- a copy of `d` at `a + s`, and no unit of it at `a`
  let m : ℤ → α := fun b => if b = a then x else d.getD (b - (a + s)).toNat x
  have hm : ∀ j : ℕ, ∀ hj : j < d.length, m (a + (s + j : ℕ)) = d[j] := fun j hj => by
    have hidx : (a + (s + j : ℕ) - (a + s)).toNat = j := by omega
    simp only [m, hidx, List.getD_eq_getElem?_getD, List.getElem?_eq_getElem hj, Option.getD_some]
    exact if_neg (by omega)
  refine ⟨m, ?_, fun h => hx ?_, (block_eq_iff rfl).2 fun j hj => ?_⟩
  · have hunit := hm (d.length - 1 - s) (by omega)
    rw [Nat.add_sub_cancel' (by omega)] at hunit
    rw [hunit, ← hs.stop hlt, List.getElem?_eq_getElem]
  · rw [← (block_eq_iff rfl).1 h 0 (by omega), Int.natCast_zero, Int.add_zero]
    exact (if_pos rfl).symm
  · rw [Int.add_assoc, ← Int.natCast_add]
    exact hm j hj

/-! ### The walk of the search -/

/-- The last unit of `d` occurs only there. -/
def LastOnce (d : List α) : Prop := ∀ j < d.length - 1, d[j]? ≠ d[d.length - 1]?

variable [DecidableEq α]

instance (d : List α) : Decidable (LastOnce d) :=
  inferInstanceAs (Decidable (∀ j < d.length - 1, d[j]? ≠ d[d.length - 1]?))

instance (h d : List α) : DecidablePred (LastUnitAt h d) := fun p =>
  inferInstanceAs (Decidable (p + d.length ≤ h.length ∧ h[p + (d.length - 1)]? = d[d.length - 1]?))

/-- The step the search takes from position `c`, with skip `s`: past an occurrence, by the skip
after a mismatch on whose last unit is that of `d`, and by one otherwise. -/
def lastStride (h d : List α) (s c : ℕ) : ℕ :=
  if LastUnitAt h d c then if OccursAt h d c then d.length else s else 1

/-- The positions from which `lastStride` moves by the length of `d`, scanned from left to
right. -/
def lastScan (h d : List α) : List ℕ :=
  if LastOnce d then leftmost (LastUnitAt h d) h.length d.length 0 else plainSearch h d

omit [DecidableEq α] in
theorem IsSkip.lastOnce_iff (hs : IsSkip d s) : LastOnce d ↔ s = d.length := by
  constructor
  · intro honce
    by_contra hne
    have hlt : s < d.length := lt_of_le_of_ne hs.le hne
    have hpos := hs.pos
    exact honce (d.length - 1 - s) (by omega) (hs.stop hlt)
  · rintro rfl j hj
    have hleast := hs.least (d.length - 1 - j) (by omega) (by omega)
    rwa [show d.length - 1 - (d.length - 1 - j) = j by omega] at hleast

/-- When the last unit of `d` occurs only there, every position with that unit is stepped over by
the length of `d`, occurrence or not. -/
theorem stride_lastUnitAt (honce : LastOnce d) (hs : IsSkip d s) (hd : 1 < d.length) :
    Stride (LastUnitAt h d) h.length d.length (lastStride h d s) where
  hit c _ hc := by rw [lastStride, if_pos hc, hs.lastOnce_iff.1 honce, ite_self]
  pos c _ hc := by rw [lastStride, if_neg hc]; exact Nat.one_pos
  short c _ hc := by rwa [lastStride, if_neg hc]
  clear c _ hc q hcq hq := by
    rw [lastStride, if_neg hc] at hq
    rwa [show q = c by omega]

/-- When it occurs before, only occurrences are stepped over by the length of `d`. -/
theorem stride_occursAt (honce : ¬ LastOnce d) (hs : IsSkip d s) (hd : 1 < d.length) :
    Stride (OccursAt h d) h.length d.length (lastStride h d s) := by
  have hlt : s < d.length := lt_of_le_of_ne hs.le (mt hs.lastOnce_iff.2 honce)
  have hne : d ≠ [] := List.length_pos_iff.1 (by omega)
  have hmiss : ∀ c, ¬ OccursAt h d c → lastStride h d s c = if LastUnitAt h d c then s else 1 :=
    fun c hc => by rw [lastStride, if_neg hc]
  refine ⟨fun c _ hc => ?_, fun c _ hc => ?_, fun c _ hc => ?_, fun c _ hc q hcq hq => ?_⟩
  · rw [lastStride, if_pos (hc.lastUnitAt hne), if_pos hc]
  · rw [hmiss c hc]
    split_ifs
    · exact hs.pos
    · exact Nat.one_pos
  · rw [hmiss c hc]
    split_ifs
    · exact hlt
    · exact hd
  · rw [hmiss c hc] at hq
    rcases hcq.lt_or_eq with hcq | rfl
    · split_ifs at hq with hlast
      · rw [← Nat.add_sub_cancel' hcq.le]
        exact hs.not_occursAt hlast (by omega) (by omega)
      · omega
    · exact hc

/-- **The walk keeps `d` within `h` iff its last step ends flush with the end of `h`**, or `d` has
a single unit. -/
theorem lastStride_fits_iff (hs : IsSkip d s) (hd : d ≠ []) (hle : d.length ≤ h.length) :
    Fits (lastStride h d s) h.length d.length 0 ↔
      d.length = 1 ∨ h.length - d.length ∈ lastScan h d := by
  have hpos := List.length_pos_iff.2 hd
  by_cases hone : d.length = 1
  · -- every step is of one position
    refine iff_of_true ?_ (.inl hone)
    have hs₁ : s = 1 := by have := hs.pos; have := hs.le; omega
    rw [hone]
    refine fits_one fun q _ => ?_
    rw [lastStride, hs₁, hone, ite_self, ite_self]
    exact Nat.one_pos
  · have hne : 0 ≠ h.length := by omega
    rw [or_iff_right hone, lastScan]
    split_ifs with honce
    · rw [fits_iff (stride_lastUnitAt honce hs (by omega)) hpos (fun q hq => hq.1)
        (leftmost_spec hpos) (Nat.zero_le _), or_iff_right hne]
    · rw [fits_iff (stride_occursAt honce hs (by omega)) hpos (fun q hq => hq.1)
        (plainSearch_spec hd) (Nat.zero_le _), or_iff_right hne]

end Scan

end PythonicCpp
