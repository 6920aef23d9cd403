import PythonicCpp.Scan.LeadCode

/-!
# Splitting lists that are not encodings

`splitLeads` splits any list of units, whatever follows a lead.  A unit that is not a lead may begin
a part, and a lead may lie inside one.

* `strays`, `swallowed` : how many units of each kind there are, counted unit by unit.
* `splitLeads_flatten` : no unit is lost or moved.
* `length_splitLeads_iff` : when there are as many parts as leads.
* `Announced` : the units that are not leads are those that the leads announce.
* `announced_iff` : exactly then there are as many parts as leads in every beginning of the list.
-/

namespace PythonicCpp

namespace Scan

variable {β : Type*} (lead : β → Bool) (width : β → ℕ)

/-- How many units that are not leads begin a part; the first `owed` units belong to a part begun
before. -/
def strays : ℕ → List β → ℕ
  | _, [] => 0
  | 0, b :: l => (if lead b then 0 else 1) + strays (width b - 1) l
  | owed + 1, _ :: l => strays owed l

/-- How many leads do not begin a part; the first `owed` units belong to a part begun before. -/
def swallowed : ℕ → List β → ℕ
  | _, [] => 0
  | 0, b :: l => swallowed (width b - 1) l
  | owed + 1, b :: l => (if lead b then 1 else 0) + swallowed owed l

variable {lead width}

theorem strays_eq_drop (owed : ℕ) (l : List β) :
    strays lead width owed l = strays lead width 0 (l.drop owed) := by
  induction owed generalizing l with
  | zero => rfl
  | succ owed ih =>
    cases l with
    | nil => simp [strays]
    | cons b l => rw [strays, ih, List.drop_succ_cons]

theorem swallowed_eq_drop (owed : ℕ) (l : List β) :
    swallowed lead width owed l =
      (l.take owed).countP lead + swallowed lead width 0 (l.drop owed) := by
  induction owed generalizing l with
  | zero => simp
  | succ owed ih =>
    cases l with
    | nil => simp [swallowed]
    | cons b l =>
      rw [swallowed, ih, List.take_succ_cons, List.drop_succ_cons, List.countP_cons]
      omega

variable (lead width) in
/-- The parts of a list and its leads differ by the strays and the swallowed. -/
theorem length_splitLeads (l : List β) :
    (splitLeads width l).length + swallowed lead width 0 l =
      l.countP lead + strays lead width 0 l := by
  fun_induction splitLeads width l with
  | case1 => simp [swallowed, strays]
  | case2 b l ih =>
    have hcount : l.countP lead =
        (l.take (width b - 1)).countP lead + (l.drop (width b - 1)).countP lead := by
      rw [← List.countP_append, List.take_append_drop]
    rw [swallowed, strays, swallowed_eq_drop, strays_eq_drop, List.countP_cons, List.length_cons,
      hcount]
    split_ifs <;> omega

/-- **There are as many parts as leads** iff as many other units begin a part as leads are inside
one. -/
theorem length_splitLeads_iff (l : List β) :
    (splitLeads width l).length = l.countP lead ↔
      strays lead width 0 l = swallowed lead width 0 l := by
  have := length_splitLeads lead width l
  omega

/-! ### Units that are announced -/

variable (lead width) in
/-- A lead announces that `width - 1` units follow it.  As far as the list goes, these are not
leads, and there are no other units that are not; the first `owed` units are announced by a lead
before the list. -/
structure Announced (owed : ℕ) (l : List β) : Prop where
  first : ∀ (j : ℕ) (c : β), j < owed → l[j]? = some c → lead c = false
  follow : ∀ (i j : ℕ) (b c : β), l[i]? = some b → lead b = true → i < j → j < i + width b →
    l[j]? = some c → lead c = false
  only : ∀ (j : ℕ) (c : β), l[j]? = some c → lead c = false →
    j < owed ∨ ∃ (i : ℕ) (b : β), l[i]? = some b ∧ lead b = true ∧ i < j ∧ j < i + width b

theorem announced_nil (owed : ℕ) : Announced lead width owed [] where
  first _ _ _ hc := by cases hc
  follow _ _ _ _ hi := by cases hi
  only _ _ hc := by cases hc

/-- Where nothing is announced, a lead comes next. -/
theorem announced_zero_cons {b : β} {l : List β} :
    Announced lead width 0 (b :: l) ↔ lead b = true ∧ Announced lead width (width b - 1) l := by
  constructor
  · intro h
    have hb : lead b = true := by
      by_contra hb
      rcases h.only 0 b rfl (Bool.not_eq_true _ ▸ hb) with hlt | ⟨i, _, _, _, hlt, _⟩
      · exact absurd hlt (Nat.lt_irrefl 0)
      · exact absurd hlt (Nat.not_lt_zero i)
    refine ⟨hb, fun j c hj hc => ?_, fun i j b' c hi hb' hij hj hc => ?_, fun j c hc hlead => ?_⟩
    · exact h.follow 0 (j + 1) b c rfl hb (Nat.succ_pos j) (by omega) hc
    · exact h.follow (i + 1) (j + 1) b' c hi hb' (by omega) (by omega) hc
    · rcases h.only (j + 1) c hc hlead with hlt | ⟨i, b', hi, hb', hij, hj⟩
      · exact absurd hlt (Nat.not_lt_zero _)
      · cases i with
        | zero =>
          obtain rfl : b = b' := Option.some.inj hi
          exact .inl (by omega)
        | succ i => exact .inr ⟨i, b', hi, hb', by omega, by omega⟩
  · rintro ⟨hb, h⟩
    refine ⟨fun j c hj => absurd hj (Nat.not_lt_zero j), fun i j b' c hi hb' hij hj hc => ?_,
      fun j c hc hlead => .inr ?_⟩
    · obtain ⟨j, rfl⟩ := Nat.exists_eq_succ_of_ne_zero (by omega : j ≠ 0)
      cases i with
      | zero =>
        obtain rfl : b = b' := Option.some.inj hi
        exact h.first j c (by omega) hc
      | succ i => exact h.follow i j b' c hi hb' (by omega) (by omega) hc
    · cases j with
      | zero =>
        obtain rfl : b = c := Option.some.inj hc
        rw [hb] at hlead
        cases hlead
      | succ j =>
        rcases h.only j c hc hlead with hlt | ⟨i, b', hi, hb', hij, hj⟩
        · exact ⟨0, b, rfl, hb, Nat.succ_pos j, by omega⟩
        · exact ⟨i + 1, b', hi, hb', by omega, by omega⟩

/-- A unit that is announced is not a lead. -/
theorem announced_succ_cons {owed : ℕ} {b : β} {l : List β} :
    Announced lead width (owed + 1) (b :: l) ↔ lead b = false ∧ Announced lead width owed l := by
  constructor
  · intro h
    have hb : lead b = false := h.first 0 b (Nat.succ_pos owed) rfl
    refine ⟨hb, fun j c hj hc => ?_, fun i j b' c hi hb' hij hj hc => ?_, fun j c hc hlead => ?_⟩
    · exact h.first (j + 1) c (by omega) hc
    · exact h.follow (i + 1) (j + 1) b' c hi hb' (by omega) (by omega) hc
    · rcases h.only (j + 1) c hc hlead with hlt | ⟨i, b', hi, hb', hij, hj⟩
      · exact .inl (by omega)
      · cases i with
        | zero =>
          obtain rfl : b = b' := Option.some.inj hi
          rw [hb] at hb'
          cases hb'
        | succ i => exact .inr ⟨i, b', hi, hb', by omega, by omega⟩
  · rintro ⟨hb, h⟩
    refine ⟨fun j c hj hc => ?_, fun i j b' c hi hb' hij hj hc => ?_, fun j c hc hlead => ?_⟩
    · cases j with
      | zero =>
        obtain rfl : b = c := Option.some.inj hc
        exact hb
      | succ j => exact h.first j c (by omega) hc
    · obtain ⟨j, rfl⟩ := Nat.exists_eq_succ_of_ne_zero (by omega : j ≠ 0)
      cases i with
      | zero =>
        obtain rfl : b = b' := Option.some.inj hi
        rw [hb] at hb'
        cases hb'
      | succ i => exact h.follow i j b' c hi hb' (by omega) (by omega) hc
    · cases j with
      | zero => exact .inl (Nat.succ_pos owed)
      | succ j =>
        rcases h.only j c hc hlead with hlt | ⟨i, b', hi, hb', hij, hj⟩
        · exact .inl (by omega)
        · exact .inr ⟨i + 1, b', hi, hb', by omega, by omega⟩

/-- **The first unit out of place** is a stray or is swallowed, and nothing makes up for it in the
beginning of the list that ends with it. -/
theorem announced_iff {owed : ℕ} {l : List β} :
    (∀ k, strays lead width owed (l.take k) = swallowed lead width owed (l.take k)) ↔
      Announced lead width owed l := by
  induction l generalizing owed with
  | nil => exact iff_of_true (fun k => by simp [strays, swallowed]) (announced_nil owed)
  | cons b l ih =>
    cases owed with
    | zero =>
      rw [announced_zero_cons, ← ih]
      constructor
      · intro h
        have hb : lead b = true := by
          have hone := h 1
          by_contra hb
          simp [strays, swallowed, hb] at hone
        refine ⟨hb, fun k => ?_⟩
        have hnext := h (k + 1)
        rwa [List.take_succ_cons, strays, swallowed, if_pos hb, Nat.zero_add] at hnext
      · rintro ⟨hb, h⟩ k
        cases k with
        | zero => rw [List.take_zero, strays, swallowed]
        | succ k => rw [List.take_succ_cons, strays, swallowed, if_pos hb, Nat.zero_add, h k]
    | succ owed =>
      rw [announced_succ_cons, ← ih]
      constructor
      · intro h
        have hb : lead b = false := by
          have hone := h 1
          by_contra hb
          simp [strays, swallowed, hb] at hone
        refine ⟨hb, fun k => ?_⟩
        have hnext := h (k + 1)
        rwa [List.take_succ_cons, strays, swallowed, hb, if_neg Bool.false_ne_true,
          Nat.zero_add] at hnext
      · rintro ⟨hb, h⟩ k
        cases k with
        | zero => rw [List.take_zero, strays, swallowed]
        | succ k =>
          rw [List.take_succ_cons, strays, swallowed, hb, if_neg Bool.false_ne_true, Nat.zero_add,
            h k]

theorem splitLeads_flatten (l : List β) : (splitLeads width l).flatten = l := by
  fun_induction splitLeads width l with
  | case1 => rfl
  | case2 b l ih => rw [List.flatten_cons, ih, List.cons_append, List.take_append_drop]

end Scan

end PythonicCpp
