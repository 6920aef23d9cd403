import PythonicCpp.Scan.Occurs

/-!
# Blocks of memory

A memory is a function from addresses to units.  Every address can be read: what lies outside the
objects of a program is arbitrary, not absent.

* `block m a n` : the `n` units stored from address `a` on.
* `ofList l x` : a memory that holds `l` from address `0` on and `x` everywhere else.
-/

namespace PythonicCpp

variable {α : Type*}

/-- The `n` units stored from address `a` on. -/
def block (m : ℤ → α) (a : ℤ) : ℕ → List α
  | 0 => []
  | n + 1 => m a :: block m (a + 1) n

/-- A memory that holds `l` from address `0` on and `x` everywhere else. -/
def ofList (l : List α) (x : α) (a : ℤ) : α := if 0 ≤ a then l.getD a.toNat x else x

variable (m : ℤ → α) (a : ℤ) (n : ℕ)

@[simp] theorem block_zero : block m a 0 = [] := rfl

theorem block_succ : block m a (n + 1) = m a :: block m (a + 1) n := rfl

@[simp] theorem length_block : (block m a n).length = n := by
  induction n generalizing a with
  | zero => rfl
  | succ n ih => rw [block, List.length_cons, ih]

theorem block_add (k : ℕ) : block m a (n + k) = block m a n ++ block m (a + n) k := by
  induction n generalizing a with
  | zero => simp
  | succ n ih =>
    rw [Nat.succ_add, block, ih, block, List.cons_append, Int.natCast_succ, add_assoc,
      add_comm (1 : ℤ)]

@[simp] theorem getElem_block {j : ℕ} (hj : j < (block m a n).length) :
    (block m a n)[j] = m (a + j) := by
  induction n generalizing a j with
  | zero => simp at hj
  | succ n ih =>
    cases j with
    | zero => simp [block]
    | succ j =>
      simp only [block, List.getElem_cons_succ, ih, Int.natCast_succ]
      congr 1
      omega

theorem take_block (k : ℕ) : (block m a n).take k = block m a (min k n) := by
  rcases Nat.le_total k n with hk | hk
  · obtain ⟨b, rfl⟩ := Nat.exists_eq_add_of_le hk
    rw [block_add, List.take_left' (length_block m a k), Nat.min_eq_left hk]
  · rw [List.take_of_length_le (by rwa [length_block]), Nat.min_eq_right hk]

theorem drop_block (k : ℕ) : (block m a n).drop k = block m (a + k) (n - k) := by
  rcases Nat.le_total k n with hk | hk
  · obtain ⟨b, rfl⟩ := Nat.exists_eq_add_of_le hk
    rw [block_add, List.drop_left' (length_block m a k), Nat.add_sub_cancel_left]
  · rw [List.drop_of_length_le (by rwa [length_block]), Nat.sub_eq_zero_of_le hk, block_zero]

variable {m a n}

theorem mem_block {x : α} : x ∈ block m a n ↔ ∃ j < n, m (a + j) = x := by
  simp [List.mem_iff_getElem]

theorem block_eq_iff {d : List α} (hn : d.length = n) :
    block m a n = d ↔ ∀ j (hj : j < d.length), m (a + j) = d[j] := by
  constructor
  · rintro rfl j hj
    simp
  · intro h
    exact List.ext_getElem (by simp [hn]) fun j _ hj => by simpa using h j hj

theorem block_eq_block_iff {m' : ℤ → α} {a' : ℤ} :
    block m a n = block m' a' n ↔ ∀ j < n, m (a + j) = m' (a' + j) := by
  rw [block_eq_iff (length_block m' a' n)]
  simp

theorem block_ofList (l : List α) (x : α) : block (ofList l x) 0 l.length = l :=
  (block_eq_iff rfl).2 fun j hj => by simp [ofList, List.getD_eq_getElem?_getD, hj]

/-- An occurrence in a block is a copy in memory that lies within the block. -/
theorem occursAt_block {d : List α} {p : ℕ} :
    Scan.OccursAt (block m a n) d p ↔ p + d.length ≤ n ∧ block m (a + p) d.length = d := by
  rw [Scan.OccursAt, length_block]
  refine and_congr_right fun hp => ?_
  rw [drop_block, take_block, Nat.min_eq_left (by omega)]

end PythonicCpp
