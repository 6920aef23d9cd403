import Mathlib.Data.List.Basic

/-!
# Cells of a buffer

* `overwrite l off new` : the cells `l` with those from `off` on replaced by `new`.
* `Terminated z u l` : the cells hold the text `u`, and `z` right after it.
* `Terminated.expand`, `Terminated.shrink`, `Terminated.write` : what writing does to a terminated
  text.
-/

namespace PythonicCpp

variable {α : Type}

/-- The cells `l` with those from `off` on replaced by `new`. -/
def overwrite (l : List α) (off : ℕ) (new : List α) : List α :=
  l.take off ++ new ++ l.drop (off + new.length)

/-- The cells hold the text `u`, and `z` right after it. -/
def Terminated (z : α) (u l : List α) : Prop := ∃ rest, l = u ++ z :: rest

variable {z : α} {u l new : List α} {off n : ℕ}

theorem length_overwrite (h : off + new.length ≤ l.length) :
    (overwrite l off new).length = l.length := by
  rw [overwrite, List.length_append, List.length_append, List.length_take, List.length_drop]
  omega

theorem overwrite_append_left (h : off + new.length ≤ u.length) (v : List α) :
    overwrite (u ++ v) off new = overwrite u off new ++ v := by
  rw [overwrite, overwrite, List.take_append_of_le_length (by omega),
    List.drop_append_of_le_length h, List.append_assoc _ _ v]

theorem overwrite_append (v w : List α) (h : new.length = v.length) :
    overwrite (u ++ (v ++ w)) u.length new = u ++ (new ++ w) := by
  rw [overwrite, List.take_left, h, ← List.append_assoc u v, ← List.length_append,
    List.drop_left, List.append_assoc]

/-- Writing all of the end. -/
theorem overwrite_append_self (v : List α) (h : new.length = v.length) :
    overwrite (u ++ v) u.length new = u ++ new := by
  have hend := overwrite_append (u := u) v [] h
  rwa [List.append_nil, List.append_nil] at hend

/-- Writing nothing. -/
@[simp] theorem overwrite_nil (l : List α) (off : ℕ) : overwrite l off [] = l := by
  rw [overwrite, List.append_nil, List.length_nil, Nat.add_zero, List.take_append_drop]

/-- Writing at the start. -/
theorem overwrite_zero (l new : List α) : overwrite l 0 new = new ++ l.drop new.length := by
  rw [overwrite, List.take_zero, List.nil_append, Nat.zero_add]

/-- What comes after is not written. -/
theorem getElem?_overwrite {i : ℕ} (hi : off + new.length ≤ i) (hl : i ≤ l.length) :
    (overwrite l off new)[i]? = l[i]? := by
  rw [overwrite, List.getElem?_append_right, List.getElem?_drop]
  all_goals rw [List.length_append, List.length_take]
  · congr 1
    omega
  · omega

/-! ### Terminated texts -/

theorem terminated_iff : Terminated z u l ↔ l.take (u.length + 1) = u ++ [z] := by
  constructor
  · rintro ⟨rest, rfl⟩
    rw [List.take_append, Nat.add_sub_cancel_left, List.take_of_length_le (by omega),
      List.take_succ_cons, List.take_zero]
  · intro h
    refine ⟨l.drop (u.length + 1), ?_⟩
    rw [List.append_cons, ← h, List.take_append_drop]

theorem Terminated.length_lt (h : Terminated z u l) : u.length < l.length := by
  obtain ⟨rest, rfl⟩ := h
  rw [List.length_append, List.length_cons]
  omega

/-- Reading within the text. -/
theorem Terminated.read (h : Terminated z u l) (hn : off + n ≤ u.length) :
    (l.drop off).take n = (u.drop off).take n := by
  obtain ⟨rest, rfl⟩ := h
  rw [List.drop_append_of_le_length (by omega),
    List.take_append_of_le_length (by rw [List.length_drop]; omega)]

/-- Reading the text, and perhaps its terminator. -/
theorem Terminated.read_of_le (h : Terminated z u l) (hn : off + n ≤ u.length + 1) :
    (l.drop off).take n = ((u ++ [z]).drop off).take n := by
  obtain ⟨rest, rfl⟩ := h
  have hlen : (u ++ [z]).length = u.length + 1 := List.length_append
  rw [List.append_cons, List.drop_append_of_le_length (by omega),
    List.take_append_of_le_length (by rw [List.length_drop]; omega)]

/-- Reading the text and its terminator. -/
theorem Terminated.read_all (h : Terminated z u l) : (l.drop 0).take (u.length + 1) = u ++ [z] := by
  rw [List.drop_zero]
  exact terminated_iff.1 h

/-- A text and its terminator, copied. -/
theorem terminated_copy : Terminated z u (overwrite l 0 (u ++ [z])) := by
  refine ⟨l.drop (u.length + 1), ?_⟩
  rw [overwrite_zero, List.length_append, List.length_singleton, List.append_assoc,
    List.singleton_append]

/-- A text, and then its terminator. -/
theorem terminated_write (h : u.length < l.length) :
    Terminated z u (overwrite (overwrite l 0 u) u.length [z]) := by
  have hrest : (l.drop u.length).length = l.length - u.length := List.length_drop
  rw [overwrite_zero]
  cases hdrop : l.drop u.length with
  | nil =>
    rw [hdrop, List.length_nil] at hrest
    omega
  | cons x rest => exact ⟨rest, overwrite_append [x] rest rfl⟩

/-- Writing the terminator again. -/
theorem Terminated.overwrite_self (h : Terminated z u l) : overwrite l u.length [z] = l := by
  obtain ⟨rest, rfl⟩ := h
  exact overwrite_append [z] rest rfl

/-- Writing within the text. -/
theorem Terminated.write (h : Terminated z u l) (hn : off + new.length ≤ u.length) :
    Terminated z (overwrite u off new) (overwrite l off new) := by
  obtain ⟨rest, rfl⟩ := h
  exact ⟨rest, overwrite_append_left hn _⟩

/-- A later terminator: the text is followed by `n` cells of any contents. -/
theorem Terminated.expand (h : Terminated z u l) (hn : u.length + n < l.length) :
    ∃ g : List α, g.length = n ∧ Terminated z (u ++ g) (overwrite l (u.length + n) [z]) := by
  have hlen : (l.drop u.length).length = l.length - u.length := List.length_drop
  refine ⟨(l.drop u.length).take n, by rw [List.length_take]; omega, ?_⟩
  obtain ⟨rest, rfl⟩ := h
  rw [List.drop_left] at *
  rw [List.length_append] at hn
  refine ⟨(z :: rest).drop (n + 1), ?_⟩
  rw [overwrite, List.length_singleton, List.take_append, Nat.add_sub_cancel_left,
    List.take_of_length_le (by omega), Nat.add_assoc, List.drop_append, Nat.add_sub_cancel_left,
    List.drop_of_length_le (by omega), List.nil_append, List.append_assoc _ [z],
    List.singleton_append]

/-- An earlier terminator. -/
theorem Terminated.shrink (h : Terminated z u l) (hn : n ≤ u.length) :
    Terminated z (u.take n) (overwrite l n [z]) := by
  obtain ⟨rest, rfl⟩ := h
  refine ⟨(u ++ z :: rest).drop (n + 1), ?_⟩
  rw [overwrite, List.take_append_of_le_length hn, List.append_assoc]
  rfl

end PythonicCpp
