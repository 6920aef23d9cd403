import PythonicCpp.Machine.Blocks
import Mathlib.Data.List.Flatten

/-!
# Holders in slots

A list of slots, each with the addresses that its holder holds.

* `Counted.set` : one slot after another exchanges what it holds.
* `Counted.lt_of_ne` : what another slot holds, it does not hold alone.
-/

namespace PythonicCpp

variable {α β : Type} {h h' : Heap α} {f : β → List ℕ} {l : List β} {i j a : ℕ} {x y : β}

theorem count_flatMap_set (hx : l[i]? = some x) (y : β) (a : ℕ) :
    ((l.set i y).flatMap f).count a + (f x).count a =
      (l.flatMap f).count a + (f y).count a := by
  induction l generalizing i with
  | nil => cases hx
  | cons z l ih =>
    cases i with
    | zero =>
      obtain rfl : z = x := Option.some.inj hx
      simp only [List.set_cons_zero, List.flatMap_cons, List.count_append]
      omega
    | succ i =>
      have hrest := ih hx
      simp only [List.set_cons_succ, List.flatMap_cons, List.count_append]
      omega

theorem count_le_flatMap (hx : l[i]? = some x) (a : ℕ) :
    (f x).count a ≤ (l.flatMap f).count a := by
  rw [List.flatMap_def]
  exact (List.sublist_flatten_of_mem (List.mem_map_of_mem (List.mem_of_getElem? hx))).count_le a

/-- Two slots are two of the holders. -/
theorem count_add_le_flatMap (hx : l[i]? = some x) (hy : l[j]? = some y) (hne : i ≠ j) (a : ℕ) :
    (f x).count a + (f y).count a ≤ (l.flatMap f).count a := by
  -- without the first, the second is still there
  induction l generalizing i j with
  | nil => cases hx
  | cons z l ih =>
    rw [List.flatMap_cons, List.count_append]
    cases i with
    | zero =>
      obtain rfl : z = x := Option.some.inj hx
      cases j with
      | zero => exact absurd rfl hne
      | succ j => exact Nat.add_le_add_left (count_le_flatMap (l := l) hy a) _
    | succ i =>
      cases j with
      | zero =>
        obtain rfl : z = y := Option.some.inj hy
        rw [Nat.add_comm]
        exact Nat.add_le_add_left (count_le_flatMap (l := l) hx a) _
      | succ j => exact (ih hx hy fun heq => hne (congrArg _ heq)).trans (Nat.le_add_left _ _)

/-- How often an address is held, when nobody holds more than one thing. -/
theorem count_flatMap_eq (hf : ∀ x, (f x).length ≤ 1) (l : List β) (a : ℕ) :
    (l.flatMap f).count a = l.countP fun x => decide (a ∈ f x) := by
  induction l with
  | nil => rfl
  | cons x l ih =>
    rw [List.flatMap_cons, List.count_append, List.countP_cons, ih, Nat.add_comm]
    congr 1
    by_cases ha : a ∈ f x
    · have hle : (f x).count a ≤ (f x).length := List.count_le_length
      have hpos := List.count_pos_iff.2 ha
      have hone := hf x
      rw [if_pos (decide_eq_true ha)]
      omega
    · rw [List.count_eq_zero_of_not_mem ha, if_neg (by simpa using ha)]

/-- A slot exchanges what it holds. -/
theorem Counted.set (hc : Counted h (l.flatMap f)) (hx : l[i]? = some x)
    (hk : Keeps h (f x) h' (f y)) : Counted h' ((l.set i y).flatMap f) := fun a => by
  have hcount := hc a
  have hkeeps := hk.count a
  have hset := count_flatMap_set (f := f) hx y a
  omega

/-- What another slot holds, it does not hold alone. -/
theorem Counted.lt_of_ne (hc : Counted h (l.flatMap f)) (hx : l[i]? = some x)
    (hy : l[j]? = some y) (hne : i ≠ j) (ha : a ∈ f y) : (f x).count a < h.count a := by
  have hle := count_add_le_flatMap (f := f) hx hy hne a
  have hpos := List.count_pos_iff.2 ha
  rw [hc a]
  omega

end PythonicCpp
