import Mathlib.Data.Int.Basic
import Mathlib.Tactic.Linarith

/-!
# Machine integers and traced computations

* `toSizeT`, `toPtrdiff`, `toInt` : the conversions of a value to a 64-bit unsigned integer, a
  64-bit signed integer and a 32-bit signed integer.  Each keeps a value in its range and reduces
  any other modulo the size of the type.
* `Traced ρ α` : a computation of an `α` together with the reads `ρ` it makes, in order.
-/

namespace PythonicCpp

/-! ### Machine integers -/

/-- Conversion to a 64-bit unsigned integer. -/
def toSizeT (x : ℤ) : ℕ := (x % 2 ^ 64).toNat

/-- Conversion to a 64-bit signed integer. -/
def toPtrdiff (x : ℤ) : ℤ := x.bmod (2 ^ 64)

/-- Conversion to a 32-bit signed integer. -/
def toInt (x : ℤ) : ℤ := x.bmod (2 ^ 32)

theorem toSizeT_of_lt {x : ℤ} (h₀ : 0 ≤ x) (h : x < 2 ^ 64) : (toSizeT x : ℤ) = x := by
  rw [toSizeT, Int.emod_eq_of_lt h₀ h, Int.toNat_of_nonneg h₀]

theorem toSizeT_natCast {x : ℕ} (h : x < 2 ^ 64) : toSizeT x = x := by
  have := toSizeT_of_lt (Int.natCast_nonneg x) (by exact_mod_cast h)
  exact_mod_cast this

theorem toPtrdiff_of_lt {x : ℤ} (h₀ : 0 ≤ x) (h : x < 2 ^ 63) : toPtrdiff x = x := by
  rw [toPtrdiff, Int.bmod_eq_of_le] <;> norm_num <;> omega

theorem toInt_of_lt {x : ℤ} (h₀ : 0 ≤ x) (h : x < 2 ^ 31) : toInt x = x := by
  rw [toInt, Int.bmod_eq_of_le] <;> norm_num <;> omega

theorem toInt_toSizeT {x : ℕ} (h : x < 2 ^ 31) : toInt (toSizeT x) = x := by
  rw [toSizeT_natCast (by omega), toInt_of_lt (by omega) (by omega)]

theorem toSizeT_sub {m n : ℕ} (hle : n ≤ m) (hm : m < 2 ^ 64) : toSizeT ((m : ℤ) - n) = m - n := by
  rw [← Nat.cast_sub hle, toSizeT_natCast (by omega)]

/-- A value that is converted before it is subtracted. -/
theorem toSizeT_sub_toSizeT (x y : ℤ) : toSizeT (x - toSizeT y) = toSizeT (x - y) := by
  have hconv : (toSizeT y : ℤ) = y % 2 ^ 64 :=
    Int.toNat_of_nonneg (Int.emod_nonneg y (by decide))
  rw [toSizeT, hconv, Int.sub_emod, Int.emod_emod, ← Int.sub_emod, toSizeT]

theorem toInt_toSizeT_add {m n : ℕ} (h : m + n < 2 ^ 31) :
    toInt (toSizeT ((m : ℤ) + n)) = (m + n : ℕ) := by
  rw [← Nat.cast_add, toInt_toSizeT h]

/-! ### Traced computations -/

/-- A value together with the reads made to compute it, in order. -/
structure Traced (ρ α : Type*) where
  /-- The value computed. -/
  val : α
  /-- The reads made. -/
  reads : List ρ

namespace Traced

universe u

variable {ρ : Type*} {α β : Type u}

instance : Monad (Traced ρ) where
  pure a := ⟨a, []⟩
  bind x f := ⟨(f x.val).val, x.reads ++ (f x.val).reads⟩

/-- Make one read. -/
def read (r : ρ) (a : α) : Traced ρ α := ⟨a, [r]⟩

/-- Every read made satisfies `ok`. -/
def All (ok : ρ → Prop) (x : Traced ρ α) : Prop := ∀ r ∈ x.reads, ok r

@[simp] theorem val_pure (a : α) : (pure a : Traced ρ α).val = a := rfl

@[simp] theorem val_bind (x : Traced ρ α) (f : α → Traced ρ β) :
    (x >>= f).val = (f x.val).val := rfl

@[simp] theorem val_read (r : ρ) (a : α) : (read r a).val = a := rfl

theorem read_bind (r : ρ) (a : α) (f : α → Traced ρ β) :
    read r a >>= f = read r a >>= fun _ => f a := rfl

variable {ok : ρ → Prop}

theorem All.imp {x : Traced ρ α} {ok' : ρ → Prop} (h : x.All ok) (hok : ∀ {r}, ok r → ok' r) :
    x.All ok' := fun r hr => hok (h r hr)

@[simp] theorem all_pure (a : α) : (pure a : Traced ρ α).All ok := nofun

@[simp] theorem all_read {r : ρ} {a : α} : (read r a).All ok ↔ ok r := by
  simp [All, read]

@[simp] theorem all_bind {x : Traced ρ α} {f : α → Traced ρ β} :
    (x >>= f).All ok ↔ x.All ok ∧ (f x.val).All ok := by
  simp [All, bind, or_imp, forall_and]

end Traced

end PythonicCpp
