import PythonicCpp.Machine.Basic
import Mathlib.Data.Nat.Digits.Lemmas

/-!
# Words in memory

* `leBytes n x`, `leWord l` : the `n` bytes of a number, the lowest one first, and the number of a
  list of bytes.
* `leWord_leBytes` : the number of the bytes of a number.
* `and_top_bits`, `and_low_bits`, `or_tag` : a word whose two top bits are a tag.
-/

namespace PythonicCpp

/-- The number whose bytes are `l`, the lowest one first. -/
def leWord (l : List UInt8) : ℕ := Nat.ofDigits 256 (l.map UInt8.toNat)

/-- The `n` lowest bytes of a number, the lowest one first. -/
def leBytes : ℕ → ℕ → List UInt8
  | 0, _ => []
  | n + 1, x => UInt8.ofNat x :: leBytes n (x / 256)

variable {l : List UInt8} {n x : ℕ}

/-! ### Bytes -/

@[simp] theorem length_leBytes (n x : ℕ) : (leBytes n x).length = n := by
  induction n generalizing x with
  | zero => rfl
  | succ n ih => rw [leBytes, List.length_cons, ih]

theorem leWord_cons (b : UInt8) (l : List UInt8) : leWord (b :: l) = b.toNat + 256 * leWord l := by
  rw [leWord, List.map_cons, Nat.ofDigits_cons]
  rfl

theorem leWord_append (l l' : List UInt8) :
    leWord (l ++ l') = leWord l + 256 ^ l.length * leWord l' := by
  rw [leWord, List.map_append, Nat.ofDigits_append, List.length_map]
  rfl

theorem leWord_lt (l : List UInt8) : leWord l < 256 ^ l.length := by
  have hlt := Nat.ofDigits_lt_base_pow_length (b := 256) (l := l.map UInt8.toNat) (by decide)
    fun d hd => by
      obtain ⟨b, -, rfl⟩ := List.mem_map.1 hd
      exact b.toNat_lt
  rwa [List.length_map] at hlt

/-- **A number that fits is read back.** -/
theorem leWord_leBytes (hx : x < 256 ^ n) : leWord (leBytes n x) = x := by
  induction n generalizing x with
  | zero =>
    rw [Nat.pow_zero] at hx
    exact (Nat.lt_one_iff.1 hx).symm
  | succ n ih =>
    have hdiv : x / 256 < 256 ^ n :=
      Nat.div_lt_of_lt_mul (by rwa [Nat.pow_succ, Nat.mul_comm] at hx)
    rw [leBytes, leWord_cons, ih hdiv, UInt8.toNat_ofNat']
    exact Nat.mod_add_div x 256

/-! ### Tags -/

/-- The two top bits of a word. -/
theorem and_top_bits (x : ℕ) : x &&& 0xC000000000000000 = x / 2 ^ 62 % 4 * 2 ^ 62 := by
  have hmask : 0xC000000000000000 = (2 ^ 2 - 1) * 2 ^ 62 := rfl
  refine Nat.eq_of_testBit_eq fun i => ?_
  rw [hmask, Nat.testBit_and, Nat.testBit_mul_two_pow, Nat.testBit_mul_two_pow,
    Nat.testBit_two_pow_sub_one, show 4 = 2 ^ 2 from rfl, Nat.testBit_mod_two_pow,
    Nat.testBit_div_two_pow]
  by_cases hi : 62 ≤ i
  · simp [hi, Bool.and_comm]
  · simp [hi]

/-- The other bits. -/
theorem and_low_bits (x : ℕ) : x &&& 0x3FFFFFFFFFFFFFFF = x % 2 ^ 62 :=
  Nat.and_two_pow_sub_one_eq_mod x 62

/-- A tag above a number. -/
theorem or_tag {k : ℕ} (hx : x < 2 ^ 62) : x ||| k * 2 ^ 62 = k * 2 ^ 62 + x := by
  rw [Nat.or_comm, Nat.mul_comm]
  exact (Nat.two_pow_add_eq_or_of_lt hx k).symm

end PythonicCpp
