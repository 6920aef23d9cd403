import PythonicCpp.Text.Utf8
import PythonicCpp.Machine.Checked

/-!
# `capitalize`

`capitalize` rewrites the first code unit of a text by `std::toupper` and copies the rest.  Nothing
checks that there is a first unit.

* `toupper`, `charToInt`, `intToChar` : the rewriting, through an `int`.
* `capitalizeUnits` : the function, up to its `return`.
* `capitalizeUnits_iff` : of a well-formed text its string has the first scalar value rewritten, and
  nothing outside the text is read, iff the text is not empty.
-/

namespace PythonicCpp

open Scan

/-- The value of a `char`, which is signed, as an `int`. -/
def charToInt (c : CodeUnit) : ℤ := (c.toNat : ℤ).bmod (2 ^ 8)

/-- The conversion of an `int` to a `char`. -/
def intToChar (n : ℤ) : CodeUnit := .ofNat (n % 2 ^ 8).toNat

/-- `std::toupper` in the C locale, on the values of a `char`. -/
def toupper (c : ℤ) : ℤ := if 97 ≤ c ∧ c ≤ 122 then c - 32 else c

/-- The code units of `result` where `capitalize(rng)` returns. -/
def capitalizeUnits (rng : Span) : Checked (List CodeUnit) := do
  let begin := rng.first
  let size := rng.size
  access begin 1
  let headCapitalized := toupper (charToInt (rng.storage begin))
  let tailSize ← sizeSub size 1
  access (begin + 1) tailSize
  pure (intToChar headCapitalized :: block rng.storage (begin + 1) tailSize)

/-- A recorded difference does not wrap, and a recorded access is to units of the text. -/
def Event.Within (t : Text) : Event → Prop
  | diff a b => b ≤ a
  | units a n => t.first ≤ a ∧ a + n ≤ t.last

instance (t : Text) : DecidablePred (Event.Within t)
  | .diff a b => inferInstanceAs (Decidable (b ≤ a))
  | .units a n => inferInstanceAs (Decidable (t.first ≤ a ∧ a + n ≤ t.last))

variable {H : Text}

/-! ### The first unit -/

/-- What becomes of the first unit. -/
def upperUnit (c : CodeUnit) : CodeUnit := intToChar (toupper (charToInt c))

/-- The first unit of a multi-byte code point stays, although its `char` is negative. -/
theorem upperUnit_of_lt {b : CodeUnit} (hb : 0xc1 < b) : upperUnit b = b := by
  have hall : ∀ n < 0x100, 0xc1 < n → upperUnit (.ofNat n) = .ofNat n := by decide +kernel
  have h := hall b.toNat b.toNat_lt hb
  rwa [UInt8.ofNat_toNat] at h

theorem utf8EncodeChar_toUpper_ascii {n : ℕ} (hn : n < 0x80) :
    String.utf8EncodeChar (Char.ofNat n).toUpper =
      (String.utf8EncodeChar (Char.ofNat n)).modifyHead upperUnit := by
  revert n
  decide +kernel

/-- **The first unit of a scalar value in upper case** is the first unit rewritten, whatever the
length of its encoding. -/
theorem utf8EncodeChar_toUpper (c : Char) :
    String.utf8EncodeChar c.toUpper = (String.utf8EncodeChar c).modifyHead upperUnit := by
  by_cases hc : c.toNat < 0x80
  · have h := utf8EncodeChar_toUpper_ascii hc
    rwa [Char.ofNat_toNat] at h
  · have hupper : c.toUpper = c := dif_neg fun h => hc (Nat.lt_of_le_of_lt h.2 (by decide))
    obtain ⟨b, l, henc, -, -, hstep⟩ := utf8EncodeChar_shape c
    have hlen : 1 < c.utf8Size := by
      have := mt Char.utf8Size_eq_one_iff.1 fun h => hc (Nat.lt_succ_of_le h)
      have := c.utf8Size_pos
      omega
    rw [← String.length_utf8EncodeChar, henc, List.length_cons, ← hstep] at hlen
    have hb : 0xc1 < b := by
      by_contra hle
      rw [stepOf, if_pos (UInt8.not_lt.1 hle)] at hlen
      exact absurd hlen (lt_irrefl 1)
    rw [hupper, henc, List.modifyHead_cons, upperUnit_of_lt hb]

/-- Rewriting twice is rewriting once. -/
theorem upperUnit_upperUnit (b : CodeUnit) : upperUnit (upperUnit b) = upperUnit b := by
  have hall : ∀ n < 0x100, upperUnit (upperUnit (.ofNat n)) = upperUnit (.ofNat n) := by
    decide +kernel
  have h := hall b.toNat b.toNat_lt
  rwa [UInt8.ofNat_toNat] at h

theorem modifyHead_upperUnit (l : List CodeUnit) :
    (l.modifyHead upperUnit).modifyHead upperUnit = l.modifyHead upperUnit := by
  cases l with
  | nil => rfl
  | cons b l => simp only [List.modifyHead_cons, upperUnit_upperUnit]

theorem encode_toUpper (cs : List Char) :
    encode (cs.modifyHead Char.toUpper) = (encode cs).modifyHead upperUnit := by
  cases cs with
  | nil => rfl
  | cons c cs =>
    obtain ⟨b, l, henc, -⟩ := utf8EncodeChar_shape c
    have hupper := utf8EncodeChar_toUpper c
    change String.utf8EncodeChar c.toUpper ++ encode cs =
      (String.utf8EncodeChar c ++ encode cs).modifyHead upperUnit
    rw [hupper, henc]
    rfl

/-! ### The function -/

/-- `capitalize` of a text that is not empty. -/
theorem yields_capitalizeUnits (hH : H.units ≠ []) :
    Yields (capitalizeUnits H.toSpan) (H.units.modifyHead upperUnit)
      [.units H.first 1, .diff H.size 1, .units (H.first + 1) (H.size - 1)] := by
  have hsize : H.size ≠ 0 := mt H.units_eq_nil_iff.2 hH
  have := H.size_lt'
  have hunits : H.units = H.storage H.first :: block H.storage (H.first + 1) (H.size - 1) := by
    rw [Span.units, ← block_succ, Nat.sub_add_cancel (Nat.pos_of_ne_zero hsize)]
  rw [hunits, List.modifyHead_cons]
  exact (yields_access _ 1).bind <| (yields_sizeSub (by omega) (by omega)).bind <|
    (yields_access _ _).bind (yields_pure _)

/-- **When `capitalize` rewrites the first scalar value** of a well-formed text, reading nothing
outside it: exactly when the text is not empty.  Its string has the same number of code units and
of scalar values, and capitalizing these units again changes nothing. -/
theorem capitalizeUnits_iff (H : Text) (cs : List Char) (hH : H.units = encode cs) :
    ((capitalizeUnits H.toSpan).run.All (Event.Within H) ∧
        ∃ result, (capitalizeUnits H.toSpan).run.val = some result ∧
          result = encode (cs.modifyHead Char.toUpper) ∧ result.length = H.size ∧
          ∀ R : Text, R.units = result →
            len R.toSpan = len H.toSpan ∧ (capitalizeUnits R.toSpan).run.val = some result) ↔
      H.units ≠ [] := by
  constructor
  · rintro ⟨hall, -⟩ hnil
    have hread : H.first ≤ H.first ∧ H.first + (1 : ℕ) ≤ H.last :=
      access_all.1 (all_bind.1 hall).1
    have := H.units_eq_nil_iff.1 hnil
    have := H.last_eq
    omega
  · intro hne
    have hyield := yields_capitalizeUnits hne
    have hsize : H.size ≠ 0 := mt H.units_eq_nil_iff.2 hne
    have hlast := H.last_eq
    have hresult : H.units.modifyHead upperUnit = encode (cs.modifyHead Char.toUpper) := by
      rw [hH, encode_toUpper]
    refine ⟨hyield.all.2 ?_, _, hyield.val, hresult, by simp, fun R hR => ⟨?_, ?_⟩⟩
    · have hwithin : H.first + 1 ≤ H.last ∧ 1 ≤ H.size ∧
          H.first + 1 + (H.size - 1 : ℕ) ≤ H.last := by omega
      simpa [Event.Within] using hwithin
    · rw [len_encode (hR.trans hresult), len_encode hH, List.length_modifyHead]
    · have hR₀ : R.units ≠ [] := by simpa [hR] using hne
      rw [(yields_capitalizeUnits hR₀).val, hR, modifyHead_upperUnit]

theorem capitalizeUnits_iff_he :
    (capitalizeUnits (Text.ofUnits (encode ['h', 'é']) 0 (by decide)).toSpan).run.val =
      some (encode ['H', 'é']) := by
  obtain ⟨-, result, hval, hresult, -⟩ :=
    (capitalizeUnits_iff (Text.ofUnits (encode ['h', 'é']) 0 (by decide)) ['h', 'é']
      (Text.units_ofUnits _)).2 (by decide)
  rw [hval, hresult]
  rfl

end PythonicCpp
