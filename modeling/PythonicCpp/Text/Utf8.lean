import PythonicCpp.Text.CodePoints

/-!
# UTF-8

The Unicode scalar values and their UTF-8 encodings are those of Lean: `Char` has no surrogates
and ends at U+10FFFF.

* `utf8` : UTF-8 is a self-synchronising code, whose leads are the units `len` counts and whose
  widths are the steps of `code_points`.
* `encode` : the encoding of a list of scalar values.
* `codePoints_prefix` : `code_points` and `len` on every prefix of an encoding.
-/

namespace PythonicCpp

open Scan

/-! ### The bytes of an encoding -/

theorem isLead_ofNat {n : ℕ} (h : n < 0x100) :
    isLead (.ofNat n) = decide (n < 0x80 ∨ 0xc0 ≤ n) := by
  revert n
  decide +kernel

theorem stepOf_ofNat {n : ℕ} (h : n < 0x100) :
    stepOf (.ofNat n) =
      if n ≤ 0xc1 then 1 else if n ≤ 0xdf then 2 else if n ≤ 0xef then 3 else 4 := by
  simp only [stepOf, UInt8.le_iff_toNat_le, UInt8.toNat_ofNat', Nat.mod_eq_of_lt h]
  rfl

/-- A lead and its continuation bytes. -/
theorem shape_cons {n : ℕ} {l : List CodeUnit} (hn : n < 0x100) (hlead : n < 0x80 ∨ 0xc0 ≤ n)
    (htail : ∀ c ∈ l, ∃ m, c = .ofNat (m % 0x40 + 0x80))
    (hstep : (if n ≤ 0xc1 then 1 else if n ≤ 0xdf then 2 else if n ≤ 0xef then 3 else 4) =
      l.length + 1) :
    ∃ b t, UInt8.ofNat n :: l = b :: t ∧ isLead b = true ∧ (∀ c ∈ t, isLead c = false) ∧
      stepOf b = t.length + 1 := by
  refine ⟨_, l, rfl, ?_, fun c hc => ?_, ?_⟩
  · rw [isLead_ofNat hn]
    exact decide_eq_true hlead
  · obtain ⟨m, rfl⟩ := htail c hc
    rw [isLead_ofNat (by omega)]
    exact decide_eq_false (by omega)
  · rw [stepOf_ofNat hn, hstep]

/-- **The bytes of a scalar value**: both classifications of code units agree with its encoding. -/
theorem utf8EncodeChar_shape (c : Char) :
    ∃ b l, String.utf8EncodeChar c = b :: l ∧ isLead b = true ∧ (∀ x ∈ l, isLead x = false) ∧
      stepOf b = l.length + 1 := by
  have hv : c.val.toNat < 0x110000 := by
    rcases c.valid with h | ⟨-, h⟩
    · exact h.trans (by decide)
    · exact h
  simp only [String.utf8EncodeChar]
  generalize c.val.toNat = v at hv
  split_ifs with h₁ h₂ h₃
  · refine shape_cons (by omega) (by omega) nofun ?_
    rw [if_pos (by omega)]
    rfl
  · refine shape_cons (by omega) (by omega) ?_ ?_
    · simp only [List.mem_singleton, forall_eq]
      exact ⟨_, rfl⟩
    · rw [if_neg (by omega), if_pos (by omega)]
      rfl
  · refine shape_cons (by omega) (by omega) ?_ ?_
    · simp only [List.mem_cons, List.not_mem_nil, or_false, forall_eq_or_imp, forall_eq]
      exact ⟨⟨_, rfl⟩, _, rfl⟩
    · rw [if_neg (by omega), if_neg (by omega), if_pos (by omega)]
      rfl
  · refine shape_cons (by omega) (by omega) ?_ ?_
    · simp only [List.mem_cons, List.not_mem_nil, or_false, forall_eq_or_imp, forall_eq]
      exact ⟨⟨_, rfl⟩, ⟨_, rfl⟩, _, rfl⟩
    · rw [if_neg (by omega), if_neg (by omega), if_neg (by omega)]
      rfl

theorem utf8EncodeChar_injective : Function.Injective String.utf8EncodeChar := by
  intro c c' h
  have hc := ByteArray.utf8DecodeChar?_utf8EncodeChar_append (b := .empty) (c := c)
  rw [h, ByteArray.utf8DecodeChar?_utf8EncodeChar_append] at hc
  exact (Option.some.inj hc).symm

/-! ### The code -/

/-- UTF-8, with the classifications of `len` and `code_points`. -/
def utf8 : LeadCode Char CodeUnit where
  enc := String.utf8EncodeChar
  lead := isLead
  width := stepOf
  shape := utf8EncodeChar_shape
  inj := utf8EncodeChar_injective

/-- The UTF-8 encoding of a list of scalar values. -/
def encode (cs : List Char) : List CodeUnit := utf8.encode cs

/-- **`len` counts scalar values.** -/
theorem len_encode {t : Text} {cs : List Char} (h : t.units = encode cs) :
    len t.toSpan = cs.length := by
  rw [len_eq, h]
  exact LeadCode.countP_lead_encode (C := utf8) cs

/-- **Decoding a prefix of an encoding**, and counting in it.  `code_points` yields the encodings of
the scalar values that are whole in the prefix, and then what is there of the next one, when that
is cut; `len` is the number of these items. -/
theorem codePoints_prefix (cs : List Char) (b : Text) (hb : b.units <+: encode cs) :
    ∃ whole rest cut, cs = whole ++ rest ∧ b.units = encode whole ++ cut ∧
      (cut ≠ [] → ∃ c rest', rest = c :: rest' ∧ cut <+: String.utf8EncodeChar c ∧
        cut ≠ String.utf8EncodeChar c) ∧
      (codePoints b).map Span.units =
        whole.map String.utf8EncodeChar ++ (if cut = [] then [] else [cut]) ∧
      len b.toSpan = (codePoints b).length := by
  obtain ⟨whole, rest, cut, hcs, hunits, hcut⟩ := LeadCode.exists_cut (C := utf8) hb
  have hcut' : cut ≠ [] → ∃ c, cut <+: utf8.enc c := fun hne => by
    obtain ⟨c, -, -, hc, -⟩ := hcut hne
    exact ⟨c, hc⟩
  have hitems : (codePoints b).map Span.units = splitLeads stepOf (encode whole ++ cut) :=
    hunits ▸ codePoints_eq b
  refine ⟨whole, rest, cut, hcs, hunits, hcut, ?_, ?_⟩
  · exact hitems.trans (LeadCode.splitLeads_append_cut hcut')
  · rw [← List.length_map (f := Span.units), hitems, len_eq, hunits]
    exact LeadCode.countP_lead_append_cut hcut'

/-- The first five of the six bytes of two three-byte scalar values. -/
theorem codePoints_prefix_cut :
    (codePoints (Text.ofUnits [0xe4, 0xb8, 0xad, 0xe6, 0x96] 0 (by decide))).length = 2 := by
  obtain ⟨whole, rest, cut, hcs, hunits, -, -, hlen⟩ := codePoints_prefix ['中', '文']
    (Text.ofUnits [0xe4, 0xb8, 0xad, 0xe6, 0x96] 0 (by decide)) (by decide)
  rw [← hlen]
  decide

end PythonicCpp
