import PythonicCpp.Search.Finditer
import PythonicCpp.Text.Utf8

/-!
# Searching UTF-8

In well-formed UTF-8 the search of bytes is the search of scalar values: no match begins or ends
inside a code point.

* `IsBoundary` : a position between two code points, or at one of the ends.
* `plainSearch_encode` : the occurrences, in terms of the scalar values.
* `finditer_codePoints` : the same for the view, with the code points that `code_points` yields.
-/

namespace PythonicCpp

open Scan

/-- Position `p` of a text with parts `items` is the end of the first `i` of them, for some `i`. -/
def IsBoundary (items : List (List CodeUnit)) (p : ℕ) : Prop :=
  ∃ i, i ≤ items.length ∧ (items.take i).flatten.length = p

variable {H D : Text} {hs ds : List Char}

theorem isBoundary_offset {i : ℕ} (hH : H.units = encode hs) (hi : i ≤ hs.length) :
    IsBoundary ((codePoints H).map Span.units) (utf8.offset hs i) := by
  have hitems : (codePoints H).map Span.units = hs.map String.utf8EncodeChar := by
    rw [codePoints_eq, hH]
    exact LeadCode.splitLeads_encode (C := utf8) hs
  refine ⟨i, ?_, ?_⟩
  · rwa [hitems, List.length_map]
  · rw [hitems, ← List.map_take, ← List.flatMap_def]
    rfl

theorem units_ne_nil (hD : D.units = encode ds) (hd : ds ≠ []) : D.units ≠ [] := by
  rw [hD]
  exact LeadCode.encode_ne_nil hd

/-- **Encoded scalar values occur** at the offsets of the occurrences of the scalar values. -/
theorem plainSearch_encode (hH : H.units = encode hs) (hD : D.units = encode ds) (hd : ds ≠ []) :
    plainSearch H.units D.units = (plainSearch hs ds).map (utf8.offset hs) := by
  rw [hH, hD]
  exact LeadCode.plainSearch_encode hd

/-- **Byte search is code point search.**  The offsets that `finditer` yields are the byte offsets
of the leftmost non-overlapping occurrences of the scalar values `ds` in `hs`; each match begins
and ends between two of the code points that `code_points` yields. -/
theorem finditer_codePoints (hs ds : List Char) (H D : Text) (hH : H.units = encode hs)
    (hD : D.units = encode ds) (hd : ds ≠ []) (hnext : H.next ∉ D.units) :
    let ps := (finditer H.toSpan D.toSpan 0 .rangesEnd).val.offsets
    ps = (plainSearch hs ds).map (fun i => (encode (hs.take i)).length) ∧
      ∀ p ∈ ps, IsBoundary ((codePoints H).map Span.units) p ∧
        IsBoundary ((codePoints H).map Span.units) (p + D.size) := by
  intro ps
  have hps : ps = (plainSearch hs ds).map (utf8.offset hs) := by
    rw [← plainSearch_encode hH hD hd]
    exact finditer_offsets (units_ne_nil hD hd) hnext
  refine ⟨hps, fun p hp => ?_⟩
  rw [hps, List.mem_map] at hp
  obtain ⟨i, hi, rfl⟩ := hp
  have hocc := mem_plainSearch hd hi
  have hsize : D.size = (encode ds).length := by rw [← D.length_units, hD]
  have hend : utf8.offset hs i + D.size = utf8.offset hs (i + ds.length) := by
    rw [hsize, LeadCode.offset_add_length hocc]
    rfl
  refine ⟨isBoundary_offset hH ?_, ?_⟩
  · exact (Nat.le_add_right _ _).trans hocc.add_le
  · rw [hend]
    exact isBoundary_offset hH hocc.add_le

/-- The second of two three-byte scalar values is found at byte 3. -/
theorem finditer_codePoints_at :
    (finditer (Text.ofUnits (encode ['中', '文']) 0 (by decide)).toSpan
      (Text.ofUnits (encode ['文']) 0 (by decide)).toSpan 0 .rangesEnd).val.offsets = [3] := by
  have h := (finditer_codePoints ['中', '文'] ['文'] (Text.ofUnits (encode ['中', '文']) 0 (by decide))
    (Text.ofUnits (encode ['文']) 0 (by decide)) (Text.units_ofUnits _) (Text.units_ofUnits _)
    (by decide) (by decide)).1
  rw [h]
  decide

end PythonicCpp
