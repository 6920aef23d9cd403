import PythonicCpp.Edit.Sub
import PythonicCpp.Machine.Checked
import PythonicCpp.Scan.Expand
import Mathlib.Data.Nat.ModEq

/-!
# `expandtabs`

`expandtabs` replaces each tab by a run of spaces, through a callback of `sub`.  The callback sees
the offset of the tab in the text, not the column it is expanded at.

* `tabSpaces`, `expandtabs` : the callback and the function.
* `column`, `columnTabs` : the expansion that follows the column of the output.
* `expandtabs_spaces` : `expandtabs` replaces every tab, and nothing else, by one to `tab_size`
  spaces of its buffer.
* `expandtabs_iff` : when the result is that of the column.
-/

namespace PythonicCpp

open Scan

/-- `"\t"_u`. -/
def tabText : Text := .ofUnits [0x09] 0 (by decide)

/-- The callback of `expandtabs`, for the tab at offset `i`: a view over the buffer `spaces`, which
is stored from address `0` on. -/
def tabSpaces (spaces : List CodeUnit) (tabSize i : ℕ) : Checked Span := do
  let col := toInt (← sizeDiv i tabSize)
  let spacesCount ← sizeSub (sizeMul (toSizeT (← intAdd col 1)) tabSize) i
  access 0 spacesCount
  pure ⟨ofList spaces 0, 0, spacesCount⟩

/-- `expandtabs(haystack, tab_size)`, as the code units of the result. -/
def expandtabs (haystack : Span) (tabSize : ℕ) : Checked (List CodeUnit) := do
  let spaces ← forInt tabSize (· ++ [0x20]) 0 []
  sub haystack tabText.toSpan (tabSpaces spaces tabSize)

/-- The column of the output at which unit `i` is copied or expanded.  A tab leads to the next
multiple of `tabSize`, and adds nothing when that is zero; a line break leads to column zero. -/
def column (tabSize : ℕ) (l : List CodeUnit) : ℕ → ℕ
  | 0 => 0
  | i + 1 =>
    let col := column tabSize l i
    match l[i]? with
    | some c =>
      if c = 0x09 then col + (tabSize - col % tabSize)
      else if c = 0x0a ∨ c = 0x0d then 0
      else col + 1
    | none => col

/-- The text with each tab expanded to the next stop of its column. -/
def columnTabs (tabSize : ℕ) (l : List CodeUnit) : List CodeUnit :=
  expand 0x20 0x09 (fun i => tabSize - column tabSize l i % tabSize) 0 l

/-- The offset just after the last tab or line break before offset `i`, zero when there is none. -/
def stopBefore (l : List CodeUnit) : ℕ → ℕ
  | 0 => 0
  | i + 1 =>
    match l[i]? with
    | some c => if c = 0x09 ∨ c = 0x0a ∨ c = 0x0d then i + 1 else stopBefore l i
    | none => stopBefore l i

variable {H : Text} {tabSize : ℕ}

/-! ### The callback -/

@[simp] theorem units_tabText : tabText.units = [0x09] := Text.units_ofUnits _

@[simp] theorem size_tabText : tabText.size = 1 := Text.size_ofUnits _

theorem next_stop (h₀ : 0 < tabSize) (i : ℕ) :
    (i / tabSize + 1) * tabSize = i + (tabSize - i % tabSize) := by
  have hdiv := Nat.div_add_mod i tabSize
  have hmod := Nat.mod_lt i h₀
  rw [Nat.add_mul, Nat.mul_comm, Nat.one_mul]
  omega

/-- The spaces up to the next multiple of `tabSize`. -/
theorem yields_tabSpaces (h₀ : 0 < tabSize) (ht : tabSize < 2 ^ 31) (spaces : List CodeUnit)
    {i : ℕ} (hi : i + 1 < 2 ^ 31) :
    Yields (tabSpaces spaces tabSize i) ⟨ofList spaces 0, 0, (tabSize - i % tabSize : ℕ)⟩
      [.diff ((i / tabSize + 1) * tabSize) i, .units 0 (tabSize - i % tabSize)] := by
  have hdiv : Yields (sizeDiv i tabSize) (i / tabSize) [] := yields_sizeDiv (by omega)
  have hq : i / tabSize ≤ i := Nat.div_le_self _ _
  have hmod := Nat.mod_lt i h₀
  have hmul := next_stop h₀ i
  generalize i / tabSize = q at *
  have hadd : Yields (intAdd (toInt q) 1) ((q + 1 : ℕ) : ℤ) [] := by
    rw [toInt_of_lt (by omega) (by omega)]
    exact yields_intAdd (by omega) (by omega)
  have hsub : Yields (sizeSub (sizeMul (toSizeT ((q + 1 : ℕ) : ℤ)) tabSize) i)
      (tabSize - i % tabSize) [.diff ((q + 1) * tabSize) i] := by
    rw [toSizeT_natCast (by omega), sizeMul_of_lt (by omega), hmul]
    have h := yields_sizeSub (Nat.le_add_right i (tabSize - i % tabSize)) (by omega)
    rwa [Nat.add_sub_cancel_left] at h
  exact hdiv.bind <| hadd.bind <| hsub.bind <| (yields_access 0 _).bind (yields_pure _)

/-- The buffer. -/
theorem yields_spaces (ht : tabSize < 2 ^ 31) :
    Yields (forInt tabSize (· ++ [(0x20 : CodeUnit)]) 0 []) (List.replicate tabSize 0x20) [] := by
  have h := yields_forInt_append ht [(0x20 : CodeUnit)] []
  rwa [List.flatten_replicate_singleton, List.nil_append] at h

theorem size_buffer (m : ℤ → CodeUnit) {n : ℕ} (hn : n < 2 ^ 64) :
    Span.size ⟨m, 0, (n : ℕ)⟩ = n :=
  Span.size_of_last (zero_add _).symm hn

/-- The view of the callback, over a buffer of `tabSize` spaces. -/
theorem units_tabSpaces {n : ℕ} (hn : n ≤ tabSize) (ht : tabSize < 2 ^ 31) :
    Span.units ⟨ofList (List.replicate tabSize 0x20) 0, 0, (n : ℕ)⟩ = List.replicate n 0x20 := by
  have hbuffer := block_ofList (List.replicate tabSize (0x20 : CodeUnit)) 0
  rw [List.length_replicate] at hbuffer
  rw [Span.units, size_buffer _ (by omega), ← Nat.min_eq_left hn, ← take_block, hbuffer,
    List.take_replicate]

/-! ### The function -/

theorem finditer_tabs (H : Text) :
    (finditer H.toSpan tabText.toSpan 0 .rangesEnd).val.offsets =
      plainSearch H.units tabText.units :=
  finditer_offsets_of_one size_tabText

theorem splice_tabs (H : Text) (w : ℕ → ℕ) :
    splice H.units 1 0 ((plainSearch H.units [0x09]).map fun p =>
        (p, List.replicate (w p) (0x20 : CodeUnit))) =
      expand 0x20 0x09 w 0 H.units :=
  splice_eq_expand (plainSearch_spec (List.cons_ne_nil _ _))

/-- **`expandtabs` expands each tab to the next stop of its offset**, with a view over its buffer
for each tab. -/
theorem yields_expandtabs (h₀ : 0 < tabSize) (ht : tabSize < 2 ^ 31) (hn : H.size < 2 ^ 31) :
    Yields (expandtabs H.toSpan tabSize)
      (expand 0x20 0x09 (fun i => tabSize - i % tabSize) 0 H.units)
      ((plainSearch H.units [0x09]).flatMap fun i =>
        [.diff ((i / tabSize + 1) * tabSize) i, .units 0 (tabSize - i % tabSize)]) := by
  have hcalls : ∀ p ∈ plainSearch H.units [0x09], Yields
      (do pure (p, (← tabSpaces (List.replicate tabSize 0x20) tabSize p).units))
      (p, List.replicate (tabSize - p % tabSize) (0x20 : CodeUnit))
      [.diff ((p / tabSize + 1) * tabSize) p, .units 0 (tabSize - p % tabSize)] := by
    intro p hp
    have hlt := (mem_plainSearch (List.cons_ne_nil _ _) hp).lt (List.cons_ne_nil _ _)
    rw [H.length_units] at hlt
    have hyield := yields_tabSpaces h₀ ht (List.replicate tabSize 0x20) (i := p) (by omega)
    rw [← units_tabSpaces (Nat.sub_le tabSize (p % tabSize)) ht]
    exact hyield.bind_pure _
  have hsub := sub_of_offsets (D := tabText) (by simp) hn
    (tabSpaces (List.replicate tabSize 0x20) tabSize) (finditer_tabs H)
  simp only [units_tabText, size_tabText] at hsub
  refine (yields_spaces ht).bind ?_
  rw [hsub, ← splice_tabs]
  exact (yields_mapM hcalls).bind_pure _

/-- A text without tabs, of any size, is copied. -/
theorem expandtabs_of_notMem (ht : tabSize < 2 ^ 31) (hno : 0x09 ∉ H.units) :
    (expandtabs H.toSpan tabSize).run.val = some H.units := by
  have hoffsets : (finditer H.toSpan tabText.toSpan 0 .rangesEnd).val.offsets = [] := by
    rw [finditer_tabs, units_tabText, plainSearch_eq_nil_iff (List.cons_ne_nil _ _)]
    exact fun p hp => hno (List.mem_of_getElem? (occursAt_singleton.1 hp))
  have hsub := sub_of_offsets_nil (tabSpaces (List.replicate tabSize 0x20) tabSize) hoffsets
  exact ((yields_spaces ht).bind (hsub ▸ yields_pure H.units)).val

/-- A recorded difference does not wrap, and a recorded view has between one and `tabSize` units of
the buffer. -/
def Event.WithinSpaces (tabSize : ℕ) : Event → Prop
  | diff a b => b ≤ a
  | units a n => a = 0 ∧ 1 ≤ n ∧ n ≤ tabSize

theorem encode_replicate_space (n : ℕ) :
    encode (List.replicate n ' ') = List.replicate n 0x20 := by
  induction n with
  | zero => rfl
  | succ n ih => exact congrArg (0x20 :: ·) ih

theorem wellFormed_expand (w : ℕ → ℕ) (hH : WellFormed H.units) :
    WellFormed (expand 0x20 0x09 w 0 H.units) := by
  obtain ⟨cs, hcs⟩ := hH
  have htab : tabText.units = encode ['\t'] := units_tabText
  have h := splice_plainSearch_encode hcs htab (List.cons_ne_nil _ _) fun p =>
    List.replicate (w p) ' '
  simp only [encode_replicate_space, units_tabText, size_tabText, splice_tabs] at h
  exact ⟨_, h⟩

/-- **`expandtabs` replaces every tab and nothing else**, from inside its buffer of spaces: no
difference wraps, each tab becomes between one and `tab_size` spaces, and no tab is left.  The
result is well-formed when the text is, and expanding it again changes nothing. -/
theorem expandtabs_spaces (H : Text) (tabSize : ℕ) (hn : H.size < 2 ^ 31) (h₀ : 0 < tabSize)
    (ht : tabSize < 2 ^ 31) :
    (expandtabs H.toSpan tabSize).run.All (Event.WithinSpaces tabSize) ∧
      ∃ result, (expandtabs H.toSpan tabSize).run.val = some result ∧ result.length < 2 ^ 63 ∧
        0x09 ∉ result ∧
        (∃ w : ℕ → ℕ, (∀ i, 1 ≤ w i ∧ w i ≤ tabSize) ∧
          result = expand 0x20 0x09 w 0 H.units) ∧
        (WellFormed H.units → WellFormed result) ∧
        ∀ R : Text, R.units = result → ∀ t, 0 < t → t < 2 ^ 31 →
          (expandtabs R.toSpan t).run.val = some result := by
  have hyield := yields_expandtabs h₀ ht hn
  have hrun : ∀ i, 1 ≤ tabSize - i % tabSize ∧ tabSize - i % tabSize ≤ tabSize := fun i => by
    have := Nat.mod_lt i h₀
    omega
  have hno : (0x09 : CodeUnit) ∉ expand 0x20 0x09 (fun i => tabSize - i % tabSize) 0 H.units :=
    fun hmem => (mem_expand hmem).elim (by decide) fun h => h.2 rfl
  refine ⟨hyield.all.2 fun e he => ?_, _, hyield.val, ?_, hno, ⟨_, hrun, rfl⟩,
    wellFormed_expand _, fun R hR t _ ht' => ?_⟩
  · obtain ⟨i, -, he⟩ := List.mem_flatMap.1 he
    have hle : i ≤ (i / tabSize + 1) * tabSize := by
      rw [Nat.mul_comm]
      exact (Nat.lt_mul_div_succ i h₀).le
    simp only [List.mem_cons, List.not_mem_nil, or_false] at he
    rcases he with rfl | rfl
    · exact hle
    · exact ⟨rfl, hrun i⟩
  · calc (expand 0x20 0x09 (fun i => tabSize - i % tabSize) 0 H.units).length
        ≤ H.units.length * tabSize := length_expand_le h₀ fun i => (hrun i).2
      _ ≤ 2 ^ 31 * 2 ^ 31 := Nat.mul_le_mul (H.length_units ▸ hn.le) ht.le
      _ < 2 ^ 63 := by decide
  · rw [expandtabs_of_notMem ht' (hR ▸ hno), hR]

theorem expandtabs_spaces_tab :
    ∃ result, (expandtabs (Text.ofUnits [9, 97] 0 (by decide)).toSpan 2).run.val = some result ∧
      0x09 ∉ result := by
  obtain ⟨-, result, hval, -, hno, -⟩ :=
    expandtabs_spaces (Text.ofUnits [9, 97] 0 (by decide)) 2 (by decide) (by decide) (by decide)
  exact ⟨result, hval, hno⟩

/-! ### Columns -/

theorem stopBefore_le (l : List CodeUnit) (i : ℕ) : stopBefore l i ≤ i := by
  induction i with
  | zero => exact le_rfl
  | succ i ih =>
    rw [stopBefore]
    split
    · split_ifs
      · exact le_rfl
      · omega
    · omega

/-- **The column counts from the last tab or line break**, up to multiples of `tabSize`. -/
theorem column_mod (h₀ : 0 < tabSize) {l : List CodeUnit} {i : ℕ} (hi : i ≤ l.length) :
    column tabSize l i % tabSize = (i - stopBefore l i) % tabSize := by
  induction i with
  | zero => rfl
  | succ i ih =>
    have hle := stopBefore_le l i
    rw [column, stopBefore, List.getElem?_eq_getElem hi]
    simp only
    -- a tab leads to a multiple and a line break to zero; any other unit adds one on both sides
    by_cases htab : l[i] = 0x09
    · rw [if_pos htab, if_pos (.inl htab)]
      rw [Nat.sub_self, Nat.zero_mod, ← next_stop h₀]
      exact Nat.mul_mod_left _ _
    · by_cases hbreak : l[i] = 0x0a ∨ l[i] = 0x0d
      · rw [if_neg htab, if_pos hbreak, if_pos (.inr hbreak), Nat.sub_self]
      · rw [if_neg htab, if_neg hbreak, if_neg (not_or.2 ⟨htab, hbreak⟩), Nat.add_mod,
          ih (Nat.le_of_succ_le hi), ← Nat.add_mod, ← Nat.sub_add_comm hle]

/-! ### Where offsets and columns agree -/

/-- Before each unit that is neither a space nor a tab, and before the end, the offsets of the tabs
and the offsets counted from the last tab or line break leave the same sum modulo `tabSize`. -/
def StopsAgree (tabSize : ℕ) (l : List CodeUnit) : Prop :=
  ∀ n ≤ l.length, l[n]? ≠ some 0x20 → l[n]? ≠ some 0x09 →
    tabSum 0x09 (fun i => i % tabSize) 0 (l.take n) =
      tabSum 0x09 (fun i => (i - stopBefore l i) % tabSize) 0 (l.take n)

instance (tabSize : ℕ) : DecidablePred (StopsAgree tabSize) := fun l =>
  inferInstanceAs (Decidable (∀ n ≤ l.length, l[n]? ≠ some 0x20 → l[n]? ≠ some 0x09 →
    tabSum 0x09 (fun i => i % tabSize) 0 (l.take n) =
      tabSum 0x09 (fun i => (i - stopBefore l i) % tabSize) 0 (l.take n)))

theorem expand_eq_columnTabs_iff (h₀ : 0 < tabSize) (l : List CodeUnit) :
    expand 0x20 0x09 (fun i => tabSize - i % tabSize) 0 l = columnTabs tabSize l ↔
      StopsAgree tabSize l := by
  have hle : ∀ j : ℕ, j % tabSize ≤ tabSize := fun j => (Nat.mod_lt j h₀).le
  rw [columnTabs, expand_eq_iff (by decide)]
  refine forall₂_congr fun n hn => imp_congr_right fun _ => imp_congr_right fun _ => ?_
  have hcol : tabSum 0x09 (fun i => column tabSize l i % tabSize) 0 (l.take n) =
      tabSum 0x09 (fun i => (i - stopBefore l i) % tabSize) 0 (l.take n) := by
    refine tabSum_congr fun j hj => ?_
    rw [Nat.zero_add]
    have hlt := (List.getElem?_eq_some_iff.1 hj).1
    rw [List.length_take] at hlt
    exact column_mod h₀ (by omega)
  rw [tabSum_sub_iff (fun j => hle j) fun j => hle _, hcol]

/-- With a `tab_size` of zero, the first tab divides by it. -/
theorem expandtabs_zero (hn : H.size < 2 ^ 31) (htab : 0x09 ∈ H.units) :
    (expandtabs H.toSpan 0).run.val = none := by
  have hsub := sub_of_offsets (D := tabText) (by simp) hn (tabSpaces [] 0) (finditer_tabs H)
  obtain ⟨i, hi⟩ := List.getElem?_of_mem htab
  refine (yields_spaces (by decide)).bind_eq_none ?_
  rw [List.replicate_zero]
  rw [hsub]
  refine bind_eq_none ?_
  cases hps : plainSearch H.units tabText.units with
  | nil =>
    rw [units_tabText, plainSearch_eq_nil_iff (List.cons_ne_nil _ _)] at hps
    exact absurd (occursAt_singleton.2 hi) (hps i)
  | cons p ps =>
    rw [List.mapM_cons]
    exact bind_eq_none (bind_eq_none (bind_eq_none sizeDiv_zero))

/-- The run of one tab is that of its column iff its last stop is a multiple of `tabSize`. -/
theorem tabSpaces_eq_column_iff (h₀ : 0 < tabSize) (ht : tabSize < 2 ^ 31) {l : List CodeUnit}
    {i : ℕ} (hi : i < l.length) (hn : l.length < 2 ^ 31) :
    (tabSpaces (List.replicate tabSize 0x20) tabSize i).run.val.map Span.size =
        some (tabSize - column tabSize l i % tabSize) ↔
      stopBefore l i % tabSize = 0 := by
  have hle := stopBefore_le l i
  have hmod := Nat.mod_lt i h₀
  have hmod' := Nat.mod_lt (i - stopBefore l i) h₀
  rw [(yields_tabSpaces h₀ ht _ (by omega)).val, Option.map_some, size_buffer _ (by omega),
    column_mod h₀ hi.le, Option.some.injEq, ← Nat.dvd_iff_mod_eq_zero]
  have hdvd : tabSize ∣ stopBefore l i ↔ (i - stopBefore l i) % tabSize = i % tabSize := by
    have h := Nat.modEq_iff_dvd' (n := tabSize) (Nat.sub_le i (stopBefore l i))
    rw [Nat.sub_sub_self hle] at h
    exact h.symm
  rw [hdvd]
  omega

/-- **`expandtabs` follows the columns of the output iff offsets and columns agree.**  With a
`tab_size` of zero it divides by it, unless there is no tab.  Otherwise the runs before each other
unit must have the right sum, and a single run is right iff the last tab or line break before the
tab ends at a multiple of `tab_size`. -/
theorem expandtabs_iff (H : Text) (tabSize : ℕ) (hn : H.size < 2 ^ 31) (ht : tabSize < 2 ^ 31) :
    ((expandtabs H.toSpan tabSize).run.val = some (columnTabs tabSize H.units) ↔
        (tabSize = 0 → 0x09 ∉ H.units) ∧ (0 < tabSize → StopsAgree tabSize H.units)) ∧
      (0 < tabSize → ∀ i, H.units[i]? = some 0x09 →
        ((tabSpaces (List.replicate tabSize 0x20) tabSize i).run.val.map Span.size =
            some (tabSize - column tabSize H.units i % tabSize) ↔
          stopBefore H.units i % tabSize = 0)) := by
  refine ⟨?_, fun h₀ i hi => ?_⟩
  · rcases tabSize.eq_zero_or_pos with rfl | h₀
    · -- the callback divides by zero, so it must not be called
      simp only [true_implies, lt_irrefl, false_implies, and_true]
      by_cases htab : (0x09 : CodeUnit) ∈ H.units
      · simp [expandtabs_zero hn htab, htab]
      · rw [expandtabs_of_notMem ht htab, columnTabs, expand_of_notMem htab]
        simp [htab]
    · rw [(yields_expandtabs h₀ ht hn).val, Option.some.injEq, expand_eq_columnTabs_iff h₀]
      simp [h₀, h₀.ne']
  · obtain ⟨hlt, -⟩ := List.getElem?_eq_some_iff.1 hi
    exact tabSpaces_eq_column_iff h₀ ht hlt (by rwa [H.length_units])

theorem expandtabs_iff_two_stops :
    let H := Text.ofUnits [97, 9, 98, 9, 99] 0 (by decide)
    (expandtabs H.toSpan 2).run.val = some (columnTabs 2 H.units) ∧
      columnTabs 2 H.units = [97, 32, 98, 32, 99] := by
  intro H
  exact ⟨(expandtabs_iff H 2 (by decide) (by decide)).1.2 (by decide), by decide⟩

/-- The second of two tabs is at offset one but at column two. -/
theorem expandtabs_two_tabs :
    let H := Text.ofUnits [9, 9] 0 (by decide)
    (expandtabs H.toSpan 2).run.val = some [32, 32, 32] ∧
      columnTabs 2 H.units = [32, 32, 32, 32] := by
  decide +kernel

end PythonicCpp
