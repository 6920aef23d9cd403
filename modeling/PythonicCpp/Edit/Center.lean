import PythonicCpp.Text.Span
import PythonicCpp.Machine.Checked

/-!
# `center`

`center` puts copies of a padding on both sides of a text, and fills what is left with a tail unit.
How many of each is computed by divisions and differences of `size_t`; the loops that append them
count in an `int`.

* `CenterCounts`, `centerCounts` : the numbers of copies and of tail units.
* `centerUnits` : the function, up to its `return`.
* `centerUnits_iff` : for which widths and paddings its string is the centered text.
-/

namespace PythonicCpp

/-- What `center` counts before it appends anything. -/
structure CenterCounts where
  /-- `left_padding_count`. -/
  left : ℕ
  /-- `right_padding_count`. -/
  right : ℕ
  /-- `tail_count`. -/
  tail : ℕ

/-- The counts of `center`. -/
def centerCounts (width rngSize paddingSize : ℕ) : Checked CenterCounts := do
  let gap ← sizeSub width rngSize
  let left ← sizeDiv (gap / 2) paddingSize
  let rest ← sizeSub gap (sizeMul left paddingSize)
  let right ← sizeDiv rest paddingSize
  let rest ← sizeSub gap (sizeMul left paddingSize)
  let tail ← sizeSub rest (sizeMul right paddingSize)
  pure ⟨left, right, tail⟩

/-- The loops of `center`. -/
def centerLoops (rng padding : Span) (tail : CodeUnit) (counts : CenterCounts) :
    Checked (List CodeUnit) := do
  let result ← forInt counts.left (· ++ padding.units) 0 []
  let result := result ++ rng.units
  let result ← forInt counts.right (· ++ padding.units) 0 result
  forInt counts.tail (· ++ [tail]) 0 result

/-- The code units of `result` where `center(rng, width, padding, tail)` returns.  What it reserves
has no part in them. -/
def centerUnits (rng : Span) (width : ℕ) (padding : Span) (tail : CodeUnit) :
    Checked (List CodeUnit) := do
  let counts ← centerCounts width rng.size padding.size
  centerLoops rng padding tail counts

variable {width n p : ℕ}

/-! ### The counts -/

/-- The copies that fit into the gap, the smaller half of them on the left, and the rest of the
gap. -/
def balanced (gap p : ℕ) : CenterCounts := ⟨gap / p / 2, gap / p - gap / p / 2, gap % p⟩

theorem balanced_partition (gap p : ℕ) :
    ((balanced gap p).left + (balanced gap p).right) * p + (balanced gap p).tail = gap := by
  have hhalf : gap / p / 2 ≤ gap / p := Nat.div_le_self _ 2
  simp only [balanced, Nat.add_sub_cancel' hhalf]
  rw [Nat.mul_comm]
  exact Nat.div_add_mod gap p

/-- The two halves differ by one copy at most. -/
theorem balanced_halves (gap p : ℕ) :
    (balanced gap p).left ≤ (balanced gap p).right ∧
      (balanced gap p).right ≤ (balanced gap p).left + 1 := by
  simp only [balanced]
  generalize gap / p = q
  omega

/-- **The roundings compose**: the counts are those of one division of the gap, and no difference
on the way wraps. -/
theorem yields_centerCounts (hle : n ≤ width) (hw : width < 2 ^ 64) (hp : p ≠ 0) :
    ∃ es, Yields (centerCounts width n p) (balanced (width - n) p) es ∧ ∀ e ∈ es, e.Exact := by
  have hsum := balanced_partition (width - n) p
  obtain ⟨gap, hgap⟩ : ∃ gap, gap = width - n := ⟨_, rfl⟩
  rw [← hgap] at hsum ⊢
  simp only [balanced, Nat.add_mul] at hsum
  -- the gap is halved before it is divided, and the right half is divided once more
  have hleft : gap / 2 / p = gap / p / 2 := by
    rw [Nat.div_div_eq_div_mul, Nat.div_div_eq_div_mul, Nat.mul_comm]
  have hright : (gap - gap / p / 2 * p) / p = gap / p - gap / p / 2 := by
    rw [Nat.mul_comm, Nat.sub_mul_div]
  have hmul : sizeMul (gap / p / 2) p = gap / p / 2 * p := sizeMul_of_lt (by omega)
  have hmul' : sizeMul (gap / p - gap / p / 2) p = (gap / p - gap / p / 2) * p :=
    sizeMul_of_lt (by omega)
  have htail : gap - gap / p / 2 * p - (gap / p - gap / p / 2) * p = gap % p := by omega
  have hgap₁ : Yields (sizeSub width n) gap [.diff width n] := hgap ▸ yields_sizeSub hle hw
  have hleft₁ : Yields (sizeDiv (gap / 2) p) (gap / p / 2) [] := hleft ▸ yields_sizeDiv hp
  have hrest₁ : Yields (sizeSub gap (sizeMul (gap / p / 2) p)) (gap - gap / p / 2 * p)
      [.diff gap (gap / p / 2 * p)] := by
    rw [hmul]
    exact yields_sizeSub (by omega) (by omega)
  have hright₁ : Yields (sizeDiv (gap - gap / p / 2 * p) p) (gap / p - gap / p / 2) [] :=
    hright ▸ yields_sizeDiv hp
  have htail₁ : Yields (sizeSub (gap - gap / p / 2 * p) (sizeMul (gap / p - gap / p / 2) p))
      (gap % p) [.diff (gap - gap / p / 2 * p) ((gap / p - gap / p / 2) * p)] := by
    rw [hmul', ← htail]
    exact yields_sizeSub (by omega) (by omega)
  refine ⟨_, hgap₁.bind <| hleft₁.bind <| hrest₁.bind <| hright₁.bind <| hrest₁.bind <|
    htail₁.bind (yields_pure _), ?_⟩
  have hexact : n ≤ width ∧ gap / p / 2 * p ≤ gap ∧
      (gap / p - gap / p / 2) * p ≤ gap - gap / p / 2 * p := by omega
  simpa [Event.Exact] using hexact

/-- The first operation of `center` is the difference of the width and the size. -/
theorem le_of_centerCounts_exact (h : (centerCounts width n p).run.All Event.Exact) :
    n ≤ width :=
  sizeSub_all.1 (all_bind.1 h).1

/-- Dividing by an empty padding is undefined. -/
theorem centerCounts_zero {α : Type} {f : CenterCounts → Checked α} :
    (centerCounts width n 0 >>= f).run.val = none :=
  bind_eq_none <| (yields_sizeSub_wrap width n).bind_eq_none <| bind_eq_none sizeDiv_zero

/-! ### The loops -/

/-- A text between copies of a padding, with a tail. -/
def framed (text padding : List CodeUnit) (tail : CodeUnit) (counts : CenterCounts) :
    List CodeUnit :=
  (List.replicate counts.left padding).flatten ++ text ++
    (List.replicate counts.right padding).flatten ++ List.replicate counts.tail tail

variable {H P : Text} {tail : CodeUnit} {counts : CenterCounts}

theorem length_framed (text padding : List CodeUnit) (tail : CodeUnit) (counts : CenterCounts) :
    (framed text padding tail counts).length =
      text.length + ((counts.left + counts.right) * padding.length + counts.tail) := by
  simp [framed, Nat.add_mul]
  omega

theorem yields_centerLoops (hl : counts.left < 2 ^ 31) (hr : counts.right < 2 ^ 31)
    (ht : counts.tail < 2 ^ 31) :
    Yields (centerLoops H.toSpan P.toSpan tail counts) (framed H.units P.units tail counts) [] := by
  have htail := yields_forInt_append ht [tail]
  simp only [List.flatten_replicate_singleton] at htail
  have h : Yields (centerLoops H.toSpan P.toSpan tail counts) _ _ :=
    (yields_forInt_append hl P.units []).bind <|
      (yields_forInt_append hr P.units _).bind (htail _)
  exact h

/-- The loops run to their ends only when each makes fewer than `2 ^ 31` turns. -/
theorem lt_of_centerLoops_val
    (h : (centerLoops H.toSpan P.toSpan tail counts).run.val ≠ none) :
    counts.right < 2 ^ 31 ∧ counts.tail < 2 ^ 31 := by
  have hfail : ∀ {n : ℕ} {body : List CodeUnit → List CodeUnit} {r : List CodeUnit},
      2 ^ 31 ≤ n → (forInt n body 0 r).run.val = none := fun hn => by
    rw [forInt_eq_failure hn (by decide)]
    rfl
  by_contra hlt
  refine h ?_
  by_cases hl : counts.left < 2 ^ 31
  · refine (yields_forInt_append hl P.units []).bind_eq_none ?_
    by_cases hr : counts.right < 2 ^ 31
    · refine (yields_forInt_append hr P.units _).bind_eq_none (hfail ?_)
      omega
    · exact bind_eq_none (hfail (by omega))
  · exact bind_eq_none (hfail (by omega))

theorem centerLoops_all : (centerLoops H.toSpan P.toSpan tail counts).run.All Event.Exact :=
  all_bind.2 ⟨forInt_all, fun _ _ => all_bind.2 ⟨forInt_all, fun _ _ => forInt_all⟩⟩

/-! ### The function -/

theorem centerUnits_all (hP : P.size ≠ 0) (hle : H.size ≤ width) (hw : width < 2 ^ 64) :
    (centerUnits H.toSpan width P.toSpan tail).run.All Event.Exact := by
  obtain ⟨es, hcounts, hexact⟩ := yields_centerCounts hle hw hP
  exact all_bind.2 ⟨hcounts.all.2 hexact, fun _ _ => centerLoops_all⟩

theorem centerUnits_val (hP : P.size ≠ 0) (hle : H.size ≤ width) (hw : width < 2 ^ 64)
    (hr : (balanced (width - H.size) P.size).right < 2 ^ 31)
    (ht : (balanced (width - H.size) P.size).tail < 2 ^ 31) :
    (centerUnits H.toSpan width P.toSpan tail).run.val =
      some (framed H.units P.units tail (balanced (width - H.size) P.size)) := by
  obtain ⟨es, hcounts, -⟩ := yields_centerCounts hle hw hP
  have hl := (balanced_halves (width - H.size) P.size).1
  exact (hcounts.bind (yields_centerLoops (by omega) hr ht)).val

theorem length_framed_balanced (hle : H.size ≤ width) :
    (framed H.units P.units tail (balanced (width - H.size) P.size)).length = width := by
  rw [length_framed, H.length_units, P.length_units, balanced_partition]
  omega

/-- **When `center` never wraps and its string is the centered text**: exactly when the width is not
below the size of the text, the padding is not empty, and no loop counter overflows.  For a smaller
width the gap wraps; for an empty padding it is divided by zero. -/
theorem centerUnits_iff (H P : Text) (width : ℕ) (tail : CodeUnit) (hw : width < 2 ^ 64) :
    ((centerUnits H.toSpan width P.toSpan tail).run.All Event.Exact ∧
        ∃ result, (centerUnits H.toSpan width P.toSpan tail).run.val = some result ∧
          result.length = max H.size width ∧ (width ≤ H.size → result = H.units)) ↔
      H.size ≤ width ∧ P.size ≠ 0 ∧ (width - H.size) / P.size < 2 ^ 32 - 1 ∧
        (width - H.size) % P.size < 2 ^ 31 := by
  constructor
  · rintro ⟨hall, result, hval, -, -⟩
    have hle := le_of_centerCounts_exact (all_bind.1 hall).1
    have hp : P.size ≠ 0 := fun hp => by
      rw [centerUnits, hp, centerCounts_zero] at hval
      cases hval
    obtain ⟨es, hcounts, -⟩ := yields_centerCounts hle hw hp
    have hloops : (centerLoops H.toSpan P.toSpan tail (balanced (width - H.size) P.size)).run.val ≠
        none := fun hnone => by
      rw [centerUnits, hcounts.bind_eq_none hnone] at hval
      cases hval
    obtain ⟨hr, ht⟩ := lt_of_centerLoops_val hloops
    simp only [balanced] at hr ht
    exact ⟨hle, hp, by omega, ht⟩
  · rintro ⟨hle, hp, hq, ht⟩
    refine ⟨centerUnits_all hp hle hw, _, centerUnits_val hp hle hw ?_ ht, ?_, fun hge => ?_⟩
    · simp only [balanced]
      omega
    · rw [length_framed_balanced hle, max_eq_right hle]
    · have hzero : width - H.size = 0 := by omega
      simp [hzero, balanced, framed]

theorem centerUnits_iff_abc :
    ∃ result, (centerUnits (Text.ofUnits [97, 98, 99] 0 (by decide)).toSpan 5
      (Text.ofUnits [32] 0 (by decide)).toSpan 32).run.val = some result ∧ result.length = 5 := by
  obtain ⟨-, result, hval, hlen, -⟩ := (centerUnits_iff (Text.ofUnits [97, 98, 99] 0 (by decide))
    (Text.ofUnits [32] 0 (by decide)) 5 32 (by decide)).2 (by decide)
  exact ⟨result, hval, hlen.trans (by decide)⟩

end PythonicCpp
