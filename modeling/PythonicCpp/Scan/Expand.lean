import PythonicCpp.Scan.Occurs

/-!
# Expanding one unit into runs of another

Each `tab` of a list is replaced by a run of `blank`, as long as a function of its position tells.

## Main definitions

* `expand blank tab w i l` : `l`, whose first unit is at position `i`, with its tabs replaced.
* `tabSum tab w i l` : how long the runs are together.

## Main results

* `expand_eq_iff` : two expansions are equal iff they put as many blanks before each unit that is
  neither a tab nor a blank, and before the end.
* `splice_eq_expand` : replacing the tabs that the plain search finds.
-/

namespace PythonicCpp

namespace Scan

variable {α : Type*} [DecidableEq α] (blank tab : α) (w w' : ℕ → ℕ)

/-- The list from position `i` on, with the `tab` at each position `j` replaced by `w j` times
`blank`. -/
def expand (i : ℕ) : List α → List α
  | [] => []
  | c :: l =>
    if c = tab then List.replicate (w i) blank ++ expand (i + 1) l else c :: expand (i + 1) l

/-- The sum of `w` over the positions of `tab` in the list from position `i` on. -/
def tabSum (i : ℕ) : List α → ℕ
  | [] => 0
  | c :: l => (if c = tab then w i else 0) + tabSum (i + 1) l

variable {blank tab w w'} {l : List α} {i : ℕ}

/-! ### What an expansion consists of -/

theorem mem_expand {c : α} (hc : c ∈ expand blank tab w i l) : c = blank ∨ c ∈ l ∧ c ≠ tab := by
  induction l generalizing i with
  | nil => cases hc
  | cons b l ih =>
    rw [expand] at hc
    split_ifs at hc with hb
    · rcases List.mem_append.1 hc with hc | hc
      · exact .inl (List.eq_of_mem_replicate hc)
      · exact (ih hc).imp_right fun h => ⟨List.mem_cons_of_mem b h.1, h.2⟩
    · rcases List.mem_cons.1 hc with rfl | hc
      · exact .inr ⟨List.mem_cons_self, hb⟩
      · exact (ih hc).imp_right fun h => ⟨List.mem_cons_of_mem b h.1, h.2⟩

theorem expand_of_notMem (h : tab ∉ l) : expand blank tab w i l = l := by
  induction l generalizing i with
  | nil => rfl
  | cons b l ih =>
    rw [List.mem_cons, not_or] at h
    rw [expand, if_neg (Ne.symm h.1), ih h.2]

theorem expand_append (l₁ l₂ : List α) :
    expand blank tab w i (l₁ ++ l₂) =
      expand blank tab w i l₁ ++ expand blank tab w (i + l₁.length) l₂ := by
  induction l₁ generalizing i with
  | nil => rfl
  | cons b l₁ ih =>
    have hlen : i + 1 + l₁.length = i + (b :: l₁).length := by
      rw [List.length_cons]
      omega
    rw [List.cons_append, expand, expand, ih, hlen]
    split_ifs
    · rw [List.append_assoc]
    · rw [List.cons_append]

theorem length_expand_le {n : ℕ} (hn : 0 < n) (hw : ∀ j, w j ≤ n) :
    (expand blank tab w i l).length ≤ l.length * n := by
  induction l generalizing i with
  | nil => exact Nat.zero_le _
  | cons b l ih =>
    have hrest := ih (i := i + 1)
    have hi := hw i
    rw [expand, List.length_cons, Nat.succ_mul]
    split_ifs
    · rw [List.length_append, List.length_replicate]
      omega
    · rw [List.length_cons]
      omega

/-! ### Comparing two expansions -/

omit [DecidableEq α] in
theorem replicate_append_cons_iff {b c : α} (hc : c ≠ b) {x y : ℕ} {r r' : List α} :
    List.replicate x b ++ c :: r = List.replicate y b ++ c :: r' ↔ x = y ∧ r = r' := by
  induction x generalizing y with
  | zero =>
    cases y with
    | zero => simp
    | succ y => simp [List.replicate_succ, hc]
  | succ x ih =>
    cases y with
    | zero => simp [List.replicate_succ, hc.symm]
    | succ y => simp [List.replicate_succ, ih]

variable (w w' l) in
/-- With `x` and `y` blanks before them, two expansions are equal iff they put as many blanks before
each unit that is neither a tab nor a blank, and before the end. -/
theorem replicate_append_expand_eq_iff (hbt : blank ≠ tab) (x y : ℕ) :
    List.replicate x blank ++ expand blank tab w i l =
        List.replicate y blank ++ expand blank tab w' i l ↔
      ∀ n ≤ l.length, l[n]? ≠ some blank → l[n]? ≠ some tab →
        x + tabSum tab w i (l.take n) = y + tabSum tab w' i (l.take n) := by
  induction l generalizing i x y with
  | nil =>
    simp [expand, tabSum]
  | cons c l ih =>
    have hsplit : ∀ {Q : ℕ → Prop}, (∀ n ≤ (c :: l).length, Q n) ↔
        Q 0 ∧ ∀ n ≤ l.length, Q (n + 1) := by
      intro Q
      refine ⟨fun h => ⟨h 0 (Nat.zero_le _), fun n hn => h (n + 1) (Nat.succ_le_succ hn)⟩,
        fun h n hn => ?_⟩
      cases n with
      | zero => exact h.1
      | succ n => exact h.2 n (Nat.le_of_succ_le_succ hn)
    simp only [hsplit, List.getElem?_cons_zero, List.getElem?_cons_succ, List.take_zero,
      List.take_succ_cons, tabSum, ne_eq, Option.some.injEq, add_zero]
    -- blanks and tabs add to the blanks before the rest, any other unit fixes their number
    by_cases htab : c = tab
    · simp only [expand, htab, if_true, ne_eq, not_true_eq_false, false_implies, implies_true,
        true_and, ← List.append_assoc, List.replicate_append_replicate, ih, ← add_assoc]
    · by_cases hblank : c = blank
      · have hrun : ∀ (z : ℕ) (r : List α),
            List.replicate z blank ++ blank :: r = List.replicate (z + 1) blank ++ r := by
          intro z r
          rw [List.replicate_succ', List.append_assoc, List.singleton_append]
        simp only [expand, hblank, if_neg hbt, hrun, ih, ne_eq, not_true_eq_false,
          false_implies, true_and, zero_add, Nat.add_right_comm _ 1, Nat.add_right_cancel_iff]
      · have hrest := ih (i := i + 1) 0 0
        simp only [List.replicate_zero, List.nil_append, zero_add] at hrest
        simp only [expand, htab, if_false, replicate_append_cons_iff hblank, hrest, ne_eq, hblank,
          not_false_eq_true, true_implies, zero_add]
        refine and_congr_right fun hxy => ?_
        simp only [hxy, Nat.add_left_cancel_iff]

theorem expand_eq_iff (hbt : blank ≠ tab) :
    expand blank tab w i l = expand blank tab w' i l ↔
      ∀ n ≤ l.length, l[n]? ≠ some blank → l[n]? ≠ some tab →
        tabSum tab w i (l.take n) = tabSum tab w' i (l.take n) := by
  simpa using replicate_append_expand_eq_iff w w' l (i := i) hbt 0 0

theorem tabSum_congr (h : ∀ j, l[j]? = some tab → w (i + j) = w' (i + j)) :
    tabSum tab w i l = tabSum tab w' i l := by
  induction l generalizing i with
  | nil => rfl
  | cons c l ih =>
    have hrest : tabSum tab w (i + 1) l = tabSum tab w' (i + 1) l := by
      refine ih fun j hj => ?_
      rw [Nat.add_assoc, Nat.add_comm 1 j]
      exact h (j + 1) hj
    rw [tabSum, tabSum, hrest]
    split_ifs with hc
    · have hhead := h 0 (congrArg some hc)
      rw [Nat.add_zero] at hhead
      rw [hhead]
    · rfl

/-- Runs that fill up to `k` are together as long iff what they leave is. -/
theorem tabSum_sub_iff {k : ℕ} {f g : ℕ → ℕ} (hf : ∀ j, f j ≤ k) (hg : ∀ j, g j ≤ k) :
    tabSum tab (fun j => k - f j) i l = tabSum tab (fun j => k - g j) i l ↔
      tabSum tab f i l = tabSum tab g i l := by
  have hsum : ∀ (f : ℕ → ℕ), (∀ j, f j ≤ k) → ∀ i,
      tabSum tab (fun j => k - f j) i l + tabSum tab f i l = tabSum tab (fun _ => k) i l := by
    intro f hf
    induction l with
    | nil => exact fun _ => rfl
    | cons c l ih =>
      intro i
      have := ih (i + 1)
      have := hf i
      simp only [tabSum]
      split_ifs <;> omega
  have := hsum f hf i
  have := hsum g hg i
  omega

/-! ### Replacing what the plain search finds -/

omit [DecidableEq α] in
theorem occursAt_singleton {a : α} {p : ℕ} : OccursAt l [a] p ↔ l[p]? = some a := by
  constructor
  · intro h
    have hlt := h.lt (List.cons_ne_nil a [])
    have hget := (occursAt_iff_getElem h.add_le).1 h 0 Nat.one_pos
    rw [List.getElem?_eq_getElem hlt]
    exact congrArg some hget
  · intro h
    obtain ⟨hlt, hget⟩ := List.getElem?_eq_some_iff.1 h
    refine (occursAt_iff_getElem hlt).2 fun j hj => ?_
    obtain rfl : j = 0 := by simpa using hj
    exact hget

omit [DecidableEq α] in
theorem notMem_take_drop {a : α} {b c : ℕ}
    (h : ∀ q, c ≤ q → q < b → ¬ OccursAt l [a] q) : a ∉ (l.drop c).take (b - c) := by
  intro ha
  obtain ⟨j, hj, hget⟩ := List.getElem_of_mem ha
  rw [List.length_take, List.length_drop] at hj
  refine h (c + j) (Nat.le_add_right c j) (by omega) (occursAt_singleton.2 ?_)
  rw [← hget, List.getElem_take, List.getElem_drop, List.getElem?_eq_getElem]

/-- **Replacing the tabs that the plain search finds** by runs of blanks expands them. -/
theorem splice_eq_expand {c : ℕ} {ps : List ℕ}
    (hps : Leftmost (OccursAt l [tab]) l.length 1 c ps) :
    splice l 1 c (ps.map fun p => (p, List.replicate (w p) blank)) =
      expand blank tab w c (l.drop c) := by
  induction hps with
  | @nil c hno =>
    have hmem := notMem_take_drop hno
    rw [List.take_of_length_le (by simp)] at hmem
    exact (expand_of_notMem hmem).symm
  | @cons c p ps hcp hpn hp hno _ ih =>
    have hlen : c + ((l.drop c).take (p - c)).length = p := by
      rw [List.length_take, List.length_drop]
      omega
    have hdrop : l.drop c = (l.drop c).take (p - c) ++ tab :: l.drop (p + 1) :=
      (drop_eq_take_append l hcp).trans (congrArg _ hp.split)
    conv_rhs => rw [hdrop, expand_append, hlen, expand_of_notMem (notMem_take_drop hno), expand,
      if_pos rfl]
    rw [List.map_cons, splice, ih, List.append_assoc]

end Scan

end PythonicCpp
