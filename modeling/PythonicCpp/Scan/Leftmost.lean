import Mathlib.Data.Finset.Card
import Mathlib.Data.List.Range
import Mathlib.Order.Bounds.Defs

/-!
# Leftmost non-overlapping selections

A left-to-right scan looks for positions satisfying a predicate `P` below a bound `n`.  Having
selected a position `p` it resumes at `p + k`, so selected positions are at least `k` apart.

## Main definitions

* `Leftmost P n k c ps` : the scan started at `c` selects exactly the positions `ps`.
* `leftmost P n k c` : the scan as a function.
* `finish k c ps` : where the scan resumes after its last selection.
* `Fits s n k c` : a walk from `c` with strides `s` keeps the `k` positions from each position it
  visits below `n`.

## Main results

* `Leftmost.unique`, `leftmost_spec` : the selection is unique, and the function computes it.
* `Leftmost.length_max` : no choice of positions pairwise at least `k` apart is larger.
* `Leftmost.mono_iff`, `Leftmost.map` : comparing two scans.
* `fits_iff` : a walk that strides by `k` from every position with `P` and over none of them stays
  below `n` iff it ends flush with `n`.
-/

namespace PythonicCpp

namespace Scan

/-- `ps` are the positions selected by the scan of `[c, n)` for `P`, in ascending order. -/
inductive Leftmost (P : ℕ → Prop) (n k : ℕ) : ℕ → List ℕ → Prop
  /-- No position with `P` is left. -/
  | nil {c : ℕ} : (∀ q, c ≤ q → q < n → ¬ P q) → Leftmost P n k c []
  /-- `p` is the least position with `P`; the scan resumes at `p + k`. -/
  | cons {c p : ℕ} {ps : List ℕ} : c ≤ p → p < n → P p → (∀ q, c ≤ q → q < p → ¬ P q) →
      Leftmost P n k (p + k) ps → Leftmost P n k c (p :: ps)

/-- Select from ascending candidates, none of them below `c`. -/
def pick (P : ℕ → Prop) [DecidablePred P] (k : ℕ) : ℕ → List ℕ → List ℕ
  | _, [] => []
  | c, q :: qs => if c ≤ q ∧ P q then q :: pick P k (q + k) qs else pick P k c qs

/-- The positions selected by the scan of `[c, n)` for `P`. -/
def leftmost (P : ℕ → Prop) [DecidablePred P] (n k c : ℕ) : List ℕ := pick P k c (List.range n)

/-- Where a scan started at `c` resumes after selecting `ps`. -/
def finish (k : ℕ) : ℕ → List ℕ → ℕ
  | c, [] => c
  | _, p :: ps => finish k (p + k) ps

variable {P Q : ℕ → Prop} {n k c : ℕ} {ps qs : List ℕ}

/-! ### The selection is unique and computed by `leftmost` -/

theorem Leftmost.unique (h : Leftmost P n k c ps) (h' : Leftmost P n k c qs) : ps = qs := by
  induction h generalizing qs with
  | nil hno =>
    cases h' with
    | nil _ => rfl
    | cons hcp hpn hp _ _ => exact absurd hp (hno _ hcp hpn)
  | cons hcp hpn hp hno _ ih =>
    cases h' with
    | nil hno' => exact absurd hp (hno' _ hcp hpn)
    | @cons _ q _ hcq hqn hq hno' h' =>
      obtain rfl : _ = q := le_antisymm (not_lt.1 fun hlt => hno _ hcq hlt hq)
        (not_lt.1 fun hlt => hno' _ hcp hlt hp)
      rw [ih h']

theorem Leftmost.lower {c' : ℕ} (h : Leftmost P n k c ps) (hle : c' ≤ c)
    (hno : ∀ q, c' ≤ q → q < c → ¬ P q) : Leftmost P n k c' ps := by
  have hno' : ∀ {b : ℕ}, (∀ q, c ≤ q → q < b → ¬ P q) → ∀ q, c' ≤ q → q < b → ¬ P q := by
    intro b hb q hq hqb
    rcases Nat.lt_or_ge q c with hqc | hqc
    · exact hno q hq hqc
    · exact hb q hqc hqb
  cases h with
  | nil h => exact .nil (hno' h)
  | cons hcp hpn hp h ht => exact .cons (hle.trans hcp) hpn hp (hno' h) ht

theorem Leftmost.raise {c' : ℕ} (h : Leftmost P n k c ps) (hle : c ≤ c')
    (hno : ∀ q, c ≤ q → q < c' → ¬ P q) : Leftmost P n k c' ps := by
  cases h with
  | nil h => exact .nil fun q hq => h q (hle.trans hq)
  | @cons _ p _ hcp hpn hp h ht =>
    have hp' : c' ≤ p := not_lt.1 fun hlt => hno p hcp hlt hp
    exact .cons hp' hpn hp (fun q hq => h q (hle.trans hq)) ht

theorem Leftmost.of_hit (h : Leftmost P n k c ps) (hcn : c < n) (hc : P c) :
    ∃ qs, ps = c :: qs ∧ Leftmost P n k (c + k) qs := by
  cases h with
  | nil hno => exact absurd hc (hno c le_rfl hcn)
  | @cons _ p qs hcp hpn hp hno ht =>
    obtain rfl : p = c := hcp.antisymm' (not_lt.1 fun hlt => hno c le_rfl hlt hc)
    exact ⟨qs, rfl, ht⟩

theorem leftmost_pick [DecidablePred P] (hk : 0 < k) (m : ℕ) :
    ∀ a c, a + m = n → Leftmost P n k (max c a) (pick P k c (List.range' a m)) := by
  induction m with
  | zero => exact fun a c h => .nil fun q hq hqn => by omega
  | succ m ih =>
    intro a c h
    rw [List.range'_succ, pick]
    split_ifs with ha
    · have ht := ih (a + 1) (a + k) (by omega)
      rw [max_eq_left (by omega)] at ht
      rw [max_eq_right ha.1]
      exact .cons le_rfl (by omega) ha.2 (fun q hq hqa => absurd hqa (by omega)) ht
    · refine (ih (a + 1) c (by omega)).lower (by omega) fun q hq hqa hPq => ha ⟨?_, ?_⟩
      · omega
      · rwa [show a = q by omega]

/-- **The scan computes the selection**, which is unique. -/
theorem leftmost_spec [DecidablePred P] (hk : 0 < k) :
    Leftmost P n k c (leftmost P n k c) := by
  have h := leftmost_pick (P := P) hk n 0 c (Nat.zero_add n)
  rwa [Nat.max_zero, ← List.range_eq_range'] at h

/-! ### Properties of the selected positions -/

/-- After its first `m` selections the scan is the scan from where it resumes. -/
theorem Leftmost.drop (h : Leftmost P n k c ps) (m : ℕ) :
    Leftmost P n k (finish k c (ps.take m)) (ps.drop m) := by
  induction h generalizing m with
  | nil h => simpa [finish] using .nil h
  | cons hcp hpn hp hno ht ih =>
    cases m with
    | zero => exact .cons hcp hpn hp hno ht
    | succ m => exact ih m

theorem Leftmost.mem (h : Leftmost P n k c ps) {p : ℕ} (hp : p ∈ ps) : c ≤ p ∧ p < n ∧ P p := by
  induction h with
  | nil _ => cases hp
  | cons hcp hpn hP _ _ ih =>
    rcases List.mem_cons.1 hp with rfl | hp
    · exact ⟨hcp, hpn, hP⟩
    · obtain ⟨h₁, h₂⟩ := ih hp
      exact ⟨by omega, h₂⟩

theorem Leftmost.pairwise (h : Leftmost P n k c ps) : ps.Pairwise fun p q => p + k ≤ q := by
  induction h with
  | nil _ => exact .nil
  | cons _ _ _ _ ht ih => exact .cons (fun q hq => (ht.mem hq).1) ih

theorem Leftmost.add_le (h : Leftmost P n k c ps) {p q : ℕ} (hp : p ∈ ps) (hq : q ∈ ps)
    (hpq : p < q) : p + k ≤ q := by
  induction h with
  | nil _ => cases hp
  | cons _ _ _ _ ht ih =>
    rw [List.mem_cons] at hp hq
    rcases hp with rfl | hp <;> rcases hq with rfl | hq
    · exact absurd hpq (lt_irrefl _)
    · exact (ht.mem hq).1
    · have := (ht.mem hp).1
      omega
    · exact ih hp hq

theorem Leftmost.nodup (hk : 0 < k) (h : Leftmost P n k c ps) : ps.Nodup :=
  h.pairwise.imp fun hpq heq => by omega

theorem Leftmost.eq_nil_iff (h : Leftmost P n k c ps) :
    ps = [] ↔ ∀ q, c ≤ q → q < n → ¬ P q := by
  cases h with
  | nil h => exact ⟨fun _ => h, fun _ => rfl⟩
  | cons hcp hpn hp _ _ => exact ⟨nofun, fun h => absurd hp (h _ hcp hpn)⟩

/-- Where `P` holds only below `n`, the scan selects nothing iff no position with `P` is left. -/
theorem Leftmost.eq_nil_iff_of_lt (h : Leftmost P n k c ps) (hP : ∀ q, P q → q < n) :
    ps = [] ↔ ∀ q, c ≤ q → ¬ P q :=
  h.eq_nil_iff.trans ⟨fun hno q hq hPq => hno q hq (hP q hPq) hPq, fun hno q hq _ => hno q hq⟩

theorem Leftmost.finish_clear (h : Leftmost P n k c ps) :
    ∀ q, finish k c ps ≤ q → q < n → ¬ P q := by
  have := h.drop ps.length
  rw [List.take_length, List.drop_length] at this
  exact this.eq_nil_iff.1 rfl

/-- The first selected position is the least one with `P`. -/
theorem Leftmost.isLeast {p : ℕ} (h : Leftmost P n k c (p :: ps)) :
    IsLeast {q | c ≤ q ∧ P q} p := by
  cases h with
  | cons hcp hpn hP hno _ => exact ⟨⟨hcp, hP⟩, fun q hq => not_lt.1 fun hlt => hno q hq.1 hlt hq.2⟩

/-- Selected positions whose `k` units fit below `n` are disjoint, so there are at most `n / k`. -/
theorem Leftmost.length_mul_le (h : Leftmost P n k c ps) (hP : ∀ q, P q → q + k ≤ n)
    (hc : c ≤ n) : c + ps.length * k ≤ n := by
  induction h with
  | nil _ => simpa using hc
  | cons _ _ hp _ _ ih =>
    have := ih (hP _ hp)
    rw [List.length_cons, Nat.succ_mul]
    omega

/-- The selected positions are below `n` and at least `k` apart, whatever follows the last one. -/
theorem Leftmost.length_mul_lt (h : Leftmost P n k c ps) (hc : c < n + k) :
    c + ps.length * k < n + k := by
  induction h with
  | nil _ => simpa using hc
  | cons _ hpn _ _ _ ih =>
    have := ih (Nat.add_lt_add_right hpn k)
    rw [List.length_cons, Nat.succ_mul]
    omega

/-- The scan depends only on where `P` holds in `[c, n)`. -/
theorem Leftmost.congr (h : Leftmost P n k c ps) (hPQ : ∀ q, c ≤ q → q < n → (P q ↔ Q q)) :
    Leftmost Q n k c ps := by
  induction h with
  | nil hno => exact .nil fun q hq hqn => fun hQ => hno q hq hqn ((hPQ q hq hqn).2 hQ)
  | cons hcp hpn hp hno _ ih =>
    refine .cons hcp hpn ((hPQ _ hcp hpn).1 hp) (fun q hq hqp hQ => ?_) (ih fun q hq hqn => ?_)
    · exact hno q hq hqp ((hPQ q hq (by omega)).2 hQ)
    · exact hPQ q (by omega) hqn

/-- **The scan selects as many positions as any choice** of positions pairwise at least `k`
apart: the choice has at most one position below the point where the scan resumes. -/
theorem Leftmost.length_max (h : Leftmost P n k c ps) (S : Finset ℕ)
    (hS : ∀ p ∈ S, c ≤ p ∧ p < n ∧ P p) (hsep : ∀ p ∈ S, ∀ q ∈ S, p < q → p + k ≤ q) :
    S.card ≤ ps.length := by
  induction h generalizing S with
  | nil hno =>
    have hS₀ : S = ∅ := Finset.eq_empty_of_forall_notMem fun p hp =>
      hno p (hS p hp).1 (hS p hp).2.1 (hS p hp).2.2
    simp [hS₀]
  | @cons c p ps hcp hpn hp hno _ ih =>
    have hp_le : ∀ q ∈ S, p ≤ q := fun q hq =>
      not_lt.1 fun hlt => hno q (hS q hq).1 hlt (hS q hq).2.2
    have hrest : (S.filter (p + k ≤ ·)).card ≤ ps.length := by
      refine ih _ (fun q hq => ?_) fun q hq r hr => ?_
      · obtain ⟨hq, hpq⟩ := Finset.mem_filter.1 hq
        exact ⟨hpq, (hS q hq).2⟩
      · exact hsep q (Finset.mem_filter.1 hq).1 r (Finset.mem_filter.1 hr).1
    -- two positions of `S` below `p + k` would be less than `k` apart
    have hfirst : (S.filter (¬ p + k ≤ ·)).card ≤ 1 := by
      refine Finset.card_le_one.2 fun q hq r hr => ?_
      obtain ⟨hq, hqk⟩ := Finset.mem_filter.1 hq
      obtain ⟨hr, hrk⟩ := Finset.mem_filter.1 hr
      have hpq := hp_le q hq
      have hpr := hp_le r hr
      rcases lt_trichotomy q r with hlt | heq | hlt
      · have := hsep q hq r hr hlt; omega
      · exact heq
      · have := hsep r hr q hq hlt; omega
    have hsplit := Finset.card_filter_add_card_filter_not (s := S) (p := (p + k ≤ ·))
    rw [List.length_cons]
    omega

/-! ### Comparing two scans -/

/-- A scan for `P` is also the scan for a weaker `Q`, whose extra positions come after all those
of `P`, iff no position with `Q` is left where it finishes. -/
theorem Leftmost.mono_iff (h : Leftmost P n k c ps) (hPQ : ∀ q, P q → Q q)
    (hQP : ∀ p q, q ≤ p → P p → Q q → P q) :
    Leftmost Q n k c ps ↔ ∀ q, finish k c ps ≤ q → q < n → ¬ Q q := by
  induction h with
  | nil hno =>
    constructor
    · intro h
      exact h.eq_nil_iff.1 rfl
    · exact .nil
  | @cons c p ps hcp hpn hp hno _ ih =>
    rw [finish, ← ih]
    constructor
    · rintro (_ | ⟨_, _, _, _, ht⟩)
      exact ht
    · exact .cons hcp hpn (hPQ p hp) fun q hq hqp hQ => hno q hq hqp (hQP p q hqp.le hp hQ)

/-- A scan for `Q` carried along a strictly increasing `f` whose values include every position
with `P`, and which turns a step over `K` into a step over `k`. -/
theorem Leftmost.map {N K i : ℕ} {is : List ℕ} {f : ℕ → ℕ} (h : Leftmost Q N K i is)
    (hf : ∀ i j, i < j → j ≤ N → f i < f j) (hn : f N ≤ n)
    (hP : ∀ q, P q → ∃ j, j ≤ N ∧ q = f j ∧ Q j) (hQ : ∀ j, j < N → Q j → P (f j))
    (hK : ∀ j, Q j → j + K ≤ N ∧ f (j + K) = f j + k) (hi : i ≤ N) (hlt : ∀ j, Q j → j < N) :
    Leftmost P n k (f i) (is.map f) := by
  have hno : ∀ {i b : ℕ}, i ≤ N → b ≤ N → (∀ j, i ≤ j → j < b → ¬ Q j) →
      ∀ q, f i ≤ q → q < f b → ¬ P q := by
    intro i b hi hb hno q hq hqb hPq
    obtain ⟨j, hj, rfl, hQj⟩ := hP q hPq
    have hij : i ≤ j := not_lt.1 fun hlt => absurd (hf j i hlt hi) (by omega)
    have hjb : j < b := not_le.1 fun hle => by
      rcases hle.lt_or_eq with hlt | rfl
      · exact absurd (hf b j hlt hj) (by omega)
      · omega
    exact hno j hij hjb hQj
  induction h with
  | nil h =>
    refine .nil fun q hq _ hPq => ?_
    obtain ⟨j, _, rfl, hQj⟩ := hP q hPq
    have hj := hlt j hQj
    exact hno hi le_rfl h (f j) hq (hf j N hj le_rfl) hPq
  | @cons i p is hip hpN hp h _ ih =>
    have hpn : f p < f N := hf p N hpN le_rfl
    have hle : f i ≤ f p := by
      rcases hip.lt_or_eq with hlt | rfl
      · exact (hf i p hlt hpN.le).le
      · exact le_rfl
    refine .cons hle (by omega) (hQ p hpN hp) (hno hi hpN.le h) ?_
    rw [← (hK p hp).2]
    exact ih (hK p hp).1

/-! ### Walks -/

/-- The strides `s` move by `k` from every position with `P`; from any other position they move
by less and over no position with `P`.  Nothing is asked of a position from which `k` positions do
not fit below `n`. -/
structure Stride (P : ℕ → Prop) (n k : ℕ) (s : ℕ → ℕ) : Prop where
  hit : ∀ c, c + k ≤ n → P c → s c = k
  pos : ∀ c, c + k ≤ n → ¬ P c → 0 < s c
  short : ∀ c, c + k ≤ n → ¬ P c → s c < k
  clear : ∀ c, c + k ≤ n → ¬ P c → ∀ q, c ≤ q → q < c + s c → ¬ P q

/-- The walk from `c` with strides `s` leaves `[0, n)` without visiting a position from which
`k` positions do not fit below `n`. -/
inductive Fits (s : ℕ → ℕ) (n k : ℕ) : ℕ → Prop
  | done {c : ℕ} : n ≤ c → Fits s n k c
  | step {c : ℕ} : c + k ≤ n → Fits s n k (c + s c) → Fits s n k c

variable {s : ℕ → ℕ}

theorem Fits.cases_iff : Fits s n k c ↔ n ≤ c ∨ c + k ≤ n ∧ Fits s n k (c + s c) := by
  constructor
  · rintro (h | ⟨h, h'⟩)
    · exact .inl h
    · exact .inr ⟨h, h'⟩
  · rintro (h | ⟨h, h'⟩)
    · exact .done h
    · exact .step h h'

theorem Fits.of_lt (hc : c < n) : Fits s n k c ↔ c + k ≤ n ∧ Fits s n k (c + s c) := by
  rw [Fits.cases_iff, or_iff_right (by omega)]

/-- Steps of one position do not matter as long as the walk is still below `n` after them. -/
theorem Fits.run {p : ℕ} (hcp : c ≤ p) (hp : p < n) (h : ∀ q, c ≤ q → q < p → s q = 1) :
    Fits s n k c ↔ Fits s n k p := by
  induction hcp using Nat.decreasingInduction with
  | self => rfl
  | of_succ c hcp ih =>
    rw [Fits.of_lt (by omega), h c le_rfl hcp, ih fun q hq => h q (by omega)]
    refine and_iff_right_of_imp fun hfit => ?_
    have := (Fits.of_lt hp).1 hfit
    omega

/-- Steps of one position up to the end fit when one position does. -/
theorem Fits.run_out (hc : c < n) (h : ∀ q, c ≤ q → q < n → s q = 1) :
    Fits s n k c ↔ k ≤ 1 := by
  have hrun : Fits s n k c ↔ Fits s n k (n - 1) :=
    Fits.run (by omega) (by omega) fun q hq hqn => h q hq (by omega)
  rw [hrun, Fits.of_lt (by omega), h (n - 1) (by omega) (by omega)]
  constructor
  · intro hfit
    omega
  · intro hk
    exact ⟨by omega, .done (by omega)⟩

/-- A walk with positive strides fits when one position does. -/
theorem fits_one (hs : ∀ q, q < n → 0 < s q) : Fits s n 1 c := by
  induction hm : n - c using Nat.strong_induction_on generalizing c with
  | _ m ih =>
    rcases Nat.lt_or_ge c n with hlt | hge
    · have := hs c hlt
      exact .step hlt (ih (n - (c + s c)) (by omega) rfl)
    · exact .done hge

/-- **A walk fits iff its last step ends flush with `n`**: it is at `n` already, or the scan for
`P` selects `n - k`. -/
theorem fits_iff (hs : Stride P n k s) (hk : 0 < k) (hP : ∀ q, P q → q + k ≤ n)
    (h : Leftmost P n k c ps) (hc : c ≤ n) : Fits s n k c ↔ c = n ∨ n - k ∈ ps := by
  induction hm : n - c using Nat.strong_induction_on generalizing c ps with
  | _ m ih =>
    rw [Fits.cases_iff]
    by_cases hck : c + k ≤ n
    · -- the step from `c` is visible in the scan: it selects `c`, or nothing the step is over
      have hlt : ¬ n ≤ c := by omega
      have hne : c ≠ n := by omega
      simp only [hlt, hne, hck, false_or, true_and]
      by_cases hPc : P c
      · obtain ⟨qs, rfl, ht⟩ := h.of_hit (by omega) hPc
        have hend : c + k = n ↔ n - k = c := by omega
        rw [hs.hit c hck hPc, ih (n - (c + k)) (by omega) ht hck rfl, List.mem_cons, hend]
      · have hpos := hs.pos c hck hPc
        have hshort := hs.short c hck hPc
        have hend : c + s c ≠ n := by omega
        have ht := h.raise (by omega) (hs.clear c hck hPc)
        simp only [ih (n - (c + s c)) (by omega) ht (by omega) rfl, hend, false_or]
    · -- from here `k` positions do not fit, so the scan selects nothing more
      have hps : n - k ∉ ps := fun hmem => by
        obtain ⟨hle, -, hp⟩ := h.mem hmem
        have := hP _ hp
        omega
      have hend : n ≤ c ↔ c = n := by omega
      simp only [hck, hps, false_and, or_false, hend]

end Scan

end PythonicCpp
