import PythonicCpp.Machine.Basic
import Mathlib.Logic.Function.Iterate

/-!
# Computations with undefined behaviour

A `Checked` computation stops where its behaviour is undefined (a division by zero, the overflow
of an `int`), and records the operations on the way that go wrong without a stop.

* `Event` : a difference of sizes, which may wrap, or an access to units, which may leave a range.
* `sizeSub`, `sizeMul`, `sizeDiv`, `intAdd`, `access`, `forInt` : the operations.
* `Yields x a es` : `x` has the value `a`, and records `es`.
-/

namespace PythonicCpp

/-- An operation that is recorded. -/
inductive Event where
  /-- The difference `a - b` of two values of type `size_t`. -/
  | diff (a b : ℕ)
  /-- An access to the `n` units from address `a` on. -/
  | units (a : ℤ) (n : ℕ)
  deriving DecidableEq, Repr

/-- The difference does not wrap. -/
def Event.Exact : Event → Prop
  | diff a b => b ≤ a
  | units _ _ => True

instance : DecidablePred Event.Exact
  | .diff a b => inferInstanceAs (Decidable (b ≤ a))
  | .units _ _ => inferInstanceAs (Decidable True)

/-- A computation that stops where its behaviour is undefined. -/
abbrev Checked := OptionT (Traced Event)

instance {ρ : Type*} : LawfulMonad (Traced ρ) := LawfulMonad.mk' _
  (fun x => congrArg (Traced.mk x.val) (List.append_nil x.reads))
  (fun _ _ => rfl)
  (fun x f g => congrArg (Traced.mk _) (List.append_assoc x.reads _ _))

/-! ### Operations -/

/-- `a - b` on `size_t`. -/
def sizeSub (a b : ℕ) : Checked ℕ := .lift (.read (.diff a b) (toSizeT (a - b)))

/-- `a * b` on `size_t`. -/
def sizeMul (a b : ℕ) : ℕ := toSizeT (a * b)

/-- `a / b` on `size_t`. -/
def sizeDiv (a b : ℕ) : Checked ℕ := if b = 0 then failure else pure (a / b)

/-- `a + b` on `int`. -/
def intAdd (a b : ℤ) : Checked ℤ :=
  if -2 ^ 31 ≤ a + b ∧ a + b < 2 ^ 31 then pure (a + b) else failure

/-- An access to the `n` units from address `a` on. -/
def access (a : ℤ) (n : ℕ) : Checked Unit := .lift (.read (.units a n) ())

/-- `for (int i = ..; i < n; i++)` with `n` of type `size_t`, from an `i` that is not negative. -/
def forInt {α : Type} (n : ℕ) (body : α → α) (i : ℕ) (a : α) : Checked α :=
  if i < n then
    -- the increment of the counter overflows at the end of its range
    if i + 1 < 2 ^ 31 then forInt n body (i + 1) (body a) else failure
  else pure a
termination_by n - i

/-! ### Values and events -/

/-- `x` has the value `a`, and records `es`. -/
def Yields {α : Type} (x : Checked α) (a : α) (es : List Event) : Prop := x.run = ⟨some a, es⟩

variable {α β : Type} {x : Checked α} {f : α → Checked β} {a : α} {b : β} {es fs : List Event}

theorem yields_pure (a : α) : Yields (pure a) a [] := rfl

theorem Yields.bind (h : Yields x a es) (h' : Yields (f a) b fs) :
    Yields (x >>= f) b (es ++ fs) := by
  rw [Yields] at *
  rw [OptionT.run_bind, h]
  change Traced.mk (f a).run.val (es ++ (f a).run.reads) = _
  rw [h']

theorem Yields.bind_pure (h : Yields x a es) (g : α → β) :
    Yields (do pure (g (← x))) (g a) es := by
  have hbind := h.bind (yields_pure (g a)) (f := fun a => pure (g a))
  rwa [List.append_nil] at hbind

theorem yields_mapM {γ : Type} {g : γ → Checked β} {v : γ → β} {ev : γ → List Event} {cs : List γ}
    (h : ∀ c ∈ cs, Yields (g c) (v c) (ev c)) :
    Yields (cs.mapM g) (cs.map v) (cs.flatMap ev) := by
  induction cs with
  | nil => exact yields_pure []
  | cons c cs ih =>
    have hrest := ih fun d hd => h d (List.mem_cons_of_mem c hd)
    rw [List.mapM_cons, List.flatMap_cons, ← List.append_nil (cs.flatMap ev)]
    exact (h c List.mem_cons_self).bind (hrest.bind (yields_pure _))

theorem yields_sizeSub_wrap (m n : ℕ) :
    Yields (sizeSub m n) (toSizeT ((m : ℤ) - n)) [.diff m n] := rfl

theorem yields_sizeSub {m n : ℕ} (hle : n ≤ m) (hm : m < 2 ^ 64) :
    Yields (sizeSub m n) (m - n) [.diff m n] := by
  rw [← toSizeT_sub hle hm]
  exact yields_sizeSub_wrap m n

theorem sizeDiv_zero {m : ℕ} : (sizeDiv m 0).run.val = none := by
  rw [sizeDiv, if_pos rfl]
  rfl

theorem yields_sizeDiv {m n : ℕ} (hn : n ≠ 0) : Yields (sizeDiv m n) (m / n) [] := by
  rw [sizeDiv, if_neg hn]
  exact yields_pure _

theorem yields_intAdd {m n : ℤ} (h₀ : -2 ^ 31 ≤ m + n) (h : m + n < 2 ^ 31) :
    Yields (intAdd m n) (m + n) [] := by
  rw [intAdd, if_pos ⟨h₀, h⟩]
  exact yields_pure _

theorem yields_access (m : ℤ) (n : ℕ) : Yields (access m n) () [.units m n] := rfl

theorem sizeMul_of_lt {m n : ℕ} (h : m * n < 2 ^ 64) : sizeMul m n = m * n := by
  rw [sizeMul, ← Nat.cast_mul, toSizeT_natCast h]

/-- A loop of at most `2 ^ 31 - 1` turns runs to its end. -/
theorem yields_forInt {n i : ℕ} {body : α → α} (hn : n < 2 ^ 31) (hi : i ≤ n) :
    Yields (forInt n body i a) (body^[n - i] a) [] := by
  induction hm : n - i generalizing i a with
  | zero =>
    rw [forInt, if_neg (by omega)]
    exact yields_pure a
  | succ m ih =>
    rw [forInt, if_pos (by omega), if_pos (by omega), Function.iterate_succ_apply]
    exact ih (by omega) (by omega)

/-- A loop that appends `l` in each turn. -/
theorem yields_forInt_append {n : ℕ} (hn : n < 2 ^ 31) (l r : List α) :
    Yields (forInt n (· ++ l) 0 r) (r ++ (List.replicate n l).flatten) [] := by
  have hiter : (· ++ l)^[n] r = r ++ (List.replicate n l).flatten := by
    induction n generalizing r with
    | zero => simp
    | succ n ih =>
      rw [Function.iterate_succ_apply, ih (by omega), List.replicate_succ, List.flatten_cons,
        List.append_assoc]
  rw [← hiter]
  exact yields_forInt hn (Nat.zero_le n)

/-- A loop of more turns overflows its counter. -/
theorem forInt_eq_failure {n i : ℕ} {body : α → α} (hn : 2 ^ 31 ≤ n) (hi : i < 2 ^ 31) :
    forInt n body i a = failure := by
  induction hm : 2 ^ 31 - i generalizing i a with
  | zero => omega
  | succ m ih =>
    rw [forInt, if_pos (by omega)]
    split_ifs with hlt
    · exact ih hlt (by omega)
    · rfl

theorem Yields.val (h : Yields x a es) : x.run.val = some a := congrArg Traced.val h

/-- Nothing happens after undefined behaviour. -/
theorem bind_eq_none (h : x.run.val = none) : (x >>= f).run.val = none := by
  rw [OptionT.run_bind]
  change (x.run.val.elim _ _ : Traced Event (Option β)).val = none
  rw [h]
  rfl

/-- What has a value has one at each step. -/
theorem bind_eq_some (h : (x >>= f).run.val = some b) :
    ∃ a, x.run.val = some a ∧ (f a).run.val = some b := by
  rw [OptionT.run_bind] at h
  change (x.run.val.elim _ _ : Traced Event (Option β)).val = some b at h
  cases hval : x.run.val with
  | none =>
    rw [hval] at h
    cases h
  | some a =>
    rw [hval] at h
    exact ⟨a, rfl, h⟩

theorem Yields.bind_eq_none (h : Yields x a es) (h' : (f a).run.val = none) :
    (x >>= f).run.val = none := by
  rw [Yields] at h
  rw [OptionT.run_bind, h]
  exact h'

variable {ok : Event → Prop}

theorem all_bind :
    (x >>= f).run.All ok ↔ x.run.All ok ∧ ∀ a, x.run.val = some a → (f a).run.All ok := by
  rw [OptionT.run_bind]
  refine Traced.all_bind.trans (and_congr_right fun _ => ?_)
  cases hval : x.run.val with
  | none => exact iff_of_true (Traced.all_pure _) nofun
  | some a => simp

theorem sizeSub_all {m n : ℕ} : (sizeSub m n).run.All ok ↔ ok (.diff m n) :=
  Traced.all_bind.trans <| (and_iff_left (Traced.all_pure _)).trans Traced.all_read

theorem access_all {m : ℤ} {n : ℕ} : (access m n).run.All ok ↔ ok (.units m n) :=
  Traced.all_bind.trans <| (and_iff_left (Traced.all_pure _)).trans Traced.all_read

theorem forInt_all {n i : ℕ} {body : α → α} : (forInt n body i a).run.All ok := by
  fun_induction forInt n body i a with
  | case1 i a _ _ ih => exact ih
  | case2 i a _ _ => exact Traced.all_pure _
  | case3 i a _ => exact Traced.all_pure _

theorem Yields.all (h : Yields x a es) : x.run.All ok ↔ ∀ e ∈ es, ok e := by
  rw [Traced.All, h]

end PythonicCpp
