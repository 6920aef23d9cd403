import PythonicCpp.Search.CodePoints
import Mathlib.Data.List.Basic

/-!
# `sub`

`sub` replaces every match of the needle by what a callback returns for its offset.  The callback
runs in any monad, so that the order of its calls is part of what `sub` computes.

* `sub`, `subStep` : the function, and the body of its loop.
* `SubEvent` : what `sub` does with `last_pos`; `subRun` records it.
* `foldlM_subStep` : the loop, for every list of leftmost matches.
* `sub_splice` : `sub` splices what the callback returns for the occurrences of the plain search.
* `sub_utf8` : `sub` keeps UTF-8 well formed, and what `len` of the result is.
-/

namespace PythonicCpp

open Scan

/-- What `sub` does with `last_pos`. -/
inductive SubEvent where
  /-- `append(haystack.begin() + last_pos, stop - last_pos)`: `last_pos` and what it is converted
  to, and the address and the number of units that `append` gets. -/
  | append (lastPos : ℤ) (converted stop : ℕ) (address : ℤ) (count : ℕ)
  /-- `last_pos = pos + needle_len`: the sum, and what `last_pos` holds. -/
  | assign (pos needleLen sum : ℕ) (lastPos : ℤ)
deriving DecidableEq

/-- The variables of `sub`, and what it has done with `last_pos` so far. -/
structure SubState where
  result : List CodeUnit
  lastPos : ℤ
  events : List SubEvent

/-- Append the units of the haystack from `last_pos` to `stop`.  The `int` `last_pos` is converted
to `size_t` before it is subtracted. -/
def subAppend (haystack : Span) (stop : ℕ) (state : SubState) : SubState :=
  let address := haystack.first + state.lastPos
  let converted := toSizeT state.lastPos
  let count := toSizeT (stop - converted)
  { state with
    result := state.result ++ block haystack.storage address count
    events := state.events ++ [.append state.lastPos converted stop address count] }

/-- Let `last_pos` be the end of the match at `pos`. -/
def subAssign (pos needleLen : ℕ) (state : SubState) : SubState :=
  let sum := toSizeT (pos + needleLen)
  { state with
    lastPos := toInt sum
    events := state.events ++ [.assign pos needleLen sum (toInt sum)] }

/-- The body of the loop of `sub`, at offset `pos`. -/
def subStep {m : Type → Type} [Monad m] (haystack : Span) (needleLen : ℕ) (repl : ℕ → m Span)
    (state : SubState) (pos : ℕ) : m SubState := do
  let state := subAppend haystack pos state
  let replaced ← repl pos
  let state := { state with result := state.result ++ replaced.units }
  pure (subAssign pos needleLen state)

/-- `sub(haystack, needle, repl)`, up to its `return`. -/
def subRun {m : Type → Type} [Monad m] (haystack needle : Span) (repl : ℕ → m Span) :
    m SubState := do
  let needleLen := needle.size
  let view := (finditer haystack needle 0 .rangesEnd).val
  let state ← view.offsets.foldlM (subStep haystack needleLen repl) ⟨[], 0, []⟩
  pure (subAppend haystack haystack.size state)

/-- `sub(haystack, needle, repl)`, as the code units of the result. -/
def sub {m : Type → Type} [Monad m] (haystack needle : Span) (repl : ℕ → m Span) :
    m (List CodeUnit) := do
  let state ← subRun haystack needle repl
  pure state.result

variable {H D : Text} {m : Type → Type} [Monad m] [LawfulMonad m]

/-! ### The loop -/

/-- What the loop copies between two matches. -/
theorem block_between {c p : ℕ} (hcp : c ≤ p) (hp : p ≤ H.size) :
    block H.storage (H.first + c) (toSizeT (p - c)) = (H.units.drop c).take (p - c) := by
  have := H.size_lt'
  rw [toSizeT_sub hcp (by omega), H.drop_take_units (by omega)]

/-- **The loop of `sub` splices.**  When it is at offset `c` and has `ps` to go, the calls of
`repl` left are those for `ps`, in order, and what it appends is the splice from `c` on. -/
theorem foldlM_subStep {P : ℕ → Prop} {c : ℕ} {ps : List ℕ} (repl : ℕ → m Span)
    (result : List CodeUnit) (events : List SubEvent) (hn : H.size < 2 ^ 31)
    (hps : Leftmost P H.size D.size c ps) (hP : ∀ q, P q → q + D.size ≤ H.size)
    (hc : c ≤ H.size) :
    (do
      let state ← ps.foldlM (subStep H.toSpan D.size repl) ⟨result, c, events⟩
      pure (subAppend H.toSpan H.size state).result) =
      (do
        let rs ← ps.mapM fun p => do pure (p, (← repl p).units)
        pure (result ++ splice H.units D.size c rs)) := by
  induction hps generalizing result events with
  | @nil c _ =>
    have hrest := block_between (H := H) hc le_rfl
    rw [List.take_of_length_le (by simp)] at hrest
    simp only [List.foldlM_nil, List.mapM_nil, pure_bind, subAppend, toSizeT_sub_toSizeT, splice,
      hrest]
  | @cons c p ps hcp _ hp _ _ ih =>
    have hend := hP p hp
    -- the conversions of `last_pos` keep its value
    have hlast := toInt_toSizeT_add (by omega : p + D.size < 2 ^ 31)
    simp only [List.foldlM_cons, List.mapM_cons, subStep, subAppend, subAssign, toSizeT_sub_toSizeT,
      bind_assoc, pure_bind, hlast, block_between hcp (by omega : p ≤ H.size)]
    simp only [subAppend, toSizeT_sub_toSizeT] at ih
    simp only [ih _ _ hend, splice, List.append_assoc]

/-- `sub` splices where its view yields the offsets of the plain search. -/
theorem sub_of_offsets (hD : D.units ≠ []) (hn : H.size < 2 ^ 31) (repl : ℕ → m Span)
    (hoffsets : (finditer H.toSpan D.toSpan 0 .rangesEnd).val.offsets =
      plainSearch H.units D.units) :
    sub H.toSpan D.toSpan repl =
      (do
        let rs ← (plainSearch H.units D.units).mapM fun p => do pure (p, (← repl p).units)
        pure (splice H.units D.size 0 rs)) := by
  have hps := plainSearch_spec (h := H.units) hD
  rw [H.length_units, D.length_units] at hps
  have hloop := foldlM_subStep repl [] [] hn hps (fun q hq => by simpa using hq.add_le)
    (Nat.zero_le _)
  simp only [sub, subRun, hoffsets, bind_assoc, pure_bind]
  exact hloop

theorem sub_eq_splice (hD : D.units ≠ []) (hnext : H.next ∉ D.units) (hn : H.size < 2 ^ 31)
    (repl : ℕ → m Span) :
    sub H.toSpan D.toSpan repl =
      (do
        let rs ← (plainSearch H.units D.units).mapM fun p => do pure (p, (← repl p).units)
        pure (splice H.units D.size 0 rs)) :=
  sub_of_offsets hD hn repl (finditer_offsets hD hnext)

/-- Where there is nothing to replace, `sub` copies a haystack of any size. -/
theorem sub_of_offsets_nil (repl : ℕ → m Span)
    (hoffsets : (finditer H.toSpan D.toSpan 0 .rangesEnd).val.offsets = []) :
    sub H.toSpan D.toSpan repl = pure H.units := by
  have hcopy := block_between (H := H) (Nat.zero_le H.size) le_rfl
  rw [List.drop_zero, Nat.sub_zero, List.take_of_length_le (by simp)] at hcopy
  rw [sub, subRun, hoffsets, List.foldlM_nil, pure_bind, pure_bind, subAppend]
  simp only [toSizeT_sub_toSizeT]
  exact congrArg pure hcopy

/-- **`sub` is exact splicing.**  It calls `repl` once for each occurrence of the plain
left-to-right search, in ascending order, and returns the haystack with each occurrence replaced by
what the call returned; a callback that always returns the needle's units gives back the
haystack. -/
theorem sub_splice (H D : Text) (hD : D.units ≠ []) (hnext : H.next ∉ D.units)
    (hn : H.size < 2 ^ 31) {m : Type → Type} [Monad m] [LawfulMonad m] (repl : ℕ → m Span) :
    sub H.toSpan D.toSpan repl =
        (do
          let rs ← (plainSearch H.units D.units).mapM fun p => do pure (p, (← repl p).units)
          pure (splice H.units D.size 0 rs)) ∧
      ∀ R : Span, R.units = D.units → (∀ p, repl p = pure R) →
        sub H.toSpan D.toSpan repl = pure H.units := by
  have hsub := sub_eq_splice hD hnext hn repl
  refine ⟨hsub, fun R hR hrepl => ?_⟩
  have hself := splice_self (plainSearch_spec (h := H.units) hD)
  rw [D.length_units, List.drop_zero] at hself
  simp only [hsub, hrepl, hR, pure_bind, List.mapM_pure, hself]

/-- The calls of the callback in `a-b-c`, in the order they are made. -/
theorem sub_splice_calls :
    (sub (Text.ofUnits [97, 45, 98, 45, 99] 0 (by decide)).toSpan
        (Text.ofUnits [45] 0 (by decide)).toSpan (m := StateM (List ℕ)) fun p => do
          modify fun calls => calls ++ [p]
          pure (Text.ofUnits [43, 43] 0 (by decide)).toSpan).run [] =
      ([97, 43, 43, 98, 43, 43, 99], [1, 3]) := by
  rw [(sub_splice (Text.ofUnits [97, 45, 98, 45, 99] 0 (by decide))
    (Text.ofUnits [45] 0 (by decide)) (by decide) (by decide) (by decide) _).1]
  rfl

/-! ### UTF-8 -/

/-- The code units are the encoding of a list of scalar values. -/
def WellFormed (l : List CodeUnit) : Prop := ∃ cs, l = encode cs

/-- With a callback that has no effects, `sub` splices what it returns. -/
theorem sub_pure (hD : D.units ≠ []) (hnext : H.next ∉ D.units) (hn : H.size < 2 ^ 31)
    (repl : ℕ → Span) :
    Id.run (sub H.toSpan D.toSpan fun p => pure (repl p)) =
      splice H.units D.size 0 ((plainSearch H.units D.units).map fun p => (p, (repl p).units)) := by
  rw [sub_eq_splice hD hnext hn]
  simp only [pure_bind, List.mapM_pure, Id.run_pure]

/-- On encoded texts, splicing encodings is splicing scalar values. -/
theorem splice_plainSearch_encode {hs ds : List Char} (hH : H.units = encode hs)
    (hDs : D.units = encode ds) (hd : ds ≠ []) (r : ℕ → List Char) :
    splice H.units D.size 0 ((plainSearch H.units D.units).map fun p => (p, encode (r p))) =
      encode (splice hs ds.length 0
        ((plainSearch hs ds).map fun i => (i, r (utf8.offset hs i)))) := by
  have hsplice := LeadCode.splice_encode (C := utf8) (fun i => r (utf8.offset hs i))
    (plainSearch_spec (h := hs) hd)
  have hsize : D.size = (encode ds).length := by rw [← D.length_units, hDs]
  rw [plainSearch_encode hH hDs hd, List.map_map, hH, hsize]
  exact hsplice

/-- On encoded texts `sub` splices scalar values. -/
theorem sub_encode {hs ds : List Char} {rs : ℕ → List Char} {repl : ℕ → Text}
    (hH : H.units = encode hs) (hDs : D.units = encode ds) (hd : ds ≠ [])
    (hnext : H.next ∉ D.units) (hn : H.size < 2 ^ 31)
    (hrepl : ∀ p, (repl p).units = encode (rs p)) :
    Id.run (sub H.toSpan D.toSpan fun p => pure (repl p).toSpan) =
      encode (splice hs ds.length 0
        ((plainSearch hs ds).map fun i => (i, rs (utf8.offset hs i)))) := by
  rw [sub_pure (units_ne_nil hDs hd) hnext hn]
  simp only [hrepl]
  exact splice_plainSearch_encode hH hDs hd rs

/-- **`sub` keeps UTF-8 well formed**, and `len` of its result is what is kept of the haystack plus
what the callback returned. -/
theorem sub_utf8 (H D : Text) (repl : ℕ → Text) (hH : WellFormed H.units) (hD : WellFormed D.units)
    (hD₀ : D.units ≠ []) (hnext : H.next ∉ D.units) (hn : H.size < 2 ^ 31)
    (hrepl : ∀ p, WellFormed (repl p).units) :
    let result := Id.run (sub H.toSpan D.toSpan fun p => pure (repl p).toSpan)
    let view := (finditer H.toSpan D.toSpan 0 .rangesEnd).val
    WellFormed result ∧
      count H.toSpan D.toSpan 0 .rangesEnd * len D.toSpan ≤ len H.toSpan ∧
      ∀ R : Text, R.units = result →
        len R.toSpan = len H.toSpan - count H.toSpan D.toSpan 0 .rangesEnd * len D.toSpan +
          (view.offsets.map fun p => len (repl p).toSpan).sum := by
  intro result view
  obtain ⟨hs, hH⟩ := hH
  obtain ⟨ds, hD⟩ := hD
  choose rs hrs using hrepl
  have hd : ds ≠ [] := by
    rintro rfl
    exact hD₀ hD
  have hresult : result = _ := sub_encode hH hD hd hnext hn hrs
  have hlen := length_splice (fun i => rs (utf8.offset hs i)) (plainSearch_spec (h := hs) hd)
    (fun q hq => hq.add_le) (Nat.zero_le _)
  have hle := plainSearch_length_mul_le (h := hs) hd
  have hoffsets : view.offsets = (plainSearch hs ds).map (utf8.offset hs) := by
    rw [← plainSearch_encode hH hD hd]
    exact finditer_offsets hD₀ hnext
  have hlens : (fun p => len (repl p).toSpan) = fun p => (rs p).length :=
    funext fun p => len_encode (hrs p)
  have hcount : count H.toSpan D.toSpan 0 .rangesEnd = (plainSearch hs ds).length := by
    rw [count_eq hD₀ hnext, plainSearch_encode hH hD hd, List.length_map]
  refine ⟨⟨_, hresult⟩, ?_, fun R hR => ?_⟩
  · rwa [len_encode hH, len_encode hD, hcount]
  · rw [len_encode (hR.trans hresult), len_encode hH, len_encode hD, hcount, hoffsets, hlens,
      List.map_map]
    simp only [Function.comp_def]
    omega

/-- Replacing the second of two three-byte scalar values by an ASCII text of two. -/
theorem sub_utf8_len :
    len (Text.ofUnits (encode ['中', 'a', 'b']) 0 (by decide)).toSpan = 3 := by
  have h := (sub_utf8 (Text.ofUnits (encode ['中', '文']) 0 (by decide))
    (Text.ofUnits (encode ['文']) 0 (by decide))
    (fun _ => Text.ofUnits (encode ['a', 'b']) 0 (by decide))
    ⟨_, Text.units_ofUnits _⟩ ⟨_, Text.units_ofUnits _⟩ (by decide) (by decide) (by decide)
    fun _ => ⟨_, Text.units_ofUnits _⟩).2.2 (Text.ofUnits (encode ['中', 'a', 'b']) 0 (by decide))
    (by decide +kernel)
  rw [h]
  decide +kernel

end PythonicCpp
