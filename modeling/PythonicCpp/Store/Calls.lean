import PythonicCpp.Store.Results
import PythonicCpp.Store.Sane

/-!
# The calls of a program

* `Sane.ends_arguments`, `Sane.ends_call` : the pointers that the member functions of a string get,
  and what a call of one does to the texts.
* `Sane.view_spec`, `function_spec` : the same for the functions of the library.
-/

namespace PythonicCpp

namespace FbString

open Scan

variable {w w' : World} {h h' : Heap Cell} {i j off n : ℕ} {c c' d : Core} {o o' : Option Core}
  {u v : List CodeUnit} {vs : List (Option (List CodeUnit))}

/-! ### Calls -/

section Calls

variable {α : Type} {x : Method α} {E : World → Prop}

theorem ends_string (hi : w.strings[i]? = some (some c)) {Q : Core → World → Prop} (hQ : Q c w) :
    Ends (string i) w Q E := by
  rw [string, ends_bind, ends_get, ends_demand]
  exact ⟨c, by rw [hi]; rfl, hQ⟩

theorem ends_vacant (hi : w.strings[i]? = some none) {Q : Unit → World → Prop} (hQ : Q () w) :
    Ends (vacant i) w Q E := by
  rw [vacant, ends_bind, ends_get, ends_check]
  exact ⟨hi, hQ⟩

theorem ends_put {Q : Unit → World → Prop} :
    Ends (put i o) w Q E ↔ Q () ⟨w.heap, w.strings.set i o⟩ := Iff.rfl

theorem ends_inHeap {x : Mem α} {Q : α → World → Prop} :
    Ends (inHeap x) w Q E ↔
      Ends x w.heap (fun a h => Q a ⟨h, w.strings⟩) fun h => E ⟨h, w.strings⟩ := ends_zoom

theorem ends_call (hi : w.strings[i]? = some (some c)) {Q : α → World → Prop}
    (hx : Ends x ⟨w.heap, c⟩ (fun a s => Q a ⟨s.heap, w.strings.set i (some s.this)⟩)
      fun s => E ⟨s.heap, w.strings.set i (some s.this)⟩) : Ends (call i x) w Q E := by
  rw [call, ends_bind]
  refine ends_string hi ?_
  rwa [ends_zoom]

/-- **The units of another string, or of the string itself**, are where the pointer points. -/
theorem World.Sane.ends_dataOf (hw : w.Sane) (hi : w.strings[i]? = some (some c))
    (hj : w.strings[j]? = some (some d)) (hle : off + n ≤ (d.text w.heap).length)
    {Q : Ptr → World → Prop}
    (hQ : ∀ p, (p.add off).Names ⟨w.heap, c⟩ ((c.text w.heap).map some)
      ((((d.text w.heap).drop off).take n).map some) → Q p w) : Ends (dataOf i j) w Q E := by
  have hd := hw.shows_text hj
  have hlen : (((d.text w.heap).drop off).take n).length = n := by
    rw [List.length_take_of_le]
    rw [List.length_drop]
    omega
  have htake : (((d.text w.heap).map some).drop off).take n =
      (((d.text w.heap).drop off).take n).map some := by
    rw [List.map_take, List.map_drop]
  -- a string that is the same has its units inside
  have hinside : ∀ p : Ptr, c = d → p = c.begin → (p.add off).Names ⟨w.heap, c⟩
      ((c.text w.heap).map some) ((((d.text w.heap).drop off).take n).map some) := by
    rintro p rfl rfl
    refine .inr ⟨off, ?_, ?_, rfl⟩
    · rwa [List.length_map, List.length_map, hlen]
    · rw [List.length_map, hlen, htake]
  unfold dataOf
  rw [ends_bind]
  refine ends_string hj ?_
  cases d with
  | small cells =>
    dsimp only
    rw [ends_pure]
    split_ifs with hij
    · subst hij
      obtain rfl := Option.some.inj (Option.some.inj (hi.symm.trans hj))
      exact hQ _ (hinside _ rfl rfl)
    · refine hQ _ (.inl ?_)
      have hread : (cells.drop off).take n =
          ((((Core.small cells).text w.heap).map some).drop off).take n :=
        (SmallShows.text hd).read (by rwa [List.length_map])
      rw [htake] at hread
      exact hread ▸ List.take_prefix n _
  | ml m =>
    dsimp only
    rw [ends_pure]
    refine hQ _ ?_
    by_cases hshare : m.data ∈ c.held
    · have hcd := hw.agree i j c _ hi hj ⟨m.data, hshare, List.mem_singleton_self _⟩
      exact hinside _ hcd (hcd ▸ rfl)
    · obtain ⟨b, hb, hback⟩ := MediumLarge.Shows.block hd
      have hlt := hback.text.length_lt
      rw [List.length_map] at hlt
      refine .inl ⟨hshare, b, hb, ?_, ?_⟩
      · rw [List.length_map, hlen]
        omega
      · rw [List.length_map, hlen, Nat.zero_add, hback.text.read (by rwa [List.length_map]), htake]

/-- The arguments name the units. -/
theorem World.Sane.ends_arguments (hw : w.Sane) (hi : w.strings[i]? = some (some c)) {s : Source}
    (hs : s.text w.values = some v) {Q : Ptr × ℕ → World → Prop}
    (hQ : ∀ p : Ptr, p.Names ⟨w.heap, c⟩ ((c.text w.heap).map some) (v.map some) →
      Q (p, (v.map some).length) w) : Ends (s.arguments i) w Q E := by
  cases s with
  | elsewhere l =>
    obtain rfl : l = v := Option.some.inj hs
    rw [Source.arguments, ends_pure, ← List.length_map (some : CodeUnit → Cell)]
    exact hQ _ (.inl (List.prefix_refl _))
  | part j off n =>
    simp only [Source.text, Option.bind_eq_bind, Option.bind_eq_some_iff,
      Option.ite_none_right_eq_some, Option.some.injEq] at hs
    obtain ⟨t, ht, hle, rfl⟩ := hs
    obtain ⟨d, hj, rfl⟩ := exists_string ht
    have hlen : (((d.text w.heap).drop off).take n).length = n := by
      rw [List.length_take_of_le]
      rw [List.length_drop]
      omega
    rw [Source.arguments, ends_bind]
    refine hw.ends_dataOf hi hj hle fun p hp => ?_
    rw [ends_pure]
    have hgoal := hQ _ hp
    rwa [List.length_map, hlen] at hgoal

/-- A call of a function that changes the text, or has its request refused. -/
theorem World.Sane.ends_call (hw : w.Sane) (hi : w.strings[i]? = some (some c))
    (hx : Ends x ⟨w.heap, c⟩ (fun _ t => Self.Becomes ⟨w.heap, c⟩ (v.map some) t)
      (· = Self.refused ⟨w.heap, c⟩)) :
    Ends (call i x) w (fun _ w' => w'.Holds (w.values.set i (some v)))
      fun w' => w'.Holds w.values := by
  refine FbString.ends_call hi (hx.mono ?_ ?_)
  · rintro a t hbec
    exact hw.becomes hi hbec
  · rintro t rfl
    have hs : Self.Shows ⟨w.heap, c⟩ ((c.text w.heap).map some) := hw.shows_text hi
    exact hw.becomes_self hi hs.refused

end Calls

/-! ### Functions of the library -/

/-- **A view** of a literal or of a string is where its pointer points. -/
theorem World.Sane.view_spec (hw : w.Sane) {s : View} {T : Text} (hs : s.text w.values = some T) :
    ∃ p : Ptr, s.argument w = some (T.toSpan, p) ∧ p.Reads w.heap T.units := by
  cases s with
  | literal l =>
    simp only [View.text, Option.dite_none_right_eq_some, Option.some.injEq] at hs
    obtain ⟨hl, rfl⟩ := hs
    exact ⟨_, rfl, reads_ofUnits _ _ _⟩
  | part j off n =>
    simp only [View.text, Option.bind_eq_bind, Option.bind_eq_some_iff,
      Option.dite_none_right_eq_some, Option.some.injEq] at hs
    obtain ⟨t, ht, ⟨hlt, hle⟩, rfl⟩ := hs
    obtain ⟨c, hj, rfl⟩ := exists_string ht
    refine ⟨(viewOf c).add off, ?_, ?_⟩
    · rw [View.argument, hj]
      simp [Text.window, Text.ofUnits]
    · have hreads : (viewOf c).Reads w.heap (c.text w.heap) := by
        have hall := (hw.shows_text hj).reads le_rfl
        rwa [List.take_length] at hall
      rw [Text.units_window, Text.units_ofUnits, Nat.add_sub_cancel_left]
      have hpart : ((viewOf c).add off).Outside ⟨w.heap, reset⟩
          ((((c.text w.heap).map some).drop off).take n) :=
        Ptr.Outside.add hreads (by rwa [List.length_map])
      rwa [← List.map_drop, ← List.map_take] at hpart

/-- The calls of a callback that all have a value. -/
theorem mapM_texts {repl : ℕ → View} {ps : List ℕ} {rs : List (ℕ × List CodeUnit)}
    (h : (ps.mapM fun pos => do
      pure (pos, (← (do pure (← (repl pos).text vs).toSpan : Option Span)).units)) = some rs) :
    (∀ pos ∈ ps, ∃ T, (repl pos).text vs = some T) ∧
      rs = ps.map fun pos => (pos, ((repl pos).text vs).elim [] fun T => T.units) := by
  induction ps generalizing rs with
  | nil => exact ⟨fun _ hmem => absurd hmem List.not_mem_nil, (Option.some.inj h).symm⟩
  | cons pos ps ih =>
    simp only [List.mapM_cons, Option.pure_def, Option.bind_eq_bind, Option.bind_eq_some_iff,
      Option.some.injEq] at h
    obtain ⟨_, ⟨_, ⟨T, hT, rfl⟩, rfl⟩, rs', hrest, rfl⟩ := h
    obtain ⟨hall, rfl⟩ := ih hrest
    refine ⟨fun pos' hmem => ?_, by rw [List.map_cons, hT, Option.elim_some]⟩
    rcases List.mem_cons.1 hmem with rfl | hmem
    · exact ⟨T, hT⟩
    · exact hall pos' hmem

/-- The call of a function gets to its return statement with a new string, or throws and leaves
nothing behind. -/
def World.Returns (w : World) (x : Program Core) (u : List CodeUnit) : Prop :=
  Ends x w (fun c w' => w'.strings = w.strings ∧ Arises w.heap (u.map some) w'.heap c)
    fun w' => w'.strings = w.strings ∧ Keeps w.heap [] w'.heap []

theorem returns_inHeap {x : Mem Core} (hx : Ends x w.heap
    (fun c h' => Arises w.heap (u.map some) h' c) fun h' => Keeps w.heap [] h' []) :
    w.Returns (inHeap x) u := by
  rw [World.Returns, ends_inHeap]
  exact hx.mono (fun _ _ ha => ⟨rfl, ha⟩) fun _ hk => ⟨rfl, hk⟩

theorem Returns.arises {x : Mem Core} (hx : Returns x h u n) :
    Ends x h (fun c h' => Arises h (u.map some) h' c) fun h' => Keeps h [] h' [] :=
  hx.imp fun _ _ ha => ha.1

theorem fits_eq_some : fits u = some v ↔ u.length + sizeofRefCounted < 2 ^ 64 ∧ u = v := by
  rw [fits, Option.ite_none_right_eq_some, Option.some.injEq]

/-- `sub` of views, with a callback that returns views. -/
theorem World.Sane.sub_spec (hw : w.Sane) {haystack needle : View} {repl : ℕ → View}
    (hf : (Function.sub haystack needle repl).apply w.values = some u) :
    w.Returns (Function.sub haystack needle repl).exec u := by
  simp only [Function.apply, Option.bind_eq_bind, Option.bind_eq_some_iff,
    Option.ite_none_right_eq_some] at hf
  obtain ⟨H, hH, D, hD, stored, hstored, storedNeedle, hneedle, ⟨hD₀, hnext, hn, hwithin⟩, r, hr,
    hfits⟩ := hf
  obtain ⟨hlen, rfl⟩ := fits_eq_some.1 hfits
  obtain ⟨p, hp, hreads⟩ := hw.view_spec hH
  obtain ⟨q, hq, -⟩ := hw.view_spec hD
  rw [sub_eq_splice hD₀ hnext hn] at hr
  obtain ⟨rs, hrs, hsplice⟩ := Option.bind_eq_some_iff.1 hr
  obtain ⟨hall, rfl⟩ := mapM_texts hrs
  have hcall : ∀ pos ∈ plainSearch H.units D.units, ∃ q : Ptr × ℕ,
      Appends ⟨w.heap, reset⟩ (do
        let replaced ← demand ((repl pos).argument w)
        pure (replaced.2, replaced.1.size)) [] q ∧
      q.1.Reads w.heap (((repl pos).text w.values).elim [] fun T => T.units) ∧
      q.2 = (((repl pos).text w.values).elim [] fun T => T.units).length := by
    intro pos hpos
    obtain ⟨T, hT⟩ := hall pos hpos
    obtain ⟨p, hp, hreads⟩ := hw.view_spec hT
    refine ⟨(p, T.size), ?_, ?_, ?_⟩
    · rw [hp]
      exact appends_pure _ _
    · rwa [hT]
    · rw [hT, Option.elim_some, Text.length_units]
  have : Nonempty (Ptr × ℕ) := ⟨.units [], 0⟩
  choose! view hview using hcall
  unfold Function.exec
  dsimp only
  rw [World.Returns, ends_bind, ends_get, ends_bind, ends_demand]
  refine ⟨_, hp, ?_⟩
  rw [ends_bind, ends_demand]
  refine ⟨_, hq, ?_⟩
  rw [ends_bind, ends_demand]
  refine ⟨_, hstored, ?_⟩
  rw [ends_bind, ends_demand]
  have hsub := subIn_spec hD₀ hn (finditer_offsets hD₀ hnext) hwithin hreads hview
    (Option.some.inj hsplice).symm hlen
  exact ⟨_, hneedle, returns_inHeap hsub.arises⟩

/-- **A function** gets to its return statement with a new string of the text that it computes. -/
theorem function_spec (hw : w.Sane) {f : Function} (hf : f.apply w.values = some u) :
    w.Returns f.exec u := by
  cases f with
  | sub haystack needle repl => exact hw.sub_spec hf
  | center rng width padding tail =>
    simp only [Function.apply, Option.bind_eq_bind, Option.bind_eq_some_iff,
      Option.ite_none_right_eq_some] at hf
    obtain ⟨H, hH, P, hP, hwidth, r, hr, hfits⟩ := hf
    obtain ⟨hlen, rfl⟩ := fits_eq_some.1 hfits
    obtain ⟨p, hp, hreads⟩ := hw.view_spec hH
    obtain ⟨q, hq, hpadding⟩ := hw.view_spec hP
    unfold Function.exec
    dsimp only
    rw [World.Returns, ends_bind, ends_get, ends_bind, ends_demand]
    refine ⟨_, hp, ?_⟩
    rw [ends_bind, ends_get, ends_bind, ends_demand]
    exact ⟨_, hq, returns_inHeap (centerIn_spec hreads hpadding hr hwidth hlen).arises⟩
  | capitalize rng =>
    simp only [Function.apply, Option.bind_eq_bind, Option.bind_eq_some_iff,
      Option.ite_none_right_eq_some] at hf
    obtain ⟨H, hH, hH₀, r, hr, hfits⟩ := hf
    obtain ⟨hlen, rfl⟩ := fits_eq_some.1 hfits
    obtain ⟨p, hp, hreads⟩ := hw.view_spec hH
    unfold Function.exec
    dsimp only
    rw [World.Returns, ends_bind, ends_get, ends_bind, ends_demand]
    have hsize : r.length = H.size := by
      rw [(yields_capitalizeUnits hH₀).val] at hr
      rw [← Option.some.inj hr, List.length_modifyHead, Text.length_units]
    rw [hsize] at hlen
    exact ⟨_, hp, returns_inHeap (capitalizeIn_spec hreads hH₀ hr hlen).arises⟩
  | expandtabs haystack tabSize =>
    simp only [Function.apply, Option.bind_eq_bind, Option.bind_eq_some_iff,
      Option.ite_none_right_eq_some] at hf
    obtain ⟨H, hH, ⟨hn, h₀, ht⟩, hr⟩ := hf
    obtain ⟨p, hp, hreads⟩ := hw.view_spec hH
    unfold Function.exec
    dsimp only
    rw [World.Returns, ends_bind, ends_get, ends_bind, ends_demand]
    exact ⟨_, hp, returns_inHeap (expandtabsIn_spec hreads h₀ ht hn hr)⟩

end FbString

end PythonicCpp
