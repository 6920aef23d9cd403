import PythonicCpp.Store.Values

/-!
# Arguments that own their texts

`center` and `capitalize` take strings as well as views.  They call `begin()` of such an argument,
which makes it writable: it gets a block of its own when it shares one.  The calls end here where
the functions return, with the local string in a variable of its own.

* `Call`, `Call.exec` : calls with strings of the program as arguments.
* `Call.apply` : what they compute.
* `Puts vs i x l a` : the action `x` appends `l` to the string in the variable `i`, and changes the
  text of no other one.
* `call_spec` : calls compute what they should, and leave nothing when they throw.
* `program_calls` : the same for programs.
-/

namespace PythonicCpp

namespace FbString

/-- A call of a function, up to its return.  Its `result` is `s[i]`. -/
inductive Call where
  /-- `center(s[j], width, s[k], tail)`. -/
  | center (i j k width : ℕ) (tail : CodeUnit)
  /-- `capitalize(s[j])`. -/
  | capitalize (i j : ℕ)

/-- `s[j].size()`. -/
def sizeOf (j : ℕ) : Program ℕ := do inHeap (← string j).size

/-- `*s[j].begin()`, the terminator of an empty string. -/
def frontOf (j : ℕ) : Program CodeUnit := do
  let c ← string j
  pure ((c.text (← get).heap).headD 0)

/-- `s[i].append(s[j].begin(), n)`. -/
def appendFrom (i j n : ℕ) : Program Unit := do
  exec (.edit j .begin)
  exec (.edit i (.append (.part j 0 n)))

/-- `auto result = Result()` in the variable `i`, and what the body makes of it. -/
def withString (i : ℕ) (body : Program Unit) : Program Unit := do
  exec (.construct i [])
  body.unwind (exec (.destroy i))

/-- A call. -/
def Call.exec : Call → Program Unit
  | center i j k width tail => do
    let rngSize ← sizeOf j
    let paddingSize ← sizeOf k
    let counts ← demand (centerCounts width rngSize paddingSize).run.val
    withString i do
      FbString.exec (.edit i (.reserve width))
      forTurns (appendFrom i k paddingSize) counts.left 0
      appendFrom i j rngSize
      forTurns (appendFrom i k paddingSize) counts.right 0
      forTurns (FbString.exec (.edit i (.pushBack tail))) counts.tail 0
  | capitalize i j => do
    FbString.exec (.edit j .begin)
    let size ← sizeOf j
    let headCapitalized := toupper (charToInt (← frontOf j))
    withString i do
      FbString.exec (.edit i (.reserve size))
      FbString.exec (.edit i (.pushBack (intToChar headCapitalized)))
      FbString.exec (.edit i (.append (.part j 1 (toSizeT (size - 1)))))

/-- What a call does to the texts. -/
def Call.apply (vs : List (Option (List CodeUnit))) :
    Call → Option (List (Option (List CodeUnit)))
  | center i j k width tail => do
    let u ← vs[j]?.join
    let p ← vs[k]?.join
    if vs[i]? = some none then
      pure (vs.set i (some
        (← (Function.center (.part j 0 u.length) width (.part k 0 p.length) tail).apply vs)))
    else none
  | capitalize i j => do
    let u ← vs[j]?.join
    if vs[i]? = some none then
      pure (vs.set i (some (← (Function.capitalize (.part j 0 u.length)).apply vs)))
    else none

variable {α β : Type} {w : World} {vs vs' : List (Option (List CodeUnit))} {i j k n : ℕ}
  {u v l l' r : List CodeUnit} {x : Program α} {f : α → Program β} {a : α} {b : β} {cmd : Command}
  {E : World → Prop}

/-! ### Appending to a variable -/

/-- The action has the value `a`, and appends the units `l` to the string in the variable `i`.  The
other texts are those of `vs`. -/
def Puts (vs : List (Option (List CodeUnit))) (i : ℕ) (x : Program α) (l : List CodeUnit) (a : α) :
    Prop :=
  ∀ w u, World.Holds w (vs.set i (some u)) → u.length + l.length + sizeofRefCounted < 2 ^ 64 →
    Ends x w (fun b w' => b = a ∧ w'.Holds (vs.set i (some (u ++ l))))
      fun w' => ∃ u', w'.Holds (vs.set i (some u'))

theorem puts_pure (vs : List (Option (List CodeUnit))) (i : ℕ) (a : α) :
    Puts vs i (pure a) [] a := by
  intro w u hw _
  rw [ends_pure, List.append_nil]
  exact ⟨rfl, hw⟩

theorem Puts.bind (hx : Puts vs i x l a) (hf : Puts vs i (f a) l' b) :
    Puts vs i (x >>= f) (l ++ l') b := by
  intro w u hw hn
  rw [List.length_append] at hn
  refine (hx w u hw (by omega)).bind ?_
  rintro _ w' ⟨rfl, hw'⟩
  rw [← List.append_assoc]
  exact hf w' (u ++ l) hw' (by rw [List.length_append]; omega)

theorem Puts.bind_left (hx : Puts vs i x [] a) (hf : Puts vs i (f a) l b) :
    Puts vs i (x >>= f) l b := hx.bind hf

theorem puts_check {q : Prop} [Decidable q] (hq : q) : Puts vs i (check q) [] () := by
  intro w u hw _
  rw [ends_check, List.append_nil]
  exact ⟨hq, rfl, hw⟩

/-- A loop. -/
theorem puts_forTurns {body : Program Unit} (hbody : Puts vs i body l ()) {m : ℕ}
    (hn : m + n < 2 ^ 31) : Puts vs i (forTurns body n m) (List.replicate n l).flatten () := by
  induction n generalizing m with
  | zero => exact puts_pure vs i ()
  | succ n ih =>
    rw [forTurns, List.replicate_succ, List.flatten_cons]
    refine hbody.bind ((puts_check ?_).bind_left (ih ?_))
    · omega
    · omega

/-- A command. -/
theorem puts_exec (hassigns : cmd.assigns = none)
    (hcmd : ∀ u : List CodeUnit, u.length + l.length + sizeofRefCounted < 2 ^ 64 →
      cmd.apply (vs.set i (some u)) = some (vs.set i (some (u ++ l)))) :
    Puts vs i (exec cmd) l () := by
  intro w u hw hn
  have happly : cmd.apply w.values = some (vs.set i (some (u ++ l))) := by
    rw [hw.2]
    exact hcmd u hn
  refine (exec_spec hw.1 happly).mono (fun _ _ hholds => ⟨rfl, hholds⟩) ?_
  rintro w' ⟨hsane, hsame | ⟨i', hi', -⟩⟩
  · exact ⟨u, hsane, hsame.trans hw.2⟩
  · rw [hassigns] at hi'
    cases hi'

/-! ### The texts of the other variables -/

theorem set_of_getElem? {γ : Type} {xs : List γ} {y : γ} (h : xs[i]? = some y) :
    xs.set i y = xs := by
  obtain ⟨hlt, hget⟩ := List.getElem?_eq_some_iff.1 h
  rw [← hget, List.set_getElem_self]

theorem getElem?_of_join (h : vs[j]?.join = some v) : vs[j]? = some (some v) := by
  rcases hj : vs[j]? with _ | _ | v'
  · rw [hj] at h
    cases h
  · rw [hj] at h
    cases h
  · rw [hj] at h
    exact congrArg some h

theorem join_set_self (hi : vs[i]? = some none) (v : List CodeUnit) :
    (vs.set i (some v))[i]?.join = some v := by
  rw [List.getElem?_set_self (List.getElem?_eq_some_iff.1 hi).1]
  rfl

theorem join_set (hi : vs[i]? = some none) (hj : vs[j]?.join = some v)
    (o : Option (List CodeUnit)) : (vs.set i o)[j]?.join = some v := by
  have hne : i ≠ j := by
    rintro rfl
    rw [hi] at hj
    cases hj
  rwa [List.getElem?_set_ne hne]

/-! ### Access -/

theorem ends_sizeOf (hw : w.Holds vs) (hj : vs[j]?.join = some v) {Q : ℕ → World → Prop}
    (hQ : Q v.length w) : Ends (sizeOf j) w Q E := by
  rw [← hw.2] at hj
  obtain ⟨c, hc, rfl⟩ := exists_string hj
  rw [sizeOf, ends_bind]
  refine ends_string hc ?_
  rw [ends_inHeap]
  refine (hw.1.shows_text hc).ends_size ?_
  rwa [List.length_map]

theorem ends_frontOf (hw : w.Holds vs) (hj : vs[j]?.join = some v) {Q : CodeUnit → World → Prop}
    (hQ : Q (v.headD 0) w) : Ends (frontOf j) w Q E := by
  rw [← hw.2] at hj
  obtain ⟨c, hc, rfl⟩ := exists_string hj
  rw [frontOf, ends_bind]
  refine ends_string hc ?_
  rwa [ends_bind, ends_get, ends_pure]

/-- A string can always be destroyed. -/
theorem ends_destroy (hw : w.Holds vs) (hi : vs[i]?.join = some v) {Q : Unit → World → Prop}
    (hQ : ∀ w', World.Holds w' (vs.set i none) → Q () w') : Ends (exec (.destroy i)) w Q E := by
  have hi' := hi
  rw [← hw.2] at hi'
  obtain ⟨c, hc, rfl⟩ := exists_string hi'
  rw [exec, ends_bind]
  refine ends_string hc ?_
  rw [ends_bind]
  refine ends_destroyAt hw.1 hc fun h' hholds => ?_
  rw [ends_put]
  refine hQ _ ?_
  rwa [hw.2] at hholds

theorem ends_begin (hw : w.Holds vs) (hj : vs[j]?.join = some v) :
    Ends (exec (.edit j .begin)) w (fun _ w' => w'.Holds vs) fun w' => w'.Holds vs := by
  have happly : (Command.edit j .begin).apply w.values = some vs := by
    rw [hw.2, Command.apply, Option.bind_eq_bind, hj, Option.bind_some, Edit.apply]
    exact congrArg some (set_of_getElem? (getElem?_of_join hj))
  refine (exec_spec hw.1 happly).mono (fun _ _ => id) ?_
  rintro w' ⟨hsane, hsame | ⟨i', hi', -⟩⟩
  · exact ⟨hsane, hsame.trans hw.2⟩
  · cases hi'

/-- **A local string**, which is gone when the body throws. -/
theorem ends_withString {body : Program Unit} (hw : w.Holds vs) (hi : vs[i]? = some none)
    (hbody : Puts vs i body r ()) (hr : r.length + sizeofRefCounted < 2 ^ 64) :
    Ends (withString i body) w (fun _ w' => w'.Holds (vs.set i (some r)))
      fun w' => w'.Holds vs := by
  have happly : (Command.construct i []).apply w.values = some (vs.set i (some [])) := by
    rw [hw.2, Command.apply, if_pos hi]
    rfl
  rw [withString, ends_bind]
  refine (exec_spec hw.1 happly).mono ?_ ?_
  · intro _ w' hw'
    rw [ends_unwind]
    refine (hbody w' [] hw' (by rwa [List.length_nil, Nat.zero_add])).mono ?_ ?_
    · rintro _ w'' ⟨-, hw''⟩
      exact hw''
    · rintro w'' ⟨u, hw''⟩
      refine ends_destroy hw'' (join_set_self hi u) fun w₃ hw₃ => ?_
      rwa [List.set_set, set_of_getElem? hi] at hw₃
  · rintro w' ⟨hsane, hsame | ⟨i', hi', -⟩⟩
    · exact ⟨hsane, hsame.trans hw.2⟩
    · cases hi'

/-! ### What the bodies append -/

section Bodies

variable (hi : vs[i]? = some none)
include hi

theorem puts_begin (hj : vs[j]?.join = some v) : Puts vs i (exec (.edit j .begin)) [] () := by
  intro w u hw _
  refine (ends_begin hw (join_set hi hj _)).mono ?_ ?_
  · intro _ w' hw'
    rw [List.append_nil]
    exact ⟨rfl, hw'⟩
  · exact fun w' hw' => ⟨u, hw'⟩

/-- A member function of the string. -/
theorem puts_edit {e : Edit} (hassigns : (Command.edit i e).assigns = none)
    (he : ∀ u : List CodeUnit, u.length + l.length + sizeofRefCounted < 2 ^ 64 →
      e.apply (vs.set i (some u)) u = some (u ++ l)) : Puts vs i (exec (.edit i e)) l () := by
  refine puts_exec hassigns fun u hu => ?_
  rw [Command.apply, join_set_self hi, Option.bind_eq_bind, Option.bind_some, he u hu,
    Option.bind_some, List.set_set]
  rfl

theorem puts_reserve (hn : n + sizeofRefCounted < 2 ^ 64) :
    Puts vs i (exec (.edit i (.reserve n))) [] () := by
  refine puts_edit hi rfl fun u _ => ?_
  rw [Edit.apply, if_pos hn, List.append_nil]

theorem puts_pushBack (c : CodeUnit) : Puts vs i (exec (.edit i (.pushBack c))) [c] () := by
  refine puts_edit hi rfl fun u hu => fits_eq_some.2 ⟨?_, rfl⟩
  rwa [List.length_append]

theorem puts_append {s : Source} (hs : ∀ u, s.text (vs.set i (some u)) = some l) :
    Puts vs i (exec (.edit i (.append s))) l () := by
  refine puts_edit hi rfl fun u hu => ?_
  rw [Edit.apply, hs u]
  refine fits_eq_some.2 ⟨?_, rfl⟩
  rwa [List.length_append]

theorem puts_appendPart (hj : vs[j]?.join = some v) {off : ℕ} (hle : off + n ≤ v.length) :
    Puts vs i (exec (.edit i (.append (.part j off n)))) ((v.drop off).take n) () := by
  refine puts_append hi fun u => ?_
  rw [Source.text, join_set hi hj, Option.bind_eq_bind, Option.bind_some, if_pos hle]

/-- The whole of a string. -/
theorem puts_appendFrom (hj : vs[j]?.join = some v) : Puts vs i (appendFrom i j v.length) v () := by
  have hall := puts_appendPart hi hj (by omega : 0 + v.length ≤ v.length)
  rw [List.drop_zero, List.take_length] at hall
  exact (puts_begin hi hj).bind_left hall

end Bodies

/-! ### Calls -/

/-- The view of a whole string. -/
theorem text_all (hj : vs[j]?.join = some u) {H : Text}
    (hH : (View.part j 0 u.length).text vs = some H) : H.units = u ∧ H.size = u.length := by
  simp only [View.text, hj, Option.bind_eq_bind, Option.bind_some,
    Option.dite_none_right_eq_some, Option.some.injEq] at hH
  obtain ⟨⟨hlt, hle⟩, rfl⟩ := hH
  refine ⟨?_, ?_⟩
  · rw [Text.units_window, Text.units_ofUnits, List.drop_zero, Nat.zero_add, Nat.sub_zero,
      List.take_length]
  · rw [Text.size_window, Nat.zero_add, Nat.sub_zero]

theorem ends_center (hw : w.Holds vs) {width : ℕ} {tail : CodeUnit}
    (hcall : (Call.center i j k width tail).apply vs = some vs') :
    Ends (Call.center i j k width tail).exec w (fun _ w' => w'.Holds vs')
      fun w' => w'.Holds vs := by
  simp only [Call.apply, Option.pure_def, Option.bind_eq_bind, Option.bind_eq_some_iff,
    Option.ite_none_right_eq_some, Option.some.injEq] at hcall
  obtain ⟨u, hj, p, hk, hi, r, hf, rfl⟩ := hcall
  simp only [Function.apply, Option.bind_eq_bind, Option.bind_eq_some_iff,
    Option.ite_none_right_eq_some] at hf
  obtain ⟨H, hH, P, hP, hwidth, r', hval, hfits⟩ := hf
  obtain ⟨hlen, rfl⟩ := fits_eq_some.1 hfits
  obtain ⟨rfl, hsize⟩ := text_all hj hH
  obtain ⟨rfl, hpadding⟩ := text_all hk hP
  obtain ⟨counts, hcounts, hloops⟩ := bind_eq_some hval
  obtain ⟨⟨hl, hr, ht⟩, hframed⟩ := centerLoops_val hloops
  rw [hsize, hpadding] at hcounts
  unfold Call.exec
  dsimp only
  rw [ends_bind]
  refine ends_sizeOf hw hj ?_
  rw [ends_bind]
  refine ends_sizeOf hw hk ?_
  rw [ends_bind, ends_demand]
  refine ⟨counts, hcounts, ends_withString hw hi ?_ hlen⟩
  have hbody := (puts_forTurns (puts_appendFrom hi hk) (by omega : 0 + counts.left < 2 ^ 31)).bind
    (f := fun _ => _) <| (puts_appendFrom hi hj).bind (f := fun _ => _) <|
      (puts_forTurns (puts_appendFrom hi hk) (by omega : 0 + counts.right < 2 ^ 31)).bind
        (f := fun _ => _) <| puts_forTurns (puts_pushBack hi tail)
          (by omega : 0 + counts.tail < 2 ^ 31)
  have hunits : r' = (List.replicate counts.left P.units).flatten ++ (H.units ++
      ((List.replicate counts.right P.units).flatten ++
        (List.replicate counts.tail [tail]).flatten)) := by
    rw [hframed, framed]
    simp
  rw [← hunits] at hbody
  exact (puts_reserve hi hwidth).bind_left hbody

theorem ends_capitalize (hw : w.Holds vs) (hcall : (Call.capitalize i j).apply vs = some vs') :
    Ends (Call.capitalize i j).exec w (fun _ w' => w'.Holds vs') fun w' => w'.Holds vs := by
  simp only [Call.apply, Option.pure_def, Option.bind_eq_bind, Option.bind_eq_some_iff,
    Option.ite_none_right_eq_some, Option.some.injEq] at hcall
  obtain ⟨u, hj, hi, r, hf, rfl⟩ := hcall
  simp only [Function.apply, Option.bind_eq_bind, Option.bind_eq_some_iff,
    Option.ite_none_right_eq_some] at hf
  obtain ⟨H, hH, hH₀, r', hval, hfits⟩ := hf
  obtain ⟨hlen, rfl⟩ := fits_eq_some.1 hfits
  obtain ⟨rfl, hsize⟩ := text_all hj hH
  have hlt := H.size_lt'
  obtain ⟨c, l, hunits⟩ := List.exists_cons_of_ne_nil hH₀
  rw [(yields_capitalizeUnits hH₀).val, hunits, List.modifyHead_cons] at hval
  obtain rfl := Option.some.inj hval
  have hlength : H.units.length = l.length + 1 := by rw [hunits, List.length_cons]
  have hrest : toSizeT ((H.units.length : ℤ) - 1) = l.length := by
    rw [hlength, Nat.cast_add, Nat.cast_one, add_sub_cancel_right, toSizeT_natCast (by omega)]
  have htail := puts_appendPart hi hj (by omega : 1 + l.length ≤ H.units.length)
  rw [hunits, List.drop_succ_cons, List.drop_zero, List.take_length] at htail
  unfold Call.exec
  dsimp only
  rw [ends_bind]
  refine (ends_begin hw hj).mono ?_ fun _ => id
  intro _ w' hw'
  rw [ends_bind]
  refine ends_sizeOf hw' hj ?_
  rw [ends_bind]
  refine ends_frontOf hw' hj ?_
  refine ends_withString hw' hi ?_ hlen
  refine (puts_reserve hi ?_).bind_left ?_
  · rwa [List.length_cons, ← hlength] at hlen
  · rw [hrest, hunits]
    exact (puts_pushBack hi _).bind htail

/-- **A call** computes what it does for plain values.  Its arguments keep their texts, and when it
throws, nothing of it is left. -/
theorem call_spec (hw : w.Holds vs) {call : Call} (hcall : call.apply vs = some vs') :
    Ends call.exec w (fun _ w' => w'.Holds vs') fun w' => w'.Holds vs := by
  cases call with
  | center i j k width tail => exact ends_center hw hcall
  | capitalize i j => exact ends_capitalize hw hcall

/-! ### Programs with calls -/

/-- A statement of a program. -/
inductive Statement where
  /-- A command. -/
  | command (cmd : Command)
  /-- A call. -/
  | call (call : Call)

namespace Statement

/-- What it does. -/
def exec : Statement → Program Unit
  | command cmd => FbString.exec cmd
  | call c => c.exec

/-- What it does to the texts. -/
def apply (vs : List (Option (List CodeUnit))) :
    Statement → Option (List (Option (List CodeUnit)))
  | command cmd => cmd.apply vs
  | call c => c.apply vs

/-- The texts after a statement whose request is refused. -/
def Refused (vs vs' : List (Option (List CodeUnit))) : Statement → Prop
  | command cmd => cmd.Refused vs vs'
  | call _ => vs' = vs

/-- A statement that may be used is executed, and either `done`, or a request of it refused. -/
def Step (w : World) : Statement × Bool → World → Prop
  | (st, done), w' => (st.apply w.values).isSome = true ∧
    st.exec w = if done then .ok () w' else .error .badAlloc w'

/-- The step that a statement makes, if it makes one. -/
def next (w : World) : Statement × Bool → Option World
  | (st, done) => if (st.apply w.values).isSome then st.exec.outcome w done else none

theorem step_of_next {w : World} {l : Statement × Bool} {w' : World} (h : next w l = some w') :
    Step w l w' := by
  obtain ⟨st, done⟩ := l
  obtain ⟨hsome, h⟩ := Option.ite_none_right_eq_some.1 h
  exact ⟨hsome, outcome_eq_some h⟩

/-- The same for plain values. -/
def ValueStep (vs : List (Option (List CodeUnit))) :
    Statement × Bool → List (Option (List CodeUnit)) → Prop
  | (st, done), vs' => if done then st.apply vs = some vs'
    else (st.apply vs).isSome = true ∧ st.Refused vs vs'

end Statement

/-- **A statement** is defined on every sane world, and does to the texts what it does to plain
values. -/
theorem statement_spec (hw : w.Sane) {st : Statement} (hst : st.apply w.values = some vs) :
    Ends st.exec w (fun _ w' => w'.Holds vs)
      fun w' => w'.Sane ∧ st.Refused w.values w'.values := by
  cases st with
  | command cmd => exact exec_spec hw hst
  | call c => exact call_spec ⟨hw, rfl⟩ hst

theorem refines_statements :
    Refines Statement.Step Statement.ValueStep World.Sane World.values := by
  have hstep : ∀ w l w', World.Sane w → Statement.Step w l w' →
      w'.Sane ∧ Statement.ValueStep w.values l w'.values := by
    rintro w ⟨st, done⟩ w' hw ⟨hsome, hexec⟩
    obtain ⟨vs, hst⟩ := Option.isSome_iff_exists.1 hsome
    have houtcome := (statement_spec hw hst).outcome hexec
    cases done with
    | true => exact ⟨houtcome.1, hst.trans (congrArg some houtcome.2.symm)⟩
    | false => exact ⟨houtcome.1, hsome, houtcome.2⟩
  exact ⟨fun w l w' hw h => (hstep w l w' hw h).1, fun w l w' hw h => (hstep w l w' hw h).2⟩

/-- **Strings may be passed as arguments.**  In every program of commands and calls, whichever of
its requests are refused, the texts are those of plain values, and the next statement that it may
use has a defined behaviour; without strings there is nothing left on the heap. -/
theorem program_calls {h : Heap Cell} {ls : List (Statement × Bool)}
    (hh : ∀ a, h.blocks a = none) (hp : Path Statement.Step ⟨h, List.replicate n none⟩ ls w) :
    Path Statement.ValueStep (List.replicate n none) ls w.values ∧
      (∀ st : Statement, (st.apply w.values).isSome = true →
        ∃ w', st.exec w = .ok () w' ∨ st.exec w = .error .badAlloc w') ∧
      ((∀ o ∈ w.strings, o = none) → ∀ a, w.heap.blocks a = none) := by
  obtain ⟨hw, hpath⟩ := refines_statements.path (sane_start hh n) hp
  rw [values_start] at hpath
  refine ⟨hpath, fun st hsome => ?_, hw.eq_none⟩
  obtain ⟨vs, hst⟩ := Option.isSome_iff_exists.1 hsome
  exact (statement_spec hw hst).defined

/-- A string of more than 254 units and a copy, which gets a block of its own when it is
capitalized. -/
theorem program_calls_shared : ∃ w : World, (w.heap.count 0 = 1 ∧ w.heap.count 1 = 1) ∧
    Path Statement.ValueStep [none, none, none]
      [(.command (.construct 0 (List.replicate 300 97)), true), (.command (.copy 1 0), true),
        (.call (.capitalize 2 1), true)] w.values := by
  obtain ⟨w, hcount, hp⟩ := exists_path (fun _ _ _ => Statement.step_of_next) (by decide +kernel :
    (runPath Statement.next ⟨Heap.empty, List.replicate 3 none⟩
      [(.command (.construct 0 (List.replicate 300 97)), true), (.command (.copy 1 0), true),
        (.call (.capitalize 2 1), true)]).any
      (fun w => w.heap.count 0 = 1 ∧ w.heap.count 1 = 1) = true)
  have hcalls := program_calls (h := Heap.empty) (n := 3) (fun _ => rfl) hp
  exact ⟨w, of_decide_eq_true hcount, hcalls.1⟩

end FbString

end PythonicCpp
