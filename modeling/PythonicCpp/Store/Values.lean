import PythonicCpp.Machine.Refines
import PythonicCpp.Store.Calls

/-!
# Strings are values

Copies of a long string share a block, a string is edited in place or moves, and any allocation may
be refused.  None of this can be seen.

* `exec_spec` : a command keeps the world sane, and does to the texts what `Command.apply` tells.
* `refines_values` : so do all commands one after another, whichever allocations are refused.
-/

namespace PythonicCpp

namespace FbString

variable {w w' : World} {h h' : Heap Cell} {i j off n : ℕ} {c c' d : Core} {o o' : Option Core}
  {u v : List CodeUnit} {vs : List (Option (List CodeUnit))}

/-- **A member function** makes of the text what it says.  When its request is refused, the text is
as it was, or lost to an `assign`. -/
theorem edit_spec (hw : w.Sane) (hi : w.strings[i]? = some (some c)) {e : Edit}
    (he : e.apply w.values (c.text w.heap) = some v) :
    Ends (e.exec i) w (fun _ w' => w'.Holds (w.values.set i (some v))) fun w' =>
      w'.Holds w.values ∨ (∃ s, e = .assign s) ∧ w'.Holds (w.values.set i (some [])) := by
  have hs : Self.Shows ⟨w.heap, c⟩ ((c.text w.heap).map some) := hw.shows_text hi
  cases e with
  | reserve n =>
    simp only [Edit.apply, Option.ite_none_right_eq_some, Option.some.injEq] at he
    obtain ⟨hn, rfl⟩ := he
    refine (hw.ends_call hi ((ends_reserve hs hn).imp ?_)).mono (fun _ _ => id) fun _ => .inl
    rintro _ t ⟨hbec, -⟩
    exact hbec
  | begin =>
    obtain rfl : c.text w.heap = v := Option.some.inj he
    have hbegin : Ends mutableData ⟨w.heap, c⟩ (fun _ t => Self.Becomes ⟨w.heap, c⟩
        ((c.text w.heap).map some) t) (· = Self.refused ⟨w.heap, c⟩) := by
      refine hs.ends_mutableData ?_ fun t hbec _ _ => hbec
      rfl
    rw [Edit.exec, ends_bind]
    exact (hw.ends_call hi hbegin).mono (fun _ _ => id) fun _ => .inl
  | pushBack c' =>
    obtain ⟨hn, rfl⟩ := fits_eq_some.1 he
    have hpush := pushBack_spec hs (by simpa using hn) c'
    refine (hw.ends_call hi (hpush.imp ?_)).mono (fun _ _ => id) fun _ => .inl
    rintro _ t ⟨hbec, -⟩
    rwa [List.map_append]
  | append s =>
    obtain ⟨l, hl, hfits⟩ := Option.bind_eq_some_iff.1 he
    obtain ⟨hn, rfl⟩ := fits_eq_some.1 hfits
    rw [Edit.exec, ends_bind]
    refine hw.ends_arguments hi hl fun p hp => ?_
    have happend := append_spec hs hp (by simpa using hn)
    refine (hw.ends_call hi (happend.imp ?_)).mono (fun _ _ => id) fun _ => .inl
    rintro _ t ⟨hbec, -⟩
    rwa [List.map_append]
  | appendFill n c' =>
    simp only [Edit.apply, Option.ite_none_right_eq_some, Option.some.injEq] at he
    obtain ⟨hn, rfl⟩ := he
    have hfill := appendFill_spec hs (n := n) (by simpa using hn) c'
    refine (hw.ends_call hi (hfill.imp ?_)).mono (fun _ _ => id) fun _ => .inl
    rintro _ t ⟨hbec, -⟩
    rwa [List.map_append, List.map_replicate]
  | resize n c' =>
    simp only [Edit.apply, Option.ite_none_right_eq_some, Option.some.injEq] at he
    obtain ⟨hn, rfl⟩ := he
    have hresize := resize_spec hs hn c'
    refine (hw.ends_call hi (hresize.imp ?_)).mono (fun _ _ => id) fun _ => .inl
    intro _ t hbec
    rw [List.length_map] at hbec
    rwa [List.map_append, List.map_take, List.map_replicate]
  | assign s =>
    obtain ⟨l, hl, hfits⟩ := Option.bind_eq_some_iff.1 he
    obtain ⟨hn, rfl⟩ := fits_eq_some.1 hfits
    rw [Edit.exec, ends_bind]
    refine hw.ends_arguments hi hl fun p hp => ?_
    refine ends_call hi ((assign_spec hs hp (by simpa using hn)).mono ?_ ?_)
    · intro _ t hbec
      exact hw.becomes hi hbec
    · rintro t (hbec | hbec)
      · exact .inl (hw.becomes_self hi hbec)
      · exact .inr ⟨⟨s, rfl⟩, hw.becomes hi (v := []) hbec⟩
  | setAt pos c' =>
    simp only [Edit.apply, Option.ite_none_right_eq_some, Option.some.injEq] at he
    obtain ⟨hn, rfl⟩ := he
    have hset := setAt_spec hs (n := pos) (by simpa using hn) c'
    refine (hw.ends_call hi (hset.imp ?_)).mono (fun _ _ => id) fun _ => .inl
    intro _ t hbec
    rwa [List.map_set]

/-! ### Commands -/

/-- The texts after a command whose request is refused. -/
def Command.Refused (cmd : Command) (vs vs' : List (Option (List CodeUnit))) : Prop :=
  vs' = vs ∨ ∃ i, cmd.assigns = some i ∧ vs' = vs.set i (some [])

theorem construct_exec (hw : w.Sane) (hi : w.strings[i]? = some none)
    (hn : u.length + sizeofRefCounted < 2 ^ 64) :
    Ends (exec (.construct i u)) w (fun _ w' => w'.Holds (w.values.set i (some u)))
      fun w' => w'.Holds w.values := by
  rw [exec, ends_bind]
  refine ends_vacant hi ?_
  rw [ends_bind, ends_inHeap]
  refine (construct_spec (l := u.map some) (by simpa using hn)).mono ?_ ?_
  · intro c h' ha
    rw [ends_put]
    exact hw.arises hi ha
  · rintro h' rfl
    exact hw.unchanged (keeps_skip w.heap [])

theorem copy_exec (hw : w.Sane) (hi : w.strings[i]? = some none)
    (hj : w.strings[j]? = some (some d)) :
    Ends (exec (.copy i j)) w (fun _ w' => w'.Holds (w.values.set i (some (d.text w.heap))))
      fun w' => w'.Holds w.values := by
  rw [exec, ends_bind]
  refine ends_vacant hi ?_
  rw [ends_bind]
  refine ends_string hj ?_
  rw [ends_bind, ends_inHeap]
  refine (copy_spec (hw.shows_text hj)).mono ?_ ?_
  · rintro c h' ⟨hkeeps, hshows, hfrom⟩
    rw [ends_put]
    have hk : Keeps w.heap (heldBy none) h' (heldBy (some c)) := hkeeps
    refine ⟨hw.exchange hi hk ?_ ?_, ?_⟩
    · rintro _ ⟨⟩
      exact ⟨_, hshows⟩
    · rintro _ ⟨⟩
      rcases hfrom with rfl | halone
      · exact .inr ⟨j, hj⟩
      · exact .inl halone
    · rw [hw.values_exchange hi hk, Option.map_some, hshows.text_eq]
  · rintro h' rfl
    exact hw.unchanged (keeps_skip w.heap [])

/-- The string in a variable is destroyed. -/
theorem ends_destroyAt (hw : w.Sane) (hi : w.strings[i]? = some (some c)) {Q : Unit → World → Prop}
    {E : World → Prop} (hQ : ∀ h', World.Holds ⟨h', w.strings.set i none⟩ (w.values.set i none) →
      Q () ⟨h', w.strings⟩) : Ends (inHeap (destroy c)) w Q E := by
  rw [ends_inHeap]
  refine (destroy_spec (hw.shows_text hi)).imp ?_
  intro _ h' hkeeps
  have hk : Keeps w.heap (heldBy (some c)) h' (heldBy none) := hkeeps
  refine hQ h' ⟨hw.exchange hi hk ?_ ?_, hw.values_exchange hi hk⟩
  · intro c' hc'
    cases hc'
  · intro c' hc'
    cases hc'

/-- Two variables exchange what they hold. -/
theorem World.Sane.exchange_two (hw : w.Sane) (hi : w.strings[i]? = some o)
    (hj : w.strings[j]? = some o') (hne : i ≠ j) {x y : Option Core}
    (hcount : ∀ a, (heldBy x).count a + (heldBy y).count a =
      (heldBy o).count a + (heldBy o').count a)
    (hfrom : ∀ c, x = some c ∨ y = some c →
      c = reset ∨ ∃ k : ℕ, w.strings[k]? = some (some c)) :
    World.Holds ⟨w.heap, (w.strings.set i x).set j y⟩
      ((w.values.set i (x.map (Core.text w.heap))).set j (y.map (Core.text w.heap))) := by
  have hj' : (w.strings.set i x)[j]? = some o' := (List.getElem?_set_ne hne).trans hj
  refine ⟨hw.rearrange (fun a => ?_) fun k c hk => ?_, ?_⟩
  · have hfirst := count_flatMap_set (f := heldBy) hi x a
    have hsecond := count_flatMap_set (f := heldBy) hj' y a
    have hboth := hcount a
    simp only [World.held]
    omega
  · have hmem := List.mem_of_getElem? hk
    rcases List.mem_or_eq_of_mem_set hmem with hmem | heq
    · rcases List.mem_or_eq_of_mem_set hmem with hmem | heq
      · obtain ⟨k', hk'⟩ := List.getElem?_of_mem hmem
        exact .inr ⟨k', hk'⟩
      · exact hfrom c (.inl heq.symm)
    · exact hfrom c (.inr heq.symm)
  · simp only [World.values, List.map_set]

/-- A string moves from one variable to another, and leaves an empty one. -/
theorem World.Sane.move (hw : w.Sane) (hi : w.strings[i]? = some none)
    (hj : w.strings[j]? = some (some d)) :
    World.Holds ⟨w.heap, (w.strings.set i (some d)).set j (some reset)⟩
      ((w.values.set i (some (d.text w.heap))).set j (some [])) := by
  have hne : i ≠ j := by
    rintro rfl
    cases hi.symm.trans hj
  refine hw.exchange_two hi hj hne (x := some d) (y := some reset) (fun a => ?_) ?_
  · exact Nat.add_comm _ _
  · rintro c (⟨⟨⟩⟩ | ⟨⟨⟩⟩)
    · exact .inr ⟨j, hj⟩
    · exact .inl rfl

theorem World.Sane.swap (hw : w.Sane) (hi : w.strings[i]? = some (some c))
    (hj : w.strings[j]? = some (some d)) :
    World.Holds ⟨w.heap, (w.strings.set i (some d)).set j (some c)⟩
      ((w.values.set i (some (d.text w.heap))).set j (some (c.text w.heap))) := by
  by_cases hne : i = j
  · subst hne
    obtain rfl := Option.some.inj (Option.some.inj (hi.symm.trans hj))
    rw [List.set_set, List.set_set]
    exact hw.becomes hi (hw.shows_text hi).becomes
  · refine hw.exchange_two hi hj hne (x := some d) (y := some c) (fun a => Nat.add_comm _ _) ?_
    rintro _ (⟨⟨⟩⟩ | ⟨⟨⟩⟩)
    · exact .inr ⟨j, hj⟩
    · exact .inr ⟨i, hi⟩

theorem refused_of_holds {cmd : Command} (h : w'.Holds w.values) :
    w'.Sane ∧ cmd.Refused w.values w'.values := ⟨h.1, .inl h.2⟩

theorem World.Sane.ends_call_isSane (hw : w.Sane) (hi : w.strings[i]? = some (some c))
    {Q : Unit → World → Prop} {E : World → Prop} (hQ : Q () w) : Ends (call i isSane) w Q E := by
  have hs : Self.Shows ⟨w.heap, c⟩ ((c.text w.heap).map some) := hw.shows_text hi
  have hset : w.strings.set i (some c) = w.strings := by
    obtain ⟨hlt, hget⟩ := List.getElem?_eq_some_iff.1 hi
    rw [← hget, List.set_getElem_self]
  refine FbString.ends_call hi (hs.ends_isSane ?_)
  rwa [hset]

theorem copyAssign_exec (hw : w.Sane) (hi : w.strings[i]? = some (some c))
    (hj : w.strings[j]? = some (some d)) :
    Ends (exec (.copyAssign i j)) w (fun _ w' => w'.Holds (w.values.set i (some (d.text w.heap))))
      fun w' => w'.Holds w.values ∨ w'.Holds (w.values.set i (some [])) := by
  have hd := hw.shows_text hj
  unfold exec
  dsimp only
  rw [ends_bind]
  refine hw.ends_call_isSane hi ?_
  split_ifs with hij
  · subst hij
    obtain rfl := Option.some.inj (Option.some.inj (hi.symm.trans hj))
    refine hw.ends_call_isSane hi ⟨hw, ?_⟩
    rw [World.Sane.set_values (World.Sane.getElem?_text hi)]
  · have hlen := hd.le_room.trans_lt hd.room_lt
    rw [List.length_map] at hlen
    have happly : (Edit.assign (.part j 0 (d.text w.heap).length)).apply w.values
        (c.text w.heap) = some (d.text w.heap) := by
      refine Option.bind_eq_some_iff.2 ⟨d.text w.heap, ?_, fits_eq_some.2 ⟨?_, rfl⟩⟩
      · simp [Source.text, World.Sane.getElem?_text hj]
      · simp only [sizeofRefCounted]
        omega
    rw [ends_bind]
    refine ends_string hj ?_
    rw [ends_bind, ends_inHeap]
    refine hd.ends_size ?_
    rw [ends_bind, List.length_map]
    refine (edit_spec hw hi happly).mono (fun _ w' hholds => ?_) fun w' => ?_
    · have hi' : w'.values[i]?.join = some (d.text w.heap) := by
        have hlt : i < w.values.length :=
          (List.getElem?_eq_some_iff.1 (World.Sane.getElem?_text hi)).1
        rw [hholds.2, List.getElem?_set_self hlt]
        rfl
      obtain ⟨c', hc', -⟩ := exists_string hi'
      exact hholds.1.ends_call_isSane hc' hholds
    · rintro (hholds | ⟨-, hholds⟩)
      · exact .inl hholds
      · exact .inr hholds

/-- **A command** is defined on every sane world, keeps it sane, and does to the texts what it does
to plain values. -/
theorem exec_spec (hw : w.Sane) {cmd : Command} (hcmd : cmd.apply w.values = some vs) :
    Ends (exec cmd) w (fun _ w' => w'.Holds vs)
      fun w' => w'.Sane ∧ cmd.Refused w.values w'.values := by
  cases cmd with
  | construct i l =>
    simp only [Command.apply, Option.ite_none_right_eq_some, Option.pure_def, Option.bind_eq_bind,
      Option.bind_eq_some_iff, fits_eq_some, Option.some.injEq] at hcmd
    obtain ⟨hi, _, ⟨hn, rfl⟩, rfl⟩ := hcmd
    exact (construct_exec hw (vacant_of_values hi) hn).mono (fun _ _ => id) fun _ =>
      refused_of_holds
  | copy i j =>
    simp only [Command.apply, Option.ite_none_right_eq_some, Option.pure_def, Option.bind_eq_bind,
      Option.bind_eq_some_iff, Option.some.injEq] at hcmd
    obtain ⟨v, hv, hi, rfl⟩ := hcmd
    obtain ⟨d, hj, rfl⟩ := exists_string hv
    exact (copy_exec hw (vacant_of_values hi) hj).mono (fun _ _ => id) fun _ => refused_of_holds
  | move i j =>
    simp only [Command.apply, Option.ite_none_right_eq_some, Option.pure_def, Option.bind_eq_bind,
      Option.bind_eq_some_iff, Option.some.injEq] at hcmd
    obtain ⟨v, hv, hi, rfl⟩ := hcmd
    obtain ⟨d, hj, rfl⟩ := exists_string hv
    rw [exec, ends_bind]
    refine ends_vacant (vacant_of_values hi) ?_
    rw [ends_bind]
    refine ends_string hj ?_
    rw [ends_bind, ends_put, ends_put]
    exact hw.move (vacant_of_values hi) hj
  | destroy i =>
    simp only [Command.apply, Option.pure_def, Option.bind_eq_bind, Option.bind_eq_some_iff,
      Option.some.injEq] at hcmd
    obtain ⟨u, hu, rfl⟩ := hcmd
    obtain ⟨c, hi, rfl⟩ := exists_string hu
    rw [exec, ends_bind]
    refine ends_string hi ?_
    rw [ends_bind]
    refine ends_destroyAt hw hi fun h' hholds => ?_
    rwa [ends_put]
  | swap i j =>
    simp only [Command.apply, Option.pure_def, Option.bind_eq_bind, Option.bind_eq_some_iff,
      Option.some.injEq] at hcmd
    obtain ⟨u, hu, v, hv, rfl⟩ := hcmd
    obtain ⟨c, hi, rfl⟩ := exists_string hu
    obtain ⟨d, hj, rfl⟩ := exists_string hv
    rw [exec, ends_bind]
    refine ends_string hi ?_
    rw [ends_bind]
    refine ends_string hj ?_
    rw [ends_bind, ends_put, ends_put]
    exact hw.swap hi hj
  | copyAssign i j =>
    simp only [Command.apply, Option.pure_def, Option.bind_eq_bind, Option.bind_eq_some_iff,
      Option.some.injEq] at hcmd
    obtain ⟨u, hu, v, hv, rfl⟩ := hcmd
    obtain ⟨c, hi, rfl⟩ := exists_string hu
    obtain ⟨d, hj, rfl⟩ := exists_string hv
    refine (copyAssign_exec hw hi hj).mono (fun _ _ => id) ?_
    rintro w' (hholds | hholds)
    · exact refused_of_holds hholds
    · exact ⟨hholds.1, .inr ⟨i, rfl, hholds.2⟩⟩
  | moveAssign i j =>
    simp only [Command.apply, Option.pure_def, Option.bind_eq_bind, Option.bind_eq_some_iff] at hcmd
    obtain ⟨u, hu, v, hv, hcmd⟩ := hcmd
    obtain ⟨c, hi, rfl⟩ := exists_string hu
    obtain ⟨d, hj, rfl⟩ := exists_string hv
    unfold exec
    dsimp only
    split_ifs at hcmd ⊢ with hij
    · obtain rfl := Option.some.inj hcmd
      exact ⟨hw, rfl⟩
    · obtain rfl := Option.some.inj hcmd
      rw [ends_bind]
      refine ends_string hi ?_
      rw [ends_bind]
      refine ends_destroyAt hw hi fun h' hholds => ?_
      rw [ends_bind]
      refine ends_string (w := ⟨h', w.strings⟩) hj ?_
      rw [ends_bind, ends_put, ends_put]
      have hlt := (List.getElem?_eq_some_iff.1 hi).1
      have hj' : (w.strings.set i none)[j]? = some (some d) :=
        (List.getElem?_set_ne hij).trans hj
      have htext := World.Sane.getElem?_text (w := ⟨h', w.strings.set i none⟩) hj'
      rw [hholds.2, List.getElem?_set_ne hij, World.Sane.getElem?_text hj] at htext
      have hmove := hholds.1.move (List.getElem?_set_self hlt) hj'
      rw [hholds.2] at hmove
      simpa [Option.some.inj (Option.some.inj htext)] using hmove
  | edit i e =>
    simp only [Command.apply, Option.pure_def, Option.bind_eq_bind, Option.bind_eq_some_iff,
      Option.some.injEq] at hcmd
    obtain ⟨u, hu, v, he, rfl⟩ := hcmd
    obtain ⟨c, hi, rfl⟩ := exists_string hu
    refine (edit_spec hw hi he).mono (fun _ _ => id) ?_
    rintro w' (hholds | ⟨⟨s, rfl⟩, hholds⟩)
    · exact refused_of_holds hholds
    · exact ⟨hholds.1, .inr ⟨i, rfl, hholds.2⟩⟩
  | result i f =>
    simp only [Command.apply, Option.ite_none_right_eq_some, Option.pure_def, Option.bind_eq_bind,
      Option.bind_eq_some_iff, Option.some.injEq] at hcmd
    obtain ⟨hi, u, hf, rfl⟩ := hcmd
    unfold exec
    dsimp only
    rw [ends_bind]
    refine ends_vacant (vacant_of_values hi) ?_
    rw [ends_bind]
    refine (function_spec hw hf).mono ?_ ?_
    · rintro c ⟨h', _⟩ ⟨rfl, ha⟩
      rw [ends_put]
      exact hw.arises (vacant_of_values hi) ha
    · rintro ⟨h', _⟩ ⟨rfl, hk⟩
      exact refused_of_holds (hw.unchanged hk)

/-! ### Programs -/

/-- A command that may be used is executed, and either `done`, or a request of it refused. -/
def World.Step (w : World) : Command × Bool → World → Prop
  | (cmd, done), w' => (cmd.apply w.values).isSome = true ∧
    exec cmd w = if done then .ok () w' else .error .badAlloc w'

/-- The same for plain values. -/
def ValueStep (vs : List (Option (List CodeUnit))) :
    Command × Bool → List (Option (List CodeUnit)) → Prop
  | (cmd, done), vs' => if done then cmd.apply vs = some vs'
    else (cmd.apply vs).isSome = true ∧ cmd.Refused vs vs'

theorem step_spec {l : Command × Bool} (hw : w.Sane) (h : w.Step l w') :
    w'.Sane ∧ ValueStep w.values l w'.values := by
  obtain ⟨cmd, done⟩ := l
  obtain ⟨hsome, hexec⟩ := h
  obtain ⟨vs, hcmd⟩ := Option.isSome_iff_exists.1 hsome
  have houtcome := (exec_spec hw hcmd).outcome hexec
  cases done with
  | true => exact ⟨houtcome.1, hcmd.trans (congrArg some houtcome.2.symm)⟩
  | false => exact ⟨houtcome.1, hsome, houtcome.2⟩

theorem refines_values : Refines World.Step ValueStep World.Sane World.values where
  keeps _ _ _ hw h := (step_spec hw h).1
  step _ _ _ hw h := (step_spec hw h).2

/-- A program begins without strings, and without blocks. -/
theorem sane_start (hh : ∀ a, h.blocks a = none) (n : ℕ) :
    World.Sane ⟨h, List.replicate n none⟩ := by
  have hnone : ∀ (i : ℕ) (c : Core), (List.replicate n none)[i]? ≠ some (some c) := by
    intro i c hi
    obtain ⟨-, heq⟩ := List.mem_replicate.1 (List.mem_of_getElem? hi)
    cases heq
  refine ⟨fun a => ?_, fun i c hi => absurd hi (hnone i c), fun i j c d hi => absurd hi (hnone i c)⟩
  rw [Heap.count, hh a, World.held, List.flatMap_replicate]
  simp [heldBy]

theorem values_start (n : ℕ) : World.values ⟨h, List.replicate n none⟩ = List.replicate n none := by
  simp [World.values]

/-- The step that a command makes, if it makes one. -/
def World.next (w : World) : Command × Bool → Option World
  | (cmd, done) => if (cmd.apply w.values).isSome then (exec cmd).outcome w done else none

theorem step_of_next {w : World} {l : Command × Bool} {w' : World} (h : w.next l = some w') :
    w.Step l w' := by
  obtain ⟨cmd, done⟩ := l
  obtain ⟨hsome, h⟩ := Option.ite_none_right_eq_some.1 h
  exact ⟨hsome, outcome_eq_some h⟩

/-- **Strings are values.**  Whatever commands a program executes, in any order and whichever of
their requests are refused, the texts of its strings are those of the same commands on plain values;
and the next command that it may use has a defined behaviour. -/
theorem program_values {n : ℕ} {ls : List (Command × Bool)} (hh : ∀ a, h.blocks a = none)
    (hp : Path World.Step ⟨h, List.replicate n none⟩ ls w) :
    Path ValueStep (List.replicate n none) ls w.values ∧
      ∀ cmd : Command, (cmd.apply w.values).isSome = true →
        ∃ w', exec cmd w = .ok () w' ∨ exec cmd w = .error .badAlloc w' := by
  obtain ⟨hw, hpath⟩ := refines_values.path (sane_start hh n) hp
  rw [values_start] at hpath
  refine ⟨hpath, fun cmd hsome => ?_⟩
  obtain ⟨vs, hcmd⟩ := Option.isSome_iff_exists.1 hsome
  exact (exec_spec hw hcmd).defined

/-- A string of more than 254 units and a copy, which gets a block of its own when a unit is
appended to it. -/
theorem program_values_shared : ∃ w : World, (w.heap.count 0 = 1 ∧ w.heap.count 1 = 1) ∧
    Path ValueStep [none, none] [(.construct 0 (List.replicate 300 97), true), (.copy 1 0, true),
      (.edit 1 (.pushBack 98), true)] w.values := by
  obtain ⟨w, hcount, hp⟩ := exists_path (fun _ _ _ => step_of_next) (by decide +kernel :
    (runPath World.next ⟨Heap.empty, List.replicate 2 none⟩
      [(.construct 0 (List.replicate 300 97), true), (.copy 1 0, true),
        (.edit 1 (.pushBack 98), true)]).any
      (fun w => w.heap.count 0 = 1 ∧ w.heap.count 1 = 1) = true)
  have hvalues := program_values (h := Heap.empty) (n := 2) (fun _ => rfl) hp
  exact ⟨w, of_decide_eq_true hcount, hvalues.1⟩

theorem length_heldBy_le (o : Option Core) : (heldBy o).length ≤ 1 := by
  rcases o with _ | _ | m
  · exact Nat.zero_le 1
  · exact Nat.zero_le 1
  · exact le_rfl

/-- Without strings there are no blocks. -/
theorem World.Sane.eq_none (hw : w.Sane) (hnone : ∀ o ∈ w.strings, o = none) (a : ℕ) :
    w.heap.blocks a = none := by
  refine hw.counted.eq_none fun hmem => ?_
  obtain ⟨o, ho, ha⟩ := List.mem_flatMap.1 hmem
  rw [hnone o ho] at ha
  exact List.not_mem_nil ha

/-- **Blocks are shared by copies, and freed with the last of them.**  After any commands, each
block counts the strings that hold it; strings that share a block have the same text; and without
strings there are no blocks left. -/
theorem program_blocks {n : ℕ} {ls : List (Command × Bool)} (hh : ∀ a, h.blocks a = none)
    (hp : Path World.Step ⟨h, List.replicate n none⟩ ls w) :
    (∀ a, w.heap.count a = w.strings.countP fun o => decide (a ∈ heldBy o)) ∧
      (∀ (i j : ℕ) (c d : Core) (a : ℕ), w.strings[i]? = some (some c) →
        w.strings[j]? = some (some d) → a ∈ c.held → a ∈ d.held → w.values[i]? = w.values[j]?) ∧
      ((∀ o ∈ w.strings, o = none) → ∀ a, w.heap.blocks a = none) := by
  have hw := (refines_values.path (sane_start hh n) hp).1
  refine ⟨fun a => ?_, fun i j c d a hi hj hc hd => ?_, hw.eq_none⟩
  · rw [hw.counted a, World.held, count_flatMap_eq length_heldBy_le]
  · obtain rfl := hw.agree i j c d hi hj ⟨a, hc, hd⟩
    rw [World.Sane.getElem?_text hi, World.Sane.getElem?_text hj]

/-- A string of more than 254 units, and a copy of it. -/
theorem program_blocks_copy : ∃ w : World, w.heap.count 0 = 2 ∧
    ∀ a, w.heap.count a = w.strings.countP fun o => decide (a ∈ heldBy o) := by
  obtain ⟨w, hcount, hp⟩ := exists_path (fun _ _ _ => step_of_next) (by decide +kernel :
    (runPath World.next ⟨Heap.empty, List.replicate 2 none⟩
      [(.construct 0 (List.replicate 300 97), true), (.copy 1 0, true)]).any
      (fun w => w.heap.count 0 = 2) = true)
  have hblocks := program_blocks (h := Heap.empty) (n := 2) (fun _ => rfl) hp
  exact ⟨w, of_decide_eq_true hcount, hblocks.1⟩

end FbString

end PythonicCpp
