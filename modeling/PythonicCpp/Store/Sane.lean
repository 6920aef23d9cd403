import PythonicCpp.Machine.Slots
import PythonicCpp.Store.Methods
import PythonicCpp.Store.World

/-!
# What holds of the strings of a program

Copies of a long string share a block, a string is edited in place or moves, and any allocation may
be refused.

* `World.Sane` : the counts are exact, every string shows a text, and strings that share a block
  are copies of each other.
* `Sane.exchange` : what happens to one variable happens to no other.
-/

namespace PythonicCpp

namespace FbString

/-- What a variable holds. -/
def heldBy (o : Option Core) : List ℕ := o.elim [] Core.held

/-- What the variables hold. -/
def World.held (w : World) : List ℕ := w.strings.flatMap heldBy

/-- Every block is held as often as it counts, and by copies of one string. -/
structure World.Sane (w : World) : Prop where
  counted : Counted w.heap w.held
  shows : ∀ (i : ℕ) (c : Core), w.strings[i]? = some (some c) →
    ∃ u : List CodeUnit, c.Shows w.heap (u.map some)
  agree : ∀ (i j : ℕ) (c d : Core), w.strings[i]? = some (some c) → w.strings[j]? = some (some d) →
    (∃ a ∈ c.held, a ∈ d.held) → c = d

variable {w w' : World} {h h' : Heap Cell} {i j off n : ℕ} {c c' d : Core} {o o' : Option Core}
  {u v : List CodeUnit} {vs : List (Option (List CodeUnit))}

/-! ### Texts -/

theorem reduceOption_map_some (u : List CodeUnit) : (u.map some).reduceOption = u := by
  rw [List.reduceOption, List.filterMap_map]
  exact List.filterMap_some

/-- The text of a string is the text it shows. -/
theorem Core.Shows.text_eq (hc : c.Shows h (u.map some)) : c.text h = u := by
  cases c with
  | small cells =>
    have hle := SmallShows.le hc
    rw [Core.text, SmallShows.last hc, Option.join_some, Option.elim_some, toNat_ofNat_room,
      Nat.sub_sub_self hle, SmallShows.take_eq hc, reduceOption_map_some]
  | ml m =>
    obtain ⟨b, hb, hback⟩ := MediumLarge.Shows.block hc
    have htake : b.cells.take m.size = u.map some := by
      obtain ⟨rest, hrest⟩ := hback.text
      rw [MediumLarge.Shows.size hc, hrest, List.take_left]
    rw [Core.text, hb, Option.elim_some, htake, reduceOption_map_some]

theorem World.Sane.shows_text (hw : w.Sane) (hi : w.strings[i]? = some (some c)) :
    c.Shows w.heap ((c.text w.heap).map some) := by
  obtain ⟨u, hu⟩ := hw.shows i c hi
  rwa [hu.text_eq]

theorem getElem?_values (w : World) (i : ℕ) :
    w.values[i]? = (w.strings[i]?).map (Option.map (Core.text w.heap)) := List.getElem?_map ..

/-- A variable with a text has a string. -/
theorem exists_string (hi : w.values[i]?.join = some u) :
    ∃ c, w.strings[i]? = some (some c) ∧ c.text w.heap = u := by
  rw [getElem?_values] at hi
  rcases hs : w.strings[i]? with _ | _ | c
  · rw [hs] at hi
    cases hi
  · rw [hs] at hi
    cases hi
  · rw [hs] at hi
    exact ⟨c, rfl, Option.some.inj hi⟩

theorem vacant_of_values (hi : w.values[i]? = some none) : w.strings[i]? = some none := by
  rw [getElem?_values] at hi
  rcases hs : w.strings[i]? with _ | _ | c
  · rw [hs] at hi
    cases hi
  · rfl
  · rw [hs] at hi
    cases hi

/-! ### One variable at a time -/

section Exchange

variable (hw : w.Sane) (ho : w.strings[i]? = some o)
  (hk : Keeps w.heap (heldBy o) h' (heldBy o'))
include hw ho hk

/-- The other strings show what they did. -/
theorem World.Sane.shows_other (hj : w.strings[j]? = some (some d)) (hne : i ≠ j) :
    d.Shows h' ((d.text w.heap).map some) :=
  (hw.shows_text hj).keeps hk fun _ ha => hw.counted.lt_of_ne ho hj hne ha

/-- A string that is alone shares its block with no other one. -/
theorem World.Sane.agree_other (ho' : o' = some c')
    (hfrom : c'.Alone h' ∨ ∃ k : ℕ, w.strings[k]? = some (some c'))
    (hj : w.strings[j]? = some (some d)) (hne : i ≠ j) (hshare : ∃ a ∈ c'.held, a ∈ d.held) :
    c' = d := by
  rcases hfrom with halone | ⟨k, hk'⟩
  · obtain ⟨a, hac, had⟩ := hshare
    have hi : i < w.strings.length := (List.getElem?_eq_some_iff.1 ho).1
    have hlt := (hw.counted.set ho hk).lt_of_ne (List.getElem?_set_self hi)
      ((List.getElem?_set_ne hne).trans hj) hne had
    have hpos : 0 < (heldBy o').count a := by
      rw [ho']
      exact List.count_pos_iff.2 hac
    rw [halone a hac] at hlt
    omega
  · exact hw.agree k j c' d hk' hj hshare

/-- **What happens to one variable happens to no other**, and the world stays sane. -/
theorem World.Sane.exchange
    (hshows : ∀ c', o' = some c' → ∃ v : List CodeUnit, c'.Shows h' (v.map some))
    (hfrom : ∀ c', o' = some c' → c'.Alone h' ∨ ∃ k : ℕ, w.strings[k]? = some (some c')) :
    World.Sane ⟨h', w.strings.set i o'⟩ := by
  have hi : i < w.strings.length := (List.getElem?_eq_some_iff.1 ho).1
  have hself := List.getElem?_set_self (a := o') hi
  refine ⟨hw.counted.set ho hk, fun j d hj => ?_, fun j k c d hj hk' hshare => ?_⟩
  · dsimp only at hj
    by_cases hne : i = j
    · subst hne
      exact hshows d (Option.some.inj (hself.symm.trans hj))
    · rw [List.getElem?_set_ne hne] at hj
      exact ⟨_, hw.shows_other ho hk hj hne⟩
  · dsimp only at hj hk'
    by_cases hij : i = j <;> by_cases hik : i = k
    · subst hij
      subst hik
      exact Option.some.inj (Option.some.inj (hj.symm.trans hk'))
    · subst hij
      rw [List.getElem?_set_ne hik] at hk'
      have ho' := Option.some.inj (hself.symm.trans hj)
      exact hw.agree_other ho hk ho' (hfrom c ho') hk' hik hshare
    · subst hik
      rw [List.getElem?_set_ne hij] at hj
      have ho' := Option.some.inj (hself.symm.trans hk')
      obtain ⟨a, hac, had⟩ := hshare
      exact (hw.agree_other ho hk ho' (hfrom d ho') hj hij ⟨a, had, hac⟩).symm
    · rw [List.getElem?_set_ne hij] at hj
      rw [List.getElem?_set_ne hik] at hk'
      exact hw.agree j k c d hj hk' hshare

/-- The other texts are what they were. -/
theorem World.Sane.values_exchange : World.values ⟨h', w.strings.set i o'⟩ =
    w.values.set i (o'.map (Core.text h')) := by
  have hi : i < w.strings.length := (List.getElem?_eq_some_iff.1 ho).1
  refine List.ext_getElem? fun j => ?_
  rw [getElem?_values]
  by_cases hne : i = j
  · subst hne
    rw [List.getElem?_set_self hi, List.getElem?_set_self (by simpa [World.values] using hi)]
    rfl
  · rw [List.getElem?_set_ne hne, List.getElem?_set_ne hne, getElem?_values]
    rcases hj : w.strings[j]? with _ | _ | d
    · rfl
    · rfl
    · exact congrArg (fun u => some (some u)) (hw.shows_other ho hk hj hne).text_eq

end Exchange

/-- The strings change their places. -/
theorem World.Sane.rearrange (hw : w.Sane) {ss : List (Option Core)}
    (hcount : ∀ a, (ss.flatMap heldBy).count a = w.held.count a)
    (hfrom : ∀ (i : ℕ) (c : Core), ss[i]? = some (some c) →
      c = reset ∨ ∃ k : ℕ, w.strings[k]? = some (some c)) :
    World.Sane ⟨w.heap, ss⟩ := by
  refine ⟨fun a => (hw.counted a).trans (hcount a).symm, fun i c hi => ?_,
    fun i j c d hi hj hshare => ?_⟩
  · rcases hfrom i c hi with rfl | ⟨k, hk⟩
    · exact ⟨[], smallShows_reset⟩
    · exact hw.shows k c hk
  · obtain ⟨a, hac, had⟩ := hshare
    rcases hfrom i c hi with rfl | ⟨k, hk⟩
    · exact absurd hac List.not_mem_nil
    · rcases hfrom j d hj with rfl | ⟨k', hk'⟩
      · exact absurd had List.not_mem_nil
      · exact hw.agree k k' c d hk hk' ⟨a, hac, had⟩

/-- The world is sane, and the variables have the texts. -/
def World.Holds (w : World) (vs : List (Option (List CodeUnit))) : Prop := w.Sane ∧ w.values = vs

theorem World.Sane.set_values (hi : w.values[i]? = some (some u)) :
    w.values.set i (some u) = w.values := by
  obtain ⟨hlt, hget⟩ := List.getElem?_eq_some_iff.1 hi
  rw [← hget, List.set_getElem_self]

theorem World.Sane.getElem?_text (hi : w.strings[i]? = some (some c)) :
    w.values[i]? = some (some (c.text w.heap)) := by
  rw [getElem?_values, hi]
  rfl

/-- A string that has been changed. -/
theorem World.Sane.becomes (hw : w.Sane) (hi : w.strings[i]? = some (some c))
    (hbec : FbString.Becomes w.heap c (v.map some) h' c') :
    World.Holds ⟨h', w.strings.set i (some c')⟩ (w.values.set i (some v)) := by
  have hk : Keeps w.heap (heldBy (some c)) h' (heldBy (some c')) := hbec.keeps
  refine ⟨hw.exchange hi hk ?_ ?_, ?_⟩
  · rintro _ ⟨⟩
    exact ⟨v, hbec.shows⟩
  · rintro _ ⟨⟩
    rcases hbec.settled with rfl | halone
    · exact .inr ⟨i, hi⟩
    · exact .inl halone
  · rw [hw.values_exchange hi hk, Option.map_some, hbec.shows.text_eq]

/-- A string that is as it was. -/
theorem World.Sane.becomes_self (hw : w.Sane) (hi : w.strings[i]? = some (some c))
    (hbec : FbString.Becomes w.heap c ((c.text w.heap).map some) h' c') :
    World.Holds ⟨h', w.strings.set i (some c')⟩ w.values := by
  have hbecomes := hw.becomes hi hbec
  rwa [World.Sane.set_values (World.Sane.getElem?_text hi)] at hbecomes

/-- What leaves nothing behind changes nothing. -/
theorem World.Sane.unchanged (hw : w.Sane) (hk : Keeps w.heap [] h' []) :
    World.Holds ⟨h', w.strings⟩ w.values := by
  have hcounted : Counted w.heap ([] ++ w.held) := hw.counted
  refine ⟨⟨hcounted.keeps hk, fun i c hi => ?_, hw.agree⟩, ?_⟩
  · obtain ⟨u, hu⟩ := hw.shows i c hi
    exact ⟨u, hu.fresh hk⟩
  · refine List.map_congr_left fun o ho => ?_
    cases o with
    | none => rfl
    | some c =>
      obtain ⟨i, hi⟩ := List.getElem?_of_mem ho
      exact congrArg some ((hw.shows_text hi).fresh hk).text_eq

/-- A new string in a variable that holds none. -/
theorem World.Sane.arises (hw : w.Sane) (hi : w.strings[i]? = some none)
    (ha : Arises w.heap (u.map some) h' c) :
    World.Holds ⟨h', w.strings.set i (some c)⟩ (w.values.set i (some u)) := by
  have hk : Keeps w.heap (heldBy none) h' (heldBy (some c)) := ha.keeps
  refine ⟨hw.exchange hi hk ?_ ?_, ?_⟩
  · rintro _ ⟨⟩
    exact ⟨u, ha.shows⟩
  · rintro _ ⟨⟩
    exact .inl ha.alone
  · rw [hw.values_exchange hi hk, Option.map_some, ha.shows.text_eq]

end FbString

end PythonicCpp
