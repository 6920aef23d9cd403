import PythonicCpp.Machine.Refines
import PythonicCpp.Search.Next

/-!
# Cursors into a view

A cursor of a `FindView` is a pointer to the view, and the position is that of the view.  Cursors
may be made and copied at any time, and so may views, which take their position with them.

* `Cursors`, `Use`, `Cursors.Step` : views, cursors into them, and what is done with them.
* `Streams`, `Streams.Step` : the same for lists of offsets that cursors take from.
* `refines_streams` : views are such lists.
* `cursors_share` : the offsets that any cursors read, in whatever order they are used.
-/

namespace PythonicCpp

/-- Some views, and some cursors, each with the view that it points to. -/
structure Cursors where
  /-- The views. -/
  views : List FindView
  /-- `__rng` of each cursor. -/
  cursors : List ℕ

/-- What a program does with views and cursors. -/
inductive Use where
  /-- `begin_cursor()` of the view `i`. -/
  | beginCursor (i : ℕ)
  /-- A copy of the cursor `k`. -/
  | copyCursor (k : ℕ)
  /-- A copy of the view `i`. -/
  | copyView (i : ℕ)
  /-- `next()` of the cursor `k`. -/
  | next (k : ℕ)
  /-- `done()` of the cursor `k`, and `get()` where it is not done. -/
  | read (k : ℕ) (o : Option ℕ)
  deriving DecidableEq, Repr

/-- What `done()` and `get()` tell. -/
def FindView.read (v : FindView) : Option ℕ := if v.Done then none else some v.foundAt

/-- One use of a view or a cursor. -/
inductive Cursors.Step : Cursors → Use → Cursors → Prop
  | beginCursor {s : Cursors} {i : ℕ} {v : FindView} : s.views[i]? = some v →
      Step s (.beginCursor i) { s with cursors := s.cursors ++ [i] }
  | copyCursor {s : Cursors} {k i : ℕ} : s.cursors[k]? = some i →
      Step s (.copyCursor k) { s with cursors := s.cursors ++ [i] }
  | copyView {s : Cursors} {i : ℕ} {v : FindView} : s.views[i]? = some v →
      Step s (.copyView i) { s with views := s.views ++ [v] }
  | next {s : Cursors} {k i : ℕ} {v : FindView} : s.cursors[k]? = some i →
      s.views[i]? = some v → Step s (.next k) { s with views := s.views.set i v.next.val }
  | read {s : Cursors} {k i : ℕ} {v : FindView} : s.cursors[k]? = some i →
      s.views[i]? = some v → Step s (.read k v.read) s

/-! ### Lists of offsets -/

/-- Some lists of offsets, and some cursors, each with the list that it takes from. -/
structure Streams where
  /-- What is left of each list. -/
  lists : List (List ℕ)
  /-- The list of each cursor. -/
  cursors : List ℕ

/-- One use of a list or a cursor. -/
inductive Streams.Step : Streams → Use → Streams → Prop
  | beginCursor {s : Streams} {i : ℕ} {l : List ℕ} : s.lists[i]? = some l →
      Step s (.beginCursor i) { s with cursors := s.cursors ++ [i] }
  | copyCursor {s : Streams} {k i : ℕ} : s.cursors[k]? = some i →
      Step s (.copyCursor k) { s with cursors := s.cursors ++ [i] }
  | copyView {s : Streams} {i : ℕ} {l : List ℕ} : s.lists[i]? = some l →
      Step s (.copyView i) { s with lists := s.lists ++ [l] }
  | next {s : Streams} {k i : ℕ} {l : List ℕ} : s.cursors[k]? = some i →
      s.lists[i]? = some l → Step s (.next k) { s with lists := s.lists.set i l.tail }
  | read {s : Streams} {k i : ℕ} {l : List ℕ} : s.cursors[k]? = some i →
      s.lists[i]? = some l → Step s (.read k l.head?) s

/-- The offsets that are left. -/
def Cursors.streams (s : Cursors) : Streams := ⟨s.views.map FindView.offsets, s.cursors⟩

variable {v : FindView} {s t : Cursors} {r r' : Streams} {use : Use} {uses : List Use} {k : ℕ}
  {l : List ℕ} {o : Option ℕ}

theorem FindView.read_eq_head (v : FindView) : v.read = v.offsets.head? := by
  rw [read, offsets]
  split_ifs <;> rfl

theorem FindView.offsets_next (v : FindView) : v.next.val.offsets = v.offsets.tail := by
  by_cases h : v.Done
  · have hnil : v.offsets = [] := by rw [offsets, dif_pos h]
    rw [next, dif_pos h, Traced.val_pure, hnil, List.tail_nil]
  · have hcons : v.offsets = v.foundAt :: v.next.val.offsets := by rw [offsets, dif_neg h]
    rw [hcons, List.tail_cons]

theorem Cursors.getElem?_streams {i : ℕ} (hi : s.views[i]? = some v) :
    s.streams.lists[i]? = some v.offsets := by
  rw [streams, List.getElem?_map, hi, Option.map_some]

/-- One use. -/
theorem Cursors.Step.streams (h : Cursors.Step s use t) :
    Streams.Step s.streams use t.streams := by
  cases h with
  | beginCursor hi => exact .beginCursor (getElem?_streams hi)
  | copyCursor hk => exact .copyCursor hk
  | @copyView i v hi =>
    have hlists : (s.views ++ [v]).map FindView.offsets = s.streams.lists ++ [v.offsets] := by
      rw [List.map_append, List.map_singleton, streams]
    change Streams.Step s.streams (.copyView i) ⟨(s.views ++ [v]).map FindView.offsets, s.cursors⟩
    rw [hlists]
    exact .copyView (getElem?_streams hi)
  | @next k i v hk hi =>
    have hlists : (s.views.set i v.next.val).map FindView.offsets =
        s.streams.lists.set i v.offsets.tail := by
      rw [List.map_set, FindView.offsets_next, streams]
    change Streams.Step s.streams (.next k)
      ⟨(s.views.set i v.next.val).map FindView.offsets, s.cursors⟩
    rw [hlists]
    exact .next hk (getElem?_streams hi)
  | read hk hi =>
    rw [FindView.read_eq_head]
    exact .read hk (getElem?_streams hi)

/-- **Views are lists of offsets** that their cursors take from. -/
theorem refines_streams :
    Refines Cursors.Step Streams.Step (fun _ => True) Cursors.streams where
  keeps _ _ _ _ _ := trivial
  step _ _ _ _ h := h.streams

/-! ### One view -/

/-- The cursor moves. -/
def Use.Advances : Use → Prop
  | next _ => True
  | _ => False

instance : DecidablePred Use.Advances
  | .beginCursor _ => inferInstanceAs (Decidable False)
  | .copyCursor _ => inferInstanceAs (Decidable False)
  | .copyView _ => inferInstanceAs (Decidable False)
  | .next _ => inferInstanceAs (Decidable True)
  | .read _ _ => inferInstanceAs (Decidable False)

theorem eq_of_getElem?_singleton {i : ℕ} {l' : List ℕ} (h : [l][i]? = some l') :
    i = 0 ∧ l' = l := by
  cases i with
  | zero => exact ⟨rfl, (Option.some.inj h).symm⟩
  | succ i => cases h

/-- A use of the only list. -/
theorem Streams.Step.lists_eq (h : Streams.Step r use r') (hr : r.lists = [l])
    (huse : ∀ i, use ≠ .copyView i) :
    r'.lists = [l.drop (if use.Advances then 1 else 0)] := by
  cases h with
  | beginCursor _ => exact hr
  | copyCursor _ => exact hr
  | copyView _ => exact absurd rfl (huse _)
  | next _ hi =>
    rw [hr] at hi
    obtain ⟨rfl, rfl⟩ := eq_of_getElem?_singleton hi
    rw [hr, if_pos (by trivial), List.drop_one]
    rfl
  | read _ _ => exact hr

/-- Whatever the order, what is left has lost one offset for each `next()`. -/
theorem Streams.path_lists_eq (h : Path Streams.Step r uses r') (hr : r.lists = [l])
    (huses : ∀ i, Use.copyView i ∉ uses) :
    r'.lists = [l.drop (uses.countP fun use => decide use.Advances)] := by
  induction h generalizing l with
  | nil s => exact hr
  | @cons _ _ _ use uses hstep _ ih =>
    have hmid := hstep.lists_eq hr fun i hi => huses i (hi ▸ List.mem_cons_self)
    rw [ih hmid fun i hi => huses i (List.mem_cons_of_mem use hi), List.drop_drop,
      List.countP_cons, Nat.add_comm]
    simp only [decide_eq_true_eq]

/-- **The cursors of a view share its position.**  Whatever is done with views and cursors, in any
order, is done with the lists of offsets; and as long as the view is not copied, what a cursor reads
depends only on how often any of them has moved. -/
theorem cursors_share (H D : Text)
    (hp : Path Cursors.Step ⟨[(FindView.new H.toSpan D.toSpan).val], []⟩ uses s) :
    Path Streams.Step ⟨[storageSearch H D], []⟩ uses s.streams ∧
      ((∀ i, Use.copyView i ∉ uses) → Cursors.Step s (.read k o) t →
        o = (storageSearch H D)[uses.countP fun use => decide use.Advances]?) := by
  have hpath := (refines_streams.path trivial hp).2
  have hstart : Cursors.streams ⟨[(FindView.new H.toSpan D.toSpan).val], []⟩ =
      ⟨[storageSearch H D], []⟩ := by
    rw [Cursors.streams, List.map_singleton, FindView.offsets_new]
  rw [hstart] at hpath
  refine ⟨hpath, fun huses hread => ?_⟩
  have hlists := Streams.path_lists_eq hpath rfl huses
  cases hread with
  | read _ hi =>
    have hi' := Cursors.getElem?_streams hi
    rw [hlists] at hi'
    rw [FindView.read_eq_head, (eq_of_getElem?_singleton hi').2, List.head?_drop]

/-- In `aa`, the one cursor moves, and the other one reads the second `a`. -/
theorem cursors_share_aa :
    let H := Text.ofUnits [97, 97] 0 (by decide)
    let D := Text.ofUnits [97] 0 (by decide)
    (FindView.new H.toSpan D.toSpan).val.next.val.read = (storageSearch H D)[1]? := by
  intro H D
  have hp : Path Cursors.Step ⟨[(FindView.new H.toSpan D.toSpan).val], []⟩
      [.beginCursor 0, .copyCursor 0, .next 0]
      ⟨[(FindView.new H.toSpan D.toSpan).val.next.val], [0, 0]⟩ :=
    .cons (.beginCursor rfl) (.cons (.copyCursor rfl) (.cons (.next rfl rfl) (.nil _)))
  exact (cursors_share (k := 1) H D hp).2 (fun i => by simp) (.read rfl rfl)

end PythonicCpp
