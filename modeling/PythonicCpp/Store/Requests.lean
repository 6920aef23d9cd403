import PythonicCpp.Machine.Requests
import PythonicCpp.Store.Room

/-!
# The requests of an `fbstring_core`

* `asks_reserve`, `asks_expandNoinit` : a string asks for memory at most once to make room.
-/

namespace PythonicCpp

namespace FbString

open RefCounted

variable {c : Core} {m : MediumLarge} {cells : List Cell} {p n k size cap : ℕ}
  {cat : Category}

theorem asks_refs (p k : ℕ) : Asks (refs p) k :=
  asks_bind_left (asks_lookup p 0) fun _ => asks_demand _ k

theorem asks_decrementRefs (p k : ℕ) : Asks (decrementRefs p) k := by
  refine asks_bind_left (asks_refs p 0) fun r => ?_
  rcases r with _ | _ | r
  · exact asks_throw .undefined k
  · exact asks_update (fun h => h.erase p) (fun _ => rfl) k
  · exact asks_update (fun h => h.setRefs p (r + 1) r.succ_ne_zero) (fun _ => rfl) k

theorem asks_create (size : ℕ) : Asks (create size) 1 :=
  asks_bind_right (asks_allocate _ _) fun _ =>
    asks_bind_left (asks_check _ 0) fun _ => asks_pure _ 0

theorem asks_smartRealloc (p hd size cap n : ℕ) : Asks (smartRealloc p hd size cap n) 1 := by
  unfold smartRealloc
  dsimp only
  refine asks_bind_left (asks_lookup p 0) fun b => asks_bind_left (asks_check _ 0) fun _ => ?_
  refine asks_bind_left (asks_check _ 0) fun _ => asks_bind_right (asks_allocate _ _) fun q => ?_
  exact asks_update_bind (fun h => h.erase p) (fun _ => rfl) (asks_pure q 0)

theorem asks_setCapacity (p size cap : ℕ) (cat : Category) (k : ℕ) :
    Asks (setCapacity p size cap cat) k :=
  asks_bind_left (asks_demand _ 0) fun _ => asks_pure _ k

theorem asks_smallSize (cells : List Cell) (k : ℕ) : Asks (smallSize cells) k :=
  asks_bind_left (asks_demand _ 0) fun _ => asks_bind_left (asks_demand _ 0) fun _ =>
    asks_bind_left (asks_check _ 0) fun _ => asks_pure _ k

theorem asks_setSmallSize (cells : List Cell) (n k : ℕ) : Asks (setSmallSize cells n) k :=
  asks_bind_left (asks_check _ 0) fun _ => asks_pure _ k

theorem asks_capacity (c : Core) (k : ℕ) : Asks c.capacity k := by
  cases c with
  | small cells => exact asks_pure _ k
  | ml m =>
    rw [Core.capacity]
    cases m.category with
    | isMedium => exact asks_pure _ k
    | isLarge =>
      exact asks_bind_left (asks_refs _ 0) fun _ => asks_ite (asks_pure _ k) (asks_pure _ k)

theorem asks_size (c : Core) (k : ℕ) : Asks c.size k := by
  cases c with
  | small cells => exact asks_smallSize cells k
  | ml m => exact asks_pure _ k

theorem asks_destroy (c : Core) (k : ℕ) : Asks (destroy c) k := by
  cases c with
  | small cells => exact asks_pure _ k
  | ml m =>
    rw [destroy]
    cases m.category with
    | isMedium =>
      refine asks_bind_left (asks_lookup _ 0) fun b => asks_bind_left (asks_check _ 0) fun _ => ?_
      exact asks_update (fun h => h.erase m.data) (fun _ => rfl) k
    | isLarge => exact asks_decrementRefs _ k

/-! ### Making room -/

theorem asks_reserveSmall (cells : List Cell) (n : ℕ) : Asks (reserveSmall cells n) 1 := by
  unfold reserveSmall
  dsimp only
  refine asks_ite (asks_pure _ 1) (asks_ite ?_ ?_)
  · refine asks_bind_right (asks_allocate _ _) fun p => ?_
    refine asks_bind_left (asks_smallSize cells 0) fun s => ?_
    exact asks_bind_left (asks_store _ _ _ 0) fun _ => asks_setCapacity _ _ _ _ 0
  · refine asks_bind_right (asks_create n) fun r => ?_
    refine asks_bind_left (asks_smallSize cells 0) fun s => ?_
    exact asks_bind_left (asks_store _ _ _ 0) fun _ => asks_setCapacity _ _ _ _ 0

theorem asks_reserveMedium (m : MediumLarge) (n : ℕ) : Asks (reserveMedium m n) 1 := by
  unfold reserveMedium
  dsimp only
  refine asks_ite (asks_pure _ 1) (asks_ite ?_ ?_)
  · exact asks_bind_right (asks_smartRealloc _ _ _ _ _) fun p => asks_setCapacity _ _ _ _ 0
  · refine asks_bind_right (asks_reserveSmall resetCells n) fun c => ?_
    cases c with
    | small cells => exact asks_throw .undefined 0
    | ml nascent =>
      refine asks_bind_left (asks_load _ _ _ 0) fun l => ?_
      refine asks_bind_left (asks_store _ _ _ 0) fun _ => ?_
      exact asks_bind_left (asks_destroy _ 0) fun _ => asks_pure _ 0

theorem asks_reserveLarge (m : MediumLarge) (n : ℕ) : Asks (reserveLarge m n) 1 := by
  refine asks_bind_left (asks_refs _ 0) fun r => asks_ite ?_ (asks_ite ?_ (asks_pure _ 1))
  · refine asks_bind_right (asks_create _) fun q => asks_bind_left (asks_load _ _ _ 0) fun l => ?_
    refine asks_bind_left (asks_store _ _ _ 0) fun _ => ?_
    exact asks_bind_left (asks_decrementRefs _ 0) fun _ => asks_setCapacity _ _ _ _ 0
  · refine asks_bind_right ?_ fun p => asks_setCapacity _ _ _ _ 0
    refine asks_bind_left (asks_check _ 0) fun _ => asks_bind_left (asks_refs _ 0) fun _ => ?_
    exact asks_bind_left (asks_check _ 0) fun _ => asks_smartRealloc _ _ _ _ _

/-- `reserve` asks for memory at most once. -/
theorem asks_reserve (c : Core) (n : ℕ) : Asks (c.reserve n) 1 := by
  have hby : Asks (reserveBy n c) 1 := by
    cases c with
    | small cells => exact asks_reserveSmall cells n
    | ml m =>
      rw [reserveBy]
      cases m.category with
      | isMedium => exact asks_reserveMedium m n
      | isLarge => exact asks_reserveLarge m n
  exact asks_bind_right hby fun c' => asks_bind_left (asks_capacity c' 0) fun _ =>
    asks_bind_left (asks_check _ 0) fun _ => asks_pure c' 0

theorem asks_setSize (n : ℕ) (c : Core) (k : ℕ) : Asks (setSize n c) k := by
  refine asks_bind_left (asks_capacity c 0) fun _ => asks_bind_left (asks_check _ 0) fun _ => ?_
  cases c with
  | small cells => exact asks_throw .undefined k
  | ml m => exact asks_bind_left (asks_store _ _ _ 0) fun _ => asks_pure _ k

/-- `expandNoinit` asks for memory at most once. -/
theorem asks_expandNoinit (c : Core) (n : ℕ) (expGrowth : Bool) :
    Asks (c.expandNoinit n expGrowth) 1 := by
  refine asks_bind_left (asks_size c 0) fun _ => asks_bind_left (asks_capacity c 0) fun _ => ?_
  refine asks_bind_left (asks_check _ 0) fun _ => asks_bind_left (asks_size c 0) fun sz => ?_
  cases c with
  | small cells =>
    refine asks_ite ?_ ?_
    · exact asks_bind_left (asks_setSmallSize _ _ 0) fun _ => asks_pure _ 1
    · exact asks_bind_right (asks_reserveSmall cells _) fun c' =>
        asks_bind_left (asks_setSize _ c' 0) fun _ => asks_pure _ 0
  | ml m =>
    refine asks_bind_left (asks_capacity _ 0) fun capacity => asks_ite ?_ ?_
    · exact asks_bind_right (asks_reserve _ _) fun c' =>
        asks_bind_left (asks_setSize _ c' 0) fun _ => asks_pure _ 0
    · exact asks_bind_left (asks_setSize _ _ 0) fun _ => asks_pure _ 1

end FbString

end PythonicCpp
