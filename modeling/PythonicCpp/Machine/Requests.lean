import PythonicCpp.Machine.Blocks

/-!
# Counting requests

* `Asks x k` : the action `x` makes at most `k` requests for memory, whatever becomes of it.
* `asks_bind`, `asks_allocate`, `asks_update` : the rules.
* `Ends.asks` : the count beside what else is known about an action.
-/

namespace PythonicCpp

/-- The heap is the same, up to its blocks and at most `k` more requests. -/
def Heap.Within {α : Type} (h : Heap α) (k : ℕ) (h' : Heap α) : Prop :=
  h.next ≤ h'.next ∧ h'.next ≤ h.next + k

/-- The result of an action from the heap, after at most `k` requests. -/
def Heap.Bounds {α β : Type} (h : Heap α) (k : ℕ) : EStateM.Result Stop (Heap α) β → Prop
  | .ok _ h' => h.Within k h'
  | .error _ h' => h.Within k h'

/-- The action makes at most `k` requests for memory. -/
def Asks {α β : Type} (x : Action (Heap α) β) (k : ℕ) : Prop :=
  ∀ h : Heap α, h.Bounds k (x h)

variable {α β γ : Type} {x : Action (Heap α) β} {f : β → Action (Heap α) γ} {h h' h'' : Heap α}
  {k l a off n : ℕ} {Q : β → Heap α → Prop} {E : Heap α → Prop}

theorem Heap.Within.refl (h : Heap α) (k : ℕ) : h.Within k h := ⟨le_rfl, Nat.le_add_right _ _⟩

theorem Heap.Within.trans (hk : h.Within k h') (hl : h'.Within l h'') : h.Within (k + l) h'' := by
  unfold Heap.Within at *
  omega

theorem Heap.Within.mono (hk : h.Within k h') (hkl : k ≤ l) : h.Within l h' :=
  ⟨hk.1, hk.2.trans (Nat.add_le_add_left hkl _)⟩

theorem asks_pure (b : β) (k : ℕ) : Asks (pure b : Action (Heap α) β) k := fun h =>
  Heap.Within.refl h k

theorem asks_throw (e : Stop) (k : ℕ) : Asks (throw e : Action (Heap α) β) k := fun h =>
  Heap.Within.refl h k

/-- One action after another. -/
theorem asks_bind (hx : Asks x k) (hf : ∀ b, Asks (f b) l) : Asks (x >>= f) (k + l) := by
  intro h
  have hfirst := hx h
  show h.Bounds (k + l) (EStateM.bind x f h)
  unfold EStateM.bind
  revert hfirst
  rcases x h with ⟨b, h'⟩ | ⟨e, h'⟩
  · intro hfirst
    have hsecond := hf b h'
    revert hsecond
    show _ → h.Bounds (k + l) (f b h')
    rcases f b h' with ⟨c, h''⟩ | ⟨e, h''⟩
    · exact Heap.Within.trans hfirst
    · exact Heap.Within.trans hfirst
  · intro hfirst
    exact Heap.Within.mono hfirst (Nat.le_add_right k l)

/-- An action that asks for nothing, before another one. -/
theorem asks_bind_left (hx : Asks x 0) (hf : ∀ b, Asks (f b) k) : Asks (x >>= f) k := by
  have hbind := asks_bind hx hf
  rwa [Nat.zero_add] at hbind

/-- An action that asks for nothing, after another one. -/
theorem asks_bind_right (hx : Asks x k) (hf : ∀ b, Asks (f b) 0) : Asks (x >>= f) k :=
  asks_bind hx hf

theorem asks_ite {p : Prop} [Decidable p] {y : Action (Heap α) β} (hx : Asks x k)
    (hy : Asks y k) : Asks (if p then x else y) k := by
  split_ifs
  · exact hx
  · exact hy

theorem asks_check (p : Prop) [Decidable p] (k : ℕ) :
    Asks (check p : Action (Heap α) Unit) k := asks_ite (asks_pure () k) (asks_throw .undefined k)

theorem asks_demand (o : Option β) (k : ℕ) : Asks (demand o : Action (Heap α) β) k := by
  cases o with
  | none => exact asks_throw .undefined k
  | some b => exact asks_pure b k

/-- A change of the blocks that there are. -/
theorem asks_update (g : Heap α → Heap α) (hg : ∀ h, (g h).next = h.next) (k : ℕ) :
    Asks (do set (g (← get))) k := fun h =>
  ⟨(hg h).ge, (hg h).le.trans (Nat.le_add_right _ _)⟩

/-- A change of the blocks that there are, before another action. -/
theorem asks_update_bind (g : Heap α → Heap α) (hg : ∀ h, (g h).next = h.next) (hx : Asks x k) :
    Asks (do
      set (g (← get))
      x) k := by
  intro h
  have hwithin : ∀ h', (g h).Within k h' → h.Within k h' := by
    unfold Heap.Within
    rw [hg]
    exact fun _ => id
  have hrest := hx (g h)
  revert hrest
  show _ → h.Bounds k (x (g h))
  rcases x (g h) with ⟨b, h'⟩ | ⟨e, h'⟩
  · exact hwithin h'
  · exact hwithin h'

theorem asks_lookup (a k : ℕ) : Asks (lookup a : Action (Heap α) (Block α)) k := fun h =>
  asks_demand (h.blocks a) k h

theorem asks_load (a off n k : ℕ) : Asks (load a off n : Action (Heap α) (List α)) k :=
  asks_bind_left (asks_lookup a 0) fun _ => asks_bind_left (asks_check _ 0) fun _ => asks_pure _ k

theorem asks_store (a off : ℕ) (new : List α) (k : ℕ) : Asks (store a off new) k := by
  intro h
  show h.Bounds k (EStateM.bind (lookup a) (fun b => do
    check (off + new.length ≤ b.cells.length)
    set (h.setCells a (overwrite b.cells off new))) h)
  have hlookup : lookup a h = (demand (h.blocks a) : Action (Heap α) (Block α)) h := rfl
  unfold EStateM.bind
  rw [hlookup]
  cases h.blocks a with
  | none => exact .refl h k
  | some b =>
    show h.Bounds k ((check (off + new.length ≤ b.cells.length) >>= fun _ =>
      set (h.setCells a (overwrite b.cells off new)) : Action (Heap α) Unit) h)
    unfold check
    split_ifs
    · exact .refl h k
    · exact .refl h k

theorem asks_allocate (n : ℕ) (b : Block α) : Asks (allocate n b) 1 := by
  intro h
  show h.Bounds 1 ((if h.refuses h.next n = true then (do
      set h.skip
      throw .badAlloc)
    else (do
      set (h.push b)
      pure h.next) : Action (Heap α) ℕ) h)
  split_ifs
  · exact ⟨Nat.le_succ _, le_rfl⟩
  · exact ⟨Nat.le_succ _, le_rfl⟩

/-- The requests that an action makes. -/
theorem Ends.asks (hx : Ends x h Q E) (hk : Asks x k) :
    Ends x h (fun b h' => Q b h' ∧ h.Within k h') fun h' => E h' ∧ h.Within k h' := by
  have hasks := hk h
  unfold Ends at *
  revert hx hasks
  rcases x h with ⟨b, h'⟩ | ⟨_ | _, h'⟩
  · exact And.intro
  · exact And.intro
  · exact fun hx _ => hx

end PythonicCpp
