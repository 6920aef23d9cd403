import PythonicCpp.Scan.Occurs

/-!
# Self-synchronising codes

Symbols are encoded as lists of units.  The first unit of an encoding, its lead, occurs nowhere
else in an encoding and tells how long the encoding is.

## Main definitions

* `LeadCode α β` : such a code for symbols `α`, with units `β`.
* `LeadCode.encode`, `LeadCode.offset` : the encoding of a list of symbols, and the offset in it at
  which each symbol begins.
* `splitLeads width` : splits a list of units, each part as long as its first unit tells.

## Main results

* `LeadCode.plainSearch_encode` : searching encodings is searching what they encode.
* `LeadCode.splice_encode` : so is replacing.
* `LeadCode.exists_cut` : a prefix of an encoding is an encoding and at most one cut symbol.
* `LeadCode.splitLeads_append_cut`, `LeadCode.countP_lead_append_cut` : splitting such a prefix,
  and counting the leads in it.
-/

namespace PythonicCpp

namespace Scan

variable {α β : Type*}

/-- A code whose encodings are marked by their first unit. -/
structure LeadCode (α β : Type*) where
  /-- The encoding of one symbol. -/
  enc : α → List β
  /-- The unit is the first of an encoding. -/
  lead : β → Bool
  /-- The length of the encodings that begin with the unit. -/
  width : β → ℕ
  shape : ∀ a, ∃ b l, enc a = b :: l ∧ lead b = true ∧ (∀ c ∈ l, lead c = false) ∧
    width b = l.length + 1
  inj : Function.Injective enc

/-- Split a list of units into parts as long as their first units tell; the last part may be
shorter. -/
def splitLeads (width : β → ℕ) : List β → List (List β)
  | [] => []
  | b :: l => (b :: l.take (width b - 1)) :: splitLeads width (l.drop (width b - 1))
termination_by l => l.length
decreasing_by simp only [List.length_drop, List.length_cons]; omega

theorem splitLeads_cons {width : β → ℕ} {b : β} (l : List β) (hb : 0 < width b) :
    splitLeads width (b :: l) =
      (b :: l).take (width b) :: splitLeads width ((b :: l).drop (width b)) := by
  obtain ⟨w, hw⟩ := Nat.exists_eq_add_of_lt hb
  rw [splitLeads, hw, Nat.zero_add, Nat.add_sub_cancel, List.take_succ_cons, List.drop_succ_cons]

namespace LeadCode

variable (C : LeadCode α β)

/-- The encoding of a list of symbols. -/
def encode (as : List α) : List β := as.flatMap C.enc

/-- The offset at which symbol `i` begins. -/
def offset (as : List α) (i : ℕ) : ℕ := (C.encode (as.take i)).length

@[simp] theorem encode_nil : C.encode [] = [] := rfl

@[simp] theorem encode_cons (a : α) (as : List α) : C.encode (a :: as) = C.enc a ++ C.encode as :=
  rfl

@[simp] theorem encode_append (as bs : List α) :
    C.encode (as ++ bs) = C.encode as ++ C.encode bs := List.flatMap_append

@[simp] theorem offset_length (as : List α) : C.offset as as.length = (C.encode as).length := by
  rw [offset, List.take_length]

theorem offset_succ (a : α) (as : List α) (i : ℕ) :
    C.offset (a :: as) (i + 1) = (C.enc a).length + C.offset as i := by
  rw [offset, List.take_succ_cons, encode_cons, List.length_append, offset]

theorem offset_add (as : List α) (i j : ℕ) :
    C.offset as (i + j) = C.offset as i + C.offset (as.drop i) j := by
  rw [offset, List.take_add, encode_append, List.length_append, offset, offset]

variable {C} {as ds : List α}

theorem enc_ne_nil (a : α) : C.enc a ≠ [] := by
  obtain ⟨b, l, h, -⟩ := C.shape a
  rw [h]
  exact List.cons_ne_nil b l

theorem encode_ne_nil (hd : ds ≠ []) : C.encode ds ≠ [] := by
  obtain ⟨d, ds, rfl⟩ := List.exists_cons_of_ne_nil hd
  exact List.append_ne_nil_of_left_ne_nil (enc_ne_nil d) _

/-! ### Splitting and counting -/

theorem splitLeads_enc_append (a : α) (l : List β) :
    splitLeads C.width (C.enc a ++ l) = C.enc a :: splitLeads C.width l := by
  obtain ⟨b, t, h, -, -, hw⟩ := C.shape a
  rw [h, List.cons_append, splitLeads, hw, Nat.add_sub_cancel, List.take_left, List.drop_left]

theorem splitLeads_encode_append (as : List α) (l : List β) :
    splitLeads C.width (C.encode as ++ l) = as.map C.enc ++ splitLeads C.width l := by
  induction as with
  | nil => rfl
  | cons a as ih =>
    rw [encode_cons, List.append_assoc, splitLeads_enc_append, ih, List.map_cons, List.cons_append]

theorem splitLeads_encode (as : List α) : splitLeads C.width (C.encode as) = as.map C.enc := by
  have h := splitLeads_encode_append (C := C) as []
  rwa [List.append_nil, splitLeads, List.append_nil] at h

theorem countP_lead_enc (a : α) : (C.enc a).countP C.lead = 1 := by
  obtain ⟨b, l, h, hb, hl, -⟩ := C.shape a
  rw [h, List.countP_cons_of_pos hb, List.countP_eq_zero.2 fun c hc => by simp [hl c hc]]

theorem countP_lead_encode (as : List α) : (C.encode as).countP C.lead = as.length := by
  induction as with
  | nil => rfl
  | cons a as ih =>
    rw [encode_cons, List.countP_append, countP_lead_enc, ih, List.length_cons, Nat.add_comm]

/-- A cut symbol: part of an encoding, but not all of it. -/
theorem splitLeads_cut {a : α} {cut : List β} (hcut : cut <+: C.enc a) (hne : cut ≠ []) :
    splitLeads C.width cut = [cut] := by
  obtain ⟨b, l, h, -, -, hw⟩ := C.shape a
  obtain ⟨x, t, rfl⟩ := List.exists_cons_of_ne_nil hne
  rw [h, List.cons_prefix_cons] at hcut
  obtain ⟨rfl, ht⟩ := hcut
  have hle := ht.length_le
  rw [splitLeads, hw, Nat.add_sub_cancel, List.take_of_length_le hle,
    List.drop_of_length_le hle, splitLeads]

theorem countP_lead_cut {a : α} {cut : List β} (hcut : cut <+: C.enc a) (hne : cut ≠ []) :
    cut.countP C.lead = 1 := by
  obtain ⟨b, l, h, hb, hl, -⟩ := C.shape a
  obtain ⟨x, t, rfl⟩ := List.exists_cons_of_ne_nil hne
  rw [h, List.cons_prefix_cons] at hcut
  obtain ⟨rfl, ht⟩ := hcut
  rw [List.countP_cons_of_pos hb,
    List.countP_eq_zero.2 fun c hc => by simp [hl c (ht.subset hc)]]

/-- **Splitting an encoding and a cut symbol** gives the encodings and the cut symbol. -/
theorem splitLeads_append_cut [DecidableEq β] {whole : List α} {cut : List β}
    (hcut : cut ≠ [] → ∃ a, cut <+: C.enc a) :
    splitLeads C.width (C.encode whole ++ cut) =
      whole.map C.enc ++ if cut = [] then [] else [cut] := by
  rw [splitLeads_encode_append]
  split_ifs with h
  · rw [h, splitLeads]
  · obtain ⟨a, ha⟩ := hcut h
    rw [splitLeads_cut ha h]

theorem countP_lead_append_cut [DecidableEq β] {whole : List α} {cut : List β}
    (hcut : cut ≠ [] → ∃ a, cut <+: C.enc a) :
    (C.encode whole ++ cut).countP C.lead =
      (splitLeads C.width (C.encode whole ++ cut)).length := by
  rw [splitLeads_append_cut hcut, List.countP_append, countP_lead_encode, List.length_append,
    List.length_map]
  split_ifs with h
  · rw [h]
    rfl
  · obtain ⟨a, ha⟩ := hcut h
    rw [countP_lead_cut ha h]
    rfl

/-- **A prefix of an encoding** is the encoding of the symbols that are whole in it, followed by
part of the next one. -/
theorem exists_cut {b : List β} (h : b <+: C.encode as) :
    ∃ whole rest cut, as = whole ++ rest ∧ b = C.encode whole ++ cut ∧
      (cut ≠ [] → ∃ a rest', rest = a :: rest' ∧ cut <+: C.enc a ∧ cut ≠ C.enc a) := by
  induction as generalizing b with
  | nil => exact ⟨[], [], [], rfl, List.prefix_nil.1 h, absurd rfl⟩
  | cons a as ih =>
    by_cases ha : C.enc a <+: b
    · obtain ⟨b, rfl⟩ := ha
      rw [encode_cons, List.prefix_append_right_inj] at h
      obtain ⟨whole, rest, cut, rfl, rfl, hcut⟩ := ih h
      exact ⟨a :: whole, rest, cut, rfl, by rw [encode_cons, List.append_assoc], hcut⟩
    · have hb := (List.prefix_or_prefix_of_prefix h (List.prefix_append _ _)).resolve_right ha
      refine ⟨[], a :: as, b, rfl, rfl, fun _ => ⟨a, as, rfl, hb, ?_⟩⟩
      rintro rfl
      exact ha List.prefix_rfl

/-! ### Boundaries -/

theorem encode_eq_append (i : ℕ) : C.encode as = C.encode (as.take i) ++ C.encode (as.drop i) := by
  rw [← encode_append, List.take_append_drop]

theorem drop_offset (i : ℕ) : (C.encode as).drop (C.offset as i) = C.encode (as.drop i) := by
  rw [encode_eq_append i, offset, List.drop_left]

theorem take_offset (i : ℕ) : (C.encode as).take (C.offset as i) = C.encode (as.take i) := by
  rw [encode_eq_append i, offset, List.take_left]

theorem offset_lt {i j : ℕ} (hij : i < j) (hj : j ≤ as.length) :
    C.offset as i < C.offset as j := by
  obtain ⟨n, rfl⟩ := Nat.exists_eq_add_of_lt hij
  rw [Nat.add_assoc, offset_add]
  refine Nat.lt_add_of_pos_right (List.length_pos_iff.2 (encode_ne_nil fun h => ?_))
  have := congrArg List.length h
  simp only [List.length_take, List.length_drop, List.length_nil] at this
  omega

theorem offset_le {i j : ℕ} (hij : i ≤ j) (hj : j ≤ as.length) :
    C.offset as i ≤ C.offset as j := by
  rcases hij.lt_or_eq with hlt | rfl
  · exact (offset_lt hlt hj).le
  · exact le_rfl

/-- **Every lead is at the beginning of a symbol.** -/
theorem exists_offset {q : ℕ} {b : β} (hq : (C.encode as)[q]? = some b) (hb : C.lead b = true) :
    ∃ i, i < as.length ∧ q = C.offset as i := by
  induction as generalizing q with
  | nil => simp at hq
  | cons a as ih =>
    obtain ⟨x, l, h, -, hl, -⟩ := C.shape a
    rcases Nat.lt_or_ge q (C.enc a).length with hlt | hge
    · rw [encode_cons, List.getElem?_append_left hlt, h] at hq
      cases q with
      | zero => exact ⟨0, Nat.succ_pos _, rfl⟩
      | succ q =>
        rw [List.getElem?_cons_succ] at hq
        exact absurd hb (by simp [hl b (List.mem_of_getElem? hq)])
    · rw [encode_cons, List.getElem?_append_right hge] at hq
      obtain ⟨i, hi, hqi⟩ := ih hq
      refine ⟨i + 1, by simpa using hi, ?_⟩
      rw [offset_succ, ← hqi, Nat.add_sub_cancel' hge]

theorem prefix_of_encode_prefix (h : C.encode ds <+: C.encode as) : ds <+: as := by
  induction ds generalizing as with
  | nil => exact List.nil_prefix
  | cons d ds ih =>
    cases as with
    | nil => exact absurd (List.prefix_nil.1 h) (encode_ne_nil (List.cons_ne_nil d ds))
    | cons a as =>
      -- the leads are equal, so the encodings are equally long, and one is a prefix of the other
      have hlen : (C.enc d).length = (C.enc a).length := by
        obtain ⟨x, l, hx, -, -, hwx⟩ := C.shape d
        obtain ⟨y, t, hy, -, -, hwy⟩ := C.shape a
        rw [encode_cons, encode_cons, hx, hy, List.cons_append, List.cons_append,
          List.cons_prefix_cons] at h
        rw [hx, hy, List.length_cons, List.length_cons, ← hwx, ← hwy, h.1]
      rw [encode_cons, encode_cons] at h
      have hhead : C.enc d = C.enc a := by
        have hp := List.prefix_of_prefix_length_le ((List.prefix_append _ _).trans h)
          (List.prefix_append (C.enc a) (C.encode as)) hlen.le
        exact hp.eq_of_length hlen
      rw [hhead, List.prefix_append_right_inj] at h
      rw [C.inj hhead]
      exact List.cons_prefix_cons.2 ⟨rfl, ih h⟩

/-! ### Searching and replacing -/

theorem offset_add_length {i : ℕ} (hi : OccursAt as ds i) :
    C.offset as (i + ds.length) = C.offset as i + (C.encode ds).length := by
  rw [offset_add, Nat.add_left_cancel_iff, offset, hi.2]

theorem OccursAt.encode {i : ℕ} (hi : OccursAt as ds i) :
    OccursAt (C.encode as) (C.encode ds) (C.offset as i) := by
  refine ⟨?_, ?_⟩
  · rw [← offset_add_length hi, ← offset_length]
    exact offset_le hi.add_le le_rfl
  · rw [drop_offset, hi.split, encode_append, List.take_left]

/-- **Encoded symbols occur only where the symbols do**: a match cannot begin inside a symbol. -/
theorem occursAt_encode (hd : ds ≠ []) {q : ℕ} (hq : OccursAt (C.encode as) (C.encode ds) q) :
    ∃ i, i ≤ as.length ∧ q = C.offset as i ∧ OccursAt as ds i := by
  -- the encoding of `ds` begins with a lead
  obtain ⟨i, hi, rfl⟩ : ∃ i, i < as.length ∧ q = C.offset as i := by
    obtain ⟨d, ds, rfl⟩ := List.exists_cons_of_ne_nil hd
    obtain ⟨b, l, h, hb, -⟩ := C.shape d
    refine exists_offset (b := b) ?_ hb
    rw [← Nat.add_zero q, ← List.getElem?_drop, hq.split, encode_cons, h]
    rfl
  refine ⟨i, hi.le, rfl, ?_⟩
  have hsplit := hq.split
  rw [drop_offset] at hsplit
  have hp : ds <+: as.drop i := prefix_of_encode_prefix (C := C) (hsplit ▸ List.prefix_append _ _)
  have hle := hp.length_le
  rw [List.length_drop] at hle
  have := List.length_pos_iff.2 hd
  exact ⟨by omega, (List.prefix_iff_eq_take.1 hp).symm⟩

/-- **Replacing in an encoding is replacing in what it encodes.** -/
theorem splice_encode {n c : ℕ} {ps : List ℕ} (r : ℕ → List α)
    (hps : Leftmost (OccursAt as ds) n ds.length c ps) :
    splice (C.encode as) (C.encode ds).length (C.offset as c)
        (ps.map fun p => (C.offset as p, C.encode (r p))) =
      C.encode (splice as ds.length c (ps.map fun p => (p, r p))) := by
  induction hps with
  | nil _ => exact drop_offset _
  | @cons c p ps hcp _ hp _ _ ih =>
    have hgap : C.offset as p - C.offset as c = C.offset (as.drop c) (p - c) := by
      have := C.offset_add as c (p - c)
      rw [Nat.add_sub_cancel' hcp] at this
      omega
    simp only [List.map_cons, splice, ← offset_add_length (C := C) hp, ih, encode_append, hgap,
      drop_offset, take_offset]

variable [DecidableEq α] [DecidableEq β]

/-- **Searching encodings is searching what they encode.** -/
theorem plainSearch_encode (hd : ds ≠ []) :
    plainSearch (C.encode as) (C.encode ds) = (plainSearch as ds).map (C.offset as) := by
  have hpos := List.length_pos_iff.2 hd
  refine (plainSearch_spec (encode_ne_nil hd)).unique ?_
  refine (plainSearch_spec hd).map (N := as.length) (fun i j => offset_lt) ?_
    (fun q hq => occursAt_encode hd hq) (fun j _ hj => OccursAt.encode hj) (fun j hj => ?_)
    (Nat.zero_le _) fun j hj => ?_
  · rw [offset_length]
  · exact ⟨hj.add_le, offset_add_length hj⟩
  · have := hj.add_le
    omega

end LeadCode

end Scan

end PythonicCpp
