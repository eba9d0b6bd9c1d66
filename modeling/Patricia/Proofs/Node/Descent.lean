import Mathlib.Data.List.Basic
import Patricia.Check

/-
  The descent along a proof, as a function of digests.

  A check changes what is known and follows what is known. `descent` says what it tells and how it
  ends without any of that: from a digest and the entries alone, each content being the one that
  the entry decodes to. A branch sends the rest of the proof into every slot with the digest of the
  next entry (`fanOut`); the slots carry one digest, so each of them tells the same.

  `verify_unknown_outcome`: a check of a node of which nothing is known tells exactly the descent
  from its digest. Only the children of contents just learned are visited, of which nothing is
  known either; a second slot with the same digest is another such child. Nothing is assumed about
  keccak-256.
-/

namespace Patricia

namespace Visit

variable {σ τ : Type}

/-- What a visit tells and how it ends, without the state. -/
def outcome (v : Visit σ) : Visit Unit := v.map (fun _ => ())

@[simp] theorem outcome_verdict (v : Visit σ) : v.outcome.verdict = v.verdict := rfl

@[simp] theorem outcome_map (f : σ → τ) (v : Visit σ) : (v.map f).outcome = v.outcome := rfl

@[simp] theorem outcome_told (e : Event) (v : Visit σ) :
    (v.told e).outcome = v.outcome.told e := rfl

/-- Of two visits in a row, the second starts from the state that the first has left. -/
theorem outcome_andThen (v : Visit σ) (stop : σ → τ) (next : σ → Visit τ) :
    (v.andThen stop next).outcome = v.outcome.andThen id (fun _ => (next v.after).outcome) := by
  obtain ⟨s, events, verdict⟩ := v
  cases verdict <;> rfl

theorem outcome_eq_iff (v : Visit σ) (w : Visit τ) :
    v.outcome = w.outcome ↔ v.events = w.events ∧ v.verdict = w.verdict := by
  simp [outcome, map]

end Visit

/-- Some slot holds something with the digest `next`. -/
theorem any_slot_iff {α : Type} (digest : α → Digest) (next : Digest) (slots : List (Option α)) :
    slots.any (fun slot => slot.any (fun a => digest a == next)) = true ↔
      some next ∈ slots.map (Option.map digest) := by
  simp only [List.any_eq_true, List.mem_map]
  constructor
  · rintro ⟨slot, hslot, h⟩
    obtain ⟨a, rfl, ha⟩ := Option.any_eq_true _ _ |>.mp h
    exact ⟨some a, hslot, by rw [Option.map_some, beq_iff_eq.mp ha]⟩
  · rintro ⟨slot, hslot, h⟩
    obtain ⟨a, rfl, rfl⟩ := Option.map_eq_some_iff.mp h
    exact ⟨some a, hslot, by simp⟩

theorem Content.children_map {α β : Type} (f : α → β) (c : Content α) :
    (c.map f).children = c.children.map f := by
  cases c with
  | leaf key value => rfl
  | extension path child => rfl
  | branch slots =>
      simp only [map_branch, children, List.filterMap_map, List.map_filterMap]
      rfl

/-! ## The descent -/

/-- Slots with digests are compared lawfully, so that it is decided whether some slot refers to an
entry. -/
instance : LawfulBEq (Option Digest) := inferInstance

/-- The slots that hold the digest `next`, lowest first; the first slot has index `i`. -/
def slotsHolding (next : Digest) (i : Nat) (slots : List (Option Digest)) : List Nat :=
  slots.findIdxs (fun slot => slot == some next) i

/-- A branch sends the rest of a proof into one slot after the other, until one fails; `below` is
what each of them tells. -/
def fanOut (branch : Digest) (below : Visit Unit) : List Nat → Visit Unit
  | [] => .done ()
  | i :: rest =>
    (below.told (.descendBranch branch i)).andThen id (fun _ => fanOut branch below rest)

/-- Goes on below a node that holds a content, with the rest of the proof, which starts with an
entry of digest `next`; `check` is what that rest tells below a digest. -/
def Content.follow (next : Digest) (check : Digest → Visit Unit) (node : Digest) :
    Content Digest → Visit Unit
  | .leaf _ _ => .fail () (.pastLeaf node)
  | .extension _ child => (check child).told (.descendExtension node)
  | .branch slots =>
    if some next ∈ slots then fanOut node (check next) (slotsHolding next 0 slots)
    else .fail () (.noSuchChild node next)

/-- What the check of a proof tells below a digest, and how it ends. -/
def descent (key value : Bytes) : List Bytes → Digest → Visit Unit
  | [], d => ⟨(), [], emptyProofVerdict d value⟩
  | entry :: rest, d =>
    match openEntry d entry with
    | .error f => .fail () f
    | .ok c =>
      match c.agree key value with
      | .error f => .fail () f
      | .ok () =>
        match rest.head? with
        | none => .done ()
        | some next => c.follow (keccak256 next) (descent key value rest) d

section Entry

variable (key value e : Bytes) (rest : List Bytes) (d : Digest)

theorem descent_of_open {f : Fault} (hopen : openEntry d e = .error f) :
    descent key value (e :: rest) d = .fail () f := by
  rw [descent, hopen]

theorem descent_of_agree {c : Content Digest} {f : Fault} (hopen : openEntry d e = .ok c)
    (hagree : c.agree key value = .error f) : descent key value (e :: rest) d = .fail () f := by
  rw [descent, hopen]
  simp only [hagree]

theorem descent_singleton {c : Content Digest} (hopen : openEntry d e = .ok c)
    (hagree : c.agree key value = .ok ()) : descent key value [e] d = .done () := by
  rw [descent, hopen]
  simp only [hagree, List.head?_nil]

theorem descent_cons_cons (next : Bytes) {c : Content Digest} (hopen : openEntry d e = .ok c)
    (hagree : c.agree key value = .ok ()) :
    descent key value (e :: next :: rest) d =
      c.follow (keccak256 next) (descent key value (next :: rest)) d := by
  rw [descent, hopen]
  simp only [hagree, List.head?_cons]

end Entry

theorem slotsHolding_cons_none (next : Digest) (i : Nat) (rest : List (Option Digest)) :
    slotsHolding next i (none :: rest) = slotsHolding next (i + 1) rest := by
  simp [slotsHolding]

theorem slotsHolding_cons_eq (next : Digest) (i : Nat) (rest : List (Option Digest)) :
    slotsHolding next i (some next :: rest) = i :: slotsHolding next (i + 1) rest := by
  simp [slotsHolding]

theorem slotsHolding_cons_ne (next d : Digest) (h : d ≠ next) (i : Nat)
    (rest : List (Option Digest)) :
    slotsHolding next i (some d :: rest) = slotsHolding next (i + 1) rest := by
  simp [slotsHolding, h]

theorem slotsHolding_ne_nil (next : Digest) (i : Nat) (slots : List (Option Digest))
    (h : some next ∈ slots) : slotsHolding next i slots ≠ [] := by
  intro hnil
  have := List.findIdxs_eq_nil_iff.mp hnil _ h
  simp at this

/-- The slots of a branch end alike: all of them end as the first one does. -/
theorem fanOut_verdict (branch : Digest) (below : Visit Unit) (i : Nat) (rest : List Nat) :
    (fanOut branch below (i :: rest)).verdict = below.verdict := by
  induction rest generalizing i with
  | nil =>
      obtain ⟨_, events, verdict⟩ := below
      cases verdict <;> rfl
  | cons j rest ih =>
      have hrest := ih j
      obtain ⟨_, events, verdict⟩ := below
      cases verdict with
      | error f => rfl
      | ok _ => exact hrest

theorem follow_branch_verdict (next : Digest) (check : Digest → Visit Unit) (node : Digest)
    (slots : List (Option Digest)) (h : some next ∈ slots) :
    ((Content.branch slots).follow next check node).verdict = (check next).verdict := by
  simp only [Content.follow, if_pos h]
  cases hi : slotsHolding next 0 slots with
  | nil => exact absurd hi (slotsHolding_ne_nil next 0 slots h)
  | cons i rest => exact fanOut_verdict node (check next) i rest

/-! ## A check, entry by entry -/

namespace Node

section Entry

variable (key value e : Bytes) (rest : List Bytes) (n : Node)

theorem verify_of_open {f : Fault} (hopen : openEntry n.digest e = .error f) :
    verify key value (e :: rest) n = .fail n f := by
  rw [verify, hopen]

theorem verify_of_agree {c : Content Digest} {f : Fault} (hopen : openEntry n.digest e = .ok c)
    (hagree : c.agree key value = .error f) :
    verify key value (e :: rest) n = .fail (n.learn c) f := by
  rw [verify, hopen]
  simp only [hagree]

theorem verify_singleton {c : Content Digest} (hopen : openEntry n.digest e = .ok c)
    (hagree : c.agree key value = .ok ()) : verify key value [e] n = .done (n.learn c) := by
  rw [verify, hopen]
  simp only [hagree, List.head?_nil]

theorem verify_cons_cons (next : Bytes) {c : Content Digest} (hopen : openEntry n.digest e = .ok c)
    (hagree : c.agree key value = .ok ()) :
    verify key value (e :: next :: rest) n =
      descend (keccak256 next) (verify key value (next :: rest)) (n.learn c) := by
  rw [verify, hopen]
  simp only [hagree, List.head?_cons]

end Entry

/-! ## Outcomes -/

theorem visitSlots_outcome (branch next : Digest) (visit : Node → Visit Node) (below : Visit Unit)
    (slots : List (Option Node)) (i : Nat)
    (h : ∀ n, some n ∈ slots → n.digest = next → (visit n).outcome = below) :
    (visitSlots branch next visit i slots).outcome =
      fanOut branch below (slotsHolding next i (slots.map (Option.map digest))) := by
  induction slots generalizing i with
  | nil => rfl
  | cons slot rest ih =>
      have hrest := ih (i + 1) (fun n hn => h n (List.mem_cons_of_mem _ hn))
      cases slot with
      | none =>
          rw [List.map_cons, Option.map_none, slotsHolding_cons_none, ← hrest]
          rfl
      | some n =>
          rw [List.map_cons, Option.map_some]
          by_cases hn : n.digest = next
          · have hvisit := h n List.mem_cons_self hn
            rw [hn, slotsHolding_cons_eq, visitSlots, if_pos hn, Visit.outcome_andThen,
              Visit.outcome_told, hvisit, Visit.outcome_map, hrest]
            rfl
          · rw [slotsHolding_cons_ne _ _ hn, ← hrest, visitSlots, if_neg hn]
            rfl

/-- Below a node whose content is known, the check follows that content. -/
theorem descend_outcome (next : Digest) (visit : Node → Visit Node) (check : Digest → Visit Unit)
    (n : Node) (known : Content Node) (hknown : n.content = some known)
    (h : ∀ m ∈ known.children, (visit m).outcome = check m.digest) :
    (descend next visit n).outcome = (known.map digest).follow next check n.digest := by
  cases known with
  | leaf k v =>
      simp only [descend, hknown]
      rfl
  | extension path child =>
      have hchild := h child (List.mem_singleton.mpr rfl)
      simp only [descend, hknown, Visit.outcome_map, Visit.outcome_told, hchild]
      rfl
  | branch slots =>
      have hmem := any_slot_iff digest next slots
      simp only [descend, hknown, refersTo, hmem, Content.map_branch, Content.follow]
      split
      · rw [Visit.outcome_map, visitSlots_outcome n.digest next visit (check next)]
        intro m hm hd
        rw [h m (List.mem_filterMap.mpr ⟨some m, hm, rfl⟩), hd]
      · rfl

theorem digest_fresh (hashesKeys : Bool) (c : Content Digest) :
    (c.fresh hashesKeys).map digest = c := by
  rw [Content.fresh, Content.map_map]
  exact Content.map_id c

theorem digest_learn (n : Node) (c : Content Digest) : (n.learn c).digest = n.digest := by
  unfold learn
  split <;> rfl

/-- An entry is followed as in the descent, if what the node knows by then refers to the children
that the entry refers to, and the rest tells below them what the descent tells. -/
theorem verify_cons_outcome (key value e : Bytes) (rest : List Bytes) (n : Node)
    (h : ∀ c, openEntry n.digest e = .ok c → ∃ known, (n.learn c).content = some known ∧
      known.map digest = c ∧
      ∀ m ∈ known.children, (m.verify key value rest).outcome = descent key value rest m.digest) :
    (n.verify key value (e :: rest)).outcome = descent key value (e :: rest) n.digest := by
  cases hopen : openEntry n.digest e with
  | error f =>
      rw [verify_of_open key value e rest n hopen, descent_of_open key value e rest _ hopen]
      rfl
  | ok c =>
      cases hagree : c.agree key value with
      | error f =>
          rw [verify_of_agree key value e rest n hopen hagree,
            descent_of_agree key value e rest _ hopen hagree]
          rfl
      | ok _ =>
          cases rest with
          | nil =>
              rw [verify_singleton key value e n hopen hagree,
                descent_singleton key value e _ hopen hagree]
              rfl
          | cons next rest =>
              obtain ⟨known, hknown, hdigests, hchildren⟩ := h c hopen
              have hbelow := descend_outcome (keccak256 next) (verify key value (next :: rest))
                (descent key value (next :: rest)) (n.learn c) known hknown hchildren
              rw [hdigests, digest_learn] at hbelow
              rw [verify_cons_cons key value e rest n next hopen hagree,
                descent_cons_cons key value e rest _ next hopen hagree, hbelow]

/-- A check of a node of which nothing is known tells the descent from its digest. -/
theorem verify_unknown_outcome (key value : Bytes) (hashesKeys : Bool) (proof : List Bytes)
    (d : Digest) :
    (verify key value proof (unknown hashesKeys d)).outcome = descent key value proof d := by
  induction proof generalizing d with
  | nil => rfl
  | cons entry rest ih =>
      refine verify_cons_outcome key value entry rest (unknown hashesKeys d) (fun c _ => ?_)
      refine ⟨c.fresh hashesKeys, rfl, digest_fresh hashesKeys c, fun m hm => ?_⟩
      rw [Content.fresh, Content.children_map, List.mem_map] at hm
      obtain ⟨d', _, rfl⟩ := hm
      exact ih d'

end Node

end Patricia
