import Patricia.Proofs.Check.HashChain
import Patricia.Proofs.Store.Accumulation

/-
  The first matching slot decides.

  Below a branch a check sends the rest of the proof into every slot with the digest of the next
  entry. `verifyFirst` sends it into the lowest one only, and is the same check otherwise
  (`verifyBy_visitSlots`). Where keccak-256 has no collision among the entries, the slots of one
  digest end alike, whatever has been learned below them before (`verify_outcome`), so the two
  checks end alike. If the first slot fails, no other slot is visited, and the two leave one store.

  If it succeeds, the other slots are visited later: everything that `verifyFirst` does comes
  first, at every level, so the numbers of nodes and contents agree, and what the full check does
  more is learning below the nodes that the other one has passed over (`passedOver`).

  Not claimed: that the two tell the same. The full check tells every slot that it goes into.
-/

namespace Patricia

namespace Store

/-! ## The check of first slots -/

/-- How the rest of a proof, given as a visit of nodes, is sent into the slots of a branch. -/
abbrev SlotLoop : Type :=
  Digest → Digest → (NodeId → Store → Visit Store) → Nat → List (Option NodeId) → Store →
    Visit Store

/-- Visits the first slot that holds a node with the digest `next`, and no other. -/
def visitFirst : SlotLoop
  | _, _, _, _, [], s => .done s
  | branch, next, visit, i, none :: rest, s => visitFirst branch next visit (i + 1) rest s
  | branch, next, visit, i, some id :: rest, s =>
    if (s.cell id).digest = next then (visit id s).told (.descendBranch branch i)
    else visitFirst branch next visit (i + 1) rest s

/-- Goes on below a node as `descend` does, with a loop over slots. -/
def descendBy (loop : SlotLoop) (next : Digest) (visit : NodeId → Store → Visit Store)
    (id : NodeId) (s : Store) : Visit Store :=
  let node := (s.cell id).digest
  match s.contentOf id with
  | some (.extension _ child) => (visit child s).told (.descendExtension node)
  | some (.branch slots) =>
    if s.refersTo next slots then loop node next visit 0 slots s
    else .fail s (.noSuchChild node next)
  | _ => .fail s (.pastLeaf node)

/-- Checks a proof as `verify` does, with a loop over slots. -/
def verifyBy (loop : SlotLoop) (key value : Bytes) : List Bytes → NodeId → Store → Visit Store
  | [], id, s => ⟨s, [], emptyProofVerdict (s.cell id).digest value⟩
  | entry :: rest, id, s =>
    match openEntry (s.cell id).digest entry with
    | .error f => .fail s f
    | .ok c =>
      match c.agree key value with
      | .error f => .fail (s.learn id c) f
      | .ok () =>
        match rest.head? with
        | none => .done (s.learn id c)
        | some next =>
          descendBy loop (keccak256 next) (verifyBy loop key value rest) id (s.learn id c)

/-- Checks a proof below the first matching slot of every branch. -/
def verifyFirst (key value : Bytes) (proof : List Bytes) (id : NodeId) (s : Store) : Visit Store :=
  verifyBy visitFirst key value proof id s

/-- The check of all matching slots is `verify`. -/
theorem verifyBy_visitSlots (key value : Bytes) (proof : List Bytes) (id : NodeId) (s : Store) :
    verifyBy visitSlots key value proof id s = verify key value proof id s := by
  induction proof generalizing id s with
  | nil => rfl
  | cons entry rest ih =>
      have hrest : verifyBy visitSlots key value rest = verify key value rest :=
        funext fun id => funext fun s => ih id s
      simp only [verifyBy, verify, hrest]
      rfl

/-! ## Slots that are passed over -/

/-- The children of a node that have the digest `next`, lowest slot first. -/
def matching (s : Store) (next : Digest) (id : NodeId) : List NodeId :=
  match s.contentOf id with
  | none => []
  | some c => c.children.filter (fun j => (s.cell j).digest = next)

/-- The nodes in the other matching slots, along the way through the first ones. -/
def passedOver (s : Store) : List Bytes → NodeId → List NodeId
  | _ :: next :: rest, id =>
    match s.matching (keccak256 next) id with
    | [] => []
    | way :: others => others ++ s.passedOver (next :: rest) way
  | _, _ => []

/-- The node is in another matching slot, or known below one. -/
def Beneath (s : Store) (proof : List Bytes) (id x : NodeId) : Prop :=
  ∃ j ∈ s.passedOver proof id, s.Below j x

theorem matching_of_content {s : Store} {id : NodeId} {c : Content NodeId}
    (hc : s.contentOf id = some c) (next : Digest) :
    s.matching next id = c.children.filter (fun j => (s.cell j).digest = next) := by
  simp only [matching, hc]

/-- The children of a known node match after learning as they did before. -/
theorem Learned.matching_eq {entries : List Bytes} {scope : NodeId → Prop} {s t : Store}
    (h : Learned entries scope s t) (hs : WellFormed s) {id : NodeId} {c : Content NodeId}
    (hc : s.contentOf id = some c) (next : Digest) :
    t.matching next id = c.children.filter (fun j => (s.cell j).digest = next) := by
  rw [matching_of_content (h.contentOf_of_known hs hc)]
  refine List.filter_congr fun j hj => ?_
  rw [h.grows.digest_eq j (hs.child_of_contentOf hc j hj)]

theorem passedOver_of_matching {s : Store} {entry next : Bytes} {rest : List Bytes}
    {id way : NodeId} {others : List NodeId} (h : s.matching (keccak256 next) id = way :: others) :
    s.passedOver (entry :: next :: rest) id = others ++ s.passedOver (next :: rest) way := by
  simp only [passedOver, h]

theorem WellFormed.slot_lt {s : Store} (hs : WellFormed s) {id : NodeId}
    {slots : List (Option NodeId)} (hc : s.contentOf id = some (.branch slots)) :
    ∀ j : Nat, some j ∈ slots → j < s.cells.size :=
  fun j hj => hs.child_of_contentOf hc j (List.mem_filterMap.mpr ⟨some j, hj, rfl⟩)

/-- Of slots, the first one that matches, and those behind it: `slots` starts with index `i`, and
the match has index `k`. -/
structure FirstMatch (s : Store) (next : Digest) (i : Nat) (slots : List (Option NodeId)) (k : Nat)
    (j : NodeId) (later : List (Option NodeId)) : Prop where
  mem : some j ∈ slots
  digest : (s.cell j).digest = next
  later_mem : ∀ j', some j' ∈ later → some j' ∈ slots
  matches_eq : (slots.filterMap id).filter (fun x => (s.cell x).digest = next) =
    j :: (later.filterMap id).filter (fun x => (s.cell x).digest = next)
  visitFirst_eq : ∀ branch visit,
    visitFirst branch next visit i slots s = (visit j s).told (.descendBranch branch k)
  visitSlots_eq : ∀ branch visit, visitSlots branch next visit i slots s =
    ((visit j s).told (.descendBranch branch k)).andThen (fun t => t)
      (visitSlots branch next visit (k + 1) later)

theorem exists_firstMatch (s : Store) (next : Digest) (slots : List (Option NodeId)) (i : Nat)
    (h : s.refersTo next slots = true) : ∃ k j later, FirstMatch s next i slots k j later := by
  induction slots generalizing i with
  | nil => cases h
  | cons slot rest ih =>
      cases slot with
      | none =>
          obtain ⟨k, j, later, hfirst⟩ := ih (i + 1) (by simpa [refersTo] using h)
          exact ⟨k, j, later, List.mem_cons_of_mem _ hfirst.mem, hfirst.digest,
            fun j' hj' => List.mem_cons_of_mem _ (hfirst.later_mem j' hj'), hfirst.matches_eq,
            hfirst.visitFirst_eq, hfirst.visitSlots_eq⟩
      | some x =>
          by_cases hx : (s.cell x).digest = next
          · refine ⟨i, x, rest, List.mem_cons_self, hx, fun j' => List.mem_cons_of_mem _,
              ?_, ?_, ?_⟩
            · simp [hx]
            · intro branch visit
              rw [visitFirst, if_pos hx]
            · intro branch visit
              rw [visitSlots, if_pos hx]
          · obtain ⟨k, j, later, hfirst⟩ := ih (i + 1) (by simpa [refersTo, hx] using h)
            refine ⟨k, j, later, List.mem_cons_of_mem _ hfirst.mem, hfirst.digest,
              fun j' hj' => List.mem_cons_of_mem _ (hfirst.later_mem j' hj'), ?_, ?_, ?_⟩
            · simpa [hx] using hfirst.matches_eq
            · intro branch visit
              rw [visitFirst, if_neg hx, hfirst.visitFirst_eq]
            · intro branch visit
              rw [visitSlots, if_neg hx, hfirst.visitSlots_eq]

/-- Visits of slots end well if each of them does. -/
theorem visitSlots_ok {P : Store → Prop} (branch next : Digest)
    (visit : NodeId → Store → Visit Store) (slots : List (Option NodeId)) (i : Nat)
    (hvisit : ∀ id, some id ∈ slots → ∀ s, (s.cell id).digest = next → P s →
      (visit id s).verdict = .ok () ∧ P (visit id s).after)
    (s : Store) (hs : P s) : (visitSlots branch next visit i slots s).verdict = .ok () := by
  induction slots generalizing i s with
  | nil => rfl
  | cons slot rest ih =>
      have hrest := fun i => ih i (fun id hid => hvisit id (List.mem_cons_of_mem _ hid))
      cases slot with
      | none => exact hrest (i + 1) s hs
      | some id =>
          simp only [visitSlots]
          split
          · next hdigest =>
              obtain ⟨hok, hafter⟩ := hvisit id List.mem_cons_self s hdigest hs
              simp only [Visit.andThen, Visit.told, hok]
              exact hrest (i + 1) _ hafter
          · exact hrest (i + 1) s hs

/-! ## The two checks -/

/-- The check of all slots, `v`, and that of first slots, `w`, end alike. If they fail, they leave
one store; if they succeed, `v` has learned more beneath the slots that `w` has passed over. -/
structure DecidedByFirst (proof : List Bytes) (id : NodeId) (v w : Visit Store) : Prop where
  verdict : v.verdict = w.verdict
  after_of_error : ∀ f, v.verdict = .error f → v.after = w.after
  learned_of_ok : v.verdict = .ok () →
    Learned proof (w.after.Beneath proof id) w.after v.after

theorem DecidedByFirst.refl (proof : List Bytes) (id : NodeId) {v : Visit Store}
    (h : WellFormed v.after) : DecidedByFirst proof id v v :=
  ⟨rfl, fun _ _ => rfl, fun _ => Learned.refl proof _ h⟩

/-- From the store `s`, the check `w` of first slots makes nodes below `id` learn, and it decides
how the check `v` of all slots ends. -/
structure Decides (proof : List Bytes) (id : NodeId) (s : Store) (v w : Visit Store) : Prop where
  changes : Changes proof false s w.after
  learned : Learned proof (s.Below id) s w.after
  decided : DecidedByFirst proof id v w

theorem Decides.refl (proof : List Bytes) (id : NodeId) {s : Store} {v : Visit Store}
    (hs : WellFormed s) (hchanges : Changes proof false s v.after)
    (hlearned : Learned proof (s.Below id) s v.after) : Decides proof id s v v :=
  ⟨hchanges, hlearned, .refl proof id (hchanges.wellFormed hs)⟩

/-- A check ends as the descent from the digest of its node. -/
theorem verify_verdict {entries : List Bytes} (hfree : CollisionFree entries) (key value : Bytes)
    {proof : List Bytes} (hproof : ∀ e ∈ proof, e ∈ entries) {s : Store} (hs : WellFormed s)
    (hbacked : Backed entries s) {id : Nat} (hid : id < s.cells.size) :
    (verify key value proof id s).verdict =
      (descent key value proof (s.cell id).digest).verdict := by
  rw [← verify_outcome hfree key value proof hproof id s hs hbacked hid, Visit.outcome_verdict]

/-- If the rest of a proof ends well below a digest, it does so in all slots of this digest, each of
which finds the store that the ones before it have left. -/
theorem visitSlots_verify_ok {entries : List Bytes} (hfree : CollisionFree entries)
    {key value : Bytes} {proof : List Bytes} (hproof : ∀ e ∈ proof, e ∈ entries)
    (branch : Digest) {next : Digest} (hok : (descent key value proof next).verdict = .ok ())
    (slots : List (Option NodeId)) (i : Nat) {s : Store} (hs : WellFormed s)
    (hbacked : Backed entries s) (hslots : ∀ j : Nat, some j ∈ slots → j < s.cells.size) :
    (visitSlots branch next (verify key value proof) i slots s).verdict = .ok () := by
  refine visitSlots_ok (P := fun t => WellFormed t ∧ Backed entries t ∧
    s.cells.size ≤ t.cells.size) branch next _ slots i ?_ s ⟨hs, hbacked, Nat.le_refl _⟩
  rintro j hj t hdigest ⟨ht, hbacked', hsize⟩
  have hlt := Nat.lt_of_lt_of_le (hslots j hj) hsize
  have hchanges := (verify_changes key value false proof j t ht hlt).mono hproof (fun h => h)
  refine ⟨?_, hchanges.wellFormed ht, hchanges.backed ht hbacked',
    Nat.le_trans hsize hchanges.extends.cells_le⟩
  rw [verify_verdict hfree key value hproof ht hbacked' hlt, hdigest, hok]

/-! ## One entry -/

section Descend

variable {entries : List Bytes} (hfree : CollisionFree entries) (key value entry next : Bytes)
  (rest : List Bytes) (hrest : ∀ e ∈ next :: rest, e ∈ entries)
  (ih : ∀ (j : Nat) (t : Store), WellFormed t → Backed entries t → j < t.cells.size →
    Decides (next :: rest) j t (verify key value (next :: rest) j t)
      (verifyFirst key value (next :: rest) j t))
  (id : Nat) (s : Store) (hs : WellFormed s) (hbacked : Backed entries s)
include hfree hrest ih hs hbacked

theorem descendFirst_extension {path : Bytes} {child : Nat}
    (hc : s.contentOf id = some (.extension path child)) :
    Decides (entry :: next :: rest) id s
      (descend (keccak256 next) (verify key value (next :: rest)) id s)
      (descendBy visitFirst (keccak256 next) (verifyFirst key value (next :: rest)) id s) := by
  have hmem : child ∈ (Content.extension path child).children := List.mem_singleton.mpr rfl
  have hlt := hs.child_of_contentOf hc child hmem
  have hchild : s.Child id child := ⟨_, hc, hmem⟩
  have hentries : ∀ e ∈ next :: rest, e ∈ entry :: next :: rest :=
    fun e he => List.mem_cons_of_mem entry he
  obtain ⟨hchanges, hlearned, hdecided⟩ := ih child s hs hbacked hlt
  simp only [descend, descendBy, hc, Visit.told]
  refine ⟨hchanges.mono hentries (fun h => h),
    hlearned.mono hentries (fun x _ hx => hchild.below hx), hdecided.verdict,
    hdecided.after_of_error, fun hok => ?_⟩
  have hdigest : (s.cell child).digest = keccak256 next := by
    refine descent_ok_digest key value next rest _ ?_
    rw [← verify_verdict hfree key value hrest hs hbacked hlt, hok]
  have hmatching : (verifyFirst key value (next :: rest) child s).after.matching
      (keccak256 next) id = [child] := by
    rw [hlearned.matching_eq hs hc]
    simp [Content.children, hdigest]
  refine (hdecided.learned_of_ok hok).mono hentries ?_
  rintro x _ ⟨j, hj, hx⟩
  refine ⟨j, ?_, hx⟩
  rw [passedOver_of_matching hmatching]
  exact hj

section Branch

variable {slots : List (Option NodeId)} (hc : s.contentOf id = some (.branch slots)) {k : Nat}
  {j : NodeId} {later : List (Option NodeId)}
  (hfirst : FirstMatch s (keccak256 next) 0 slots k j later)
  (hok : (verify key value (next :: rest) j s).verdict = .ok ())
include hc hfirst hok

omit ih in
/-- Behind a first slot that ends well, the later ones do. -/
theorem laterSlots_ok :
    (visitSlots (s.cell id).digest (keccak256 next) (verify key value (next :: rest)) (k + 1) later
      (verify key value (next :: rest) j s).after).verdict = .ok () := by
  have hlt := hs.slot_lt hc
  have hchanges := (verify_changes key value false (next :: rest) j s hs
    (hlt j hfirst.mem)).mono hrest (fun h => h)
  have hdescent : (descent key value (next :: rest) (keccak256 next)).verdict = .ok () := by
    rw [← hfirst.digest, ← verify_verdict hfree key value hrest hs hbacked (hlt j hfirst.mem), hok]
  exact visitSlots_verify_ok hfree hrest _ hdescent later (k + 1) (hchanges.wellFormed hs)
    (hchanges.backed hs hbacked) (fun x hx => Nat.lt_of_lt_of_le
      (hlt x (hfirst.later_mem x hx)) hchanges.extends.cells_le)

omit hfree hrest in
/-- What is learned behind the first slot is learned beneath the slots that are passed over: those
below the first one, and the later ones. -/
theorem laterSlots_learned :
    Learned (entry :: next :: rest)
      ((verifyFirst key value (next :: rest) j s).after.Beneath (entry :: next :: rest) id)
      (verifyFirst key value (next :: rest) j s).after
      (visitSlots (s.cell id).digest (keccak256 next) (verify key value (next :: rest)) (k + 1)
        later (verify key value (next :: rest) j s).after).after := by
  have hlt := hs.slot_lt hc
  have hentries : ∀ e ∈ next :: rest, e ∈ entry :: next :: rest :=
    fun e he => List.mem_cons_of_mem entry he
  obtain ⟨_, hlearned, hdecided⟩ := ih j s hs hbacked (hlt j hfirst.mem)
  obtain ⟨hwf, hall⟩ := verify_learned key value (next :: rest) j s hs (hlt j hfirst.mem)
  obtain ⟨_, hlater⟩ := visitSlots_learned
    (fun x t ht hx => verify_learned key value (next :: rest) x t ht hx)
    (s.cell id).digest (keccak256 next) later (k + 1) _ hwf
    (fun x hx => Nat.lt_of_lt_of_le (hlt x (hfirst.later_mem x hx)) hall.grows.cells_le)
  have hbelow := hdecided.learned_of_ok hok
  have hmatching := hlearned.matching_eq hs hc (keccak256 next)
  rw [Content.children, hfirst.matches_eq] at hmatching
  refine (hbelow.mono hentries ?_).trans hwf (hlater.mono hentries (fun _ _ hx => hx)) ?_
  · rintro x _ ⟨y, hy, hyx⟩
    refine ⟨y, ?_, hyx⟩
    rw [passedOver_of_matching hmatching]
    exact List.mem_append_right _ hy
  · rintro x hx ⟨y, hy, hdigest, hyx⟩
    rw [hall.grows.digest_eq y (hlt y (hfirst.later_mem y hy))] at hdigest
    refine ⟨y, ?_, hbelow.below_old hyx hx⟩
    rw [passedOver_of_matching hmatching]
    refine List.mem_append_left _ (List.mem_filter.mpr ⟨?_, by simpa using hdigest⟩)
    exact List.mem_filterMap.mpr ⟨some y, hy, rfl⟩

end Branch

theorem descendFirst_branch {slots : List (Option NodeId)}
    (hc : s.contentOf id = some (.branch slots)) :
    Decides (entry :: next :: rest) id s
      (descend (keccak256 next) (verify key value (next :: rest)) id s)
      (descendBy visitFirst (keccak256 next) (verifyFirst key value (next :: rest)) id s) := by
  simp only [descend, descendBy, hc]
  cases hrefers : s.refersTo (keccak256 next) slots with
  | false =>
      simp only [Bool.false_eq_true, if_false]
      exact .refl _ _ hs .refl (Learned.refl _ _ hs)
  | true =>
      obtain ⟨k, j, later, hfirst⟩ := exists_firstMatch s (keccak256 next) slots 0 hrefers
      have hchild : s.Child id j := ⟨_, hc, List.mem_filterMap.mpr ⟨some j, hfirst.mem, rfl⟩⟩
      have hentries : ∀ e ∈ next :: rest, e ∈ entry :: next :: rest :=
        fun e he => List.mem_cons_of_mem entry he
      obtain ⟨hchanges, hlearned, hdecided⟩ := ih j s hs hbacked (hs.slot_lt hc j hfirst.mem)
      simp only [if_true, hfirst.visitFirst_eq, hfirst.visitSlots_eq]
      refine ⟨hchanges.mono hentries (fun h => h),
        hlearned.mono hentries (fun x _ hx => hchild.below hx), ?_⟩
      -- The first slot fails, and both checks end, or it ends well, and so do all others.
      cases hverdict : (verify key value (next :: rest) j s).verdict with
      | error f =>
          simp only [Visit.andThen, Visit.told, hverdict]
          refine ⟨hverdict ▸ hdecided.verdict, fun _ _ => hdecided.after_of_error f hverdict, ?_⟩
          intro hok
          cases hok
      | ok _ =>
          have hlater := laterSlots_ok hfree key value next rest hrest id s hs hbacked hc hfirst
            hverdict
          simp only [Visit.andThen, Visit.told, hverdict]
          refine ⟨hlater.trans (hverdict.symm.trans hdecided.verdict), fun f hf => ?_, fun _ => ?_⟩
          · cases hlater.symm.trans hf
          · exact laterSlots_learned key value entry next rest ih id s hs hbacked hc hfirst hverdict

theorem descendFirst_decides {known : Content NodeId} (hknown : s.contentOf id = some known) :
    Decides (entry :: next :: rest) id s
      (descend (keccak256 next) (verify key value (next :: rest)) id s)
      (descendBy visitFirst (keccak256 next) (verifyFirst key value (next :: rest)) id s) := by
  cases known with
  | leaf k v =>
      simp only [descend, descendBy, hknown]
      exact .refl _ _ hs .refl (Learned.refl _ _ hs)
  | extension path child =>
      exact descendFirst_extension hfree key value entry next rest hrest ih id s hs hbacked hknown
  | branch slots =>
      exact descendFirst_branch hfree key value entry next rest hrest ih id s hs hbacked hknown

end Descend

/-- The induction is on the proof, over all stores in which everything known is backed. -/
theorem verifyFirst_decides {entries : List Bytes} (hfree : CollisionFree entries)
    (key value : Bytes) (proof : List Bytes) (hproof : ∀ e ∈ proof, e ∈ entries) (id : Nat)
    (s : Store) (hs : WellFormed s) (hbacked : Backed entries s) (hid : id < s.cells.size) :
    Decides proof id s (verify key value proof id s) (verifyFirst key value proof id s) := by
  induction proof generalizing id s with
  | nil => exact .refl _ _ hs .refl (Learned.refl _ _ hs)
  | cons entry rest ih =>
      have hentry : entry ∈ entry :: rest := List.mem_cons_self
      simp only [verify, verifyFirst, verifyBy]
      cases hopen : openEntry (s.cell id).digest entry with
      | error f => exact .refl _ _ hs .refl (Learned.refl _ _ hs)
      | ok c =>
          have hlearn : Learned (entry :: rest) (s.Below id) s (s.learn id c) :=
            Learned.learn hs hid Relation.ReflTransGen.refl hentry hopen
          have hchanges := learn_changes false s id entry c hid hentry hopen
          dsimp only
          cases c.agree key value with
          | error f => exact .refl _ _ hs hchanges hlearn
          | ok _ =>
              cases rest with
              | nil => exact .refl _ _ hs hchanges hlearn
              | cons next rest =>
                  have hwf := hchanges.wellFormed hs
                  have hbacked' := (hchanges.mono hproof (fun h => h)).backed hs hbacked
                  have hrest := fun e he => hproof e (List.mem_cons_of_mem _ he)
                  obtain ⟨known, hknown⟩ := learn_known s id c hid
                  obtain ⟨hmore, hbelow, hdecided⟩ := descendFirst_decides hfree key value entry
                    next rest hrest (ih hrest) id (s.learn id c) hwf hbacked' hknown
                  exact ⟨hchanges.trans hmore,
                    hlearn.trans hwf hbelow (fun x hx hin => hlearn.below_old hin hx), hdecided⟩

/-! ## What is the same afterwards -/

namespace Learned

variable {entries : List Bytes} {scope : NodeId → Prop} {s t : Store}

theorem cell_apart (h : Learned entries scope s t) {id : Nat} (hid : id < s.cells.size)
    (hapart : ¬ scope id) : t.cell id = s.cell id := by
  rw [Cell.mk.injEq]
  exact ⟨h.grows.digest_eq id hid, h.mode_eq id hid,
    (h.content id hid).resolve_right (fun hin => hapart hin.1)⟩

/-- What a tree knows, it knows after learning. -/
theorem tree_knows (h : Learned entries scope s t) (hs : WellFormed s) (hf : Forest s)
    (ht : Forest t) {id : NodeId} {p : List Hop} (hknows : (s.tree id).Knows p) :
    (t.tree id).Knows p := by
  obtain ⟨m, c, hm, hc⟩ := hknows
  rw [hf.tree_at?] at hm
  obtain ⟨x, hx, rfl⟩ := Option.map_eq_some_iff.mp hm
  rw [hf.tree_content] at hc
  obtain ⟨known, hknown, _⟩ := Option.map_eq_some_iff.mp hc
  refine ⟨t.tree x, known.map t.tree, ?_, ?_⟩
  · rw [ht.tree_at?, h.at? hs hx, Option.map_some]
  · rw [ht.tree_content, h.contentOf_of_known hs hknown, Option.map_some]

end Learned

end Store

namespace Session

/-- **The first matching slot decides.** After any steps that give no node a content by hand, the
check of a proof against any node ends as the one does that goes into the first matching slot of
each branch only. If they fail, they leave one store. If they succeed, the full check has learned
more, and only beneath the matching slots that are passed over: every other node, and every tree
that does not reach there, is the same, with the same numbers; and what is known after the check of
first slots, as content of a node or as a place in a tree, is known after the full one. Keccak-256
must have no collision among the entries handed in by the steps and by the proof. -/
theorem run_verify_decided_by_first (steps : List Step)
    (hsteps : ∀ a ∈ steps, a.setsContent = false) (key value : Bytes) (proof : List Bytes)
    (hfree : CollisionFree (empty.handedInRun steps ++ proof)) :
    let s := (empty.run steps).1.store
    ∀ id : NodeId, id < s.cells.size →
      let v := s.verify key value proof id
      let w := s.verifyFirst key value proof id
      let beneath := w.after.Beneath proof id
      v.verdict = w.verdict ∧ (v.verdict ≠ .ok () → v.after = w.after) ∧
        (v.verdict = .ok () →
          Store.Learned proof beneath w.after v.after ∧ w.after.Keeps v.after ∧
          (∀ x : NodeId, x < w.after.cells.size → ¬ beneath x →
            v.after.cell x = w.after.cell x) ∧
          (∀ x : NodeId, x < w.after.cells.size → (∀ y, w.after.Below x y → ¬ beneath y) →
            v.after.tree x = w.after.tree x) ∧
          ∀ (x : NodeId) (p : List Hop), (w.after.tree x).Knows p → (v.after.tree x).Knows p) := by
  intro s id hid v w beneath
  have hproof : ∀ e ∈ proof, e ∈ empty.handedInRun steps ++ proof :=
    fun e he => List.mem_append_right _ he
  have hs := (run_empty_wellFormed steps hsteps).store
  have hf := run_empty_forest steps hsteps
  have hbacked := (run_empty_backed steps hsteps).mono
    (fun e he => List.mem_append_left proof he)
  obtain ⟨hchanges, _, hdecided⟩ :=
    Store.verifyFirst_decides hfree key value proof hproof id s hs hbacked hid
  refine ⟨hdecided.verdict, fun hfails => ?_, fun hok => ?_⟩
  · cases hverdict : v.verdict with
    | error f => exact hdecided.after_of_error f hverdict
    | ok _ => exact absurd hverdict hfails
  · have hlearned := hdecided.learned_of_ok hok
    have hwf := hchanges.wellFormed hs
    have hforest := hchanges.forest hs hf
    have hforest' := Store.verify_forest key value proof id s hs hf hid
    exact ⟨hlearned, hlearned.keeps, fun x hx hapart => hlearned.cell_apart hx hapart,
      fun x hx hapart => hlearned.tree_apart hwf hforest hforest' hx hapart,
      fun x p hknows => hlearned.tree_knows hwf hforest hforest' hknows⟩

/-- An entry of a branch with `leafEntry` in the slots 0 and 1. -/
def twinEntry : Bytes :=
  [0xf8, 0x51, 0xa0] ++ (keccak256 leafEntry).bytes ++ [0xa0] ++ (keccak256 leafEntry).bytes ++
    List.replicate 15 0x80

/-- Under a branch with the same leaf in two slots, the full check knows of the second leaf, which
the other one has passed over. -/
theorem run_verify_decided_by_first_twin :
    let steps : List Step := [.new "root" (keccak256 twinEntry).bytes true]
    let proof := [twinEntry, leafEntry]
    let s := (empty.run steps).1.store
    let v := s.verify [] [9] proof 0
    let w := s.verifyFirst [] [9] proof 0
    (∀ a ∈ steps, a.setsContent = false) ∧ CollisionFree (empty.handedInRun steps ++ proof) ∧
      0 < s.cells.size ∧ v.verdict = .ok () ∧ w.verdict = .ok () ∧
      w.after.passedOver proof 0 = [2] ∧ (w.after.cell 2).content = none ∧
      (v.after.cell 2).content ≠ none ∧ w.after.Keeps v.after := by
  intro steps proof s v w
  have hsteps : ∀ a ∈ steps, a.setsContent = false := by decide
  have hfree : CollisionFree (empty.handedInRun steps ++ proof) := by
    unfold CollisionFree
    decide +kernel
  have hsize : 0 < s.cells.size := by decide +kernel
  have hok : v.verdict = .ok () := by decide +kernel
  have hover : w.after.passedOver proof 0 = [2] := by decide +kernel
  have hunknown : (w.after.cell 2).content = none := by decide +kernel
  have hknown : (v.after.cell 2).content ≠ none := by decide +kernel
  obtain ⟨hverdict, _, hmore⟩ :=
    run_verify_decided_by_first steps hsteps [] [9] proof hfree 0 hsize
  exact ⟨hsteps, hfree, hsize, hok, hverdict.symm.trans hok, hover, hunknown, hknown,
    (hmore hok).2.1⟩

end Session

end Patricia
