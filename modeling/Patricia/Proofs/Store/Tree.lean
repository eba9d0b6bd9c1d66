import Patricia.Proofs.Store.Forest

/-
  A forest read as trees.

  In a forest the tree of a node is the node over the trees of its children (`Forest.tree_eq`), so
  the depth that bounds the reading is never seen again. A tree stays what it is while nodes learn
  that are not in it (`Learned.tree_apart`).

  `verify_tree` is the simulation: checking a proof against a node of a forest, and reading the
  node afterwards, is checking the proof against the tree of the node. A branch is the point of
  it. Its slots are visited one after the other in stores that change meanwhile; since the trees
  of the slots have no node in common, each visit finds the tree that its slot had at first, and
  leaves the trees of the other slots alone.
-/

namespace Patricia

theorem Visit.map_map {ρ σ τ : Type} (f : ρ → σ) (g : σ → τ) (v : Visit ρ) :
    (v.map f).map g = v.map (fun s => g (f s)) := rfl

namespace Store

/-! ## One level of a tree -/

theorem contentOf_of_size_le (s : Store) (id : Nat) (h : s.cells.size ≤ id) :
    s.contentOf id = none := by
  rw [contentOf_of_none s id]
  rw [cell_of_size_le s id h]
  rfl

namespace Forest

variable {s : Store}

/-- More depth shows no more than there is. -/
theorem treeTo_succ (h : Forest s) (depth id : Nat) (hdepth : s.cells.size ≤ depth + id) :
    s.treeTo (depth + 1) id = s.treeTo depth id := by
  induction depth generalizing id with
  | zero =>
      have hnone := contentOf_of_size_le s id (by omega)
      simp only [treeTo, hnone, Option.map_none]
  | succ depth ih =>
      rw [treeTo, treeTo]
      cases hc : s.contentOf id with
      | none => rfl
      | some c =>
          have hsame : c.map (s.treeTo (depth + 1)) = c.map (s.treeTo depth) := by
            refine Content.map_congr c (fun j hj => ih j ?_)
            have := h.child_later id c hc j hj
            omega
          rw [Option.map_some, Option.map_some, hsame]

theorem treeTo_add (h : Forest s) (more id : Nat) :
    s.treeTo (s.cells.size + more) id = s.tree id := by
  induction more with
  | zero => rfl
  | succ more ih => rw [← Nat.add_assoc, h.treeTo_succ _ id (by omega), ih]

theorem tree_eq (h : Forest s) (id : NodeId) :
    s.tree id = .mk (s.cell id).digest (s.cell id).hashesKeys
      ((s.contentOf id).map (Content.map s.tree)) :=
  (h.treeTo_succ s.cells.size id (by omega)).symm

theorem tree_content (h : Forest s) (id : NodeId) :
    (s.tree id).content = (s.contentOf id).map (Content.map s.tree) := by
  rw [h.tree_eq]
  rfl

end Forest

theorem tree_digest (s : Store) (id : NodeId) : (s.tree id).digest = (s.cell id).digest := by
  unfold tree
  cases s.cells.size <;> rfl

theorem tree_hashesKeys (s : Store) (id : NodeId) :
    (s.tree id).hashesKeys = (s.cell id).hashesKeys := by
  unfold tree
  cases s.cells.size <;> rfl

/-- Of a node of which nothing is known, the tree is the digest. -/
theorem tree_of_unknown (s : Store) (id : NodeId) (h : s.contentOf id = none) :
    s.tree id = Node.unknown (s.cell id).hashesKeys (s.cell id).digest := by
  unfold tree
  cases s.cells.size with
  | zero => rfl
  | succ n => rw [treeTo, h]; rfl

/-! ## Trees that stay -/

theorem WellFormed.lt_of_below {s : Store} (hs : WellFormed s) {root x : Nat}
    (hroot : root < s.cells.size) (h : s.Below root x) : x < s.cells.size := by
  induction h with
  | refl => exact hroot
  | tail _ hlast _ => exact hs.lt_of_child hlast

theorem treeTo_congr {s t : Store} (depth : Nat) (root : NodeId)
    (hsame : ∀ x, s.Below root x → (t.cell x).digest = (s.cell x).digest ∧
      (t.cell x).hashesKeys = (s.cell x).hashesKeys ∧ t.contentOf x = s.contentOf x) :
    t.treeTo depth root = s.treeTo depth root := by
  obtain ⟨hdigest, hmode, hcontent⟩ := hsame root Relation.ReflTransGen.refl
  induction depth generalizing root with
  | zero => rw [treeTo, treeTo, hdigest, hmode]
  | succ depth ih =>
      rw [treeTo, treeTo, hdigest, hmode, hcontent]
      cases hc : s.contentOf root with
      | none => rfl
      | some c =>
          have hchildren : c.map (t.treeTo depth) = c.map (s.treeTo depth) := by
            refine Content.map_congr c (fun j hj => ?_)
            have hchild : s.Child root j := ⟨c, hc, hj⟩
            have hj' := fun x hx => hsame x (hchild.below hx)
            obtain ⟨hd, hm, hk⟩ := hj' j Relation.ReflTransGen.refl
            exact ih j hj' hd hm hk
          rw [Option.map_some, Option.map_some, hchildren]

theorem tree_congr {s t : Store} (hs : Forest s) (ht : Forest t) (root : NodeId)
    (hsame : ∀ x, s.Below root x → (t.cell x).digest = (s.cell x).digest ∧
      (t.cell x).hashesKeys = (s.cell x).hashesKeys ∧ t.contentOf x = s.contentOf x) :
    t.tree root = s.tree root := by
  rw [← hs.treeTo_add t.cells.size, ← ht.treeTo_add s.cells.size, Nat.add_comm s.cells.size,
    treeTo_congr _ root hsame]

namespace Learned

variable {entries : List Bytes} {scope : NodeId → Prop} {s t : Store}

/-- Outside of the scope, nothing is learned. -/
theorem contentOf_apart (h : Learned entries scope s t) (hs : WellFormed s) {id : Nat}
    (hid : id < s.cells.size) (hapart : ¬ scope id) : t.contentOf id = s.contentOf id := by
  have hsame := (h.content id hid).resolve_right (fun hin => hapart hin.1)
  cases hk : (s.cell id).content with
  | none => rw [contentOf_of_none s id hk, contentOf_of_none t id (by rw [hsame, hk])]
  | some k =>
      rw [contentOf_of_content s id k hk, contentOf_of_content t id k (by rw [hsame, hk]),
        h.grows.contents_eq k (hs.content_lt id k hk)]

theorem tree_apart (h : Learned entries scope s t) (hs : WellFormed s) (hf : Forest s)
    (ht : Forest t) {root : Nat} (hroot : root < s.cells.size)
    (hapart : ∀ x : Nat, s.Below root x → ¬ scope x) : t.tree root = s.tree root := by
  refine tree_congr hf ht root (fun x hx => ?_)
  have hlt := hs.lt_of_below hroot hx
  exact ⟨h.grows.digest_eq x hlt, h.mode_eq x hlt, h.contentOf_apart hs hlt (hapart x hx)⟩

/-- Learning below other children of its parent leaves the tree of a child alone. -/
theorem sibling_tree (h : Learned entries scope s t) (hs : WellFormed s) (hf : Forest s)
    (ht : Forest t) {parent j : Nat} (hj : s.Child parent j)
    (hscope : ∀ x : Nat, scope x → ∃ j', s.Child parent j' ∧ j' ≠ j ∧ s.Below j' x) :
    t.tree j = s.tree j := by
  refine h.tree_apart hs hf ht (hs.lt_of_child hj) (fun x hx hin => ?_)
  obtain ⟨j', hj', hne, hx'⟩ := hscope x hin
  exact hf.siblings_apart hj hj' (fun heq => hne heq.symm) hx hx'

/-- A node that was known has its old content, over what its children are now. -/
theorem tree_of_known (h : Learned entries scope s t) (hs : WellFormed s) (ht : Forest t)
    {id : Nat} {c : Content NodeId} (hc : s.contentOf id = some c) :
    t.tree id = (s.tree id).withContent (some (c.map t.tree)) := by
  have hid := lt_size_of_contentOf hc
  rw [ht.tree_eq, h.contentOf_of_known hs hc, h.grows.digest_eq id hid, h.mode_eq id hid,
    ← tree_digest s id, ← tree_hashesKeys s id]
  rfl

end Learned

/-! ## Learning -/

/-- A node learns as its tree does. -/
theorem learn_tree (s : Store) (hs : WellFormed s) (hf : Forest s) (id : Nat)
    (hid : id < s.cells.size) (c : Content Digest) :
    (s.learn id c).tree id = (s.tree id).learn c := by
  unfold Node.learn
  rw [hf.tree_content]
  cases hknown : s.contentOf id with
  | some known => rw [learn_of_known s id c known hknown]; rfl
  | none =>
      have hf' := hf.learn hs id hid c hknown
      have hmode := hashesKeys_learn_lt s id c hknown id hid
      have hdigest : ((s.learn id c).cell id).digest = (s.cell id).digest := by
        rw [learn_of_unknown s id c hknown, digest_setContent, cell_addContent_lt s _ c id hid]
      have hchildren : (c.number s.cells.size).map (s.learn id c).tree =
          (c.number s.cells.size).map
            (fun j => Node.unknown (s.cell id).hashesKeys ((s.learn id c).cell j).digest) := by
        refine Content.map_congr _ (fun j hj => ?_)
        obtain ⟨hnew, _, hmode⟩ := children_learn s id c hknown j hj
        have hunknown : (s.learn id c).contentOf j = none := by
          rw [contentOf_learn_ne s hs id c hknown j (by omega), contentOf_of_size_le s j hnew]
        rw [tree_of_unknown _ j hunknown, hmode]
      have hfresh : (c.number s.cells.size).map (s.learn id c).tree =
          c.fresh (s.cell id).hashesKeys := by
        rw [hchildren]
        have hmap := Content.map_map (Node.unknown (s.cell id).hashesKeys)
          (fun j => ((s.learn id c).cell j).digest) (c.number s.cells.size)
        have hby : (c.number s.cells.size).map (fun j => ((s.learn id c).cell j).digest) = c :=
          byDigest_learn s id c hknown
        rw [hby] at hmap
        exact hmap.symm
      rw [hf'.tree_eq, contentOf_learn_self s id c hknown hid, hdigest, hmode, Option.map_some,
        hfresh, Option.map_none, tree_hashesKeys, ← tree_digest s id, ← tree_hashesKeys s id]
      rfl

/-! ## Checking a proof -/

section Visits

variable {entries : List Bytes} {visit : NodeId → Store → Visit Store}
  {visitTree : Node → Visit Node}
  (hlearned : ∀ (j : Nat) (t : Store), WellFormed t → j < t.cells.size →
    WellFormed (visit j t).after ∧ Learned entries (t.Below j) t (visit j t).after)
  (hforest : ∀ (j : Nat) (t : Store), WellFormed t → Forest t → j < t.cells.size →
    Forest (visit j t).after)
  (htree : ∀ (j : Nat) (t : Store), WellFormed t → Forest t → j < t.cells.size →
    (visit j t).map (fun u => u.tree j) = visitTree (t.tree j))
include hlearned hforest

theorem visitSlots_forest (branch next : Digest) (slots : List (Option NodeId)) (i : Nat)
    (s : Store) (hs : WellFormed s) (hf : Forest s)
    (hslots : ∀ j : Nat, some j ∈ slots → j < s.cells.size) :
    Forest (visitSlots branch next visit i slots s).after := by
  have hkeeps := visitSlots_keeps
    (P := fun t => WellFormed t ∧ Forest t ∧ s.cells.size ≤ t.cells.size) branch next visit slots i
    ?_ s ⟨hs, hf, Nat.le_refl _⟩
  · exact hkeeps.2.1
  · rintro j hj t _ ⟨ht, hft, hsize⟩
    have hlt := Nat.lt_of_lt_of_le (hslots j hj) hsize
    obtain ⟨hafter, hlearn⟩ := hlearned j t ht hlt
    exact ⟨hafter, hforest j t ht hft hlt, Nat.le_trans hsize hlearn.grows.cells_le⟩

include htree

/-- The visits of slots are visits of their trees. -/
theorem visitSlots_tree (branch next : Digest) (parent : Nat) (slots : List (Option NodeId))
    (i : Nat) (s : Store) (hs : WellFormed s) (hf : Forest s)
    (hslots : ∀ j : Nat, some j ∈ slots → s.Child parent j)
    (hunique : ∀ k k' j : Nat, slots[k]? = some (some j) → slots[k']? = some (some j) → k = k') :
    (visitSlots branch next visit i slots s).map (fun t => slots.map (Option.map t.tree)) =
      Node.visitSlots branch next visitTree i (slots.map (Option.map s.tree)) := by
  induction slots generalizing i s with
  | nil => rfl
  | cons slot rest ih =>
      have hrest : ∀ j : Nat, some j ∈ rest → s.Child parent j :=
        fun j hj => hslots j (List.mem_cons_of_mem _ hj)
      have hunique' : ∀ k k' j : Nat, rest[k]? = some (some j) → rest[k']? = some (some j) →
          k = k' :=
        fun k k' j hk hk' => Nat.succ.inj (hunique (k + 1) (k' + 1) j hk hk')
      cases slot with
      | none =>
          simp only [visitSlots, List.map_cons, Option.map_none, Node.visitSlots]
          rw [← ih (i + 1) s hs hf hrest hunique', Visit.map_map]
      | some j =>
          have hj : s.Child parent j := hslots j List.mem_cons_self
          have hlt := hs.lt_of_child hj
          have hother : ∀ j' : Nat, some j' ∈ rest → j' ≠ j := by
            rintro j' hj' rfl
            obtain ⟨k, hk⟩ := List.mem_iff_getElem?.mp hj'
            exact absurd (hunique 0 (k + 1) j' rfl hk) (Nat.succ_ne_zero k).symm
          -- Visits of the rest leave the tree of this slot alone.
          have hstays : ∀ t : Store, WellFormed t → Forest t → (∀ x, s.Child parent x →
              t.Child parent x) → (visitSlots branch next visit (i + 1) rest t).after.tree j =
                t.tree j := by
            intro t ht hft hchild
            have hslots' : ∀ j' : Nat, some j' ∈ rest → j' < t.cells.size :=
              fun j' hj' => ht.lt_of_child (hchild j' (hrest j' hj'))
            obtain ⟨_, hlearn⟩ := visitSlots_learned hlearned branch next rest (i + 1) t ht hslots'
            have hafter := visitSlots_forest hlearned hforest branch next rest (i + 1) t ht hft
              hslots'
            refine hlearn.sibling_tree ht hft hafter (hchild j hj) ?_
            rintro x ⟨j', hj', _, hx⟩
            exact ⟨j', hchild j' (hrest j' hj'), hother j' hj', hx⟩
          simp only [visitSlots, List.map_cons, Option.map_some, Node.visitSlots, tree_digest]
          by_cases hd : (s.cell j).digest = next
          · rw [if_pos hd, if_pos hd]
            obtain ⟨hwf, hlearn⟩ := hlearned j s hs hlt
            have hf' := hforest j s hs hf hlt
            have hvisit := htree j s hs hf hlt
            -- The visit of this slot leaves the trees of the rest alone.
            have hsame : rest.map (Option.map (visit j s).after.tree) =
                rest.map (Option.map s.tree) := by
              refine List.map_inj_left.mpr (fun slot hslot => ?_)
              cases slot with
              | none => rfl
              | some j' =>
                  refine congrArg some (hlearn.sibling_tree hs hf hf' (hrest j' hslot) ?_)
                  exact fun x hx => ⟨j, hj, (hother j' hslot).symm, hx⟩
            have hnext := ih (i + 1) (visit j s).after hwf hf'
              (fun j' hj' => hlearn.child hs (hrest j' hj')) hunique'
            rw [hsame] at hnext
            have hhead := hstays (visit j s).after hwf hf' (fun x hx => hlearn.child hs hx)
            rw [← hvisit, ← hnext]
            cases hv : (visit j s).verdict with
            | error f => simp only [Visit.andThen, Visit.told, Visit.map, hv, hsame]
            | ok _ => simp only [Visit.andThen, Visit.told, Visit.map, hv, hhead]
          · rw [if_neg hd, if_neg hd, ← ih (i + 1) s hs hf hrest hunique', Visit.map_map]
            have hhead := hstays s hs hf (fun x hx => hx)
            simp only [Visit.map, hhead]

/-- Going on below a node is going on below its tree. -/
theorem descend_tree (next : Digest) (id : Nat) (s : Store) (hs : WellFormed s) (hf : Forest s) :
    (descend next visit id s).map (fun t => t.tree id) =
      Node.descend next visitTree (s.tree id) := by
  unfold Node.descend
  rw [hf.tree_content, tree_digest]
  cases hc : s.contentOf id with
  | none => simp only [descend, hc, Option.map_none, Visit.map, Visit.fail]
  | some c =>
      cases c with
      | leaf key value =>
          simp only [descend, hc, Option.map_some, Content.map_leaf, Visit.map, Visit.fail]
      | extension path child =>
          have hchild : s.Child id child := ⟨_, hc, List.mem_singleton.mpr rfl⟩
          have hlt := hs.lt_of_child hchild
          obtain ⟨_, hlearn⟩ := hlearned child s hs hlt
          have hafter := hlearn.tree_of_known hs (hforest child s hs hf hlt) hc
          simp only [descend, hc, Option.map_some, Content.map_extension]
          rw [← htree child s hs hf hlt]
          simp only [Visit.map, Visit.told, hafter, Content.map_extension]
      | branch slots =>
          have hslots : ∀ j : Nat, some j ∈ slots → s.Child id j :=
            fun j hj => ⟨_, hc, List.mem_filterMap.mpr ⟨some j, hj, rfl⟩⟩
          have hrefers : Node.refersTo next (slots.map (Option.map s.tree)) =
              s.refersTo next slots := by
            simp only [Node.refersTo, refersTo, List.any_map, Function.comp_def, Option.any_map,
              tree_digest]
          simp only [descend, hc, Option.map_some, Content.map_branch, hrefers]
          split
          · have hlt : ∀ j : Nat, some j ∈ slots → j < s.cells.size :=
              fun j hj => hs.lt_of_child (hslots j hj)
            have hunique : ∀ k k' j : Nat, slots[k]? = some (some j) →
                slots[k']? = some (some j) → k = k' := by
              intro k k' j hk hk'
              have hplace := hf.parent_unique hc (Content.at?_slot_eq_some.mpr hk) hc
                (Content.at?_slot_eq_some.mpr hk')
              exact Hop.slot.inj hplace.2
            obtain ⟨_, hlearn⟩ := visitSlots_learned hlearned (s.cell id).digest next slots 0 s hs
              hlt
            have hf' := visitSlots_forest hlearned hforest (s.cell id).digest next slots 0 s hs hf
              hlt
            rw [← visitSlots_tree hlearned hforest htree (s.cell id).digest next id slots 0 s hs hf
              hslots hunique]
            simp only [Visit.map, hlearn.tree_of_known hs hf' hc, Content.map_branch]
          · simp only [Visit.map, Visit.fail]

end Visits

theorem verify_forest (key value : Bytes) (proof : List Bytes) (id : NodeId) (s : Store)
    (hs : WellFormed s) (hf : Forest s) (hid : id < s.cells.size) :
    Forest (verify key value proof id s).after :=
  (verify_changes key value false proof id s hs hid).forest hs hf

/-- **Checking a proof against a node of a forest is checking it against the tree of the node.** -/
theorem verify_tree (key value : Bytes) (proof : List Bytes) (s : Store) (hs : WellFormed s)
    (hf : Forest s) (id : NodeId) (hid : id < s.cells.size) :
    (verify key value proof id s).map (fun t => t.tree id) =
      (s.tree id).verify key value proof := by
  induction proof generalizing id s with
  | nil =>
      unfold verify Node.verify
      rw [tree_digest]
      rfl
  | cons entry rest ih =>
      unfold verify Node.verify
      rw [tree_digest]
      cases hopen : openEntry (s.cell id).digest entry with
      | error f => rfl
      | ok c =>
          have hlearn := learn_tree s hs hf id hid c
          have hchanges : Changes (entry :: rest) false s (s.learn id c) :=
            learn_changes false s id entry c hid List.mem_cons_self hopen
          have hwf := hchanges.wellFormed hs
          have hf' := hchanges.forest hs hf
          dsimp only
          cases c.agree key value with
          | error f => simp only [Visit.map, Visit.fail, hlearn]
          | ok _ =>
              cases rest with
              | nil => simp only [List.head?_nil, Visit.map, Visit.done, hlearn]
              | cons next rest =>
                  simp only [List.head?_cons]
                  rw [← hlearn]
                  exact descend_tree (verify_learned key value (next :: rest))
                    (fun j t => verify_forest key value (next :: rest) j t)
                    (fun j t ht hft hj => ih t ht hft j hj) (keccak256 next) id (s.learn id c) hwf
                    hf'

end Store

end Patricia
