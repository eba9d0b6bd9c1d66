import Patricia.Proofs.Check.Knowledge
import Patricia.Proofs.Store.Sharing

/-
  Proofs accumulate.

  In a store in which everything known is backed, the tree of a node is determined by its digest,
  by the places where something is known, and by the modes of the nodes that were there before
  (`tree_eq_of_knows`): without collisions the digests tell the contents, and a new node has the
  mode of its parent. What a check adds to the known places is the same in every later store
  (`Check.adds`). So the known places after several checks are a union, and it does not matter in
  which order, or how often, the checks are made.
-/

namespace Patricia

namespace Store

/-- A store as checks leave it: a forest in which everything known is backed by an entry. -/
structure Sound (entries : List Bytes) (s : Store) : Prop where
  wellFormed : WellFormed s
  forest : Forest s
  backed : Backed entries s

namespace Sound

variable {entries : List Bytes} {s : Store}

theorem tree_backed (h : Sound entries s) (id : NodeId) : (s.tree id).Backed entries := by
  intro p m c hm hc
  rw [h.forest.tree_at?] at hm
  obtain ⟨x, _, rfl⟩ := Option.map_eq_some_iff.mp hm
  rw [h.forest.tree_content] at hc
  obtain ⟨known, hknown, rfl⟩ := Option.map_eq_some_iff.mp hc
  obtain ⟨e, he, hopen⟩ := h.backed x known hknown
  refine ⟨e, he, ?_⟩
  have hdigests : (known.map s.tree).map Node.digest = s.byDigest known := by
    rw [Content.map_map]
    exact Content.map_congr known (fun j _ => tree_digest s j)
  rw [tree_digest, hdigests, hopen]

theorem verify (h : Sound entries s) (key value : Bytes) (proof : List Bytes)
    (hproof : ∀ e ∈ proof, e ∈ entries) {id : Nat} (hid : id < s.cells.size) :
    Sound entries (s.verify key value proof id).after := by
  have hchanges := verify_changes key value false proof id s h.wellFormed hid
  have hbacked := (hchanges.mono hproof (fun h => h)).backed h.wellFormed h.backed
  exact ⟨hchanges.wellFormed h.wellFormed, hchanges.forest h.wellFormed h.forest, hbacked⟩

end Sound

/-! ## Known places determine a tree -/

section Later

variable {entries : List Bytes} (hfree : CollisionFree entries) {scope scope' : NodeId → Prop}
  {s t u : Store} (hs : WellFormed s) (ht : Sound entries t) (hu : Sound entries u)
  (hst : Learned entries scope s t) (hsu : Learned entries scope' s u)

/-- One node of `s` in two later stores, or two nodes that are new in these and of one mode. -/
def Twin (s t u : Store) (x y : Nat) : Prop :=
  (x = y ∧ x < s.cells.size) ∨
    (s.cells.size ≤ x ∧ s.cells.size ≤ y ∧ (t.cell x).hashesKeys = (u.cell y).hashesKeys)

include hst hsu in
theorem Twin.hashesKeys {x y : Nat} (h : Twin s t u x y) :
    (t.cell x).hashesKeys = (u.cell y).hashesKeys := by
  rcases h with ⟨rfl, hold⟩ | ⟨_, _, hmode⟩
  · rw [hst.mode_eq x hold, hsu.mode_eq x hold]
  · exact hmode

include hs hst hsu in
/-- Children in one place of twins are twins. -/
theorem Twin.child {x y : Nat} (h : Twin s t u x y) {c c' : Content NodeId}
    (hc : t.contentOf x = some c) (hc' : u.contentOf y = some c') {way : Hop} {i j : Nat}
    (hi : c.at? way = some i) (hj : c'.at? way = some j) : Twin s t u i j := by
  have hti : t.Child x i := ⟨c, hc, Content.mem_children_of_at? hi⟩
  have huj : u.Child y j := ⟨c', hc', Content.mem_children_of_at? hj⟩
  -- Children of nodes of which `s` knows nothing are new.
  have hnew : s.contentOf x = none → s.contentOf y = none → Twin s t u i j := by
    intro hx hy
    have hnewi : s.cells.size ≤ i := by
      refine Nat.le_of_not_lt (fun hold => ?_)
      obtain ⟨known, hknown, _⟩ := hst.child_old hti hold
      rw [hx] at hknown
      cases hknown
    have hnewj : s.cells.size ≤ j := by
      refine Nat.le_of_not_lt (fun hold => ?_)
      obtain ⟨known, hknown, _⟩ := hsu.child_old huj hold
      rw [hy] at hknown
      cases hknown
    refine Or.inr ⟨hnewi, hnewj, ?_⟩
    rw [hst.new_mode x i hti hnewi, hsu.new_mode y j huj hnewj, h.hashesKeys hst hsu]
  rcases h with ⟨rfl, hold⟩ | ⟨hx, hy, _⟩
  · cases hknown : s.contentOf x with
    | none => exact hnew hknown hknown
    | some known =>
        rw [hst.contentOf_of_known hs hknown] at hc
        rw [hsu.contentOf_of_known hs hknown] at hc'
        obtain rfl := Option.some.inj hc
        obtain rfl := Option.some.inj hc'
        obtain rfl : i = j := Option.some.inj (hi.symm.trans hj)
        exact Or.inl ⟨rfl, hs.child_of_contentOf hknown i (Content.mem_children_of_at? hi)⟩
  · exact hnew (contentOf_of_size_le s x hx) (contentOf_of_size_le s y hy)

include hfree hs ht hu hst hsu in
/-- Twins with one digest and the same known places have the same tree. -/
theorem tree_eq_of_knows (x y : Nat) (htwin : Twin s t u x y)
    (hdigest : (t.cell x).digest = (u.cell y).digest)
    (hknows : ∀ p, (t.tree x).Knows p ↔ (u.tree y).Knows p) : t.tree x = u.tree y := by
  induction hdepth : t.cells.size - x using Nat.strongRecOn generalizing x y with
  | _ depth ih =>
      have hmode := htwin.hashesKeys hst hsu
      have hroot := hknows []
      rw [Node.knows_nil, Node.knows_nil, ht.forest.tree_content, hu.forest.tree_content] at hroot
      cases hc : t.contentOf x with
      | none =>
          have hc' : u.contentOf y = none := by
            cases hc' : u.contentOf y with
            | none => rfl
            | some c' => simp [hc, hc'] at hroot
          rw [tree_of_unknown t x hc, tree_of_unknown u y hc', hdigest, hmode]
      | some c =>
          obtain ⟨c', hc'⟩ : ∃ c', u.contentOf y = some c' := by
            cases hc' : u.contentOf y with
            | none => simp [hc, hc'] at hroot
            | some c' => exact ⟨c', rfl⟩
          obtain ⟨e, he, hopen⟩ := ht.backed x c hc
          rw [hdigest] at hopen
          have hcontent : u.byDigest c' = t.byDigest c :=
            byDigest_of_open hfree hu.backed hc' he hopen
          have hmap : c.map t.tree = c'.map u.tree := by
            refine Content.map_eq_map hcontent.symm (fun way i j hi hj hij => ?_)
            have hlater := ht.forest.child_later x c hc i (Content.mem_children_of_at? hi)
            have hlt := lt_size_of_contentOf hc
            have hchild := htwin.child hs hst hsu hc hc' hi hj
            refine ih (t.cells.size - i) (by omega) i j hchild hij ?_ rfl
            intro p
            have hplace := hknows (way :: p)
            have htree : (t.tree x).content = some (c.map t.tree) := by
              rw [ht.forest.tree_content, hc, Option.map_some]
            have hutree : (u.tree y).content = some (c'.map u.tree) := by
              rw [hu.forest.tree_content, hc', Option.map_some]
            rw [Node.knows_cons htree, Node.knows_cons hutree] at hplace
            unfold Content.Knows at hplace
            rw [Content.at?_map, Content.at?_map, hi, hj] at hplace
            simpa using hplace
          rw [ht.forest.tree_eq, hu.forest.tree_eq, hc, hc', hdigest, hmode, Option.map_some,
            Option.map_some, hmap]

end Later

end Store

/-! ## What a check adds -/

/-- A check of a proof against a node of a store. -/
structure Check where
  node : NodeId
  key : Bytes
  value : Bytes
  proof : List Bytes

/-- Makes a check. -/
def Check.run (c : Check) (s : Store) : Visit Store := s.verify c.key c.value c.proof c.node

namespace Store

variable {entries : List Bytes} {s : Store}

theorem Sound.run (h : Sound entries s) (c : Check) (hproof : ∀ e ∈ c.proof, e ∈ entries)
    (hnode : c.node < s.cells.size) :
    Sound entries (c.run s).after ∧ Learned entries (s.Below c.node) s (c.run s).after := by
  obtain ⟨_, hlearned⟩ := verify_learned c.key c.value c.proof c.node s h.wellFormed hnode
  exact ⟨h.verify c.key c.value c.proof hproof hnode, hlearned.mono hproof (fun _ _ hx => hx)⟩

/-- After a check, the node that is checked knows what it knew, and what a node of which nothing
was known would know. -/
theorem Sound.run_knows (hfree : CollisionFree entries) (h : Sound entries s) (c : Check)
    (hproof : ∀ e ∈ c.proof, e ∈ entries) (p : List Hop) :
    ((s.tree c.node).verify c.key c.value c.proof).after.Knows p ↔ (s.tree c.node).Knows p ∨
      ((Node.unknown true (s.cell c.node).digest).verify c.key c.value c.proof).after.Knows p := by
  have hknows := Node.verify_knows hfree c.key c.value true c.proof hproof (s.tree c.node)
    (h.tree_backed c.node) p
  rw [Node.blank, tree_digest] at hknows
  exact hknows

/-- What a check adds to the tree of a node is the same in every later store. -/
theorem Sound.adds (hfree : CollisionFree entries) (h : Sound entries s) (c : Check)
    (hproof : ∀ e ∈ c.proof, e ∈ entries) (hnode : c.node < s.cells.size) (id : Nat)
    (hid : id < s.cells.size) :
    ∃ added : List Hop → Prop, ∀ (scope : NodeId → Prop) (t : Store), Sound entries t →
      Learned entries scope s t → ∀ p,
        ((c.run t).after.tree id).Knows p ↔ (t.tree id).Knows p ∨ added p := by
  have hlater : ∀ (scope : NodeId → Prop) (t : Store), Sound entries t →
      Learned entries scope s t → c.node < t.cells.size ∧
        (t.cell c.node).digest = (s.cell c.node).digest ∧ Sound entries (c.run t).after ∧
        Learned entries (t.Below c.node) t (c.run t).after ∧
        (c.run t).after.tree c.node =
          ((t.tree c.node).verify c.key c.value c.proof).after := by
    intro scope t ht hst
    have hlt := Nat.lt_of_lt_of_le hnode hst.grows.cells_le
    obtain ⟨hafter, hlearned⟩ := ht.run c hproof hlt
    have htree := verify_tree c.key c.value c.proof t ht.wellFormed ht.forest c.node hlt
    exact ⟨hlt, hst.grows.digest_eq c.node hnode, hafter, hlearned, congrArg Visit.after htree⟩
  by_cases habove : ∃ p, s.at? p id = some c.node
  · obtain ⟨p, hp⟩ := habove
    refine ⟨fun path => ∃ q, path = p ++ q ∧ ((Node.unknown true (s.cell c.node).digest).verify
      c.key c.value c.proof).after.Knows q, fun scope t ht hst path => ?_⟩
    obtain ⟨_, hdigest, hafter, hlearned, htree⟩ := hlater scope t ht hst
    have hplace := hst.at? h.wellFormed hp
    have hat : (t.tree id).at? p = some (t.tree c.node) := by
      rw [ht.forest.tree_at?, hplace, Option.map_some]
    rw [hlearned.tree_above ht.wellFormed ht.forest hafter.forest
      (f := fun n => (n.verify c.key c.value c.proof).after) htree p id hplace, ← hdigest]
    exact Node.knows_modifyAt hat (ht.run_knows hfree c hproof) path
  · by_cases hwithin : ∃ q, s.at? q c.node = some id
    · obtain ⟨q, hq⟩ := hwithin
      refine ⟨fun path => ((Node.unknown true (s.cell c.node).digest).verify
        c.key c.value c.proof).after.Knows (q ++ path), fun scope t ht hst path => ?_⟩
      obtain ⟨_, hdigest, hafter, hlearned, htree⟩ := hlater scope t ht hst
      have hplace := hst.at? h.wellFormed hq
      have hat : (t.tree c.node).at? q = some (t.tree id) := by
        rw [ht.forest.tree_at?, hplace, Option.map_some]
      have hat' : ((c.run t).after.tree c.node).at? q = some ((c.run t).after.tree id) := by
        rw [hafter.forest.tree_at?, hlearned.at? ht.wellFormed hplace, Option.map_some]
      rw [← Node.knows_append hat', ← Node.knows_append hat, htree, ← hdigest]
      exact ht.run_knows hfree c hproof (q ++ path)
    · refine ⟨fun _ => False, fun scope t ht hst path => ?_⟩
      obtain ⟨_, _, hafter, hlearned, _⟩ := hlater scope t ht hst
      have hsame : (c.run t).after.tree id = t.tree id := by
        have hidt := Nat.lt_of_lt_of_le hid hst.grows.cells_le
        refine hlearned.tree_beside ht.wellFormed ht.forest hafter.forest hidt (fun hbelow => ?_)
          (fun hbelow => ?_)
        · exact habove ((below_iff_at? _ _).mp (hst.below_old hbelow hnode))
        · exact hwithin ((below_iff_at? _ _).mp (hst.below_old hbelow hid))
      rw [hsame, or_false]

/-! ## Checks one after the other -/

/-- Nodes that are known keep their content, and contents stay what they are; only a node of which
nothing is known becomes known. -/
structure Keeps (s t : Store) : Prop where
  contents : ∀ k : Nat, k < s.contents.size → t.contents[k]? = s.contents[k]?
  content : ∀ id : Nat, id < s.cells.size → (t.cell id).content = (s.cell id).content ∨
    ((s.cell id).content = none ∧ ∃ k, (t.cell id).content = some k)

theorem Learned.keeps {scope : NodeId → Prop} {t : Store} (h : Learned entries scope s t) :
    Keeps s t where
  contents := h.grows.contents_eq
  content := fun id hid => by
    refine (h.content id hid).imp_right (fun hlearned => ?_)
    obtain ⟨_, e, _, hentry⟩ := hlearned
    obtain ⟨k, _, hk, _⟩ := hentry.content
    exact ⟨hentry.unknown, k, hk⟩

/-- Two ways through checks that add the same to a tree lead to one tree. -/
theorem tree_eq_of_added (hfree : CollisionFree entries) (hs : WellFormed s)
    {scope scope' : NodeId → Prop} {t u : Store} (ht : Sound entries t) (hu : Sound entries u)
    (hst : Learned entries scope s t) (hsu : Learned entries scope' s u) {id : Nat}
    (hid : id < s.cells.size) (hknows : ∀ p, (t.tree id).Knows p ↔ (u.tree id).Knows p) :
    t.tree id = u.tree id := by
  refine tree_eq_of_knows hfree hs ht hu hst hsu id id (Or.inl ⟨rfl, hid⟩) ?_ hknows
  rw [hst.grows.digest_eq id hid, hsu.grows.digest_eq id hid]

/-- What two checks leave behind comes from `s` by learning, and is as sound. -/
theorem Sound.run_run (h : Sound entries s) (a b : Check) (ha : ∀ e ∈ a.proof, e ∈ entries)
    (hb : ∀ e ∈ b.proof, e ∈ entries) (hanode : a.node < s.cells.size)
    (hbnode : b.node < s.cells.size) :
    Sound entries (b.run (a.run s).after).after ∧
      Learned entries (fun _ => True) s (b.run (a.run s).after).after := by
  obtain ⟨hsa, hla⟩ := h.run a ha hanode
  obtain ⟨hsab, hlab⟩ := hsa.run b hb (Nat.lt_of_lt_of_le hbnode hla.grows.cells_le)
  have hanywhere := hla.mono (fun _ he => he) (fun _ _ _ => trivial : ∀ x, _ → _ → True)
  exact ⟨hsab, hanywhere.trans hsa.wellFormed hlab (fun _ _ _ => trivial)⟩

/-- The order of two checks does not matter. -/
theorem Sound.run_comm (hfree : CollisionFree entries) (h : Sound entries s) (a b : Check)
    (ha : ∀ e ∈ a.proof, e ∈ entries) (hb : ∀ e ∈ b.proof, e ∈ entries)
    (hanode : a.node < s.cells.size) (hbnode : b.node < s.cells.size) (id : Nat)
    (hid : id < s.cells.size) :
    (b.run (a.run s).after).after.tree id = (a.run (b.run s).after).after.tree id := by
  obtain ⟨hsa, hla⟩ := h.run a ha hanode
  obtain ⟨hsb, hlb⟩ := h.run b hb hbnode
  obtain ⟨hsab, hlab⟩ := h.run_run a b ha hb hanode hbnode
  obtain ⟨hsba, hlba⟩ := h.run_run b a hb ha hbnode hanode
  obtain ⟨addedA, haddedA⟩ := h.adds hfree a ha hanode id hid
  obtain ⟨addedB, haddedB⟩ := h.adds hfree b hb hbnode id hid
  have hself := Learned.refl entries (fun _ => True) h.wellFormed
  refine tree_eq_of_added hfree h.wellFormed hsab hsba hlab hlba hid (fun p => ?_)
  rw [haddedB _ _ hsa hla, haddedA _ s h hself, haddedA _ _ hsb hlb, haddedB _ s h hself]
  exact or_right_comm

/-- A check that is made once more changes no tree. -/
theorem Sound.run_idem (hfree : CollisionFree entries) (h : Sound entries s) (a : Check)
    (ha : ∀ e ∈ a.proof, e ∈ entries) (hanode : a.node < s.cells.size) (id : Nat)
    (hid : id < s.cells.size) :
    (a.run (a.run s).after).after.tree id = (a.run s).after.tree id := by
  obtain ⟨hsa, hla⟩ := h.run a ha hanode
  obtain ⟨hsaa, hlaa⟩ := h.run_run a a ha ha hanode hanode
  obtain ⟨added, hadded⟩ := h.adds hfree a ha hanode id hid
  have hself := Learned.refl entries (fun _ => True) h.wellFormed
  refine tree_eq_of_added hfree h.wellFormed hsaa hsa hlaa hla hid (fun p => ?_)
  rw [hadded _ _ hsa hla, hadded _ s h hself, or_assoc, or_self_iff]

/-- A check tells the same before and after another one. -/
theorem Sound.run_outcome (hfree : CollisionFree entries) (h : Sound entries s) (a b : Check)
    (ha : ∀ e ∈ a.proof, e ∈ entries) (hb : ∀ e ∈ b.proof, e ∈ entries)
    (hanode : a.node < s.cells.size) (hbnode : b.node < s.cells.size) :
    (b.run s).events = (b.run (a.run s).after).events ∧
      (b.run s).verdict = (b.run (a.run s).after).verdict := by
  obtain ⟨hsa, hla⟩ := h.run a ha hanode
  have hfirst := verify_outcome hfree b.key b.value b.proof hb b.node s h.wellFormed h.backed hbnode
  have hsecond := verify_outcome hfree b.key b.value b.proof hb b.node (a.run s).after
    hsa.wellFormed hsa.backed (Nat.lt_of_lt_of_le hbnode hla.grows.cells_le)
  rw [hla.grows.digest_eq b.node hbnode] at hsecond
  exact (Visit.outcome_eq_iff _ _).mp (hfirst.trans hsecond.symm)

end Store

namespace Session

/-- **Proofs accumulate.** After any steps that give no node a content by hand, of any two checks
of proofs against nodes of the store, whatever their verdicts: both orders leave the same tree
under every node that was there, and each check tells the same and ends the same in both; a check
that is made twice leaves the trees that it leaves when made once; and every check keeps what is
known, and changes only nodes of which nothing is known. Keccak-256 must have no collision among
the entries handed in by the steps and by the two proofs. -/
theorem run_checks_accumulate (steps : List Step) (hsteps : ∀ a ∈ steps, a.setsContent = false)
    (a b : Check) (hfree : CollisionFree (empty.handedInRun steps ++ a.proof ++ b.proof))
    (hanode : a.node < (empty.run steps).1.store.cells.size)
    (hbnode : b.node < (empty.run steps).1.store.cells.size) :
    let s := (empty.run steps).1.store
    let ab := b.run (a.run s).after
    let ba := a.run (b.run s).after
    let aa := a.run (a.run s).after
    (∀ id : NodeId, id < s.cells.size → ab.after.tree id = ba.after.tree id) ∧
      ((a.run s).events = ba.events ∧ (a.run s).verdict = ba.verdict) ∧
      ((b.run s).events = ab.events ∧ (b.run s).verdict = ab.verdict) ∧
      (∀ id : NodeId, id < s.cells.size → aa.after.tree id = (a.run s).after.tree id) ∧
      s.Keeps (a.run s).after ∧ (a.run s).after.Keeps ab.after ∧
      s.Keeps (b.run s).after ∧ (b.run s).after.Keeps ba.after ∧
      (a.run s).after.Keeps aa.after := by
  intro s ab ba aa
  have ha : ∀ e ∈ a.proof, e ∈ empty.handedInRun steps ++ a.proof ++ b.proof :=
    fun e he => List.mem_append_left _ (List.mem_append_right _ he)
  have hb : ∀ e ∈ b.proof, e ∈ empty.handedInRun steps ++ a.proof ++ b.proof :=
    fun e he => List.mem_append_right _ he
  have hbacked := (run_empty_backed steps hsteps).mono
    (fun e he => List.mem_append_left b.proof (List.mem_append_left a.proof he))
  have h : Store.Sound (empty.handedInRun steps ++ a.proof ++ b.proof) s :=
    ⟨(run_empty_wellFormed steps hsteps).store, run_empty_forest steps hsteps, hbacked⟩
  obtain ⟨hsa, hla⟩ := h.run a ha hanode
  obtain ⟨hsb, hlb⟩ := h.run b hb hbnode
  obtain ⟨_, hlab⟩ := hsa.run b hb (Nat.lt_of_lt_of_le hbnode hla.grows.cells_le)
  obtain ⟨_, hlba⟩ := hsb.run a ha (Nat.lt_of_lt_of_le hanode hlb.grows.cells_le)
  obtain ⟨_, hlaa⟩ := hsa.run a ha (Nat.lt_of_lt_of_le hanode hla.grows.cells_le)
  exact ⟨h.run_comm hfree a b ha hb hanode hbnode, h.run_outcome hfree b a hb ha hbnode hanode,
    h.run_outcome hfree a b ha hb hanode hbnode, h.run_idem hfree a ha hanode,
    hla.keeps, hlab.keeps, hlb.keeps, hlba.keeps, hlaa.keeps⟩

/-- A check that fails below the root, and one of the child of the root that succeeds. -/
theorem run_checks_accumulate_heldChild :
    let wrong : Check := ⟨0, [], [8], [extensionEntry, leafEntry]⟩
    let right : Check := ⟨1, [], [9], [leafEntry]⟩
    let s := (empty.run heldChild).1.store
    (∀ a ∈ heldChild, a.setsContent = false) ∧
      CollisionFree (empty.handedInRun heldChild ++ wrong.proof ++ right.proof) ∧
      wrong.node < s.cells.size ∧ right.node < s.cells.size ∧ (wrong.run s).verdict ≠ .ok () ∧
      (right.run s).verdict = .ok () ∧ (right.run (wrong.run s).after).verdict = .ok () ∧
      (right.run (wrong.run s).after).after.tree 0 =
        (wrong.run (right.run s).after).after.tree 0 := by
  intro wrong right s
  have hsteps : ∀ a ∈ heldChild, a.setsContent = false := by decide
  have hfree : CollisionFree (empty.handedInRun heldChild ++ wrong.proof ++ right.proof) := by
    unfold CollisionFree
    decide +kernel
  have hwrong : wrong.node < s.cells.size := by decide +kernel
  have hright : right.node < s.cells.size := by decide +kernel
  have hfails : (wrong.run s).verdict ≠ .ok () := by decide +kernel
  have hpasses : (right.run s).verdict = .ok () := by decide +kernel
  obtain ⟨htree, _, houtcome, _⟩ :=
    run_checks_accumulate heldChild hsteps wrong right hfree hwrong hright
  exact ⟨hsteps, hfree, hwrong, hright, hfails, hpasses, houtcome.2.symm.trans hpasses,
    htree 0 hwrong⟩

end Session

end Patricia
