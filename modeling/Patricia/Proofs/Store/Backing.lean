import Patricia.Proofs.Store.Learning

/-
  Everything known is backed by an entry.

  In every state of a session that gives no node a content by hand, what is known of a node is the
  content of some entry that was handed in with a proof and that hashes to the node (`Backed`).
  The check of a proof writes before it compares, may stop at any depth, and goes down through
  what earlier checks have written; none of that matters, since it only ever makes single nodes
  learn (`Store.Change`), and one such step keeps `Backed`. Nothing is assumed about keccak-256:
  of two entries with one digest, the one that came first is the one that is known.

  `run_backed` adds that a node keeps its digest for ever, and its mode is that of the root of its
  tree as long as no mode is changed by hand (`OneMode`).
-/

namespace Patricia

namespace Store

/-- What is known of a node is the content of an entry that hashes to it. -/
def Backed (entries : List Bytes) (s : Store) : Prop :=
  ∀ (id : Nat) (c : Content NodeId), s.contentOf id = some c →
    ∃ e ∈ entries, openEntry (s.cell id).digest e = .ok (s.byDigest c)

/-- The children of a node have its mode. -/
def OneMode (s : Store) : Prop :=
  ∀ (id : Nat) (c : Content NodeId), s.contentOf id = some c →
    ∀ j ∈ c.children, (s.cell j).hashesKeys = (s.cell id).hashesKeys

theorem lt_size_of_contentOf {s : Store} {id : Nat} {c : Content NodeId}
    (h : s.contentOf id = some c) : id < s.cells.size := by
  obtain ⟨k, hk, _⟩ := contentOf_eq_some s id c h
  exact lt_size_of_content s id k hk

/-! ## A node that learns -/

section Learn

variable (s : Store) (hs : WellFormed s) (id : Nat) (c : Content Digest)
  (hunknown : s.contentOf id = none)
include hs hunknown

theorem contentOf_learn_ne (j : Nat) (h : j ≠ id) : (s.learn id c).contentOf j = s.contentOf j := by
  rw [learn_of_unknown s id c hunknown, contentOf_setContent_ne _ id j _ h,
    hs.contentOf_addContent]

omit hs in
theorem contentOf_learn_self (hid : id < s.cells.size) :
    (s.learn id c).contentOf id = some (c.number s.cells.size) := by
  rw [learn_of_unknown s id c hunknown, contentOf_setContent_self _ id _
    (by rw [size_addContent]; omega), contents_addContent_new]

omit hs in
theorem cell_learn_new (i : Nat) (d : Digest) (h : c.children[i]? = some d) :
    ((s.learn id c).cell (s.cells.size + i)).digest = d ∧
      ((s.learn id c).cell (s.cells.size + i)).hashesKeys = (s.cell id).hashesKeys := by
  rw [learn_of_unknown s id c hunknown, digest_setContent, hashesKeys_setContent,
    cell_addContent_new s _ c i d h]
  exact ⟨rfl, rfl⟩

omit hs in
theorem hashesKeys_learn_lt (j : Nat) (h : j < s.cells.size) :
    ((s.learn id c).cell j).hashesKeys = (s.cell j).hashesKeys := by
  rw [learn_of_unknown s id c hunknown, hashesKeys_setContent, cell_addContent_lt s _ c j h]

omit hs in
/-- The new children have the digests that the entry refers to. -/
theorem byDigest_learn : (s.learn id c).byDigest (c.number s.cells.size) = c :=
  Content.number_map _ c _ (fun i d h => (cell_learn_new s id c hunknown i d h).1)

end Learn

/-! ## Backing -/

theorem Backed.empty (entries : List Bytes) : Backed entries Store.empty := by
  intro id c hc
  exact absurd (lt_size_of_contentOf hc) (Nat.not_lt_zero id)

/-- What was known before a change is backed after it. -/
theorem Backed.old {entries : List Bytes} {s t : Store} (h : Backed entries s) (hs : WellFormed s)
    (hext : Extends s t) (id : Nat) (c : Content NodeId) (hc : s.contentOf id = some c) :
    ∃ e ∈ entries, openEntry (t.cell id).digest e = .ok (t.byDigest c) := by
  obtain ⟨e, he, hopen⟩ := h id c hc
  refine ⟨e, he, ?_⟩
  rw [hext.digest_eq id (lt_size_of_contentOf hc), hs.byDigest_eq hext hc, hopen]

theorem Change.backed {entries : List Bytes} {modes : Bool} {s t : Store}
    (h : Change entries modes s t) (hs : WellFormed s) (hbacked : Backed entries s) :
    Backed entries t := by
  have hold := fun id c => hbacked.old hs h.extends id c
  cases h with
  | node hashesKeys d =>
      intro id c hc
      exact hold id c (by rwa [contentOf_addNode] at hc)
  | content hashesKeys c =>
      intro id found hc
      exact hold id found (by rwa [hs.contentOf_addContent] at hc)
  | mode id hashesKeys _ =>
      intro j c hc
      exact hold j c (by rwa [contentOf_setHashesKeys] at hc)
  | learn id e c hid he hopen hunknown =>
      intro j found hc
      by_cases hj : j = id
      · subst hj
        rw [contentOf_learn_self s j c hunknown hid] at hc
        cases hc
        refine ⟨e, he, ?_⟩
        rw [byDigest_learn s j c hunknown, ← hopen]
        have hchange : Change entries modes s (s.learn j c) :=
          .learn s j e c hid he hopen hunknown
        rw [hchange.extends.digest_eq j hid]
      · rw [contentOf_learn_ne s hs id c hunknown j hj] at hc
        exact hold j found hc

theorem Backed.mono {entries entries' : List Bytes} {s : Store} (h : Backed entries s)
    (hentries : ∀ e ∈ entries, e ∈ entries') : Backed entries' s := by
  intro id c hc
  obtain ⟨e, he, hopen⟩ := h id c hc
  exact ⟨e, hentries e he, hopen⟩

theorem Changes.backed {entries : List Bytes} {modes : Bool} {s t : Store}
    (h : Changes entries modes s t) (hs : WellFormed s) (hbacked : Backed entries s) :
    Backed entries t :=
  h.keeps_of_wellFormed (fun _ _ hchange => hchange.backed) hs hbacked

/-! ## Modes -/

theorem OneMode.empty : OneMode Store.empty := by
  intro id c hc
  exact absurd (lt_size_of_contentOf hc) (Nat.not_lt_zero id)

/-- Where modes of nodes stay, what was known keeps its one mode. -/
theorem OneMode.old {s t : Store} (h : OneMode s) (hs : WellFormed s)
    (hmode : ∀ j : Nat, j < s.cells.size → (t.cell j).hashesKeys = (s.cell j).hashesKeys)
    (id : Nat) (c : Content NodeId) (hc : s.contentOf id = some c) :
    ∀ j ∈ c.children, (t.cell j).hashesKeys = (t.cell id).hashesKeys := by
  intro j hj
  rw [hmode j (hs.child_of_contentOf hc j hj), hmode id (lt_size_of_contentOf hc)]
  exact h id c hc j hj

theorem Change.oneMode {entries : List Bytes} {s t : Store} (h : Change entries false s t)
    (hs : WellFormed s) (hmode : OneMode s) : OneMode t := by
  cases h with
  | node hashesKeys d =>
      intro id c hc
      rw [contentOf_addNode] at hc
      exact hmode.old hs (fun j hj => by rw [cell_addNode_lt s hashesKeys d j hj]) id c hc
  | content hashesKeys c =>
      intro id found hc
      rw [hs.contentOf_addContent] at hc
      exact hmode.old hs (fun j hj => by rw [cell_addContent_lt s hashesKeys c j hj]) id found hc
  | mode id hashesKeys h => cases h
  | learn id e c hid he hopen hunknown =>
      have hsame := hashesKeys_learn_lt s id c hunknown
      intro j found hc
      by_cases hj : j = id
      · subst hj
        rw [contentOf_learn_self s j c hunknown hid] at hc
        cases hc
        intro child hchild
        rw [Content.children_number, List.mem_range'_1] at hchild
        obtain ⟨i, rfl⟩ := Nat.exists_eq_add_of_le hchild.1
        have hi : i < c.children.length := by omega
        have hnew := cell_learn_new s j c hunknown i _ (List.getElem?_eq_getElem hi)
        rw [hnew.2, hsame j hid]
      · rw [contentOf_learn_ne s hs id c hunknown j hj] at hc
        exact hmode.old hs hsame j found hc

theorem Changes.oneMode {entries : List Bytes} {s t : Store} (h : Changes entries false s t)
    (hs : WellFormed s) (hmode : OneMode s) : OneMode t :=
  h.keeps_of_wellFormed (fun _ _ hchange => hchange.oneMode) hs hmode

/-- `id` is the node `root` or one that is known below it. -/
def Below (s : Store) : NodeId → NodeId → Prop :=
  Relation.ReflTransGen (fun parent child => ∃ c, s.contentOf parent = some c ∧ child ∈ c.children)

theorem OneMode.below {s : Store} (h : OneMode s) {root id : NodeId} (hbelow : s.Below root id) :
    (s.cell id).hashesKeys = (s.cell root).hashesKeys := by
  induction hbelow with
  | refl => rfl
  | tail _ hlast ih =>
      obtain ⟨c, hc, hchild⟩ := hlast
      rw [h _ c hc _ hchild, ih]

/-! ## Every state of a session -/

/-- `e` is the entry behind a node: it hashes to the node, and it encodes what is known of it. -/
structure BackedBy (s : Store) (id : NodeId) (e : Bytes) : Prop where
  digest : keccak256 e = (s.cell id).digest
  content : ∃ (k : ContentId) (c : Content NodeId), (s.cell id).content = some k ∧
    s.contents[k]? = some c ∧ Content.decode e = .ok (s.byDigest c) ∧
    ∀ slots, c = .branch slots → slots.length = slotCount

theorem Backed.backedBy {entries : List Bytes} {s : Store} (h : Backed entries s)
    (hs : WellFormed s) (id : NodeId) :
    (s.cell id).content = none ∨ ∃ e ∈ entries, s.BackedBy id e := by
  cases hknown : s.contentOf id with
  | none => exact Or.inl (hs.content_of_unknown hknown)
  | some c =>
      obtain ⟨k, hk, hc⟩ := contentOf_eq_some s id c hknown
      obtain ⟨e, he, hopen⟩ := h id c hknown
      obtain ⟨hdigest, hdecode⟩ := openEntry_eq_ok.mp hopen
      refine Or.inr ⟨e, he, hdigest, k, c, hk, hc, hdecode, ?_⟩
      rintro slots rfl
      rw [← Content.decode_branch_length e _ hdecode, List.length_map]

end Store

namespace Session

theorem run_empty_wellFormed (steps : List Step) (hsteps : ∀ a ∈ steps, a.setsContent = false) :
    (empty.run steps).1.WellFormed :=
  empty.run_wellFormed WellFormed.empty steps hsteps

theorem run_empty_backed (steps : List Step) (hsteps : ∀ a ∈ steps, a.setsContent = false) :
    (empty.run steps).1.store.Backed (empty.handedInRun steps) :=
  (empty.run_changes WellFormed.empty steps hsteps).backed Store.WellFormed.empty
    (Store.Backed.empty _)

/-- **Everything known is backed by an entry that was handed in.** After any steps that give no
node a content by hand: every digest has 32 bytes and is the one that the node has had since it is
there; of every node nothing is known, or what one of the entries handed in encodes that hashes to
it; and if no mode was changed, the nodes of a tree have the mode of its root. -/
theorem run_backed (steps : List Step) (hsteps : ∀ a ∈ steps, a.setsContent = false) :
    let s := (empty.run steps).1.store
    (∀ id : NodeId, id < s.cells.size → (s.cell id).digest.bytes.length = 32) ∧
      (∀ past future, steps = past ++ future →
        ∀ id : NodeId, id < (empty.run past).1.store.cells.size →
          id < s.cells.size ∧ (s.cell id).digest = ((empty.run past).1.store.cell id).digest) ∧
      (∀ id : NodeId, id < s.cells.size →
        (s.cell id).content = none ∨ ∃ e ∈ empty.handedInRun steps, s.BackedBy id e) ∧
      (steps.any Step.setsMode = false →
        ∀ root id : NodeId, s.Below root id →
          (s.cell id).hashesKeys = (s.cell root).hashesKeys) := by
  have hchanges := empty.run_changes WellFormed.empty steps hsteps
  have hs := (run_empty_wellFormed steps hsteps).store
  refine ⟨fun id _ => Digest.size_eq _, ?_, ?_, ?_⟩
  · rintro past future rfl id hid
    have hpast := run_empty_wellFormed past (fun a ha => hsteps a (List.mem_append_left _ ha))
    have hfuture := (empty.run past).1.run_changes hpast future
      (fun a ha => hsteps a (List.mem_append_right _ ha))
    rw [run_append]
    exact ⟨Nat.lt_of_lt_of_le hid hfuture.extends.cells_le, hfuture.extends.digest_eq id hid⟩
  · exact fun id _ => (run_empty_backed steps hsteps).backedBy hs id
  · intro hmodes root id hbelow
    rw [hmodes] at hchanges
    exact (hchanges.oneMode Store.WellFormed.empty Store.OneMode.empty).below hbelow

/-- A new node, and a check that fails at the leaf, after it has learned of both nodes. -/
def failedCheck : List Step :=
  [.new "root" (keccak256 extensionEntry).bytes true,
    .verify "root" [] [8] [extensionEntry, leafEntry]]

/-- After a check that failed, what is known of the root is backed, and the tree has one mode. -/
theorem run_backed_failedCheck :
    (∀ a ∈ failedCheck, a.setsContent = false) ∧ failedCheck.any Step.setsMode = false ∧
      let s := (empty.run failedCheck).1.store
      (s.cell 0).content ≠ none ∧ (∃ e ∈ empty.handedInRun failedCheck, s.BackedBy 0 e) ∧
        ∀ id : NodeId, s.Below 0 id → (s.cell id).hashesKeys = (s.cell 0).hashesKeys := by
  have hsteps : ∀ a ∈ failedCheck, a.setsContent = false := by decide
  have hmodes : failedCheck.any Step.setsMode = false := by decide
  have hknown : ((empty.run failedCheck).1.store.cell 0).content ≠ none := by decide +kernel
  have hsize : 0 < (empty.run failedCheck).1.store.cells.size := by decide +kernel
  obtain ⟨_, _, hbacked, hmode⟩ := run_backed failedCheck hsteps
  exact ⟨hsteps, hmodes, hknown, (hbacked 0 hsize).resolve_left hknown, hmode hmodes 0⟩

end Session

end Patricia
