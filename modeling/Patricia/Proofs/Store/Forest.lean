import Patricia.Proofs.Node.Places
import Patricia.Proofs.Store.Frame

/-
  The nodes of a session form a forest.

  As long as no node is given a content by hand, every node has at most one place under one
  content, every content is that of at most one node, and a child has a higher number than its
  parent (`Forest`). Every change keeps this, since a content is made together with its children
  and goes to one node at most.

  In a forest the nodes above a node form a chain, so what is below one child is not below another
  (`Forest.places_apart`), and there is no way back up (`Forest.no_circle`).
-/

namespace Patricia

namespace Store

/-- Nodes and contents have one owner each, and children come after their parents. -/
structure Forest (s : Store) : Prop where
  place_unique : ∀ (k k' : Nat) (c c' : Content NodeId) (way way' : Hop) (j : NodeId),
    s.contents[k]? = some c → s.contents[k']? = some c' → c.at? way = some j →
    c'.at? way' = some j → k = k' ∧ way = way'
  owner_unique : ∀ id id' k : Nat, (s.cell id).content = some k → (s.cell id').content = some k →
    id = id'
  child_later : ∀ (id : Nat) (c : Content NodeId), s.contentOf id = some c →
    ∀ j : Nat, j ∈ c.children → id < j

/-! ## Changes keep the forest -/

namespace Forest

variable {s : Store}

theorem empty : Forest Store.empty where
  place_unique := fun k k' c c' way way' j hc => by simp [Store.empty] at hc
  owner_unique := fun id id' k hk =>
    absurd (lt_size_of_content Store.empty id k hk) (Nat.not_lt_zero id)
  child_later := fun id c hc => absurd (lt_size_of_contentOf hc) (Nat.not_lt_zero id)

/-- What concerns only what is known of nodes. -/
theorem of_same {t : Store} (h : Forest s) (hcontents : t.contents = s.contents)
    (hcell : ∀ id : Nat, (t.cell id).content = (s.cell id).content) : Forest t where
  place_unique := by
    rw [hcontents]
    exact h.place_unique
  owner_unique := fun id id' k hk hk' => by
    rw [hcell] at hk hk'
    exact h.owner_unique id id' k hk hk'
  child_later := fun id c hc => by
    have hsame : t.contentOf id = s.contentOf id := by
      unfold contentOf content?
      rw [hcell, hcontents]
    rw [hsame] at hc
    exact h.child_later id c hc

theorem addNode (h : Forest s) (hashesKeys : Bool) (d : Digest) :
    Forest (s.addNode hashesKeys d).1 :=
  h.of_same (contents_addNode s hashesKeys d) (content_addNode s hashesKeys d)

theorem setHashesKeys (h : Forest s) (id : NodeId) (hashesKeys : Bool) :
    Forest (s.setHashesKeys id hashesKeys) :=
  h.of_same (contents_setHashesKeys s id hashesKeys) (content_setHashesKeys s id hashesKeys)

/-- A content behind all others has only children behind all others. -/
theorem place_unique_addContent (h : Forest s) (hs : WellFormed s) (hashesKeys : Bool)
    (new : Content Digest) (k k' : Nat) (c c' : Content NodeId) (way way' : Hop) (j : Nat)
    (hc : (s.addContent hashesKeys new).1.contents[k]? = some c)
    (hc' : (s.addContent hashesKeys new).1.contents[k']? = some c') (hj : c.at? way = some j)
    (hj' : c'.at? way' = some j) : k = k' ∧ way = way' := by
  have hcases : ∀ (k : Nat) (c : Content NodeId) (way : Hop),
      (s.addContent hashesKeys new).1.contents[k]? = some c → c.at? way = some j →
      (s.contents[k]? = some c ∧ j < s.cells.size) ∨
        (k = s.contents.size ∧ c = new.number s.cells.size ∧ s.cells.size ≤ j) := by
    intro k c way hc hj
    have hmem := Content.mem_children_of_at? hj
    have hlt := (Array.getElem?_eq_some_iff.mp hc).1
    rw [contents_size_addContent] at hlt
    rcases Nat.lt_or_ge k s.contents.size with hold | hnew
    · rw [contents_addContent_lt s hashesKeys new k hold] at hc
      exact Or.inl ⟨hc, hs.child_lt k c hc j hmem⟩
    · obtain rfl : k = s.contents.size := by omega
      rw [contents_addContent_new] at hc
      cases hc
      rw [Content.children_number, List.mem_range'_1] at hmem
      exact Or.inr ⟨rfl, rfl, hmem.1⟩
  rcases hcases k c way hc hj with ⟨hold, hlt⟩ | ⟨hk, hnew, hle⟩
  · rcases hcases k' c' way' hc' hj' with ⟨hold', _⟩ | ⟨_, _, hle⟩
    · exact h.place_unique k k' c c' way way' j hold hold' hj hj'
    · omega
  · rcases hcases k' c' way' hc' hj' with ⟨_, hlt⟩ | ⟨hk', hnew', _⟩
    · omega
    · subst hnew hnew'
      have hnodup : (new.number s.cells.size).children.Nodup := by
        rw [Content.children_number]
        exact List.nodup_range'
      exact ⟨hk.trans hk'.symm, Content.at?_unique hnodup hj hj'⟩

theorem addContent (h : Forest s) (hs : WellFormed s) (hashesKeys : Bool) (c : Content Digest) :
    Forest (s.addContent hashesKeys c).1 where
  place_unique := h.place_unique_addContent hs hashesKeys c
  owner_unique := fun id id' k hk hk' => by
    rw [content_addContent] at hk hk'
    exact h.owner_unique id id' k hk hk'
  child_later := fun id found hc => by
    rw [hs.contentOf_addContent] at hc
    exact h.child_later id found hc

theorem learn (h : Forest s) (hs : WellFormed s) (id : Nat) (hid : id < s.cells.size)
    (c : Content Digest) (hunknown : s.contentOf id = none) : Forest (s.learn id c) where
  place_unique := by
    rw [contents_learn s id c hunknown]
    exact h.place_unique_addContent hs _ c
  owner_unique := fun i j k hi hj => by
    have hold : ∀ i : Nat, i ≠ id → ((s.learn id c).cell i).content = (s.cell i).content := by
      intro i hne
      rw [content_learn s id c hunknown hid, if_neg hne, content_addContent]
    have hself : ((s.learn id c).cell id).content = some s.contents.size := by
      rw [content_learn s id c hunknown hid, if_pos rfl]
    have hfresh : ∀ i : Nat, (s.cell i).content ≠ some s.contents.size :=
      fun i hk => absurd (hs.content_lt i _ hk) (Nat.lt_irrefl _)
    by_cases hii : i = id
    · by_cases hjj : j = id
      · rw [hii, hjj]
      · subst hii
        obtain rfl : s.contents.size = k := Option.some.inj (hself.symm.trans hi)
        rw [hold j hjj] at hj
        exact absurd hj (hfresh j)
    · by_cases hjj : j = id
      · subst hjj
        obtain rfl : s.contents.size = k := Option.some.inj (hself.symm.trans hj)
        rw [hold i hii] at hi
        exact absurd hi (hfresh i)
      · rw [hold i hii] at hi
        rw [hold j hjj] at hj
        exact h.owner_unique i j k hi hj
  child_later := fun i known hknown j hj => by
    by_cases hi : i = id
    · subst hi
      rw [contentOf_learn_self s i c hunknown hid] at hknown
      cases hknown
      have := (children_learn s i c hunknown j hj).1
      omega
    · rw [contentOf_learn_ne s hs id c hunknown i hi] at hknown
      exact h.child_later i known hknown j hj

end Forest

theorem Change.forest {entries : List Bytes} {modes : Bool} {s t : Store}
    (h : Change entries modes s t) (hs : WellFormed s) (hforest : Forest s) : Forest t := by
  cases h with
  | node hashesKeys d => exact hforest.addNode hashesKeys d
  | content hashesKeys c => exact hforest.addContent hs hashesKeys c
  | learn id e c hid he hopen hunknown => exact hforest.learn hs id hid c hunknown
  | mode id hashesKeys _ => exact hforest.setHashesKeys id hashesKeys

theorem Changes.forest {entries : List Bytes} {modes : Bool} {s t : Store}
    (h : Changes entries modes s t) (hs : WellFormed s) (hforest : Forest s) : Forest t :=
  h.keeps_of_wellFormed (fun _ _ hchange => hchange.forest) hs hforest

/-! ## Above and below -/

namespace Forest

variable {s : Store}

theorem lt_of_child (h : Forest s) {parent child : Nat} (hchild : s.Child parent child) :
    parent < child := by
  obtain ⟨c, hc, hmem⟩ := hchild
  exact h.child_later parent c hc child hmem

theorem le_of_below (h : Forest s) {root x : Nat} (hbelow : s.Below root x) : root ≤ x := by
  induction hbelow with
  | refl => exact Nat.le_refl _
  | tail _ hlast ih => exact Nat.le_trans ih (Nat.le_of_lt (h.lt_of_child hlast))

/-- No node is known below itself. -/
theorem no_circle (h : Forest s) (id : Nat) : ¬ Relation.TransGen s.Child id id := by
  have hlt : ∀ x : Nat, Relation.TransGen s.Child id x → id < x := by
    intro x hx
    induction hx with
    | single hchild => exact h.lt_of_child hchild
    | tail _ hlast ih => exact Nat.lt_trans ih (h.lt_of_child hlast)
  exact fun hid => Nat.lt_irrefl id (hlt id hid)

/-- A node has one parent, and one place there. -/
theorem parent_unique (h : Forest s) {a b : Nat} {c c' : Content NodeId} {way way' : Hop}
    {x : NodeId} (hc : s.contentOf a = some c) (hx : c.at? way = some x)
    (hc' : s.contentOf b = some c') (hx' : c'.at? way' = some x) : a = b ∧ way = way' := by
  obtain ⟨k, hk, hcontent⟩ := contentOf_eq_some s a c hc
  obtain ⟨k', hk', hcontent'⟩ := contentOf_eq_some s b c' hc'
  obtain ⟨rfl, hway⟩ := h.place_unique k k' c c' way way' x hcontent hcontent' hx hx'
  exact ⟨h.owner_unique a b k hk hk', hway⟩

/-- Who has a child of a content has the content. -/
theorem content_of_child (h : Forest s) {k : Nat} {c : Content NodeId}
    (hc : s.contents[k]? = some c) {way : Hop} {q j : Nat} (hj : c.at? way = some j)
    (hqj : s.Child q j) : (s.cell q).content = some k := by
  obtain ⟨c', hknown, hmem⟩ := hqj
  obtain ⟨k', hk', hc'⟩ := contentOf_eq_some s q c' hknown
  obtain ⟨way', hway'⟩ := (Content.mem_children_iff j c').mp hmem
  obtain ⟨rfl, _⟩ := h.place_unique k k' c c' way way' j hc hc' hj hway'
  exact hk'

theorem child_unique (h : Forest s) {a b x : Nat} (ha : s.Child a x) (hb : s.Child b x) :
    a = b := by
  obtain ⟨c, hc, hmem⟩ := ha
  obtain ⟨k, hk, hcontent⟩ := contentOf_eq_some s a c hc
  obtain ⟨way, hway⟩ := (Content.mem_children_iff x c).mp hmem
  exact h.owner_unique a b k hk (h.content_of_child hcontent hway hb)

/-- The nodes above a node form a chain. -/
theorem below_chain (h : Forest s) {a b x : Nat} (ha : s.Below a x) (hb : s.Below b x) :
    s.Below a b ∨ s.Below b a := by
  induction ha with
  | refl => exact Or.inr hb
  | tail hap hpx ih =>
      rcases Relation.ReflTransGen.cases_tail hb with rfl | ⟨p', hbp', hp'x⟩
      · exact Or.inl (hap.tail hpx)
      · obtain rfl := h.child_unique hpx hp'x
        exact ih hbp'

/-- What is below one child of a content is not below another, whoever owns the content. -/
theorem places_apart (h : Forest s) {k : Nat} {c : Content NodeId} (hc : s.contents[k]? = some c)
    {way way' : Hop} {i j x : Nat} (hi : c.at? way = some i) (hj : c.at? way' = some j)
    (hne : way ≠ way') (hix : s.Below i x) : ¬ s.Below j x := by
  -- One of the two would be below the other, and so would the node with this content.
  have habove : ∀ (way way' : Hop) (i j : Nat), c.at? way = some i → c.at? way' = some j →
      way ≠ way' → ¬ s.Below i j := by
    intro way way' i j hi hj hne hij
    rcases Relation.ReflTransGen.cases_tail hij with rfl | ⟨q, hiq, hqj⟩
    · exact hne (h.place_unique k k c c way way' j hc hc hi hj).2
    · have hknown : s.contentOf q = some c := by
        rw [contentOf_of_content s q k (h.content_of_child hc hj hqj), hc]
      have hlt := h.child_later q c hknown i (Content.mem_children_of_at? hi)
      exact Nat.lt_irrefl q (Nat.lt_of_lt_of_le hlt (h.le_of_below hiq))
  intro hjx
  rcases h.below_chain hix hjx with hij | hji
  · exact habove way way' i j hi hj hne hij
  · exact habove way' way j i hj hi hne.symm hji

/-- What is below one child of a node is not below another. -/
theorem siblings_apart (h : Forest s) {p i j x : Nat} (hi : s.Child p i) (hj : s.Child p j)
    (hne : i ≠ j) (hix : s.Below i x) : ¬ s.Below j x := by
  obtain ⟨c, hc, hmem⟩ := hi
  obtain ⟨c', hc', hmem'⟩ := hj
  obtain rfl : c = c' := Option.some.inj (hc.symm.trans hc')
  obtain ⟨k, _, hk⟩ := contentOf_eq_some s p c hc
  obtain ⟨way, hway⟩ := (Content.mem_children_iff i c).mp hmem
  obtain ⟨way', hway'⟩ := (Content.mem_children_iff j c).mp hmem'
  have hways : way ≠ way' := by
    rintro rfl
    exact hne (Option.some.inj (hway.symm.trans hway'))
  exact h.places_apart hk hway hway' hways hix

end Forest

end Store

theorem Session.run_empty_forest (steps : List Step)
    (hsteps : ∀ a ∈ steps, a.setsContent = false) : (empty.run steps).1.store.Forest :=
  (empty.run_changes WellFormed.empty steps hsteps).forest Store.WellFormed.empty
    Store.Forest.empty

end Patricia
