import Patricia.Proofs.Store.Tree

/-
  What the check of one node changes in the view of another.

  In a forest there are three ways for what a register holds to lie to the node that is checked.
  It is above the node: then its tree changes at the place of the node, and there as the check
  changes the node as a value (`Learned.tree_above`). It is the node or in its tree: then it shows
  what the node, checked as a value, has at that place (`tree_at?`). Or it is apart from the node:
  then it shows what it showed (`Learned.tree_beside`).

  The middle case cannot be left out. A child that a register holds is the child that the check
  goes on with, not a copy of it.
-/

namespace Patricia

namespace Store

/-! ## Places in a store -/

/-- The node that a path of hops leads to. -/
def at? (s : Store) : List Hop → NodeId → Option NodeId
  | [], id => some id
  | way :: rest, id => ((s.contentOf id).bind (Content.at? way)).bind (s.at? rest)

section Places

variable {s t : Store}

theorem at?_cons {way : Hop} {rest : List Hop} {a x : NodeId} :
    s.at? (way :: rest) a = some x ↔
      ∃ c j, s.contentOf a = some c ∧ c.at? way = some j ∧ s.at? rest j = some x := by
  rw [at?, Option.bind_eq_some_iff]
  constructor
  · rintro ⟨j, hj, hx⟩
    obtain ⟨c, hc, hway⟩ := Option.bind_eq_some_iff.mp hj
    exact ⟨c, j, hc, hway, hx⟩
  · rintro ⟨c, j, hc, hway, hx⟩
    exact ⟨j, Option.bind_eq_some_iff.mpr ⟨c, hc, hway⟩, hx⟩

/-- What is below a node has a place there. -/
theorem below_iff_at? (a x : NodeId) : s.Below a x ↔ ∃ p, s.at? p a = some x := by
  constructor
  · intro h
    induction h using Relation.ReflTransGen.head_induction_on with
    | refl => exact ⟨[], rfl⟩
    | head hfirst _ ih =>
        obtain ⟨c, hc, hmem⟩ := hfirst
        obtain ⟨way, hway⟩ := (Content.mem_children_iff _ c).mp hmem
        obtain ⟨p, hp⟩ := ih
        exact ⟨way :: p, at?_cons.mpr ⟨c, _, hc, hway, hp⟩⟩
  · rintro ⟨p, hp⟩
    induction p generalizing a with
    | nil =>
        obtain rfl : a = x := Option.some.inj hp
        exact Relation.ReflTransGen.refl
    | cons way rest ih =>
        obtain ⟨c, j, hc, hway, hx⟩ := at?_cons.mp hp
        have hchild : s.Child a j := ⟨c, hc, Content.mem_children_of_at? hway⟩
        exact hchild.below (ih j hx)

/-- A place in a store is one in the tree. -/
theorem Forest.tree_at? (h : Forest s) (p : List Hop) (a : NodeId) :
    (s.tree a).at? p = (s.at? p a).map s.tree := by
  induction p generalizing a with
  | nil => rfl
  | cons way rest ih =>
      rw [Node.at?, at?, h.tree_content]
      cases s.contentOf a with
      | none => rfl
      | some c =>
          rw [Option.map_some, Option.bind_some, Option.bind_some, Content.at?_map]
          cases c.at? way with
          | none => rfl
          | some j => exact ih j

/-- Places stay while nodes learn. -/
theorem Learned.at? {entries : List Bytes} {scope : NodeId → Prop} (h : Learned entries scope s t)
    (hs : WellFormed s) {p : List Hop} {a x : NodeId} (hp : s.at? p a = some x) :
    t.at? p a = some x := by
  induction p generalizing a with
  | nil => exact hp
  | cons way rest ih =>
      obtain ⟨c, j, hc, hway, hx⟩ := at?_cons.mp hp
      exact at?_cons.mpr ⟨c, j, h.contentOf_of_known hs hc, hway, ih hx⟩

end Places

/-! ## Above and beside the node that learns -/

namespace Learned

variable {entries : List Bytes} {id : NodeId} {s t : Store}
  (h : Learned entries (s.Below id) s t) (hs : WellFormed s) (hf : Forest s) (ht : Forest t)
include h hs hf ht

/-- A content changes at the child that the node is below. -/
theorem map_tree {k : Nat} {c : Content NodeId} (hc : s.contents[k]? = some c) {way : Hop}
    {j : NodeId} (hj : c.at? way = some j) (hbelow : s.Below j id) {f : Node → Node}
    (hat : t.tree j = f (s.tree j)) : c.map t.tree = (c.map s.tree).modifyAt f way := by
  refine Content.map_eq_modifyAt hj hat (fun way' b hne hb => ?_)
  have hlt := hs.child_lt k c hc b (Content.mem_children_of_at? hb)
  refine h.tree_apart hs hf ht hlt (fun x hx hin => ?_)
  exact hf.places_apart hc hb hj hne hx (hbelow.trans hin)

/-- A tree changes at the place of the node that learns. -/
theorem tree_above {f : Node → Node} (hid : t.tree id = f (s.tree id)) (p : List Hop) (a : NodeId)
    (hp : s.at? p a = some id) : t.tree a = (s.tree a).modifyAt f p := by
  induction p generalizing a with
  | nil =>
      obtain rfl : a = id := Option.some.inj hp
      exact hid
  | cons way rest ih =>
      obtain ⟨c, j, hc, hway, hrest⟩ := at?_cons.mp hp
      obtain ⟨k, _, hk⟩ := contentOf_eq_some s a c hc
      have hbelow : s.Below j id := (below_iff_at? j id).mpr ⟨rest, hrest⟩
      have hmap := h.map_tree hs hf ht hk hway hbelow (ih j hrest)
      rw [h.tree_of_known hs ht hc, hmap, Node.modifyAt, hf.tree_content, hc]
      rfl

/-- The tree of a node that is neither above nor below stays. -/
theorem tree_beside {a : Nat} (ha : a < s.cells.size) (habove : ¬ s.Below a id)
    (hbelow : ¬ s.Below id a) : t.tree a = s.tree a := by
  refine h.tree_apart hs hf ht ha (fun x hx hin => ?_)
  exact (hf.below_chain hx hin).elim habove hbelow

/-- So do the trees under a content that is neither above nor that of a node below. -/
theorem map_tree_beside {k : Nat} {c : Content NodeId} (hc : s.contents[k]? = some c)
    (habove : ∀ way j, c.at? way = some j → ¬ s.Below j id)
    (hbelow : ∀ q : Nat, s.Below id q → (s.cell q).content ≠ some k) :
    c.map t.tree = c.map s.tree := by
  refine Content.map_congr c (fun j hj => ?_)
  obtain ⟨way, hway⟩ := (Content.mem_children_iff j c).mp hj
  have hupper := habove way j hway
  refine h.tree_beside hs hf ht (hs.child_lt k c hc j hj) hupper (fun hlower => ?_)
  rcases Relation.ReflTransGen.cases_tail hlower with rfl | ⟨q, hq, hqj⟩
  · exact hupper Relation.ReflTransGen.refl
  · exact hbelow q hq (hf.content_of_child hc hway hqj)

end Learned

end Store

/-! ## Registers -/

/-- A node, or what is known of it, as what is held tells. -/
def Held.viewIn (n : Node) : Held → View
  | .node _ => .node n
  | .content _ => .content n.content

/-- The register that a step sets, if it sets one. -/
def Step.target? : Step → Option String
  | .new target _ _ | .decode target _ _ | .child target _ _ | .content target _ => some target
  | _ => none

namespace Session

theorem hop_eq (s : Session) (h : Held) (way : Hop) :
    s.hop h way =
      ((s.store.content? (s.contentHeld h)).bind (Content.at? way)).map Held.node := by
  unfold hop
  cases s.store.content? (s.contentHeld h) with
  | none => rfl
  | some c => cases c <;> cases way <;> rfl

theorem follow_cons (s : Session) (h : Held) (way : Hop) (rest : List Hop) :
    s.follow h (way :: rest) =
      ((s.store.content? (s.contentHeld h)).bind (Content.at? way)).bind
        (fun j => s.follow (.node j) rest) := by
  rw [follow, hop_eq]
  cases (s.store.content? (s.contentHeld h)).bind (Content.at? way) <;> rfl

theorem follow_node (s : Session) (p : List Hop) (a : NodeId) :
    s.follow (.node a) p = (s.store.at? p a).map Held.node := by
  induction p generalizing a with
  | nil => rfl
  | cons way rest ih =>
      rw [follow_cons, Store.at?]
      show ((s.store.contentOf a).bind (Content.at? way)).bind _ = _
      cases (s.store.contentOf a).bind (Content.at? way) with
      | none => rfl
      | some j => exact ih j

theorem follow_node_eq_some (s : Session) (p : List Hop) (a x : NodeId) :
    s.follow (.node a) p = some (.node x) ↔ s.store.at? p a = some x := by
  rw [follow_node]
  cases s.store.at? p a <;> simp

theorem viewOf_some (s : Session) (k : Nat) (c : Content NodeId)
    (hc : s.store.contents[k]? = some c) :
    s.viewOf (.content (some k)) = .content (some (c.map s.store.tree)) := by
  show View.content ((s.store.contents[k]?).map (Content.map s.store.tree)) = _
  rw [hc, Option.map_some]

/-- What is held is a node of the tree of `root`, the one at the place `q`, or what is known of
it. -/
def Within (s : Session) (root : NodeId) (q : List Hop) (h : Held) : Prop :=
  ∃ j, s.follow (.node root) q = some (.node j) ∧
    (h = .node j ∨ ∃ k, (s.store.cell j).content = some k ∧ h = .content (some k))

section Views

variable {entries : List Bytes} {id : NodeId} {s : Session} {t : Store}
  (h : Store.Learned entries (s.store.Below id) s.store t) (hs : s.WellFormed)
  (hf : s.store.Forest) (ht : t.Forest)
include h hs hf ht

theorem viewOf_above {f : Node → Node} (hid : t.tree id = f (s.store.tree id)) (held : Held)
    (p : List Hop) (hp : s.follow held p = some (.node id)) :
    viewOf ⟨t, s.registers⟩ held = (s.viewOf held).modifyAt f p := by
  cases held with
  | node a =>
      have hat := (follow_node_eq_some s p a id).mp hp
      exact congrArg View.node (h.tree_above hs.store hf ht hid p a hat)
  | content found =>
      cases p with
      | nil => cases hp
      | cons way rest =>
          rw [follow_cons] at hp
          obtain ⟨j, hj, hrest⟩ := Option.bind_eq_some_iff.mp hp
          obtain ⟨c, hc, hway⟩ := Option.bind_eq_some_iff.mp hj
          obtain ⟨k, rfl, hk⟩ := Option.bind_eq_some_iff.mp hc
          have hat := (follow_node_eq_some s rest j id).mp hrest
          have hchild := h.tree_above hs.store hf ht hid rest j hat
          have hbelow : s.store.Below j id := (Store.below_iff_at? j id).mpr ⟨rest, hat⟩
          have hlt := (Array.getElem?_eq_some_iff.mp hk).1
          have hk' : t.contents[k]? = some c := by rw [h.grows.contents_eq k hlt, hk]
          rw [viewOf_some _ k c hk', viewOf_some s k c hk]
          exact congrArg (fun c => View.content (some c))
            (h.map_tree hs.store hf ht hk hway hbelow hchild)

omit hf in
theorem viewOf_within (q : List Hop) (held : Held) (hq : s.Within id q held) :
    ∃ n, (t.tree id).at? q = some n ∧ viewOf ⟨t, s.registers⟩ held = held.viewIn n := by
  obtain ⟨j, hfollow, hheld⟩ := hq
  have hat := h.at? hs.store ((follow_node_eq_some s q id j).mp hfollow)
  refine ⟨t.tree j, by rw [ht.tree_at?, hat, Option.map_some], ?_⟩
  rcases hheld with rfl | ⟨k, hk, rfl⟩
  · rfl
  · have hcontent : t.contentTree (some k) = (t.tree j).content := by
      rw [ht.tree_content, Store.contentTree, Store.contentOf, h.content_of_known hk]
    exact congrArg View.content hcontent

theorem viewOf_apart (held : Held) (hheld : s.store.Holds held)
    (habove : ∀ p, s.follow held p ≠ some (.node id)) (hwithin : ∀ q, ¬ s.Within id q held) :
    viewOf ⟨t, s.registers⟩ held = s.viewOf held := by
  cases held with
  | node a =>
      refine congrArg View.node (h.tree_beside hs.store hf ht hheld (fun hbelow => ?_)
        (fun hbelow => ?_))
      · obtain ⟨p, hp⟩ := (Store.below_iff_at? a id).mp hbelow
        exact habove p ((follow_node_eq_some s p a id).mpr hp)
      · obtain ⟨q, hq⟩ := (Store.below_iff_at? id a).mp hbelow
        exact hwithin q ⟨a, (follow_node_eq_some s q id a).mpr hq, Or.inl rfl⟩
  | content found =>
      cases found with
      | none => rfl
      | some k =>
          have hlt : k < s.store.contents.size := hheld k rfl
          have hk : s.store.contents[k]? = some s.store.contents[k] := Array.getElem?_eq_getElem hlt
          generalize s.store.contents[k] = c at hk
          have hk' : t.contents[k]? = some c := by rw [h.grows.contents_eq k hlt, hk]
          have hsame : c.map t.tree = c.map s.store.tree := by
            refine h.map_tree_beside hs.store hf ht hk (fun way j hway hbelow => ?_)
              (fun q hbelow hkq => ?_)
            · obtain ⟨p, hp⟩ := (Store.below_iff_at? j id).mp hbelow
              refine habove (way :: p) ?_
              rw [follow_cons]
              show ((s.store.contents[k]?).bind (Content.at? way)).bind _ = _
              rw [hk, Option.bind_some, hway, Option.bind_some]
              exact (follow_node_eq_some s p j id).mpr hp
            · obtain ⟨p, hp⟩ := (Store.below_iff_at? id q).mp hbelow
              exact hwithin p ⟨q, (follow_node_eq_some s p id q).mpr hp, Or.inr ⟨k, hkq, rfl⟩⟩
          rw [viewOf_some _ k c hk', viewOf_some s k c hk, hsame]

end Views

/-! ## Every state of a session -/

theorem held?_keep (s : Session) (target name : String) (h : Held)
    (hne : some target ≠ some name) : (s.keep target h).1.held? name = s.held? name := by
  have hname : name ≠ target := fun heq => hne (congrArg some heq.symm)
  unfold keep held? set
  rw [List.lookup_cons, beq_eq_false_iff_ne.mpr hname]

theorem held?_onNode (s : Session) (node name : String) (f : NodeId → Session × Reply)
    (hf : ∀ id, (f id).1.held? name = s.held? name) :
    (s.onNode node f).1.held? name = s.held? name := by
  unfold onNode
  split
  · exact hf _
  · rfl

/-- A register that a step does not set holds what it held. -/
theorem held?_step (s : Session) (a : Step) (name : String) (h : a.target? ≠ some name) :
    (s.step a).1.held? name = s.held? name := by
  cases a with
  | new target digest hashesKeys =>
      simp only [step]
      split
      · rfl
      · exact held?_keep _ target name _ h
  | decode target raw hashesKeys =>
      simp only [step]
      split
      · rfl
      · exact held?_keep _ target name _ h
  | child target source path =>
      simp only [step]
      split
      · exact held?_keep s target name _ h
      · rfl
  | content target source =>
      exact held?_onNode s source name _ (fun id => held?_keep s target name _ h)
  | setContent node source =>
      refine held?_onNode s node name _ (fun id => ?_)
      split <;> rfl
  | verify node key value proof => exact held?_onNode s node name _ (fun id => rfl)
  | setDigest node digest => exact held?_onNode s node name _ (fun id => rfl)
  | setHashesKeys node hashesKeys => exact held?_onNode s node name _ (fun id => rfl)
  | storedKey node key => exact held?_onNode s node name _ (fun id => rfl)
  | setField content field => rfl
  | removeField content field => rfl
  | equal a b =>
      simp only [step]
      split <;> rfl
  | view source =>
      simp only [step]
      split <;> rfl
  | render source =>
      simp only [step]
      split <;> rfl

theorem held?_run (s : Session) (steps : List Step) (name : String)
    (h : ∀ a ∈ steps, a.target? ≠ some name) : (s.run steps).1.held? name = s.held? name := by
  induction steps generalizing s with
  | nil => rfl
  | cons a rest ih =>
      have hrest := ih (s.step a).1 (fun b hb => h b (List.mem_cons_of_mem a hb))
      exact hrest.trans (held?_step s a name (h a List.mem_cons_self))

theorem step_verify (s : Session) {node : String} {id : NodeId} (hnode : s.node? node = some id)
    (key value : Bytes) (proof : List Bytes) :
    (s.step (.verify node key value proof)).1 =
      ⟨(s.store.verify key value proof id).after, s.registers⟩ := by
  simp only [step, onNode, hnode]

/-- What is taken of a node of which nothing is known stays absent. -/
theorem run_content_unknown (s : Session) (hs : s.WellFormed) {node : String} {id : NodeId}
    (hnode : s.node? node = some id) (hunknown : s.store.contentOf id = none) (target : String)
    (later : List Step) (hlater : ∀ a ∈ later, a.target? ≠ some target) :
    ((s.step (.content target node)).1.run later).1.held? target = some (.content none) := by
  rw [held?_run _ later target hlater]
  simp only [step, onNode, hnode]
  rw [hs.store.content_of_unknown hunknown]
  unfold keep held? set
  rw [List.lookup_cons, BEq.rfl]

/-- **A check changes a node wherever it is held, and nothing else.** After any steps that give no
node a content by hand, nodes and contents are a forest without circles. A check of a node that a
register holds, whatever its verdict, leaves every register what it holds; what holds the node at a
place shows its old tree with the node at that place replaced by the node checked as a value; what
is held of the tree of the node shows what the node checked as a value has at its place; and what
is held of neither shows what it showed. What is taken of a node of which nothing is known shows
nothing, whatever is checked later. -/
theorem verify_views (steps : List Step) (hsteps : ∀ a ∈ steps, a.setsContent = false)
    (node : String) (id : NodeId) (hnode : (empty.run steps).1.node? node = some id)
    (key value : Bytes) (proof : List Bytes) :
    let s := (empty.run steps).1
    let t := (s.step (.verify node key value proof)).1
    let checked := ((s.store.tree id).verify key value proof).after
    (s.store.Forest ∧ ∀ j, ¬ Relation.TransGen s.store.Child j j) ∧
      (∀ name h, s.held? name = some h → t.held? name = some h ∧
        (∀ p, s.follow h p = some (.node id) → t.viewOf h =
          (s.viewOf h).modifyAt (fun n => (n.verify key value proof).after) p) ∧
        (∀ q, s.Within id q h → ∃ n, checked.at? q = some n ∧ t.viewOf h = h.viewIn n) ∧
        ((∀ p, s.follow h p ≠ some (.node id)) → (∀ q, ¬ s.Within id q h) →
          t.viewOf h = s.viewOf h)) ∧
      (s.store.contentOf id = none → ∀ target later, (∀ a ∈ later, a.target? ≠ some target) →
        let u := ((s.step (.content target node)).1.run later).1
        u.held? target = some (.content none) ∧ u.viewOf (.content none) = .content none) := by
  intro s t checked
  have hs : s.WellFormed := run_empty_wellFormed steps hsteps
  have hf : s.store.Forest := run_empty_forest steps hsteps
  have hid := hs.node hnode
  have hafter := Store.verify_forest key value proof id s.store hs.store hf hid
  obtain ⟨_, hlearned⟩ := Store.verify_learned key value proof id s.store hs.store hid
  have hvisit := Store.verify_tree key value proof s.store hs.store hf id hid
  have htree : (s.store.verify key value proof id).after.tree id = checked :=
    congrArg Visit.after hvisit
  have ht : t = ⟨(s.store.verify key value proof id).after, s.registers⟩ :=
    s.step_verify hnode key value proof
  refine ⟨⟨hf, hf.no_circle⟩, fun name h hheld => ?_, fun hunknown target later hlater => ?_⟩
  · rw [ht]
    refine ⟨hheld, fun p hp => ?_, fun q hq => ?_, fun habove hwithin => ?_⟩
    · exact viewOf_above hlearned hs hf hafter htree h p hp
    · rw [← htree]
      exact viewOf_within hlearned hs hafter q h hq
    · exact viewOf_apart hlearned hs hf hafter h (hs.held name h hheld) habove hwithin
  · exact ⟨s.run_content_unknown hs hnode hunknown target later hlater, rfl⟩

/-- A node that knows of one child, and that child. -/
def heldChild : List Step :=
  [.new "root" (keccak256 extensionEntry).bytes true, .verify "root" [] [9] [extensionEntry],
    .child "child" "root" [.child]]

/-- The root is above itself, and the child is held of its tree, when the check goes on below. -/
theorem verify_views_heldChild :
    (∀ a ∈ heldChild, a.setsContent = false) ∧
      let s := (empty.run heldChild).1
      let t := (s.step (.verify "root" [] [9] [extensionEntry, leafEntry])).1
      let checked := ((s.store.tree 0).verify [] [9] [extensionEntry, leafEntry]).after
      s.node? "root" = some 0 ∧ s.held? "child" = some (.node 1) ∧
        t.viewOf (.node 0) = .node checked ∧
        ∃ n, checked.at? [.child] = some n ∧ t.viewOf (.node 1) = .node n := by
  have hsteps : ∀ a ∈ heldChild, a.setsContent = false := by decide
  have hroot : (empty.run heldChild).1.node? "root" = some 0 := by decide +kernel
  have hheld : (empty.run heldChild).1.held? "root" = some (.node 0) := by decide +kernel
  have hchild : (empty.run heldChild).1.held? "child" = some (.node 1) := by decide +kernel
  have hfollow : (empty.run heldChild).1.follow (.node 0) [.child] = some (.node 1) := by
    decide +kernel
  obtain ⟨_, hviews, _⟩ := verify_views heldChild hsteps "root" 0 hroot [] [9]
    [extensionEntry, leafEntry]
  obtain ⟨_, habove, _⟩ := hviews "root" (.node 0) hheld
  obtain ⟨_, _, hwithin, _⟩ := hviews "child" (.node 1) hchild
  exact ⟨hsteps, hroot, hchild, habove [] rfl, hwithin [.child] ⟨1, hfollow, Or.inl rfl⟩⟩

/-- What does not contain the checked node can change: a child of the node does not contain it, and
learns with it. -/
theorem view_of_child_changes :
    let s := (empty.run heldChild).1
    let t := (s.step (.verify "root" [] [9] [extensionEntry, leafEntry])).1
    (∀ a ∈ heldChild, a.setsContent = false) ∧ s.node? "root" = some 0 ∧
      s.held? "child" = some (.node 1) ∧ t.held? "child" = some (.node 1) ∧
      (∀ p, s.follow (.node 1) p ≠ some (.node 0)) ∧ t.viewOf (.node 1) ≠ s.viewOf (.node 1) := by
  have hsteps : ∀ a ∈ heldChild, a.setsContent = false := by decide
  have hf := run_empty_forest heldChild hsteps
  refine ⟨hsteps, by decide +kernel, by decide +kernel, by decide +kernel, fun p hp => ?_,
    by decide +kernel⟩
  have hat := (follow_node_eq_some _ p 1 0).mp hp
  exact absurd (hf.le_of_below ((Store.below_iff_at? 1 0).mpr ⟨p, hat⟩)) (by decide)

end Session

end Patricia
