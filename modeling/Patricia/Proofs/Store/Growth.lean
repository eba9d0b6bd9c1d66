import Patricia.Store.Basic

/-
  How a store grows.

  What each change of a store does to the cells and contents that were there before, and to those
  that come behind them: new cells and contents are added at the end, a node keeps its digest, a
  content is never changed. `Extends` is what all changes have in common. `WellFormed` says that
  no number in a store points outside of it; every change keeps it, provided that a content given
  to a node is there.
-/

namespace Patricia

/-! ## Children by consecutive numbers -/

namespace Content

theorem numberSlots_map (digest : NodeId → Digest) (slots : List (Option Digest)) (start : Nat)
    (h : ∀ i d, (slots.filterMap id)[i]? = some d → digest (start + i) = d) :
    (numberSlots start slots).map (Option.map digest) = slots := by
  induction slots generalizing start with
  | nil => rfl
  | cons slot rest ih =>
      cases slot with
      | none =>
          simp only [numberSlots, List.map_cons, Option.map_none]
          rw [ih start h]
      | some d =>
          have hd : digest start = d := h 0 d rfl
          have hrest : ∀ i d', (rest.filterMap id)[i]? = some d' → digest (start + 1 + i) = d' := by
            intro i d' hi
            have hstart : start + 1 + i = start + (i + 1) := by omega
            rw [hstart]
            exact h (i + 1) d' hi
          simp only [numberSlots, List.map_cons, Option.map_some, hd]
          rw [ih (start + 1) hrest]

/-- Numbered children stand for the children that they replace. -/
theorem number_map (digest : NodeId → Digest) (c : Content Digest) (start : Nat)
    (h : ∀ i d, c.children[i]? = some d → digest (start + i) = d) :
    (c.number start).map digest = c := by
  cases c with
  | leaf key value => rfl
  | extension path child =>
      have hchild : digest start = child := h 0 child rfl
      simp only [number, map_extension, hchild]
  | branch slots =>
      simp only [number, map_branch]
      rw [numberSlots_map digest slots start h]

theorem filterMap_numberSlots {α : Type} (slots : List (Option α)) (start : Nat) :
    (numberSlots start slots).filterMap id = List.range' start (slots.filterMap id).length := by
  induction slots generalizing start with
  | nil => rfl
  | cons slot rest ih =>
      cases slot with
      | none => exact ih start
      | some a => exact congrArg (start :: ·) (ih (start + 1))

theorem children_number {α : Type} (c : Content α) (start : Nat) :
    (c.number start).children = List.range' start c.children.length := by
  cases c with
  | leaf key value => rfl
  | extension path child => rfl
  | branch slots => exact filterMap_numberSlots slots start

/-- A content over other children is decided by what happens to its own children. -/
theorem map_congr {α β : Type} {f g : α → β} (c : Content α) (h : ∀ a ∈ c.children, f a = g a) :
    c.map f = c.map g := by
  cases c with
  | leaf key value => rfl
  | extension path child =>
      simp only [map_extension]
      rw [h child (List.mem_singleton.mpr rfl)]
  | branch slots =>
      simp only [map_branch, branch.injEq, List.map_inj_left]
      intro slot hslot
      cases slot with
      | none => rfl
      | some a => exact congrArg some (h a (List.mem_filterMap.mpr ⟨some a, hslot, rfl⟩))

end Content

namespace Store

/-! ## Cells and contents after a change -/

theorem cell_of_size_le (s : Store) (id : Nat) (h : s.cells.size ≤ id) : s.cell id = default := by
  unfold cell
  rw [Array.getD_eq_getD_getElem?, Array.getElem?_eq_none h]
  rfl

theorem lt_size_of_content (s : Store) (id : Nat) (k : Nat)
    (h : (s.cell id).content = some k) : id < s.cells.size := by
  refine Nat.lt_of_not_le (fun hle => ?_)
  rw [cell_of_size_le s id hle] at h
  cases h

section AddNode

variable (s : Store) (hashesKeys : Bool) (d : Digest)

@[simp] theorem size_addNode : (s.addNode hashesKeys d).1.cells.size = s.cells.size + 1 := by
  simp [addNode]

@[simp] theorem contents_addNode : (s.addNode hashesKeys d).1.contents = s.contents := rfl

theorem cell_addNode_lt (id : Nat) (h : id < s.cells.size) :
    (s.addNode hashesKeys d).1.cell id = s.cell id := by
  simp only [cell, addNode, Array.getD_eq_getD_getElem?, Array.getElem?_push]
  rw [if_neg (by omega)]

theorem cell_addNode_new :
    (s.addNode hashesKeys d).1.cell s.cells.size = ⟨d, hashesKeys, none⟩ := by
  simp [cell, addNode, Array.getD_eq_getD_getElem?]

theorem content_addNode (id : Nat) :
    ((s.addNode hashesKeys d).1.cell id).content = (s.cell id).content := by
  rcases Nat.lt_trichotomy id s.cells.size with h | rfl | h
  · rw [cell_addNode_lt s hashesKeys d id h]
  · rw [cell_addNode_new, cell_of_size_le s _ (Nat.le_refl _)]
    rfl
  · rw [cell_of_size_le s id (by omega), cell_of_size_le _ id (by rw [size_addNode]; omega)]

theorem contentOf_addNode (id : Nat) :
    (s.addNode hashesKeys d).1.contentOf id = s.contentOf id := by
  unfold contentOf content?
  rw [contents_addNode, content_addNode]

end AddNode

section AddContent

variable (s : Store) (hashesKeys : Bool) (c : Content Digest)

@[simp] theorem size_addContent :
    (s.addContent hashesKeys c).1.cells.size = s.cells.size + c.children.length := by
  simp [addContent]

@[simp] theorem contents_size_addContent :
    (s.addContent hashesKeys c).1.contents.size = s.contents.size + 1 := by
  simp [addContent]

theorem cell_addContent_lt (id : Nat) (h : id < s.cells.size) :
    (s.addContent hashesKeys c).1.cell id = s.cell id := by
  simp only [cell, addContent, Array.getD_eq_getD_getElem?]
  rw [Array.getElem?_append_left h]

/-- The new cells are the children, in order. -/
theorem cell_addContent_new (i : Nat) (d : Digest) (h : c.children[i]? = some d) :
    (s.addContent hashesKeys c).1.cell (s.cells.size + i) = ⟨d, hashesKeys, none⟩ := by
  simp only [cell, addContent, Array.getD_eq_getD_getElem?]
  rw [Array.getElem?_append_right (by omega)]
  simp [h]

theorem content_addContent_of_size_le (id : Nat) (h : s.cells.size ≤ id) :
    ((s.addContent hashesKeys c).1.cell id).content = none := by
  by_cases hlt : id < s.cells.size + c.children.length
  · obtain ⟨i, rfl⟩ := Nat.exists_eq_add_of_le h
    have hi : i < c.children.length := by omega
    rw [cell_addContent_new s hashesKeys c i _ (List.getElem?_eq_getElem hi)]
  · rw [cell_of_size_le _ id (by rw [size_addContent]; omega)]
    rfl

theorem content_addContent (id : Nat) :
    ((s.addContent hashesKeys c).1.cell id).content = (s.cell id).content := by
  rcases Nat.lt_or_ge id s.cells.size with h | h
  · rw [cell_addContent_lt s hashesKeys c id h]
  · rw [content_addContent_of_size_le s hashesKeys c id h, cell_of_size_le s id h]
    rfl

theorem contents_addContent_lt (k : Nat) (h : k < s.contents.size) :
    (s.addContent hashesKeys c).1.contents[k]? = s.contents[k]? := by
  simp only [addContent, Array.getElem?_push]
  rw [if_neg (by omega)]

theorem contents_addContent_new :
    (s.addContent hashesKeys c).1.contents[s.contents.size]? = some (c.number s.cells.size) := by
  simp [addContent]

end AddContent

section Set

variable (s : Store) (id : Nat)

@[simp] theorem size_setContent (c : Option ContentId) :
    (s.setContent id c).cells.size = s.cells.size := by
  simp [setContent]

@[simp] theorem contents_setContent (c : Option ContentId) :
    (s.setContent id c).contents = s.contents := rfl

/-- A cell that is set reads as what it was set to, if it is there. -/
theorem cell_setIfInBounds (x : Cell) (j : Nat) :
    cell ⟨s.cells.setIfInBounds id x, s.contents⟩ j =
      if j = id ∧ id < s.cells.size then x else s.cell j := by
  simp only [cell, Array.getD_eq_getD_getElem?, Array.getElem?_setIfInBounds]
  by_cases hj : id = j
  · subst hj
    by_cases hlt : id < s.cells.size
    · simp [hlt]
    · simp [hlt]
  · rw [if_neg hj, if_neg (fun h => hj h.1.symm)]

theorem cell_setContent (c : Option ContentId) (j : Nat) :
    (s.setContent id c).cell j =
      if j = id ∧ id < s.cells.size then ⟨(s.cell id).digest, (s.cell id).hashesKeys, c⟩
      else s.cell j :=
  cell_setIfInBounds s id _ j

@[simp] theorem digest_setContent (c : Option ContentId) (j : Nat) :
    ((s.setContent id c).cell j).digest = (s.cell j).digest := by
  rw [cell_setContent]
  split
  · next h => rw [h.1]
  · rfl

@[simp] theorem hashesKeys_setContent (c : Option ContentId) (j : Nat) :
    ((s.setContent id c).cell j).hashesKeys = (s.cell j).hashesKeys := by
  rw [cell_setContent]
  split
  · next h => rw [h.1]
  · rfl

@[simp] theorem size_setHashesKeys (hashesKeys : Bool) :
    (s.setHashesKeys id hashesKeys).cells.size = s.cells.size := by
  simp [setHashesKeys]

@[simp] theorem contents_setHashesKeys (hashesKeys : Bool) :
    (s.setHashesKeys id hashesKeys).contents = s.contents := rfl

theorem cell_setHashesKeys (hashesKeys : Bool) (j : Nat) :
    (s.setHashesKeys id hashesKeys).cell j =
      if j = id ∧ id < s.cells.size then ⟨(s.cell id).digest, hashesKeys, (s.cell id).content⟩
      else s.cell j :=
  cell_setIfInBounds s id _ j

@[simp] theorem digest_setHashesKeys (hashesKeys : Bool) (j : Nat) :
    ((s.setHashesKeys id hashesKeys).cell j).digest = (s.cell j).digest := by
  rw [cell_setHashesKeys]
  split
  · next h => rw [h.1]
  · rfl

@[simp] theorem content_setHashesKeys (hashesKeys : Bool) (j : Nat) :
    ((s.setHashesKeys id hashesKeys).cell j).content = (s.cell j).content := by
  rw [cell_setHashesKeys]
  split
  · next h => rw [h.1]
  · rfl

theorem contentOf_setHashesKeys (hashesKeys : Bool) (j : Nat) :
    (s.setHashesKeys id hashesKeys).contentOf j = s.contentOf j := by
  unfold contentOf content?
  rw [content_setHashesKeys, contents_setHashesKeys]

end Set

/-! ## What all changes have in common -/

/-- The nodes and contents of `s` are those of `t` with the same numbers: a node has kept its
digest, a content is what it was. -/
structure Extends (s t : Store) : Prop where
  cells_le : s.cells.size ≤ t.cells.size
  digest_eq : ∀ id : Nat, id < s.cells.size → (t.cell id).digest = (s.cell id).digest
  contents_le : s.contents.size ≤ t.contents.size
  contents_eq : ∀ k : Nat, k < s.contents.size → t.contents[k]? = s.contents[k]?

namespace Extends

theorem refl (s : Store) : Extends s s :=
  ⟨Nat.le_refl _, fun _ _ => rfl, Nat.le_refl _, fun _ _ => rfl⟩

theorem trans {s t u : Store} (h : Extends s t) (h' : Extends t u) : Extends s u where
  cells_le := Nat.le_trans h.cells_le h'.cells_le
  digest_eq := fun id hid =>
    (h'.digest_eq id (Nat.lt_of_lt_of_le hid h.cells_le)).trans (h.digest_eq id hid)
  contents_le := Nat.le_trans h.contents_le h'.contents_le
  contents_eq := fun k hk =>
    (h'.contents_eq k (Nat.lt_of_lt_of_le hk h.contents_le)).trans (h.contents_eq k hk)

theorem addNode (s : Store) (hashesKeys : Bool) (d : Digest) :
    Extends s (s.addNode hashesKeys d).1 where
  cells_le := by simp
  digest_eq := fun id hid => by rw [cell_addNode_lt s hashesKeys d id hid]
  contents_le := by simp
  contents_eq := fun _ _ => rfl

theorem addContent (s : Store) (hashesKeys : Bool) (c : Content Digest) :
    Extends s (s.addContent hashesKeys c).1 where
  cells_le := by simp
  digest_eq := fun id hid => by rw [cell_addContent_lt s hashesKeys c id hid]
  contents_le := by simp
  contents_eq := contents_addContent_lt s hashesKeys c

theorem setContent (s : Store) (id : NodeId) (c : Option ContentId) :
    Extends s (s.setContent id c) where
  cells_le := by simp
  digest_eq := fun j _ => digest_setContent s id c j
  contents_le := by simp
  contents_eq := fun _ _ => rfl

theorem setHashesKeys (s : Store) (id : NodeId) (hashesKeys : Bool) :
    Extends s (s.setHashesKeys id hashesKeys) where
  cells_le := by simp
  digest_eq := fun j _ => digest_setHashesKeys s id hashesKeys j
  contents_le := by simp
  contents_eq := fun _ _ => rfl

end Extends

/-- A content with its children by their digests. -/
def byDigest (s : Store) (c : Content NodeId) : Content Digest := c.map (fun j => (s.cell j).digest)

/-! ## Numbers that point inside -/

/-- Nodes refer to contents that are there, and contents to children that are there. -/
structure WellFormed (s : Store) : Prop where
  content_lt : ∀ id k : Nat, (s.cell id).content = some k → k < s.contents.size
  child_lt : ∀ (k : Nat) (c : Content NodeId), s.contents[k]? = some c →
    ∀ j ∈ c.children, j < s.cells.size

theorem contentOf_of_content (s : Store) (id k : Nat) (h : (s.cell id).content = some k) :
    s.contentOf id = s.contents[k]? := by
  unfold contentOf content?
  rw [h]
  rfl

theorem contentOf_of_none (s : Store) (id : Nat) (h : (s.cell id).content = none) :
    s.contentOf id = none := by
  unfold contentOf content?
  rw [h]
  rfl

theorem contentOf_eq_some (s : Store) (id : Nat) (c : Content NodeId)
    (h : s.contentOf id = some c) :
    ∃ k : Nat, (s.cell id).content = some k ∧ s.contents[k]? = some c := by
  unfold contentOf content? at h
  exact Option.bind_eq_some_iff.mp h

theorem contentOf_setContent_self (s : Store) (id k : Nat) (h : id < s.cells.size) :
    (s.setContent id (some k)).contentOf id = s.contents[k]? := by
  refine contentOf_of_content (s.setContent id (some k)) id k ?_
  rw [cell_setContent, if_pos ⟨rfl, h⟩]

theorem contentOf_setContent_ne (s : Store) (id j : Nat) (c : Option ContentId) (h : j ≠ id) :
    (s.setContent id c).contentOf j = s.contentOf j := by
  unfold contentOf content?
  rw [cell_setContent, if_neg (fun hj => h hj.1), contents_setContent]

namespace WellFormed

theorem empty : WellFormed Store.empty where
  content_lt := fun id k h => by
    have hid : Store.empty.cells.size ≤ id := Nat.zero_le id
    rw [cell_of_size_le _ id hid] at h
    cases h
  child_lt := fun k c h => by simp [Store.empty] at h

/-- The children of a node that is known are there. -/
theorem child_of_contentOf {s : Store} (h : WellFormed s) {id : Nat} {c : Content NodeId}
    (hc : s.contentOf id = some c) : ∀ j ∈ c.children, j < s.cells.size := by
  obtain ⟨k, _, hk⟩ := contentOf_eq_some s id c hc
  exact h.child_lt k c hk

/-- A node of which nothing is known refers to no content. -/
theorem content_of_unknown {s : Store} (h : WellFormed s) {id : Nat} (hc : s.contentOf id = none) :
    (s.cell id).content = none := by
  cases hk : (s.cell id).content with
  | none => rfl
  | some k =>
      have hlt := h.content_lt id k hk
      rw [contentOf_of_content s id k hk, Array.getElem?_eq_getElem hlt] at hc
      cases hc

/-- The children of a node that is known keep their digests when the store grows. -/
theorem byDigest_eq {s t : Store} (h : WellFormed s) (hext : Extends s t) {id : Nat}
    {c : Content NodeId} (hc : s.contentOf id = some c) : t.byDigest c = s.byDigest c :=
  Content.map_congr c (fun j hj => hext.digest_eq j (h.child_of_contentOf hc j hj))

theorem addNode {s : Store} (h : WellFormed s) (hashesKeys : Bool) (d : Digest) :
    WellFormed (s.addNode hashesKeys d).1 where
  content_lt := fun id k hk => by
    rcases Nat.lt_trichotomy id s.cells.size with hid | rfl | hid
    · rw [cell_addNode_lt s hashesKeys d id hid] at hk
      exact h.content_lt id k hk
    · rw [cell_addNode_new] at hk
      cases hk
    · rw [cell_of_size_le _ id (by rw [size_addNode]; omega)] at hk
      cases hk
  child_lt := fun k c hk j hj => by
    rw [size_addNode]
    exact Nat.lt_succ_of_lt (h.child_lt k c hk j hj)

theorem addContent {s : Store} (h : WellFormed s) (hashesKeys : Bool) (c : Content Digest) :
    WellFormed (s.addContent hashesKeys c).1 where
  content_lt := fun id k hk => by
    rw [contents_size_addContent]
    rcases Nat.lt_or_ge id s.cells.size with hid | hid
    · rw [cell_addContent_lt s hashesKeys c id hid] at hk
      exact Nat.lt_succ_of_lt (h.content_lt id k hk)
    · rw [content_addContent_of_size_le s hashesKeys c id hid] at hk
      cases hk
  child_lt := fun k found hk j hj => by
    rw [size_addContent]
    have hlt : k < s.contents.size + 1 := by
      rw [← contents_size_addContent s hashesKeys c]
      exact (Array.getElem?_eq_some_iff.mp hk).1
    rcases Nat.lt_or_ge k s.contents.size with hold | hnew
    · rw [contents_addContent_lt s hashesKeys c k hold] at hk
      exact Nat.lt_of_lt_of_le (h.child_lt k found hk j hj) (Nat.le_add_right _ _)
    · obtain rfl : k = s.contents.size := by omega
      rw [contents_addContent_new] at hk
      cases hk
      rw [Content.children_number, List.mem_range'_1] at hj
      exact hj.2

theorem setContent {s : Store} (h : WellFormed s) (id k : Nat) (hk : k < s.contents.size) :
    WellFormed (s.setContent id (some k)) where
  content_lt := fun j k' hk' => by
    rw [cell_setContent] at hk'
    split at hk'
    · cases hk'
      exact hk
    · exact h.content_lt j k' hk'
  child_lt := fun k' c hc j hj => by
    rw [size_setContent]
    exact h.child_lt k' c hc j hj

theorem setHashesKeys {s : Store} (h : WellFormed s) (id : NodeId) (hashesKeys : Bool) :
    WellFormed (s.setHashesKeys id hashesKeys) where
  content_lt := fun j k hk => by
    rw [content_setHashesKeys] at hk
    exact h.content_lt j k hk
  child_lt := fun k c hc j hj => by
    rw [size_setHashesKeys]
    exact h.child_lt k c hc j hj

/-- New contents change nothing of what is known of the nodes. -/
theorem contentOf_addContent {s : Store} (h : WellFormed s) (hashesKeys : Bool)
    (c : Content Digest) (id : Nat) :
    (s.addContent hashesKeys c).1.contentOf id = s.contentOf id := by
  cases hk : (s.cell id).content with
  | none =>
      rw [contentOf_of_none s id hk, contentOf_of_none _ id (by rw [content_addContent, hk])]
  | some k =>
      rw [contentOf_of_content s id k hk,
        contentOf_of_content _ id k (by rw [content_addContent, hk]),
        contents_addContent_lt s hashesKeys c k (h.content_lt id k hk)]

end WellFormed

end Store

end Patricia
