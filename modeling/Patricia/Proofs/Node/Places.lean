import Patricia.Store.Session
import Patricia.Proofs.Store.Growth

/-
  Places in a tree.

  A place is a path of hops: the child of an extension, or one slot of a branch. `Content.at?` and
  `Node.at?` read what stands at a place, `modifyAt` changes it there and nowhere else.
  `Content.map_eq_modifyAt` tells when two ways to fill a content with children differ by one such
  change: they agree on all other children.
-/

namespace Patricia

namespace Content

variable {α β : Type}

/-- The child that one hop leads to. -/
def at? : Hop → Content α → Option α
  | .child, extension _ child => some child
  | .slot i, branch slots => slots[i]?.bind id
  | _, _ => none

/-- Changes the child that one hop leads to, where there is one. -/
def modifyAt (f : α → α) : Hop → Content α → Content α
  | .child, extension path child => extension path (f child)
  | .slot i, branch slots => branch (slots.modify i (Option.map f))
  | _, c => c

theorem at?_slot_eq_some {slots : List (Option α)} {i : Nat} {a : α} :
    (branch slots).at? (.slot i) = some a ↔ slots[i]? = some (some a) := by
  simp [at?, Option.bind_eq_some_iff]

theorem at?_map (f : α → β) (way : Hop) (c : Content α) :
    (c.map f).at? way = (c.at? way).map f := by
  cases c with
  | leaf key value => cases way <;> rfl
  | extension path child => cases way <;> rfl
  | branch slots =>
      cases way with
      | child => rfl
      | slot i =>
          simp only [map_branch, at?, List.getElem?_map]
          cases slots[i]? with
          | none => rfl
          | some slot => rfl

/-- The children are what single hops lead to. -/
theorem mem_children_iff (a : α) (c : Content α) : a ∈ c.children ↔ ∃ way, c.at? way = some a := by
  cases c with
  | leaf key value =>
      constructor
      · intro h
        cases h
      · rintro ⟨way, hway⟩
        cases way <;> cases hway
  | extension path child =>
      constructor
      · intro h
        exact ⟨.child, congrArg some (List.mem_singleton.mp h).symm⟩
      · rintro ⟨way, hway⟩
        cases way with
        | child => exact List.mem_singleton.mpr (Option.some.inj hway).symm
        | slot i => cases hway
  | branch slots =>
      have hmem : a ∈ (branch slots).children ↔ some a ∈ slots := by
        simp [children, List.mem_filterMap]
      rw [hmem, List.mem_iff_getElem?]
      constructor
      · rintro ⟨i, hi⟩
        exact ⟨.slot i, at?_slot_eq_some.mpr hi⟩
      · rintro ⟨way, hway⟩
        cases way with
        | child => cases hway
        | slot i => exact ⟨i, at?_slot_eq_some.mp hway⟩

theorem mem_children_of_at? {c : Content α} {way : Hop} {a : α} (h : c.at? way = some a) :
    a ∈ c.children := (mem_children_iff a c).mpr ⟨way, h⟩

theorem slot_unique (slots : List (Option α)) (hnodup : (slots.filterMap id).Nodup) (a : α)
    (i j : Nat) (hi : slots[i]? = some (some a)) (hj : slots[j]? = some (some a)) : i = j := by
  have hmem : ∀ (rest : List (Option α)) (k : Nat), rest[k]? = some (some a) →
      a ∈ rest.filterMap id :=
    fun rest k hk => List.mem_filterMap.mpr ⟨some a, List.mem_of_getElem? hk, rfl⟩
  induction slots generalizing i j with
  | nil => simp at hi
  | cons slot rest ih =>
      have hrest : (rest.filterMap id).Nodup :=
        hnodup.sublist ((List.sublist_cons_self slot rest).filterMap id)
      have hhead : slot = some a → a ∉ rest.filterMap id := by
        rintro rfl
        exact (List.nodup_cons.mp hnodup).1
      cases i with
      | zero =>
          cases j with
          | zero => rfl
          | succ j => exact absurd (hmem rest j hj) (hhead (Option.some.inj hi))
      | succ i =>
          cases j with
          | zero => exact absurd (hmem rest i hi) (hhead (Option.some.inj hj))
          | succ j => rw [ih hrest i j hi hj]

/-- Where no child stands in two places, one hop leads to it. -/
theorem at?_unique {c : Content α} (hnodup : c.children.Nodup) {way way' : Hop} {a : α}
    (h : c.at? way = some a) (h' : c.at? way' = some a) : way = way' := by
  cases c with
  | leaf key value => cases way <;> cases h
  | extension path child =>
      cases way with
      | slot i => cases h
      | child =>
          cases way' with
          | slot i => cases h'
          | child => rfl
  | branch slots =>
      cases way with
      | child => cases h
      | slot i =>
          cases way' with
          | child => cases h'
          | slot j =>
              rw [slot_unique slots hnodup a i j (at?_slot_eq_some.mp h) (at?_slot_eq_some.mp h')]

/-! ### Contents that agree at every hop -/

/-- A content without its children. -/
def shape (c : Content α) : Content Unit := c.map (fun _ => ())

theorem shape_map (f : α → β) (c : Content α) : (c.map f).shape = c.shape := map_map _ f c

theorem shape_modifyAt (f : α → α) (way : Hop) (c : Content α) :
    (c.modifyAt f way).shape = c.shape := by
  cases c with
  | leaf key value => cases way <;> rfl
  | extension path child => cases way <;> rfl
  | branch slots =>
      cases way with
      | child => rfl
      | slot i =>
          refine congrArg branch (List.ext_getElem? (fun j => ?_))
          rw [List.getElem?_map, List.getElem?_map, List.getElem?_modify]
          rcases slots[j]? with _ | _ | a
          · rfl
          · by_cases hij : i = j <;> simp [hij]
          · by_cases hij : i = j <;> simp [hij]

/-- Contents are the same that have one shape and the same children. -/
theorem ext_at? {c c' : Content α} (hshape : c.shape = c'.shape)
    (hat : ∀ way, c.at? way = c'.at? way) : c = c' := by
  cases c with
  | leaf key value =>
      cases c' with
      | leaf key' value' =>
          obtain ⟨rfl, rfl⟩ := Content.leaf.inj hshape
          rfl
      | extension path child => cases hshape
      | branch slots => cases hshape
  | extension path child =>
      cases c' with
      | leaf key value => cases hshape
      | extension path' child' =>
          obtain ⟨rfl, _⟩ := Content.extension.inj hshape
          rw [Option.some.inj (hat .child)]
      | branch slots => cases hshape
  | branch slots =>
      cases c' with
      | leaf key value => cases hshape
      | extension path child => cases hshape
      | branch slots' =>
          refine congrArg branch (List.ext_getElem? (fun i => ?_))
          have hi : slots[i]?.bind id = slots'[i]?.bind id := hat (.slot i)
          have hslots := congrArg (fun rest => rest[i]?) (Content.branch.inj hshape)
          simp only [List.getElem?_map] at hslots
          cases hslot : slots[i]? with
          | none =>
              rw [hslot] at hslots
              exact (Option.map_eq_none_iff.mp hslots.symm).symm
          | some slot =>
              rw [hslot] at hslots hi
              obtain ⟨slot', hslot', _⟩ := Option.map_eq_some_iff.mp hslots.symm
              rw [hslot'] at hi ⊢
              exact congrArg some hi

theorem at?_modifyAt_self (f : α → α) (way : Hop) (c : Content α) :
    (c.modifyAt f way).at? way = (c.at? way).map f := by
  cases c with
  | leaf key value => cases way <;> rfl
  | extension path child => cases way <;> rfl
  | branch slots =>
      cases way with
      | child => rfl
      | slot i =>
          simp only [modifyAt, at?, List.getElem?_modify, if_true]
          rcases slots[i]? with _ | _ | a <;> rfl

theorem at?_modifyAt_ne (f : α → α) {way way' : Hop} (h : way' ≠ way) (c : Content α) :
    (c.modifyAt f way).at? way' = c.at? way' := by
  cases c with
  | leaf key value => cases way <;> rfl
  | extension path child =>
      cases way with
      | slot i => rfl
      | child =>
          cases way' with
          | slot i => rfl
          | child => exact absurd rfl h
  | branch slots =>
      cases way with
      | child => rfl
      | slot i =>
          cases way' with
          | child => rfl
          | slot j =>
              have hij : i ≠ j := fun heq => h (congrArg Hop.slot heq.symm)
              simp only [modifyAt, at?, List.getElem?_modify, if_neg hij]
              cases slots[j]? <;> rfl

theorem modifyAt_congr {f g : α → α} {way : Hop} {c : Content α}
    (h : ∀ a, c.at? way = some a → f a = g a) : c.modifyAt f way = c.modifyAt g way := by
  refine ext_at? (by rw [shape_modifyAt, shape_modifyAt]) (fun way' => ?_)
  by_cases hway : way' = way
  · subst hway
    rw [at?_modifyAt_self, at?_modifyAt_self]
    exact Option.map_congr h
  · rw [at?_modifyAt_ne f hway, at?_modifyAt_ne g hway]

/-- Two fillings of a content that agree on all children but one differ by a change there. -/
theorem map_eq_modifyAt {g g' : α → β} {f : β → β} {way : Hop} {c : Content α} {a : α}
    (ha : c.at? way = some a) (hat : g a = f (g' a))
    (hother : ∀ way' b, way' ≠ way → c.at? way' = some b → g b = g' b) :
    c.map g = (c.map g').modifyAt f way := by
  refine ext_at? (by rw [shape_modifyAt, shape_map, shape_map]) (fun way' => ?_)
  by_cases hway : way' = way
  · subst hway
    rw [at?_modifyAt_self, at?_map, at?_map, ha]
    exact congrArg some hat
  · rw [at?_modifyAt_ne f hway, at?_map, at?_map]
    exact Option.map_congr (fun b hb => hother way' b hway hb)

/-- Contents that two fillings make the same, two other fillings make the same that agree wherever
the first two do. -/
theorem map_eq_map {γ δ : Type} {f : α → γ} {g : β → γ} {f' : α → δ} {g' : β → δ} {c : Content α}
    {c' : Content β} (h : c.map f = c'.map g)
    (hchildren : ∀ way a b, c.at? way = some a → c'.at? way = some b → f a = g b → f' a = g' b) :
    c.map f' = c'.map g' := by
  have hshape : c.shape = c'.shape := by rw [← shape_map f c, h, shape_map]
  refine ext_at? (by rw [shape_map, shape_map, hshape]) (fun way => ?_)
  have hway : (c.at? way).map f = (c'.at? way).map g := by rw [← at?_map, ← at?_map, h]
  rw [at?_map, at?_map]
  cases ha : c.at? way with
  | none =>
      rw [ha] at hway
      rw [Option.map_eq_none_iff.mp hway.symm]
      rfl
  | some a =>
      rw [ha] at hway
      obtain ⟨b, hb, hab⟩ := Option.map_eq_some_iff.mp hway.symm
      rw [hb]
      exact congrArg some (hchildren way a b ha hb hab.symm)

end Content

namespace Node

/-- The node at a place. -/
def at? : List Hop → Node → Option Node
  | [], n => some n
  | way :: rest, n => (n.content.bind (Content.at? way)).bind (at? rest)

/-- Changes the node at a place, where there is one. -/
def modifyAt (f : Node → Node) : List Hop → Node → Node
  | [], n => f n
  | way :: rest, n => n.withContent (n.content.map (Content.modifyAt (modifyAt f rest) way))

theorem at?_append (p q : List Hop) (n : Node) : n.at? (p ++ q) = (n.at? p).bind (at? q) := by
  induction p generalizing n with
  | nil => rfl
  | cons way rest ih =>
      simp only [List.cons_append, at?]
      cases n.content.bind (Content.at? way) with
      | none => rfl
      | some child => exact ih child

end Node

namespace View

/-- Changes the node at a place below what is viewed. -/
def modifyAt (f : Node → Node) : List Hop → View → View
  | p, .node n => .node (n.modifyAt f p)
  | [], .content c => .content c
  | way :: rest, .content c => .content (c.map (Content.modifyAt (Node.modifyAt f rest) way))

end View

end Patricia
