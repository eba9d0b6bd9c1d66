import Patricia.Bytes

/-
  What a node of the trie holds.

  A content is a leaf, an extension or a branch over some type of children: digests while an entry
  is only decoded, nodes in a tree, node numbers in a store. `map` changes the children and
  nothing else.
-/

namespace Patricia

/-- The slots of a branch: sixteen for the next nibble of a path, and the value slot. -/
def slotCount : Nat := 17

/-- The content of a node with children of type `α`. -/
inductive Content (α : Type)
  | leaf (key value : Bytes)
  | extension (path : Bytes) (child : α)
  | branch (slots : List (Option α))
deriving DecidableEq

namespace Content

variable {α β γ : Type}

/-- The same content over other children. -/
def map (f : α → β) : Content α → Content β
  | leaf key value => leaf key value
  | extension path child => extension path (f child)
  | branch slots => branch (slots.map (Option.map f))

/-- The children, in order. -/
def children : Content α → List α
  | leaf _ _ => []
  | extension _ child => [child]
  | branch slots => slots.filterMap id

@[simp] theorem map_leaf (f : α → β) (key value : Bytes) :
    map f (leaf key value) = leaf key value := rfl

@[simp] theorem map_extension (f : α → β) (path : Bytes) (child : α) :
    map f (extension path child) = extension path (f child) := rfl

@[simp] theorem map_branch (f : α → β) (slots : List (Option α)) :
    map f (branch slots) = branch (slots.map (Option.map f)) := rfl

theorem map_id (c : Content α) : c.map id = c := by
  cases c <;> simp

theorem map_map (g : β → γ) (f : α → β) (c : Content α) :
    (c.map f).map g = c.map (g ∘ f) := by
  cases c <;> simp [Function.comp_def]

end Content

end Patricia
