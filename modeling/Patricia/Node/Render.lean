import Patricia.Hex.Basic
import Patricia.Node.Basic

/-
  The text form of nodes and of what is known of them.

  Byte strings are shown in hexadecimal with a mark. The mode of a node is not shown.
-/

namespace Patricia

mutual
/-- The text form of a node. -/
def Node.render : Node → String
  | .mk d _ c => "Node(hash=" ++ Hex.marked d.bytes ++ ", data=" ++ Node.renderContent c ++ ")"

/-- The text form of what is known of a node. -/
def Node.renderContent : Option (Content Node) → String
  | none => "UnknownNode"
  | some (.leaf key value) =>
    "LeafNode(key=" ++ Hex.marked key ++ ", value=" ++ Hex.marked value ++ ")"
  | some (.extension path child) =>
    "ExtensionNode(key=" ++ Hex.marked path ++ ", child=" ++ Node.render child ++ ")"
  | some (.branch slots) => "BranchNode([" ++ Node.renderSlots slots ++ "])"

/-- The text forms of slots, separated by commas. -/
def Node.renderSlots : List (Option Node) → String
  | [] => ""
  | [s] => Node.renderSlot s
  | s :: rest => Node.renderSlot s ++ ", " ++ Node.renderSlots rest

/-- The text form of a slot. -/
def Node.renderSlot : Option Node → String
  | none => "None"
  | some n => Node.render n
end

end Patricia
