import Patricia.Check
import Patricia.Hex.Parse
import Patricia.Cli.Document
import Patricia.Cli.Request

/-
  From options and a document to a claim.

  The document is an object, or a list, which stands for an object with that list as its proof.
  Options win over its fields, entries given as plain words over its proof. All shapes of the
  entries are looked at before any field, and their digits behind all fields.
-/

namespace Patricia.Cli

/-- The parts of a claim that are single texts. -/
inductive Field
  | root
  | key
  | value
deriving DecidableEq, Repr

/-- The name of a field in documents and messages. -/
def Field.name : Field → String
  | root => "root"
  | key => "key"
  | value => "value"

/-- Why no claim can be made from options and a document. -/
inductive LoadFault
  | unread (f : ReadFault)
  | documentKind
  | entriesKind
  | entryKind (index : Nat)
  | missing (field : Field)
  | fieldKind (field : Field)
  | malformed (f : Fault)
deriving DecidableEq

/-- The fault is one of those that are told; that a document is nested too deep is not. -/
def LoadFault.isTold : LoadFault → Bool
  | unread (.unread .tooDeep) => false
  | _ => true

/-- The text of a fault of loading. -/
def LoadFault.message : LoadFault → String
  | unread f => f.message
  | documentKind => "proof file must hold a list or an object"
  | entriesKind => "proof must be a list of hex strings"
  | entryKind i => "proof entry " ++ toString i ++ " must be a hex string"
  | missing field => "no " ++ field.name ++ " given"
  | fieldKind field => field.name ++ " must be a hex string"
  | malformed f => f.message

/-- The fields of a document. -/
def documentFields : Json → Except LoadFault (List (String × Json))
  | .list items => .ok [("proof", .list items)]
  | .object fields => .ok fields
  | _ => .error .documentKind

/-- The option that gives a field. -/
def VerifyOptions.setting (o : VerifyOptions) : Field → Setting
  | .root => o.root
  | .key => o.key
  | .value => o.value

/-- The text of a field, from its option or else from the document. -/
def pick (o : VerifyOptions) (fields : List (String × Json)) (field : Field) :
    Except LoadFault String :=
  match o.setting field with
  | .text t => .ok t
  | .void => .error (.fieldKind field)
  | .absent =>
    match Json.field? fields field.name with
    | none | some .null => .error (.missing field)
    | some (.text t) => .ok t
    | some _ => .error (.fieldKind field)

/-- The texts of entries, of which the first has the given index. -/
def entryTexts : Nat → List Json → Except LoadFault (List String)
  | _, [] => .ok []
  | i, .text t :: rest => (entryTexts (i + 1) rest).map (t :: ·)
  | i, _ :: _ => .error (.entryKind i)

/-- The entries, from plain words or else from the document. -/
def pickEntries (o : VerifyOptions) (fields : List (String × Json)) :
    Except LoadFault (List String) :=
  if o.entries ≠ [] then .ok o.entries
  else
    match Json.field? fields "proof" with
    | none => .ok []
    | some (.list items) => entryTexts 0 items
    | some _ => .error .entriesKind

/-- The bytes of entries. -/
def parseEntries : List String → Except Fault (List Bytes)
  | [] => .ok []
  | t :: rest =>
    match Hex.parse t with
    | .error f => .error f
    | .ok b => (parseEntries rest).map (b :: ·)

/-- A fault of the data as a fault of loading. -/
def lift {α : Type} : Except Fault α → Except LoadFault α
  | .ok a => .ok a
  | .error f => .error (.malformed f)

/-- The claim made by options over the fields of a document. -/
def loadFields (o : VerifyOptions) (fields : List (String × Json)) : Except LoadFault Claim := do
  let texts ← pickEntries o fields
  let root ← lift (Hex.parseDigest (← pick o fields .root))
  let key ← lift (Hex.parse (← pick o fields .key))
  let value ← lift (Hex.parse (← pick o fields .value))
  let proof ← lift (parseEntries texts)
  return ⟨root, key, value, proof⟩

/-- The claim made by options over a document, if there is one. -/
def loadDocument (o : VerifyOptions) (document : Option Json) : Except LoadFault Claim :=
  match document with
  | none => loadFields o []
  | some d => documentFields d >>= loadFields o

/-- The claim made by options over the document in a source, if one is named. -/
def load (host : Host) (inputs : Inputs) (o : VerifyOptions) :
    Option String → Except LoadFault Claim
  | none => loadDocument o none
  | some source =>
    match inputs.document host source with
    | .error f => .error (.unread f)
    | .ok d => loadDocument o (some d)

end Patricia.Cli
