import Patricia.Node.Verify

/-
  Checking one claim against a trusted root.

  Each check starts from a root of which nothing is known. `checkProof` returns the root with the
  nodes on the proven path; `isProven` asks for a yes or no and takes a fault of the proof for a
  no. A root that is no digest is a fault of the caller under both.
-/

namespace Patricia

/-- A claim with the proof handed in for it. -/
structure Claim where
  root : Digest
  key : Bytes
  value : Bytes
  proof : List Bytes
deriving DecidableEq

/-- How keys are understood: whether the trie stores their digests, and whether the claimed key
is given as the caller knows it, so that the stored one has to be found first. -/
structure KeyMode where
  hashesKeys : Bool := true
  keyIsRaw : Bool := false
deriving DecidableEq

/-- A result with what was told on the way. -/
structure Told (α : Type) where
  events : List Event
  result : Except Fault α

namespace Claim

/-- The key that the proof has to lead to. -/
def soughtKey (c : Claim) (mode : KeyMode) : Bytes :=
  if mode.keyIsRaw then trieKey mode.hashesKeys c.key else c.key

/-- Checks a claim from scratch. -/
def visit (c : Claim) (mode : KeyMode) : Visit Node :=
  (Node.unknown mode.hashesKeys c.root).verify (c.soughtKey mode) c.value c.proof

/-- Checks a claim; the root with what the proof taught is the result. -/
def check (c : Claim) (mode : KeyMode) : Told Node :=
  let v := c.visit mode
  ⟨v.events, v.verdict.map (fun _ => v.after)⟩

end Claim

/-- Checks that `proof` shows `key` to have `value` under `root`. -/
def checkProof (root key value : Bytes) (proof : List Bytes) (mode : KeyMode) : Told Node :=
  match Digest.ofBytes root with
  | .error f => ⟨[], .error f⟩
  | .ok d => Claim.check ⟨d, key, value, proof⟩ mode

/-- Whether `proof` shows `key` to have `value` under `root`. -/
def isProven (root key value : Bytes) (proof : List Bytes) (mode : KeyMode) : Told Bool :=
  let t := checkProof root key value proof mode
  match t.result with
  | .ok _ => ⟨t.events, .ok true⟩
  | .error f =>
    match f.kind? with
    | none => ⟨t.events, .error f⟩
    | some _ => ⟨t.events ++ [.rejected f], .ok false⟩

end Patricia
