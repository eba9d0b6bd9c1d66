import Patricia.Fault

/-
  What a check reports besides its verdict.

  A check of a proof changes what is known, tells each step of its descent, and ends with a
  verdict. It may fail after it has learned something, so the state afterwards is part of the
  result whatever the verdict.
-/

namespace Patricia

/-- Something told while proofs are checked. -/
inductive Event
  /-- The check goes on with the child of an extension. -/
  | descendExtension (node : Digest)
  /-- The check goes on with the child in one slot of a branch. -/
  | descendBranch (node : Digest) (slot : Nat)
  /-- A proof was turned down where only a yes or no was asked for. -/
  | rejected (cause : Fault)
deriving DecidableEq

namespace Event

/-- The text of an event. -/
def message : Event → String
  | descendExtension d => "descending from extension " ++ Hex.marked d.bytes
  | descendBranch d i =>
    "descending from branch " ++ Hex.marked d.bytes ++ " into slot " ++ toString i
  | rejected f => "proof rejected: " ++ f.report

end Event

/-- The state after a check, what it told on the way, and its verdict. -/
structure Visit (σ : Type) where
  after : σ
  events : List Event
  verdict : Except Fault Unit

namespace Visit

variable {σ τ : Type}

/-- Ends with a fault, having changed nothing since `s`. -/
def fail (s : σ) (f : Fault) : Visit σ := ⟨s, [], .error f⟩

/-- Ends well. -/
def done (s : σ) : Visit σ := ⟨s, [], .ok ()⟩

/-- Puts the state into its surroundings. -/
def map (f : σ → τ) (v : Visit σ) : Visit τ := ⟨f v.after, v.events, v.verdict⟩

/-- Tells an event first. -/
def told (e : Event) (v : Visit σ) : Visit σ := ⟨v.after, e :: v.events, v.verdict⟩

/-- Goes on after a check that ended well; `stop` is the state if it did not. -/
def andThen (v : Visit σ) (stop : σ → τ) (next : σ → Visit τ) : Visit τ :=
  match v.verdict with
  | .error f => ⟨stop v.after, v.events, .error f⟩
  | .ok () =>
    let w := next v.after
    ⟨w.after, v.events ++ w.events, w.verdict⟩

end Visit

end Patricia
