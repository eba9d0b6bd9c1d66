import Patricia.Proofs.Check.FirstFault
import Patricia.Store.Verify

/-
  Which faults a check can end with.

  A fault without a family is about the form of what the caller hands in, and a caller who takes a
  rejected proof for a no must never meet one because of the bytes of a proof. None comes up: what
  decoding ends with is in `decodingKinds` (`Content.decode_fault`: packing a path never fails), and
  what a check ends with is in `checkKinds`, against a node of any store, whatever the store holds
  (`Store.verify_fault`), and from a root of which nothing is known (`descent_fault`). Items,
  nibbles and entries are taken apart by patterns, so no read out of range could fail.

  Hence `isProven` answers yes or no to every proof under a root of 32 bytes, as `checkProof`
  accepts or rejects it, and any other root is turned away by both (`checks_end_within_kinds`).

  Not claimed: anything about the depth of nested calls, which grows with the proof.
-/

namespace Patricia

/-- The families of the faults of bytes that encode no node. -/
def decodingKinds : List Kind := [.malformedEncoding, .unknownShape, .invalidHashLength]

/-- The families of the faults with which a check can end. -/
def checkKinds : List Kind :=
  decodingKinds ++ [.hashMismatch, .keyMismatch, .valueMismatch, .missingProof, .internal]

/-- The family of the fault is one of these. -/
def Fault.In (kinds : List Kind) (f : Fault) : Prop := ∃ k ∈ kinds, f.kind? = some k

/-- A value, or a fault of one of these families. -/
def EndsWithin {α : Type} (kinds : List Kind) (result : Except Fault α) : Prop :=
  (∃ a, result = .ok a) ∨ ∃ f, result = .error f ∧ f.In kinds

theorem endsWithin_of_fault {α : Type} {kinds : List Kind} {result : Except Fault α}
    (h : ∀ f, result = .error f → f.In kinds) : EndsWithin kinds result := by
  cases result with
  | ok a => exact Or.inl ⟨a, rfl⟩
  | error f => exact Or.inr ⟨f, rfl, h f rfl⟩

theorem Fault.In.kind_ne_none {kinds : List Kind} {f : Fault} (h : f.In kinds) :
    f.kind? ≠ none := by
  obtain ⟨k, _, hk⟩ := h
  rw [hk]
  exact Option.some_ne_none k

/-! ## Single steps -/

theorem Fault.IsDecoding.mem {f : Fault} (h : f.IsDecoding) : f.In decodingKinds := by
  obtain ⟨k, hk, hparent⟩ := Option.bind_eq_some_iff.mp h
  refine ⟨k, ?_, hk⟩
  cases k with
  | malformedEncoding => decide
  | unknownShape => decide
  | invalidHashLength => decide
  | _ => cases hparent

theorem Fault.In.of_decoding {f : Fault} (h : f.In decodingKinds) : f.In checkKinds := by
  obtain ⟨k, hk, hkind⟩ := h
  exact ⟨k, List.mem_append_left _ hk, hkind⟩

theorem openEntry_fault {d : Digest} {e : Bytes} {f : Fault} (h : openEntry d e = .error f) :
    f.In checkKinds := by
  by_cases hd : keccak256 e = d
  · rw [openEntry_of_eq hd] at h
    exact (Content.decode_fault e f h).mem.of_decoding
  · rw [openEntry_of_ne hd] at h
    cases h
    exact ⟨.hashMismatch, by decide, rfl⟩

theorem agree_fault {α : Type} {key value : Bytes} {c : Content α} {f : Fault}
    (h : c.agree key value = .error f) : f.In checkKinds := by
  cases c with
  | leaf k v =>
      simp only [Content.agree] at h
      split at h
      · cases h
        exact ⟨.keyMismatch, by decide, rfl⟩
      · split at h
        · cases h
          exact ⟨.valueMismatch, by decide, rfl⟩
        · cases h
  | extension path child => cases h
  | branch slots => cases h

theorem emptyProofVerdict_fault {root : Digest} {value : Bytes} {f : Fault}
    (h : emptyProofVerdict root value = .error f) : f.In checkKinds := by
  unfold emptyProofVerdict at h
  split at h
  · cases h
    exact ⟨.missingProof, by decide, rfl⟩
  · split at h
    · cases h
      exact ⟨.valueMismatch, by decide, rfl⟩
    · cases h

/-! ## Checks in a store -/

namespace Store

variable {P : Fault → Prop}

/-- Visits end with the faults of single visits. -/
theorem visitSlots_fault (branch next : Digest) (visit : NodeId → Store → Visit Store)
    (hvisit : ∀ id s f, (visit id s).verdict = .error f → P f) (slots : List (Option NodeId))
    (i : Nat) (s : Store) (f : Fault)
    (h : (visitSlots branch next visit i slots s).verdict = .error f) : P f := by
  induction slots generalizing i s with
  | nil => cases h
  | cons slot rest ih =>
      cases slot with
      | none => exact ih (i + 1) s h
      | some id =>
          simp only [visitSlots] at h
          split at h
          · simp only [Visit.andThen, Visit.told] at h
            cases hv : (visit id s).verdict with
            | error g =>
                rw [hv] at h
                cases h
                exact hvisit id s f hv
            | ok _ =>
                rw [hv] at h
                exact ih (i + 1) _ h
          · exact ih (i + 1) s h

theorem descend_fault (next : Digest) (visit : NodeId → Store → Visit Store)
    (hvisit : ∀ id s f, (visit id s).verdict = .error f → f.In checkKinds) (id : NodeId) (s : Store)
    (f : Fault) (h : (descend next visit id s).verdict = .error f) : f.In checkKinds := by
  unfold descend at h
  split at h
  · next path child _ => exact hvisit child s f h
  · split at h
    · exact visitSlots_fault _ next visit hvisit _ 0 s f h
    · cases h
      exact ⟨.hashMismatch, by decide, rfl⟩
  · cases h
    exact ⟨.internal, by decide, rfl⟩

/-- The induction is on the proof; nothing is asked of the store. -/
theorem verify_fault (key value : Bytes) (proof : List Bytes) (id : NodeId) (s : Store) (f : Fault)
    (h : (verify key value proof id s).verdict = .error f) : f.In checkKinds := by
  induction proof generalizing id s f with
  | nil => exact emptyProofVerdict_fault h
  | cons entry rest ih =>
      simp only [verify] at h
      split at h
      · next hopen =>
          cases h
          exact openEntry_fault hopen
      · split at h
        · next hagree =>
            cases h
            exact agree_fault hagree
        · split at h
          · cases h
          · exact descend_fault _ _ ih id _ f h

end Store

/-! ## Checks of a claim -/

theorem EntryCheck.Raises.mem {check : EntryCheck} {f : Fault} (h : check.Raises f) :
    f.In checkKinds := by
  cases check with
  | link => exact ⟨.hashMismatch, by decide, h⟩
  | decoding => exact Fault.IsDecoding.mem h |>.of_decoding
  | leafKey => exact ⟨.keyMismatch, by decide, h⟩
  | leafValue => exact ⟨.valueMismatch, by decide, h⟩
  | leafLast => exact ⟨.internal, by decide, h⟩

theorem descent_fault (key value : Bytes) (proof : List Bytes) (d : Digest) (f : Fault)
    (h : (descent key value proof d).verdict = .error f) : f.In checkKinds := by
  by_cases hne : proof = []
  · subst hne
    exact emptyProofVerdict_fault h
  · obtain ⟨i, check, hfirst⟩ := exists_firstFault key value proof hne d f h
    exact (Fault.Tells.of_faultAt hfirst.fails).raises.mem

theorem Claim.check_fault (c : Claim) (mode : KeyMode) (f : Fault)
    (h : (c.check mode).result = .error f) : f.In checkKinds :=
  descent_fault _ _ _ _ f ((c.check_error_iff mode f).mp h)

/-! ## A yes or no -/

section Answer

variable {root key value : Bytes} {proof : List Bytes} {mode : KeyMode}

theorem checkProof_of_length_ne (h : root.length ≠ 32) :
    checkProof root key value proof mode = ⟨[], .error (.digestSize root.length)⟩ := by
  simp only [checkProof, Digest.ofBytes, Digest.ofBytes?_eq_none.mpr h]

theorem checkProof_of_length_eq (h : root.length = 32) :
    checkProof root key value proof mode = Claim.check ⟨⟨root, h⟩, key, value, proof⟩ mode :=
  checkProof_digest ⟨root, h⟩ key value proof mode

/-- A fault is one of the proof under a digest, or else of the root. -/
theorem checkProof_fault {f : Fault}
    (h : (checkProof root key value proof mode).result = .error f) :
    (root.length = 32 ∧ f.In checkKinds) ∨
      (root.length ≠ 32 ∧ f = .digestSize root.length) := by
  by_cases hlen : root.length = 32
  · rw [checkProof_of_length_eq hlen] at h
    exact Or.inl ⟨hlen, Claim.check_fault _ mode f h⟩
  · rw [checkProof_of_length_ne hlen] at h
    exact Or.inr ⟨hlen, (Except.error.inj h).symm⟩

theorem isProven_of_ok {n : Node} (h : (checkProof root key value proof mode).result = .ok n) :
    isProven root key value proof mode =
      ⟨(checkProof root key value proof mode).events, .ok true⟩ := by
  simp only [isProven, h]

theorem isProven_of_kind {f : Fault} {k : Kind}
    (h : (checkProof root key value proof mode).result = .error f) (hk : f.kind? = some k) :
    isProven root key value proof mode =
      ⟨(checkProof root key value proof mode).events ++ [.rejected f], .ok false⟩ := by
  simp only [isProven, h, hk]

theorem isProven_of_length_ne (h : root.length ≠ 32) :
    isProven root key value proof mode = ⟨[], .error (.digestSize root.length)⟩ := by
  simp only [isProven, checkProof_of_length_ne h, Fault.kind?]

end Answer

theorem Fault.report_of_kind {f : Fault} {k : Kind} (h : f.kind? = some k) :
    f.report = k.name ++ ": " ++ f.message := by
  unfold Fault.report
  rw [h]

/-- A yes or no, as the result of a check has it: an accepted proof is told as it was checked, and
a rejected one is told to be rejected, after that, with the name and the text of its fault. -/
structure AnsweredBy (t : Told Node) (b : Told Bool) : Prop where
  yes : b.result = .ok true ↔ ∃ n, t.result = .ok n
  no : b.result = .ok false ↔ ∃ f, t.result = .error f ∧ f.kind? ≠ none
  tells_yes : ∀ n, t.result = .ok n → b.events = t.events
  tells_no : ∀ f k, t.result = .error f → f.kind? = some k →
    b.events = t.events ++ [.rejected f] ∧
      (Event.rejected f).message = "proof rejected: " ++ (k.name ++ ": " ++ f.message)

namespace AnsweredBy

variable (events : List Event)

theorem accepted (n : Node) : AnsweredBy ⟨events, .ok n⟩ ⟨events, .ok true⟩ where
  yes := by simp
  no := by simp
  tells_yes _ _ := rfl
  tells_no _ _ h := by cases h

theorem rejected {f : Fault} {k : Kind} (hk : f.kind? = some k) :
    AnsweredBy ⟨events, .error f⟩ ⟨events ++ [.rejected f], .ok false⟩ where
  yes := by simp
  no := by simp [hk]
  tells_yes _ h := by cases h
  tells_no g k' h hk' := by
    obtain rfl := Except.error.inj h
    exact ⟨rfl, congrArg ("proof rejected: " ++ ·) (Fault.report_of_kind hk')⟩

/-- A fault without a family is not taken for a no. -/
theorem refused {f : Fault} (hk : f.kind? = none) :
    AnsweredBy ⟨events, .error f⟩ ⟨events, .error f⟩ where
  yes := by simp
  no := by simp [hk]
  tells_yes _ _ := rfl
  tells_no g k' h hk' := by
    obtain rfl := Except.error.inj h
    rw [hk] at hk'
    cases hk'

end AnsweredBy

theorem answeredBy_isProven (root key value : Bytes) (proof : List Bytes) (mode : KeyMode) :
    AnsweredBy (checkProof root key value proof mode) (isProven root key value proof mode) := by
  unfold isProven
  obtain ⟨events, result⟩ := checkProof root key value proof mode
  cases result with
  | ok n => exact AnsweredBy.accepted events n
  | error f =>
      cases hk : f.kind? with
      | none =>
          simp only [hk]
          exact AnsweredBy.refused events hk
      | some k =>
          simp only [hk]
          exact AnsweredBy.rejected events hk

theorem checkProof_endsWithin {root : Bytes} (hlen : root.length = 32) (key value : Bytes)
    (proof : List Bytes) (mode : KeyMode) :
    EndsWithin checkKinds (checkProof root key value proof mode).result := by
  refine endsWithin_of_fault fun f hf => ?_
  obtain ⟨_, hin⟩ | ⟨hne, _⟩ := checkProof_fault hf
  · exact hin
  · exact absurd hlen hne

theorem checkProof_fault_without_kind_iff (root key value : Bytes) (proof : List Bytes)
    (mode : KeyMode) :
    (∃ f, (checkProof root key value proof mode).result = .error f ∧ f.kind? = none) ↔
      root.length ≠ 32 := by
  constructor
  · rintro ⟨f, hf, hkind⟩
    obtain ⟨_, hin⟩ | ⟨hne, _⟩ := checkProof_fault hf
    · exact absurd hkind hin.kind_ne_none
    · exact hne
  · intro hne
    rw [checkProof_of_length_ne hne]
    exact ⟨_, rfl, rfl⟩

theorem isProven_fault_iff (root key value : Bytes) (proof : List Bytes) (mode : KeyMode) :
    (∃ f, (isProven root key value proof mode).result = .error f) ↔ root.length ≠ 32 := by
  constructor
  · rintro ⟨f, hf⟩ hlen
    rcases checkProof_endsWithin hlen key value proof mode with ⟨n, hn⟩ | ⟨g, hg, k, _, hk⟩
    · rw [isProven_of_ok hn] at hf
      cases hf
    · rw [isProven_of_kind hg hk] at hf
      cases hf
  · intro hne
    rw [isProven_of_length_ne hne]
    exact ⟨_, rfl⟩

/-- **Checks end with the faults of their families.** Bytes are decoded, or at fault as an encoding;
a check of any proof against any node of any store is passed, or ends in one of the families of a
check. Hence the yes or no to a proof is what the check of it says, and no other fault escapes from
either than that of a root which is no digest. -/
theorem checks_end_within_kinds :
    (∀ raw hashesKeys, EndsWithin decodingKinds (Content.decodeNodes raw hashesKeys)) ∧
    (∀ key value proof (id : NodeId) (s : Store),
      EndsWithin checkKinds (Store.verify key value proof id s).verdict) ∧
    ∀ root key value proof mode,
      let t := checkProof root key value proof mode
      let b := isProven root key value proof mode
      AnsweredBy t b ∧
      (root.length = 32 → EndsWithin checkKinds t.result) ∧
      ((∃ f, t.result = .error f ∧ f.kind? = none) ↔ root.length ≠ 32) ∧
      ((∃ f, b.result = .error f) ↔ root.length ≠ 32) ∧
      (root.length ≠ 32 →
        t.result = .error (.digestSize root.length) ∧
          b.result = .error (.digestSize root.length)) := by
  refine ⟨?_, ?_, ?_⟩
  · intro raw hashesKeys
    refine endsWithin_of_fault fun f hf => ?_
    exact (Content.decode_fault raw f (Content.map_fault _ _ _ hf)).mem
  · exact fun key value proof id s => endsWithin_of_fault (Store.verify_fault key value proof id s)
  · intro root key value proof mode t b
    refine ⟨answeredBy_isProven root key value proof mode,
      fun hlen => checkProof_endsWithin hlen key value proof mode,
      checkProof_fault_without_kind_iff root key value proof mode,
      isProven_fault_iff root key value proof mode, fun hne => ⟨?_, ?_⟩⟩
    · exact congrArg Told.result (checkProof_of_length_ne hne)
    · exact congrArg Told.result (isProven_of_length_ne hne)

/-- A proof that leads to another value is answered with no, and told to be rejected behind the
step that the check went down; under a root without bytes there is no answer. -/
theorem checks_end_within_kinds_other_value :
    let root := (keccak256 extensionEntry).bytes
    let proof := [extensionEntry, leafEntry]
    root.length = 32 ∧ (isProven root [] [8] proof {}).result = .ok false ∧
      (isProven root [] [8] proof {}).events =
        [.descendExtension (keccak256 extensionEntry), .rejected (.leafValue [9] [8])] ∧
      ([] : Bytes).length ≠ 32 ∧
      (isProven [] [] [8] proof {}).result = .error (.digestSize 0) := by
  intro root proof
  obtain ⟨_, _, hall⟩ := checks_end_within_kinds
  have ht : (checkProof root [] [8] proof {}).result = .error (.leafValue [9] [8]) := by
    rw [checkProof_digest, Claim.check_error_iff]
    decide +kernel
  have hevents : (checkProof root [] [8] proof {}).events =
      [.descendExtension (keccak256 extensionEntry)] := by
    rw [checkProof_digest]
    decide +kernel
  have hanswer := (hall root [] [8] proof {}).1
  have hempty : ([] : Bytes).length ≠ 32 := by decide
  refine ⟨Digest.size_eq _, hanswer.no.mpr ⟨_, ht, by simp [Fault.kind?]⟩, ?_, hempty,
    ((hall [] [] [8] proof {}).2.2.2.2 hempty).2⟩
  rw [(hanswer.tells_no _ .valueMismatch ht rfl).1, hevents]
  rfl

end Patricia
