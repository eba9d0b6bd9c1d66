import Patricia.Proofs.Store.Frame

/-
  The trie without entries.

  Its root is the digest of an entry that there is, the encoded empty byte string. Still no entry
  is ever accepted against this root: the encoded string is no node, and as long as no other entry
  has its digest (`NoOtherEntry`), every other one is turned down for the digest. So a claim
  against this root stands and falls with its value (`EmptyTrieVerdict`), and a check leaves a node
  with this root as it was.

  Nothing is ever learned of such a node, then, also not as a child of another one. `Spares` is
  what one change does to the nodes with this root; a run of steps adds changes up
  (`Session.run_spares`). Contents that are given by hand to other nodes do no harm.

  Only a first call ever meets an empty proof. `answering` is a check with every empty proof
  handed to an arbitrary function, and agrees with the check itself on all other proofs.
-/

namespace Patricia

/-! ## The encoded empty string -/

/-- The encoding of the empty byte string. -/
def emptyStringEntry : Bytes := [0x80]

theorem keccak256_emptyStringEntry : keccak256 emptyStringEntry = emptyTrieRoot := by
  decide +kernel

theorem Content.decode_emptyStringEntry : decode emptyStringEntry = .error .rlpString := by
  cbv

/-- No entry but the encoded empty string has the digest of the trie without entries. -/
def NoOtherEntry (entries : List Bytes) : Prop :=
  ∀ e ∈ entries, keccak256 e = emptyTrieRoot → e = emptyStringEntry

instance (entries : List Bytes) : Decidable (NoOtherEntry entries) :=
  inferInstanceAs (Decidable (∀ e ∈ entries, _))

/-- Why an entry is not accepted under the root of the trie without entries. -/
def emptyTrieFault (e : Bytes) : Fault :=
  if e = emptyStringEntry then .rlpString else .entryDigest (keccak256 e) emptyTrieRoot

theorem openEntry_emptyTrieRoot {entries : List Bytes} (hother : NoOtherEntry entries) {e : Bytes}
    (he : e ∈ entries) : openEntry emptyTrieRoot e = .error (emptyTrieFault e) := by
  unfold emptyTrieFault
  by_cases hstring : e = emptyStringEntry
  · rw [if_pos hstring, hstring, openEntry_of_eq keccak256_emptyStringEntry,
      Content.decode_emptyStringEntry]
  · rw [if_neg hstring, openEntry_of_ne (fun h => hstring (hother e he h))]

/-! ## Verdicts -/

/-- The verdict is the fault, and the fault is of the family. -/
def FailsAs (verdict : Except Fault Unit) (f : Fault) (k : Kind) : Prop :=
  verdict = .error f ∧ f.kind? = some k

/-- What the verdict on a claim against the trie without entries has to be. -/
structure EmptyTrieVerdict (value : Bytes) (proof : List Bytes) (verdict : Except Fault Unit) :
    Prop where
  ok_iff : verdict = .ok () ↔ proof = [] ∧ value = [0]
  otherValue : proof = [] → value ≠ [0] → FailsAs verdict (.emptyTrieValue value) .valueMismatch
  emptyString : ∀ rest, proof = [0x80] :: rest → FailsAs verdict .rlpString .malformedEncoding
  otherEntry : ∀ e rest, proof = e :: rest → e ≠ [0x80] →
    FailsAs verdict (.entryDigest (keccak256 e) emptyTrieRoot) .hashMismatch

/-- The verdict on a claim against the trie without entries. -/
def emptyTrieVerdict (value : Bytes) : List Bytes → Except Fault Unit
  | [] => emptyProofVerdict emptyTrieRoot value
  | e :: _ => .error (emptyTrieFault e)

theorem emptyTrieVerdict_spec (value : Bytes) (proof : List Bytes) :
    EmptyTrieVerdict value proof (emptyTrieVerdict value proof) := by
  cases proof with
  | nil =>
      have hverdict : emptyTrieVerdict value [] =
          if value ≠ [0] then .error (.emptyTrieValue value) else .ok () := by
        rw [emptyTrieVerdict, emptyProofVerdict, if_neg (fun h => h rfl)]
        rfl
      rw [hverdict]
      refine ⟨by by_cases hvalue : value = [0] <;> simp [hvalue], fun _ hvalue => ?_, ?_, ?_⟩
      · rw [if_pos hvalue]
        exact ⟨rfl, rfl⟩
      · intro rest h
        cases h
      · intro e rest h
        cases h
  | cons e rest =>
      refine ⟨by simp [emptyTrieVerdict], fun h => absurd h (List.cons_ne_nil e rest),
        fun rest' h => ?_, fun e' rest' h hother => ?_⟩
      · obtain ⟨rfl, _⟩ := List.cons.inj h
        exact ⟨rfl, rfl⟩
      · obtain ⟨rfl, _⟩ := List.cons.inj h
        have hstring : e ≠ emptyStringEntry := hother
        rw [emptyTrieVerdict, emptyTrieFault, if_neg hstring]
        exact ⟨rfl, rfl⟩

theorem emptyProofVerdict_of_ne {root : Digest} (h : root ≠ emptyTrieRoot) (value : Bytes) :
    emptyProofVerdict root value = .error (.proofMissing root) := by
  unfold emptyProofVerdict
  rw [if_pos h]

/-- A check under the root of the trie without entries changes nothing and tells nothing. -/
theorem Node.verify_emptyTrie (key value : Bytes) (proof : List Bytes) (n : Node)
    (hroot : n.digest = emptyTrieRoot) (hother : NoOtherEntry proof) :
    n.verify key value proof = ⟨n, [], emptyTrieVerdict value proof⟩ := by
  cases proof with
  | nil => rw [verify, hroot, emptyTrieVerdict]
  | cons e rest =>
      simp only [verify, hroot, openEntry_emptyTrieRoot hother List.mem_cons_self]
      rfl

namespace Store

theorem verify_emptyTrie (key value : Bytes) (proof : List Bytes) (id : NodeId) (s : Store)
    (hroot : (s.cell id).digest = emptyTrieRoot) (hother : NoOtherEntry proof) :
    s.verify key value proof id = ⟨s, [], emptyTrieVerdict value proof⟩ := by
  cases proof with
  | nil => rw [verify, hroot, emptyTrieVerdict]
  | cons e rest =>
      simp only [verify, hroot, openEntry_emptyTrieRoot hother List.mem_cons_self]
      rfl

/-! ## What is known -/

/-- The nodes of `t` with the root of the trie without entries had this root in `s`, if they were
there, and what is known of them is what was known. -/
def Spares (s t : Store) : Prop :=
  ∀ id : NodeId, (t.cell id).digest = emptyTrieRoot →
    (s.cell id).digest = emptyTrieRoot ∧ (t.cell id).content = (s.cell id).content

theorem Spares.refl (s : Store) : s.Spares s := fun _ h => ⟨h, rfl⟩

theorem Spares.trans {s t u : Store} (h : s.Spares t) (h' : t.Spares u) : s.Spares u := by
  intro id hroot
  obtain ⟨hroot', hcontent'⟩ := h' id hroot
  obtain ⟨hroot'', hcontent⟩ := h id hroot'
  exact ⟨hroot'', hcontent'.trans hcontent⟩

/-- A number without a node reads as a node with the root of the trie without entries, so only
contents have to be looked at. -/
theorem Extends.spares {s t : Store} (h : Extends s t)
    (hcontent : ∀ id : NodeId, (t.cell id).digest = emptyTrieRoot →
      (t.cell id).content = (s.cell id).content) : s.Spares t := by
  intro id hroot
  refine ⟨?_, hcontent id hroot⟩
  obtain hid | hid := Nat.lt_or_ge id s.cells.size
  · rw [← h.digest_eq id hid, hroot]
  · rw [cell_of_size_le s id hid]
    rfl

theorem Change.spares {entries : List Bytes} {modes : Bool} {s t : Store}
    (h : Change entries modes s t) (hother : NoOtherEntry entries) : s.Spares t := by
  refine h.extends.spares (fun id hroot => ?_)
  cases h with
  | node hashesKeys d => exact content_addNode s hashesKeys d id
  | content hashesKeys c => exact content_addContent s hashesKeys c id
  | mode j hashesKeys _ => exact content_setHashesKeys s j hashesKeys id
  | learn j e c hj he hopen hunknown =>
      rw [content_learn s j c hunknown hj]
      by_cases hid : id = j
      · -- The node that learns does not have this root, since its entry was opened.
        subst hid
        have hchange : Change entries modes s (s.learn id c) := .learn s id e c hj he hopen hunknown
        rw [hchange.extends.digest_eq id hj] at hroot
        rw [hroot, openEntry_emptyTrieRoot hother he] at hopen
        cases hopen
      · rw [if_neg hid, content_addContent]

theorem Changes.spares {entries : List Bytes} {modes : Bool} {s t : Store}
    (h : Changes entries modes s t) (hother : NoOtherEntry entries) : s.Spares t :=
  h.keeps (P := s.Spares) (fun _ _ hchange hs => hs.trans (hchange.spares hother)) (Spares.refl s)

theorem setContent_spares (s : Store) (id : NodeId) (c : Option ContentId)
    (h : (s.cell id).digest ≠ emptyTrieRoot) : s.Spares (s.setContent id c) := by
  intro j hroot
  rw [digest_setContent] at hroot
  refine ⟨hroot, ?_⟩
  have hj : j ≠ id := fun hj => h (hj ▸ hroot)
  rw [cell_setContent, if_neg (fun hset => hj hset.1)]

/-! ## Empty proofs -/

/-- A check in which `onEmpty` takes the place of the check of an empty proof. -/
def answering (key value : Bytes) (onEmpty : NodeId → Store → Visit Store) :
    List Bytes → NodeId → Store → Visit Store
  | [] => onEmpty
  | entry :: rest => call key value (fun _ => answering key value onEmpty rest) (entry :: rest)

/-- No call but a first one is made with an empty proof. -/
theorem answering_eq_verify (key value : Bytes) (onEmpty : NodeId → Store → Visit Store)
    (proof : List Bytes) (hne : proof ≠ []) :
    answering key value onEmpty proof = verify key value proof := by
  induction proof with
  | nil => exact absurd rfl hne
  | cons entry rest ih =>
      have hcall : answering key value onEmpty (entry :: rest) =
          call key value (verify key value) (entry :: rest) :=
        call_congr key value _ _ _ ih
      rw [hcall]
      funext id s
      exact call_verify key value (entry :: rest) id s

end Store

namespace Session

/-- The step gives no node with the root of the trie without entries a content by hand. -/
def sparesEmptyTrie (s : Session) : Step → Bool
  | .setContent node _ =>
    (s.node? node).all (fun id => (s.store.cell id).digest ≠ emptyTrieRoot)
  | _ => true

/-- No step of the run gives such a node a content by hand. -/
def sparesInRun (s : Session) : List Step → Bool
  | [] => true
  | a :: rest => s.sparesEmptyTrie a && (s.step a).1.sparesInRun rest

theorem step_spares (s : Session) (hs : s.WellFormed) (a : Step) (ha : s.sparesEmptyTrie a = true)
    (hother : NoOtherEntry (s.handedIn a)) : s.store.Spares (s.step a).1.store := by
  cases hset : a.setsContent with
  | false => exact (s.step_moves hs a hset).changes.spares hother
  | true =>
      cases a with
      | setContent node source =>
          simp only [step, onNode]
          split
          · next id hid =>
              simp only [sparesEmptyTrie, hid, Option.all_some, decide_eq_true_eq] at ha
              split
              · exact s.store.setContent_spares id _ ha
              · exact Store.Spares.refl _
          · exact Store.Spares.refl _
      | _ => cases hset

/-- Nothing is ever learned of a node with the root of the trie without entries. -/
theorem run_spares (s : Session) (hs : s.WellFormed) (steps : List Step)
    (hsteps : s.sparesInRun steps = true) (hother : NoOtherEntry (s.handedInRun steps)) :
    s.store.Spares (s.run steps).1.store := by
  induction steps generalizing s with
  | nil => exact Store.Spares.refl _
  | cons a rest ih =>
      obtain ⟨ha, hrest⟩ := Bool.and_eq_true_iff.mp hsteps
      have hfirst := s.step_spares hs a ha (fun e he => hother e (List.mem_append_left _ he))
      exact hfirst.trans (ih (s.step a).1 (s.step_wellFormed hs a) hrest
        (fun e he => hother e (List.mem_append_right _ he)))

/-- From the start on, nothing is known of such a node, be it a root or a child. -/
theorem run_empty_unknown (steps : List Step) (hsteps : empty.sparesInRun steps = true)
    (hother : NoOtherEntry (empty.handedInRun steps)) (id : NodeId)
    (hroot : ((empty.run steps).1.store.cell id).digest = emptyTrieRoot) :
    ((empty.run steps).1.store.cell id).content = none := by
  obtain ⟨_, hcontent⟩ := empty.run_spares WellFormed.empty steps hsteps hother id hroot
  rw [hcontent]
  rfl

end Session

/-! ## Every claim and every run -/

/-- **The trie without entries needs no entry, and takes none.** As long as no other entry has its
digest: a claim against its root is accepted exactly if the proof is empty and the value is the
byte `00`; the encoded empty string is turned down as no node, every other entry for its digest,
whatever follows; and nothing is learned. Against every other root the empty proof is turned down.
In no run, of checks and of any other steps but those that give such a node a content by hand, does
a node with this root get a content. Only a first call meets an empty proof. -/
theorem empty_trie_takes_no_entry :
    keccak256 [0x80] = emptyTrieRoot ∧
    (∀ key value proof, NoOtherEntry proof →
      (∀ (s : Store) (id : NodeId), (s.cell id).digest = emptyTrieRoot →
        ∃ v, s.verify key value proof id = ⟨s, [], v⟩ ∧ EmptyTrieVerdict value proof v) ∧
      ∀ n : Node, n.digest = emptyTrieRoot →
        ∃ v, n.verify key value proof = ⟨n, [], v⟩ ∧ EmptyTrieVerdict value proof v) ∧
    (∀ key value,
      (∀ (s : Store) (id : NodeId), (s.cell id).digest ≠ emptyTrieRoot →
        ∃ v, s.verify key value [] id = ⟨s, [], v⟩ ∧
          FailsAs v (.proofMissing (s.cell id).digest) .missingProof) ∧
      ∀ n : Node, n.digest ≠ emptyTrieRoot →
        ∃ v, n.verify key value [] = ⟨n, [], v⟩ ∧
          FailsAs v (.proofMissing n.digest) .missingProof) ∧
    (∀ (s : Session) (steps : List Step), s.WellFormed → s.sparesInRun steps = true →
      NoOtherEntry (s.handedInRun steps) → s.store.Spares (s.run steps).1.store) ∧
    (∀ steps : List Step, Session.empty.sparesInRun steps = true →
      NoOtherEntry (Session.empty.handedInRun steps) →
      ∀ id : NodeId, ((Session.empty.run steps).1.store.cell id).digest = emptyTrieRoot →
        ((Session.empty.run steps).1.store.cell id).content = none) ∧
    ∀ key value onEmpty proof, proof ≠ [] →
      Store.answering key value onEmpty proof = Store.verify key value proof := by
  refine ⟨keccak256_emptyStringEntry, fun key value proof hother => ⟨fun s id hroot => ?_,
    fun n hroot => ?_⟩, fun key value => ⟨fun s id hroot => ?_, fun n hroot => ?_⟩,
    fun s steps hs hsteps hother => s.run_spares hs steps hsteps hother,
    Session.run_empty_unknown, Store.answering_eq_verify⟩
  · exact ⟨_, s.verify_emptyTrie key value proof id hroot hother, emptyTrieVerdict_spec value proof⟩
  · exact ⟨_, n.verify_emptyTrie key value proof hroot hother, emptyTrieVerdict_spec value proof⟩
  · exact ⟨_, rfl, emptyProofVerdict_of_ne hroot value, rfl⟩
  · exact ⟨_, by rw [Node.verify], emptyProofVerdict_of_ne hroot value, rfl⟩

/-- An entry of an extension with an empty path, which leads to the trie without entries. -/
def emptyChildEntry : Bytes := [0xe2, 0x00, 0xa0] ++ emptyTrieRoot.bytes

/-- The encoded empty string is handed in for the trie without entries, as a root and as the child
of an extension, whose content is given to another node. -/
def emptyStringSteps : List Step :=
  [.new "root" emptyTrieRoot.bytes true, .verify "root" [] [0] [emptyStringEntry],
    .new "parent" (keccak256 emptyChildEntry).bytes true,
    .verify "parent" [] [0] [emptyChildEntry, emptyStringEntry],
    .new "other" (keccak256 leafEntry).bytes true, .content "content" "parent",
    .setContent "other" (some "content"), .verify "root" [] [0] []]

/-- Afterwards the extension is known, its child is not, and neither is accepted without an entry
or with one of the child. -/
theorem empty_trie_takes_no_entry_in_steps :
    let s := (Session.empty.run emptyStringSteps).1.store
    s.contentOf 1 = some (.extension [] 2) ∧ s.contentOf 3 = some (.extension [] 2) ∧
      (s.cell 2).digest = emptyTrieRoot ∧ (s.cell 2).content = none ∧
      Session.empty.store.Spares s ∧
      (∃ v, s.verify [] [0] [emptyStringEntry, leafEntry] 2 = ⟨s, [], v⟩ ∧
        FailsAs v .rlpString .malformedEncoding) ∧
      (∃ v, s.verify [] [0] [] 1 = ⟨s, [], v⟩ ∧
        FailsAs v (.proofMissing (s.cell 1).digest) .missingProof) ∧
      Store.answering [] [0] (fun _ t => .fail t .notRlp) [emptyChildEntry] 1 s =
        s.verify [] [0] [emptyChildEntry] 1 := by
  intro s
  obtain ⟨_, hempty, hmissing, hspares, hunknown, hanswering⟩ := empty_trie_takes_no_entry
  have hsteps : Session.empty.sparesInRun emptyStringSteps = true := by decide +kernel
  have hother : NoOtherEntry (Session.empty.handedInRun emptyStringSteps) := by decide +kernel
  have hother' : NoOtherEntry [emptyStringEntry, leafEntry] := by decide +kernel
  have hroot : (s.cell 2).digest = emptyTrieRoot := by decide +kernel
  have hparent : (s.cell 1).digest ≠ emptyTrieRoot := by decide +kernel
  obtain ⟨v, hv, hverdict⟩ := (hempty [] [0] _ hother').1 s 2 hroot
  exact ⟨by decide +kernel, by decide +kernel, hroot, hunknown _ hsteps hother 2 hroot,
    hspares _ _ Session.WellFormed.empty hsteps hother, ⟨v, hv, hverdict.emptyString _ rfl⟩,
    (hmissing [] [0]).1 s 1 hparent, by rw [hanswering _ _ _ _ (List.cons_ne_nil _ _)]⟩

end Patricia
