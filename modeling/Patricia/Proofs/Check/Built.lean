import Patricia.Proofs.Check.FirstFault
import Patricia.Proofs.Node.Places

/-
  What a proof leaves behind.

  A node of which nothing was known knows afterwards what the proof says, and nothing more. After a
  proof that is accepted it is `build`: every child that the next entry hashes to is built from the
  rest, all equal slots of a branch included, and of every other child nothing is known, also of
  one that a later entry hashes to. After a proof that is rejected it is `filledTo`: the entries
  before the faulty one stand along the path that takes the lowest matching slot of each branch,
  and so does the faulty one if it fails a check of a leaf, since an entry is remembered before
  these checks.

  A branch visits its matching slots in order until one fails. Of all of them nothing is known, so
  either every one of them passes, or the first one fails and is the only one that is changed
  (`visitSlots_fresh_ok`, `visitSlots_fresh_error`).
-/

namespace Patricia

/-- The node `d` with a proof below it: a child that the next entry hashes to is built from the
rest. -/
def build (hashesKeys : Bool) : List Bytes → Digest → Node
  | [], d => Node.unknown hashesKeys d
  | e :: rest, d =>
    match Content.decode e with
    | .error _ => Node.unknown hashesKeys d
    | .ok c => .mk d hashesKeys (some (c.map (fun child =>
        if rest.head?.map keccak256 = some child then build hashesKeys rest child
        else Node.unknown hashesKeys child)))

/-- The way that a check takes first: the child of an extension, or the lowest slot of a branch
that refers to the next entry. -/
def Content.way? (next : Digest) : Content Digest → Option Hop
  | .leaf _ _ => none
  | .extension _ _ => some .child
  | .branch slots => if some next ∈ slots then some (.slot (slots.idxOf (some next))) else none

/-- The node `d` with the first entries of a proof, as many as given, along the way that a check
takes first. -/
def filledTo (hashesKeys : Bool) : Nat → List Bytes → Digest → Node
  | 0, _, d => Node.unknown hashesKeys d
  | _ + 1, [], d => Node.unknown hashesKeys d
  | n + 1, e :: rest, d =>
    match Content.decode e with
    | .error _ => Node.unknown hashesKeys d
    | .ok c => .mk d hashesKeys (some (
        match rest.head?.bind (fun next => c.way? (keccak256 next)) with
        | none => c.fresh hashesKeys
        | some way =>
          (c.fresh hashesKeys).modifyAt (fun child => filledTo hashesKeys n rest child.digest) way))

namespace EntryCheck

/-- An entry that fails a check of a leaf is remembered. -/
def remembers : EntryCheck → Bool
  | link | decoding => false
  | leafKey | leafValue | leafLast => true

/-- The number of entries remembered of a proof, of which entry `i` fails a check. -/
def kept (i : Nat) (check : EntryCheck) : Nat := if check.remembers then i + 1 else i

theorem kept_succ (i : Nat) (check : EntryCheck) : check.kept (i + 1) = check.kept i + 1 := by
  unfold kept
  split <;> rfl

end EntryCheck

namespace Node

/-! ## Slots of which nothing is known -/

section Visits

variable (branch next : Digest) (visit : Node → Visit Node) (hashesKeys : Bool)

theorem visitSlots_fresh_ok (hok : (visit (unknown hashesKeys next)).verdict = .ok ())
    (slots : List (Option Digest)) (i : Nat) :
    (visitSlots branch next visit i (slots.map (Option.map (unknown hashesKeys)))).after =
      slots.map (Option.map (fun d =>
        if next = d then (visit (unknown hashesKeys d)).after else unknown hashesKeys d)) := by
  induction slots generalizing i with
  | nil => rfl
  | cons slot rest ih =>
      have hrest := ih (i + 1)
      cases slot with
      | none => exact congrArg (none :: ·) hrest
      | some d =>
          have hdigest : (unknown hashesKeys d).digest = d := rfl
          simp only [List.map_cons, Option.map_some, visitSlots, hdigest]
          by_cases hd : next = d
          · subst hd
            rw [if_pos rfl, if_pos rfl, ← hrest]
            simp only [Visit.andThen, Visit.told, hok, Visit.map]
          · rw [if_neg hd, if_neg (fun h => hd h.symm), ← hrest]
            rfl

theorem visitSlots_fresh_error {f : Fault}
    (herror : (visit (unknown hashesKeys next)).verdict = .error f)
    (slots : List (Option Digest)) (i : Nat) :
    (visitSlots branch next visit i (slots.map (Option.map (unknown hashesKeys)))).after =
      (slots.map (Option.map (unknown hashesKeys))).modify (slots.idxOf (some next))
        (Option.map (fun n => (visit n).after)) := by
  induction slots generalizing i with
  | nil => rfl
  | cons slot rest ih =>
      have hrest := ih (i + 1)
      cases slot with
      | none =>
          have hne : (none : Option Digest) ≠ some next := by simp
          rw [List.idxOf_cons_ne _ hne, List.map_cons, List.modify_succ_cons, ← hrest]
          rfl
      | some d =>
          have hdigest : (unknown hashesKeys d).digest = d := rfl
          simp only [List.map_cons, Option.map_some, visitSlots, hdigest]
          by_cases hd : d = next
          · subst hd
            rw [if_pos rfl, List.idxOf_cons_self, List.modify_zero_cons]
            simp only [Visit.andThen, Visit.told, herror, Option.map_some]
          · have hne : some d ≠ some next := fun h => hd (Option.some.inj h)
            rw [if_neg hd, List.idxOf_cons_ne _ hne, List.modify_succ_cons, ← hrest]
            rfl

/-! ## Below a node that has just learned a content -/

theorem refersTo_fresh (slots : List (Option Digest)) :
    refersTo next (slots.map (Option.map (unknown hashesKeys))) = true ↔ some next ∈ slots := by
  have hslots : (slots.map (Option.map (unknown hashesKeys))).map (Option.map digest) = slots :=
    Content.branch.inj (digest_fresh hashesKeys (.branch slots))
  have hrefers := any_slot_iff digest next (slots.map (Option.map (unknown hashesKeys)))
  rwa [hslots] at hrefers

variable (d : Digest) (c : Content Digest)

theorem descend_fresh_ok (hok : (visit (unknown hashesKeys next)).verdict = .ok ())
    (hc : (∃ path, c = .extension path next) ∨ ∃ slots, c = .branch slots ∧ some next ∈ slots) :
    (descend next visit (mk d hashesKeys (some (c.fresh hashesKeys)))).after =
      mk d hashesKeys (some (c.map (fun child =>
        if next = child then (visit (unknown hashesKeys child)).after
        else unknown hashesKeys child))) := by
  obtain ⟨path, rfl⟩ | ⟨slots, rfl, hmem⟩ := hc
  · rw [Content.map_extension, if_pos rfl]
    rfl
  · simp only [descend, Content.fresh, Content.map_branch, content_mk, digest_mk, refersTo_fresh,
      if_pos hmem]
    rw [← visitSlots_fresh_ok d next visit hashesKeys hok slots 0]
    rfl

theorem descend_fresh_error {f : Fault}
    (herror : ∀ slots, c = .branch slots → some next ∈ slots →
      (visit (unknown hashesKeys next)).verdict = .error f) :
    (descend next visit (mk d hashesKeys (some (c.fresh hashesKeys)))).after =
      mk d hashesKeys (some (
        match c.way? next with
        | none => c.fresh hashesKeys
        | some way => (c.fresh hashesKeys).modifyAt (fun n => (visit n).after) way)) := by
  cases c with
  | leaf k v => rfl
  | extension path child => rfl
  | branch slots =>
      simp only [descend, Content.fresh, Content.map_branch, content_mk, digest_mk, refersTo_fresh,
        Content.way?]
      by_cases hmem : some next ∈ slots
      · rw [if_pos hmem, if_pos hmem]
        have hslots :=
          visitSlots_fresh_error d next visit hashesKeys (herror slots rfl hmem) slots 0
        simp only [Content.modifyAt, ← hslots]
        rfl
      · rw [if_neg hmem, if_neg hmem]
        rfl

end Visits

/-! ## Accepted proofs -/

section Build

variable (hashesKeys : Bool) (d : Digest) (e : Bytes) {c : Content Digest}
  (hdecode : Content.decode e = .ok c)
include hdecode

theorem build_singleton : build hashesKeys [e] d = mk d hashesKeys (some (c.fresh hashesKeys)) := by
  rw [build, hdecode]
  rfl

theorem build_cons_cons (next : Bytes) (rest : List Bytes) :
    build hashesKeys (e :: next :: rest) d =
      mk d hashesKeys (some (c.map (fun child =>
        if keccak256 next = child then build hashesKeys (next :: rest) child
        else unknown hashesKeys child))) := by
  rw [build, hdecode]
  simp only [List.head?_cons, Option.map_some, Option.some.injEq]

end Build

theorem verify_unknown_verdict (key value : Bytes) (hashesKeys : Bool) (proof : List Bytes)
    (d : Digest) :
    (verify key value proof (unknown hashesKeys d)).verdict =
      (descent key value proof d).verdict := by
  rw [← verify_unknown_outcome key value hashesKeys proof d, Visit.outcome_verdict]

theorem verify_unknown_ok (key value : Bytes) (hashesKeys : Bool) (proof : List Bytes) (d : Digest)
    (hok : (verify key value proof (unknown hashesKeys d)).verdict = .ok ()) :
    (verify key value proof (unknown hashesKeys d)).after = build hashesKeys proof d := by
  induction proof generalizing d with
  | nil => rfl
  | cons e rest ih =>
      rw [verify_unknown_verdict] at hok
      cases rest with
      | nil =>
          obtain ⟨c, hopen, hagree⟩ := (descent_singleton_ok key value e d).mp hok
          rw [verify_singleton key value e (unknown hashesKeys d) hopen hagree,
            build_singleton hashesKeys d e (openEntry_eq_ok.mp hopen).2]
          rfl
      | cons next rest =>
          obtain ⟨hd, hlink, hrest⟩ := (descent_cons_cons_ok key value e next rest d).mp hok
          obtain ⟨c, hdecode, hagree⟩ := hlink.agree key value
          have hopen : openEntry (unknown hashesKeys d).digest e = .ok c :=
            openEntry_eq_ok.mpr ⟨hd, hdecode⟩
          have hnext : (verify key value (next :: rest)
              (unknown hashesKeys (keccak256 next))).verdict = .ok () := by
            rw [verify_unknown_verdict, hrest]
          have hc : (∃ path, c = .extension path (keccak256 next)) ∨
              ∃ slots, c = .branch slots ∧ some (keccak256 next) ∈ slots := by
            obtain ⟨path, hp⟩ | ⟨slots, hs, hmem⟩ := hlink
            · exact Or.inl ⟨path, Except.ok.inj (hdecode.symm.trans hp)⟩
            · exact Or.inr ⟨slots, Except.ok.inj (hdecode.symm.trans hs), hmem⟩
          have hbelow := descend_fresh_ok (keccak256 next) (verify key value (next :: rest))
            hashesKeys d c hnext hc
          have hchild : ∀ child, (if keccak256 next = child then
              (verify key value (next :: rest) (unknown hashesKeys child)).after
              else unknown hashesKeys child) =
              if keccak256 next = child then build hashesKeys (next :: rest) child
              else unknown hashesKeys child := by
            intro child
            by_cases hsame : keccak256 next = child
            · rw [if_pos hsame, if_pos hsame, ih child (hsame ▸ hnext)]
            · rw [if_neg hsame, if_neg hsame]
          simp only [hchild] at hbelow
          rw [verify_cons_cons key value e rest _ next hopen hagree,
            build_cons_cons hashesKeys d e hdecode]
          exact hbelow

/-! ## Rejected proofs -/

section Filled

variable (hashesKeys : Bool) (d : Digest) (e : Bytes) {c : Content Digest}
  (hdecode : Content.decode e = .ok c)
include hdecode

theorem filledTo_cons_cons (n : Nat) (next : Bytes) (rest : List Bytes) :
    filledTo hashesKeys (n + 1) (e :: next :: rest) d =
      mk d hashesKeys (some (
        match c.way? (keccak256 next) with
        | none => c.fresh hashesKeys
        | some way => (c.fresh hashesKeys).modifyAt
            (fun child => filledTo hashesKeys n (next :: rest) child.digest) way)) := by
  rw [filledTo, hdecode]
  rfl

end Filled

theorem filledTo_leaf (hashesKeys : Bool) (d : Digest) (n : Nat) (e k v : Bytes)
    (rest : List Bytes) (hdecode : Content.decode e = .ok (.leaf k v)) :
    filledTo hashesKeys (n + 1) (e :: rest) d = mk d hashesKeys (some (.leaf k v)) := by
  rw [filledTo, hdecode]
  cases rest <;> rfl

end Node

/-- A first entry that is at fault and remembered is a leaf that hashes to the root. -/
theorem FirstFault.open_leaf {d : Digest} {key value e : Bytes} {rest : List Bytes}
    {check : EntryCheck} {f : Fault} (h : FirstFault ⟨d, key, value, e :: rest⟩ 0 check f)
    (hcheck : check.remembers = true) : ∃ k v, openEntry d e = .ok (.leaf k v) := by
  have hleaf : ∃ k v, Content.decode e = .ok (.leaf k v) := by
    have hfails := h.fails
    cases check with
    | link => cases hcheck
    | decoding => cases hcheck
    | leafKey =>
        obtain ⟨k, v, hc, _⟩ := (leafFault_eq_some_iff _ e f).mp hfails
        exact ⟨k, v, hc⟩
    | leafValue =>
        obtain ⟨k, v, hc, _⟩ := (leafFault_eq_some_iff _ e f).mp hfails
        exact ⟨k, v, hc⟩
    | leafLast =>
        simp only [EntryCheck.faultAt, List.getElem?_cons_zero, Option.bind_some] at hfails
        split at hfails
        · obtain ⟨k, v, hc, _⟩ := (leafFault_eq_some_iff _ e f).mp hfails
          exact ⟨k, v, hc⟩
        · cases hfails
  have hlink : digestFault d e = none := by
    refine h.earlier .link ?_
    cases check <;> simp_all [EntryCheck.remembers, EntryCheck.rank]
  have hd : keccak256 e = d := by
    unfold digestFault at hlink
    split at hlink
    · assumption
    · cases hlink
  obtain ⟨k, v, hc⟩ := hleaf
  exact ⟨k, v, openEntry_eq_ok.mpr ⟨hd, hc⟩⟩

namespace Node

variable (key value : Bytes) (hashesKeys : Bool)

/-- If the first entry passes, its content is filled on the way that is taken first. -/
theorem verify_unknown_follow_error (e next : Bytes) (rest : List Bytes) (d : Digest)
    (c : Content Digest) (f : Fault) (hopen : openEntry d e = .ok c)
    (hagree : c.agree key value = .ok ())
    (hbelow : ∀ d', (verify key value (next :: rest) (unknown hashesKeys d')).verdict = .error f →
      ∃ i check, FirstFault ⟨d', key, value, next :: rest⟩ i check f ∧
        (verify key value (next :: rest) (unknown hashesKeys d')).after =
          filledTo hashesKeys (check.kept i) (next :: rest) d')
    (herror : (descent key value (e :: next :: rest) d).verdict = .error f) :
    ∃ i check, FirstFault ⟨d, key, value, e :: next :: rest⟩ i check f ∧
      (verify key value (e :: next :: rest) (unknown hashesKeys d)).after =
        filledTo hashesKeys (check.kept i) (e :: next :: rest) d := by
  obtain ⟨hd, hdecode⟩ := openEntry_eq_ok.mp hopen
  have hpass := faultAt_zero_of_agree d key value e (next :: rest) c hopen hagree
  have hverify := verify_cons_cons key value e rest (unknown hashesKeys d) next hopen hagree
  rw [descent_cons_cons key value e rest d next hopen hagree] at herror
  have hafter := descend_fresh_error (keccak256 next) (verify key value (next :: rest)) hashesKeys d
    c (f := f) ?_
  · rw [hverify]
    cases c with
    | leaf k v =>
        cases herror
        refine ⟨0, .leafLast, firstFault_of_leaf d key value e next k v rest hopen hagree, ?_⟩
        exact hafter.trans (filledTo_leaf hashesKeys d 0 e k v (next :: rest) hdecode).symm
    | extension path child =>
        have hchild : (verify key value (next :: rest) (unknown hashesKeys child)).verdict =
            .error f := by
          rw [verify_unknown_verdict]
          exact herror
        obtain ⟨i, check, hfirst, hfilled⟩ := hbelow child hchild
        refine ⟨i + 1, check, hfirst.succ (fun other => hpass other (by simp)) ?_, ?_⟩
        · simp [linkFault, referenceFault, hdecode]
        · rw [check.kept_succ, filledTo_cons_cons hashesKeys d e hdecode]
          refine hafter.trans ?_
          simp only [Content.way?, Content.fresh, Content.map_extension, Content.modifyAt, hfilled]
          rfl
    | branch slots =>
        by_cases hmem : some (keccak256 next) ∈ slots
        · have hchild : (verify key value (next :: rest)
              (unknown hashesKeys (keccak256 next))).verdict = .error f := by
            rw [follow_branch_verdict _ _ _ _ hmem] at herror
            rw [verify_unknown_verdict, herror]
          obtain ⟨i, check, hfirst, hfilled⟩ := hbelow (keccak256 next) hchild
          have hlink : linkFault ⟨d, key, value, e :: next :: rest⟩ 1 =
              linkFault ⟨keccak256 next, key, value, next :: rest⟩ 0 := by
            simp [linkFault, referenceFault, digestFault, hdecode, hmem]
          refine ⟨i + 1, check, hfirst.succ (fun other => hpass other (by simp)) hlink, ?_⟩
          rw [check.kept_succ, filledTo_cons_cons hashesKeys d e hdecode]
          refine hafter.trans ?_
          simp only [Content.way?, if_pos hmem]
          refine congrArg (fun content => mk d hashesKeys (some content))
            (Content.modifyAt_congr (fun n hn => ?_))
          rw [Content.fresh, Content.at?_map, Content.at?_slot_eq_some.mpr
            (List.getElem?_idxOf hmem)] at hn
          obtain rfl := Option.some.inj hn
          exact hfilled
        · simp only [Content.follow, if_neg hmem] at herror
          cases herror
          refine ⟨1, .link, firstFault_of_noSuchChild d key value e next rest slots hopen hmem, ?_⟩
          refine hafter.trans ?_
          rw [show EntryCheck.link.kept 1 = 0 + 1 from rfl,
            filledTo_cons_cons hashesKeys d e hdecode]
          simp only [Content.way?, if_neg hmem]
  · rintro slots rfl hmem
    rw [follow_branch_verdict _ _ _ _ hmem] at herror
    rw [verify_unknown_verdict, herror]

theorem verify_unknown_error (proof : List Bytes) (hne : proof ≠ []) (d : Digest) (f : Fault)
    (herror : (verify key value proof (unknown hashesKeys d)).verdict = .error f) :
    ∃ i check, FirstFault ⟨d, key, value, proof⟩ i check f ∧
      (verify key value proof (unknown hashesKeys d)).after =
        filledTo hashesKeys (check.kept i) proof d := by
  induction proof generalizing d with
  | nil => exact absurd rfl hne
  | cons e rest ih =>
      cases hopen : openEntry d e with
      | error g =>
          rw [verify_of_open key value e rest (unknown hashesKeys d) hopen] at herror ⊢
          cases herror
          obtain ⟨check, hfirst⟩ := firstFault_of_open d key value e rest f hopen
          refine ⟨0, check, hfirst, ?_⟩
          have hkept : check.remembers = false := by
            refine Bool.eq_false_iff.mpr (fun hcheck => ?_)
            obtain ⟨k, v, hleaf⟩ := hfirst.open_leaf hcheck
            rw [hopen] at hleaf
            cases hleaf
          simp only [EntryCheck.kept, hkept]
          rfl
      | ok c =>
          cases hagree : c.agree key value with
          | error g =>
              rw [verify_of_agree key value e rest (unknown hashesKeys d) hopen hagree] at herror ⊢
              cases herror
              obtain ⟨check, hfirst⟩ := firstFault_of_agree d key value e rest c f hopen hagree
              refine ⟨0, check, hfirst, ?_⟩
              have hkept : check.remembers = true := by
                refine Bool.of_not_eq_false (fun hcheck => ?_)
                have hrank : check.rank < EntryCheck.leafKey.rank := by
                  cases check <;> first | decide | cases hcheck
                have hfails := hfirst.fails
                rw [faultAt_zero_of_open d key value e rest c hopen check hrank] at hfails
                cases hfails
              obtain ⟨k, v, hleaf⟩ := hfirst.open_leaf hkept
              obtain rfl : c = .leaf k v := Except.ok.inj (hopen.symm.trans hleaf)
              have hdecode := (openEntry_eq_ok.mp hopen).2
              simp only [EntryCheck.kept, hkept, if_true]
              exact (filledTo_leaf hashesKeys d 0 e k v rest hdecode).symm
          | ok _ =>
              cases rest with
              | nil =>
                  rw [verify_singleton key value e (unknown hashesKeys d) hopen hagree] at herror
                  cases herror
              | cons next rest =>
                  rw [verify_unknown_verdict] at herror
                  exact verify_unknown_follow_error key value hashesKeys e next rest d c f hopen
                    hagree (ih (List.cons_ne_nil _ _)) herror

/-- **What a check leaves behind is the proof.** After a check that succeeds, a node of which
nothing was known is the node built from the proof. After one that fails without any entry, still
nothing is known of it. After one that fails at an entry, the entries before the first faulty one
are filled in along the way that takes the lowest matching slot of each branch, and at its end the
faulty one, if it is a leaf that is linked and decodes; nothing else is known. -/
theorem verify_unknown_after (key value : Bytes) (hashesKeys : Bool) (root : Digest)
    (proof : List Bytes) :
    let v := (unknown hashesKeys root).verify key value proof
    (v.verdict = .ok () → v.after = build hashesKeys proof root) ∧
      (v.verdict ≠ .ok () → proof = [] → v.after = unknown hashesKeys root) ∧
      (v.verdict ≠ .ok () → proof ≠ [] →
        ∃ i check f, FirstFault ⟨root, key, value, proof⟩ i check f ∧ v.verdict = .error f ∧
          v.after = filledTo hashesKeys (check.kept i) proof root) := by
  intro v
  refine ⟨verify_unknown_ok key value hashesKeys proof root, ?_, fun hv hne => ?_⟩
  · rintro _ rfl
    rfl
  · cases herror : v.verdict with
    | ok _ => exact absurd herror hv
    | error f =>
        obtain ⟨i, check, hfirst, hafter⟩ :=
          verify_unknown_error key value hashesKeys proof hne root f herror
        exact ⟨i, check, f, hfirst, rfl, hafter⟩

/-- A proof of one value, and the same entries handed in for another value. -/
theorem verify_unknown_after_two_values :
    let root := unknown true (keccak256 extensionEntry)
    let right := root.verify [] [9] [extensionEntry, leafEntry]
    let wrong := root.verify [] [8] [extensionEntry, leafEntry]
    right.verdict = .ok () ∧
      right.after = build true [extensionEntry, leafEntry] (keccak256 extensionEntry) ∧
      wrong.verdict ≠ .ok () ∧
      ∃ i check f,
        FirstFault ⟨keccak256 extensionEntry, [], [8], [extensionEntry, leafEntry]⟩ i check f ∧
        wrong.after =
          filledTo true (check.kept i) [extensionEntry, leafEntry] (keccak256 extensionEntry) := by
  have hright : ((unknown true (keccak256 extensionEntry)).verify [] [9]
      [extensionEntry, leafEntry]).verdict = .ok () := by decide +kernel
  have hwrong : ((unknown true (keccak256 extensionEntry)).verify [] [8]
      [extensionEntry, leafEntry]).verdict ≠ .ok () := by decide +kernel
  obtain ⟨hok, _, _⟩ := verify_unknown_after [] [9] true (keccak256 extensionEntry)
    [extensionEntry, leafEntry]
  obtain ⟨_, _, herror⟩ := verify_unknown_after [] [8] true (keccak256 extensionEntry)
    [extensionEntry, leafEntry]
  obtain ⟨i, check, f, hfirst, _, hafter⟩ := herror hwrong (List.cons_ne_nil _ _)
  exact ⟨hright, hok hright, hwrong, i, check, f, hfirst, hafter⟩

end Node

end Patricia
