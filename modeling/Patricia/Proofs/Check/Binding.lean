import Mathlib.Data.List.Chain
import Patricia.Proofs.Check.FirstFault

/-
  What a root binds.

  Where keccak-256 has no collision among the entries at hand, the hash of an entry is as good as
  the entry. So two accepted proofs under one root agree as long as each entry leads on in one way
  only: from an extension there is one next entry, from a branch one for every slot. They are
  prefixes of each other, or they part at a branch (`prefix_or_part`). And an entry that is
  exchanged for one that its parent does not refer to is found out at its own place, whatever
  follows it and whatever is claimed (`descent_exchanged`).

  What a branch refers to besides the exchanged entry is no tampering: the check follows a proof
  into every slot, and does not ask which of them the key would choose.
-/

namespace Patricia

/-- Two proofs part at a branch: behind a common beginning, they go on with different entries, the
hashes of which stand in two different slots of the last common one. -/
def PartAtBranch (p q : List Bytes) : Prop :=
  ∃ common branch e e' rest rest',
    p = common ++ branch :: e :: rest ∧ q = common ++ branch :: e' :: rest' ∧ e ≠ e' ∧
    ∃ (slots : List (Option Digest)) (i j : Nat),
      Content.decode branch = .ok (.branch slots) ∧ i ≠ j ∧
      slots[i]? = some (some (keccak256 e)) ∧ slots[j]? = some (some (keccak256 e'))

theorem PartAtBranch.cons {p q : List Bytes} (h : PartAtBranch p q) (first : Bytes) :
    PartAtBranch (first :: p) (first :: q) := by
  obtain ⟨common, branch, e, e', rest, rest', rfl, rfl, h⟩ := h
  exact ⟨first :: common, branch, e, e', rest, rest', rfl, rfl, h⟩

/-! ## What a parent refers to -/

theorem CollisionFree.mono {entries others : List Bytes} (h : CollisionFree others)
    (hsub : ∀ e ∈ entries, e ∈ others) : CollisionFree entries :=
  fun a ha b hb => h a (hsub a ha) b (hsub b hb)

/-- Two lists that start with one digest start with one entry. -/
theorem CollisionFree.first_eq {e e' : Bytes} {rest rest' : List Bytes} {d : Digest}
    (hfree : CollisionFree (e :: rest ++ e' :: rest'))
    (hd : (e :: rest).head?.map keccak256 = some d)
    (hd' : (e' :: rest').head?.map keccak256 = some d) : e = e' :=
  hfree e (by simp) e' (by simp) ((Option.some.inj hd).trans (Option.some.inj hd').symm)

theorem CollisionFree.rests {e : Bytes} {rest rest' : List Bytes}
    (h : CollisionFree (e :: rest ++ e :: rest')) : CollisionFree (rest ++ rest') :=
  h.mono (by simp; tauto)

theorem Linked.child_eq {parent e path : Bytes} {child : Digest}
    (hparent : Content.decode parent = .ok (.extension path child)) (h : Linked parent e) :
    child = keccak256 e := by
  obtain ⟨_, hc⟩ | ⟨_, hc, _⟩ := h
  · rw [hparent] at hc
    exact (Content.extension.inj (Except.ok.inj hc)).2
  · rw [hparent] at hc
    cases hc

theorem Linked.mem_slots {parent e : Bytes} {slots : List (Option Digest)}
    (hparent : Content.decode parent = .ok (.branch slots)) (h : Linked parent e) :
    some (keccak256 e) ∈ slots := by
  obtain ⟨_, hc⟩ | ⟨_, hc, hmem⟩ := h
  · rw [hparent] at hc
    cases hc
  · rw [hparent] at hc
    exact Content.branch.inj (Except.ok.inj hc) ▸ hmem

/-- An entry that leads on to two entries of different hash is a branch with both of them. -/
theorem exists_slots_of_linked {parent e e' : Bytes} (h : Linked parent e) (h' : Linked parent e')
    (hne : keccak256 e ≠ keccak256 e') :
    ∃ (slots : List (Option Digest)) (i j : Nat),
      Content.decode parent = .ok (.branch slots) ∧ i ≠ j ∧
        slots[i]? = some (some (keccak256 e)) ∧ slots[j]? = some (some (keccak256 e')) := by
  obtain ⟨path, hc⟩ | ⟨slots, hc, hmem⟩ := id h
  · exact absurd ((h.child_eq hc).symm.trans (h'.child_eq hc)) hne
  · obtain ⟨i, hi⟩ := List.getElem?_of_mem hmem
    obtain ⟨j, hj⟩ := List.getElem?_of_mem (h'.mem_slots hc)
    refine ⟨slots, i, j, hc, ?_, hi, hj⟩
    rintro rfl
    rw [hi] at hj
    exact hne (Option.some.inj (Option.some.inj hj))

/-! ## Two chains below one digest -/

theorem prefix_or_part {d : Digest} {p q : List Bytes} (hp : p.head?.map keccak256 = some d)
    (hq : q.head?.map keccak256 = some d) (hlinks : p.IsChain Linked) (hlinks' : q.IsChain Linked)
    (hfree : CollisionFree (p ++ q)) : p <+: q ∨ q <+: p ∨ PartAtBranch p q := by
  induction p generalizing d q with
  | nil => cases hp
  | cons e rest ih =>
      cases q with
      | nil => cases hq
      | cons e' rest' =>
          obtain rfl := hfree.first_eq hp hq
          cases rest with
          | nil => exact Or.inl (List.prefix_cons_inj _ |>.mpr List.nil_prefix)
          | cons next rest =>
              cases rest' with
              | nil => exact Or.inr (Or.inl (List.prefix_cons_inj _ |>.mpr List.nil_prefix))
              | cons next' rest' =>
                  obtain ⟨hlink, hlinks⟩ := List.isChain_cons_cons.mp hlinks
                  obtain ⟨hlink', hlinks'⟩ := List.isChain_cons_cons.mp hlinks'
                  -- Either the rest decides, or the common entry leads on in two ways.
                  by_cases hnext : keccak256 next = keccak256 next'
                  · have hrest := ih (d := keccak256 next) (q := next' :: rest') rfl
                      (congrArg some hnext.symm) hlinks hlinks' hfree.rests
                    obtain h | h | h := hrest
                    · exact Or.inl (List.prefix_cons_inj _ |>.mpr h)
                    · exact Or.inr (Or.inl (List.prefix_cons_inj _ |>.mpr h))
                    · exact Or.inr (Or.inr (h.cons e))
                  · exact Or.inr (Or.inr ⟨[], e, next, next', rest, rest', rfl, rfl,
                      fun h => hnext (congrArg keccak256 h),
                      exists_slots_of_linked hlink hlink' hnext⟩)

/-! ## An exchanged entry -/

section Exchange

variable (key value : Bytes)

theorem descent_of_linked {e next : Bytes} (h : Linked e next) (rest : List Bytes) :
    (descent key value (e :: next :: rest) (keccak256 e)).verdict =
      (descent key value (next :: rest) (keccak256 next)).verdict := by
  obtain ⟨path, hc⟩ | ⟨slots, hc, hmem⟩ := h
  · rw [descent_cons_cons key value e rest _ next (openEntry_eq_ok.mpr ⟨rfl, hc⟩) rfl]
    rfl
  · rw [descent_cons_cons key value e rest _ next (openEntry_eq_ok.mpr ⟨rfl, hc⟩) rfl,
      follow_branch_verdict _ _ _ _ hmem]

theorem descent_of_other_digest {e : Bytes} {d : Digest} (h : keccak256 e ≠ d) (rest : List Bytes) :
    ∃ f, (descent key value (e :: rest) d).verdict = .error f ∧ f.kind? = some .hashMismatch := by
  rw [descent_of_open key value e rest d (openEntry_of_ne h)]
  exact ⟨_, rfl, rfl⟩

/-- Behind an entry that leads on, but not to `e'`, the check ends at `e'`. -/
theorem descent_of_not_linked {parent e e' : Bytes} (h : Linked parent e)
    (hno : ¬ Linked parent e') (rest : List Bytes) :
    ∃ f, (descent key value (parent :: e' :: rest) (keccak256 parent)).verdict = .error f ∧
      f.kind? = some .hashMismatch := by
  obtain ⟨path, hc⟩ | ⟨slots, hc, _⟩ := h
  · have hne : keccak256 e' ≠ keccak256 e := fun heq => hno (Or.inl ⟨path, heq ▸ hc⟩)
    rw [descent_cons_cons key value parent rest _ e' (openEntry_eq_ok.mpr ⟨rfl, hc⟩) rfl]
    exact descent_of_other_digest key value hne rest
  · have hmem : some (keccak256 e') ∉ slots := fun hmem => hno (Or.inr ⟨slots, hc, hmem⟩)
    rw [descent_cons_cons key value parent rest _ e' (openEntry_eq_ok.mpr ⟨rfl, hc⟩) rfl]
    simp only [Content.follow, if_neg hmem]
    exact ⟨_, rfl, rfl⟩

/-- If the entry behind the common beginning of a chain is exchanged for one to which that beginning
does not lead, the check ends there. -/
theorem descent_exchanged {d : Digest} {common : List Bytes} {e e' : Bytes}
    (hhead : (common ++ [e]).head?.map keccak256 = some d)
    (hlinks : (common ++ [e]).IsChain Linked) (hfirst : common = [] → keccak256 e' ≠ d)
    (hno : ∀ parent, common.getLast? = some parent → ¬ Linked parent e') (rest : List Bytes) :
    ∃ f, (descent key value (common ++ e' :: rest) d).verdict = .error f ∧
      f.kind? = some .hashMismatch := by
  induction common generalizing d with
  | nil => exact descent_of_other_digest key value (hfirst rfl) rest
  | cons parent common ih =>
      obtain rfl : keccak256 parent = d := Option.some.inj hhead
      -- The exchanged entry is the next one, or stands further behind.
      cases common with
      | nil =>
          have hlink := (List.isChain_cons_cons.mp hlinks).1
          exact descent_of_not_linked key value hlink (hno parent rfl) rest
      | cons next common =>
          obtain ⟨hlink, hlinks⟩ := List.isChain_cons_cons.mp hlinks
          simp only [List.cons_append]
          rw [descent_of_linked key value hlink]
          exact ih rfl hlinks (fun h => by cases h) hno

end Exchange

/-! ## Accepted proofs -/

/-- Entry `i` cannot give way to `e'`: it is the first one, or the entry before it is an extension,
or a branch that does not refer to `e'`. -/
def BoundAgainst (p : List Bytes) (i : Nat) (e' : Bytes) : Prop :=
  i = 0 ∨ ∃ parent, p[i - 1]? = some parent ∧
    ((∃ path child, Content.decode parent = .ok (.extension path child)) ∨
      ∃ slots, Content.decode parent = .ok (.branch slots) ∧ some (keccak256 e') ∉ slots)

/-- The parent of a bound entry of a chain does not lead to the other entry. -/
theorem HashChain.not_linked {root : Digest} {k value : Bytes} {p : List Bytes}
    (h : HashChain root k value p) {i : Nat} {e e' parent : Bytes} (he : p[i + 1]? = some e)
    (hdigest : keccak256 e' ≠ keccak256 e) (hbound : BoundAgainst p (i + 1) e')
    (hparent : p[i]? = some parent) : ¬ Linked parent e' := by
  intro hlink
  obtain hzero | ⟨parent', hparent', ⟨path, child, hc⟩ | ⟨slots, hc, hmem⟩⟩ := hbound
  · cases hzero
  · obtain rfl : parent = parent' := Option.some.inj (hparent.symm.trans hparent')
    have hlinked := h.linked_getElem hparent he
    exact hdigest ((hlink.child_eq hc).symm.trans (hlinked.child_eq hc))
  · obtain rfl : parent = parent' := Option.some.inj (hparent.symm.trans hparent')
    exact hmem (hlink.mem_slots hc)

theorem HashChain.exchanged {root : Digest} {k value : Bytes} {p : List Bytes}
    (h : HashChain root k value p) {i : Nat} {e e' : Bytes} (he : p[i]? = some e)
    (hdigest : keccak256 e' ≠ keccak256 e) (hbound : BoundAgainst p i e') (key' value' : Bytes)
    (rest : List Bytes) :
    ∃ f, (descent key' value' (p.take i ++ e' :: rest) root).verdict = .error f ∧
      f.kind? = some .hashMismatch := by
  cases i with
  | zero =>
      have hroot : keccak256 e = root := by
        have hfirst := h.first
        rw [List.head?_eq_getElem?, he] at hfirst
        exact Option.some.inj hfirst
      exact descent_of_other_digest key' value' (hroot ▸ hdigest) rest
  | succ i =>
      have hlen : i + 1 < p.length := (List.getElem?_eq_some_iff.mp he).1
      have htake : p.take (i + 1) ++ [e] = p.take (i + 2) := by
        rw [List.take_add_one (i := i + 1), he]
        rfl
      refine descent_exchanged key' value' (e := e) ?_ ?_ ?_ ?_ rest
      · rw [htake, List.head?_take, if_neg (Nat.succ_ne_zero _)]
        exact h.first
      · rw [htake]
        exact h.linked.take (i + 2)
      · intro hnil
        have hlength := congrArg List.length hnil
        rw [List.length_take, List.length_nil] at hlength
        omega
      · intro parent hparent
        rw [List.getLast?_take, if_neg (Nat.succ_ne_zero i), Nat.add_sub_cancel,
          List.getElem?_eq_getElem (by omega : i < p.length), Option.some_or] at hparent
        rw [← List.getElem?_eq_getElem] at hparent
        exact h.not_linked he hdigest hbound hparent

theorem hashChain_of_accepted {root : Digest} {key value : Bytes} {proof : List Bytes}
    {mode : KeyMode} (h : ∃ n, (checkProof root.bytes key value proof mode).result = .ok n)
    (hne : proof ≠ []) : ∃ k, HashChain root k value proof := by
  rw [checkProof_digest, Claim.check_ok_iff, descent_ok_iff_hashChain _ _ _ hne] at h
  exact ⟨_, h⟩

/-- **A root binds the proofs that are accepted under it.** Two of them, whatever they are accepted
for, are prefixes of each other or part at a branch that refers to both of the entries by which
they go on. And no entry of one can be exchanged, unless a branch before it refers to the new one
as well: the check ends with a hash mismatch, whatever stands behind and whatever is claimed. -/
theorem accepted_proofs_bound (root : Digest) (key value : Bytes) (p : List Bytes) (mode : KeyMode)
    (hp : ∃ n, (checkProof root.bytes key value p mode).result = .ok n) :
    (∀ key' value' q mode', (∃ n, (checkProof root.bytes key' value' q mode').result = .ok n) →
      CollisionFree (p ++ q) → p <+: q ∨ q <+: p ∨ PartAtBranch p q) ∧
    ∀ i e e', p[i]? = some e → e' ≠ e → CollisionFree [e, e'] → BoundAgainst p i e' →
      ∀ key' value' rest mode', ∃ f,
        (checkProof root.bytes key' value' (p.take i ++ e' :: rest) mode').result = .error f ∧
          f.kind? = some .hashMismatch := by
  constructor
  · intro key' value' q mode' hq hfree
    by_cases hpnil : p = []
    · exact Or.inl (hpnil ▸ List.nil_prefix)
    · by_cases hqnil : q = []
      · exact Or.inr (Or.inl (hqnil ▸ List.nil_prefix))
      · obtain ⟨_, hchain⟩ := hashChain_of_accepted hp hpnil
        obtain ⟨_, hchain'⟩ := hashChain_of_accepted hq hqnil
        exact prefix_or_part hchain.first hchain'.first hchain.linked hchain'.linked hfree
  · intro i e e' he hne hfree hbound key' value' rest mode'
    have hpne : p ≠ [] := List.ne_nil_of_mem (List.mem_of_getElem? he)
    obtain ⟨_, hchain⟩ := hashChain_of_accepted hp hpne
    have hdigest : keccak256 e' ≠ keccak256 e :=
      fun heq => hne (hfree e' (by simp) e (by simp) heq)
    obtain ⟨f, hf, hkind⟩ := hchain.exchanged he hdigest hbound
      (Claim.soughtKey ⟨root, key', value', p.take i ++ e' :: rest⟩ mode') value' rest
    refine ⟨f, ?_, hkind⟩
    rw [checkProof_digest, Claim.check_error_iff]
    exact hf

/-- The proofs through the two used slots of a branch part there. In the one through the first slot
the leaf cannot be exchanged for an empty list, with the right leaf behind it. -/
theorem accepted_proofs_bound_two_slots :
    let root := keccak256 branchEntry
    let p := [branchEntry, leafEntry]
    let q := [branchEntry, extensionEntry, leafEntry]
    (∃ n, (checkProof root.bytes [] [9] p {}).result = .ok n) ∧
      (∃ n, (checkProof root.bytes [] [9] q {}).result = .ok n) ∧ CollisionFree (p ++ q) ∧
      PartAtBranch p q ∧
      p[1]? = some leafEntry ∧ [0xc0] ≠ leafEntry ∧ CollisionFree [leafEntry, [0xc0]] ∧
      BoundAgainst p 1 [0xc0] ∧
      ∃ f, (checkProof root.bytes [] [9] (p.take 1 ++ [0xc0] :: [leafEntry]) {}).result = .error f ∧
        f.kind? = some .hashMismatch := by
  intro root p q
  have hp : ∃ n, (checkProof root.bytes [] [9] p {}).result = .ok n := by
    rw [checkProof_digest, Claim.check_ok_iff]
    decide +kernel
  have hq : ∃ n, (checkProof root.bytes [] [9] q {}).result = .ok n := by
    rw [checkProof_digest, Claim.check_ok_iff]
    decide +kernel
  have hall : CollisionFree [branchEntry, extensionEntry, leafEntry, [0xc0]] := by
    unfold CollisionFree
    decide +kernel
  have hfree : CollisionFree (p ++ q) := hall.mono (by simp [p, q])
  have hfree' : CollisionFree [leafEntry, [0xc0]] := hall.mono (by simp)
  have hbound : BoundAgainst p 1 [0xc0] := by
    refine Or.inr ⟨branchEntry, rfl, Or.inr ⟨[some (keccak256 leafEntry),
      some (keccak256 extensionEntry)] ++ List.replicate 15 none, ?_, ?_⟩⟩
    · decide +kernel
    · decide +kernel
  obtain ⟨hbinding, hexchange⟩ := accepted_proofs_bound root [] [9] p {} hp
  have hnot : ¬ p <+: q := by decide +kernel
  have hnot' : ¬ q <+: p := by decide +kernel
  have hpart : PartAtBranch p q :=
    ((hbinding [] [9] q {} hq hfree).resolve_left hnot).resolve_left hnot'
  have hne : [0xc0] ≠ leafEntry := by decide
  exact ⟨hp, hq, hfree, hpart, rfl, hne, hfree', hbound,
    hexchange 1 leafEntry [0xc0] rfl hne hfree' hbound [] [9] [leafEntry] {}⟩

end Patricia
