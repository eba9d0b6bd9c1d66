import Patricia.Proofs.Check.Binding

/-
  What ties a value to a key.

  A check compares the key with the path that the last leaf stores, and with nothing else: which
  slot a branch is left by, and which path an extension stands for, is not compared with the key.
  So a root does not bind a key to one value. Behind two slots of one branch there may be two leaves
  that store the same path, and both values are shown for this path (`two_values_of_one_key`).

  What a root does bind is a key together with a route. `LeadsThrough` gives the slots by which a
  proof leaves its branches; the hashes leave no other choice (`eq_of_leadsThrough`), so two
  accepted proofs that lead to leaves through the same slots are one proof, of one value. Without
  this they may still only differ behind a branch (`root_binds_value_on_route`).

  Not claimed: that a route is the one that the key spells. A caller who needs this has to follow
  the slots.
-/

namespace Patricia

/-- The last entry is that of a leaf. -/
def EndsInLeaf (proof : List Bytes) : Prop :=
  ∃ e k v, proof.getLast? = some e ∧ Content.decode e = .ok (.leaf k v)

/-- The proof goes from entry to entry, and leaves its branches by these slots, in order. -/
inductive LeadsThrough : List Bytes → List Nat → Prop
  | single (e : Bytes) : LeadsThrough [e] []
  | extension {e next path : Bytes} {rest : List Bytes} {route : List Nat}
    (hdecode : Content.decode e = .ok (.extension path (keccak256 next)))
    (hrest : LeadsThrough (next :: rest) route) : LeadsThrough (e :: next :: rest) route
  | branch {e next : Bytes} {slots : List (Option Digest)} {rest : List Bytes} {i : Nat}
    {route : List Nat} (hdecode : Content.decode e = .ok (.branch slots))
    (hslot : slots[i]? = some (some (keccak256 next)))
    (hrest : LeadsThrough (next :: rest) route) : LeadsThrough (e :: next :: rest) (i :: route)

/-! ## Chains and their routes -/

theorem exists_route {proof : List Bytes} (hne : proof ≠ []) (hlinks : proof.IsChain Linked) :
    ∃ route, LeadsThrough proof route := by
  induction proof with
  | nil => exact absurd rfl hne
  | cons e rest ih =>
      cases rest with
      | nil => exact ⟨[], .single e⟩
      | cons next rest =>
          obtain ⟨hlink, hlinks⟩ := List.isChain_cons_cons.mp hlinks
          obtain ⟨route, hroute⟩ := ih (List.cons_ne_nil _ _) hlinks
          obtain ⟨path, hc⟩ | ⟨slots, hc, hmem⟩ := hlink
          · exact ⟨route, .extension hc hroute⟩
          · obtain ⟨i, hi⟩ := List.getElem?_of_mem hmem
            exact ⟨i :: route, .branch hc hi hroute⟩

/-- Nothing stands behind a leaf. -/
theorem LeadsThrough.eq_nil_of_leaf {e k v : Bytes} {rest : List Bytes} {route : List Nat}
    (h : LeadsThrough (e :: rest) route) (hleaf : Content.decode e = .ok (.leaf k v)) :
    rest = [] := by
  cases h with
  | single => rfl
  | extension hdecode _ => rw [hleaf] at hdecode; cases hdecode
  | branch hdecode _ _ => rw [hleaf] at hdecode; cases hdecode

theorem EndsInLeaf.ne_nil {proof : List Bytes} (h : EndsInLeaf proof) : proof ≠ [] := by
  rintro rfl
  obtain ⟨e, k, v, hlast, _⟩ := h
  cases hlast

theorem EndsInLeaf.of_cons {e next : Bytes} {rest : List Bytes}
    (h : EndsInLeaf (e :: next :: rest)) : EndsInLeaf (next :: rest) := by
  obtain ⟨l, k, v, hlast, hleaf⟩ := h
  exact ⟨l, k, v, by rwa [List.getLast?_cons_cons] at hlast, hleaf⟩

theorem EndsInLeaf.decode_single {e : Bytes} (h : EndsInLeaf [e]) :
    ∃ k v, Content.decode e = .ok (.leaf k v) := by
  obtain ⟨l, k, v, hlast, hleaf⟩ := h
  obtain rfl : e = l := Option.some.inj hlast
  exact ⟨k, v, hleaf⟩

/-- Through the same slots the hashes lead to the same entries: the induction is on the first
proof, and the second one has to take the step that each entry of the first takes. -/
theorem eq_of_leadsThrough {d : Digest} {p q : List Bytes} {route : List Nat}
    (hp : LeadsThrough p route) (hq : LeadsThrough q route)
    (hhead : p.head?.map keccak256 = some d) (hhead' : q.head?.map keccak256 = some d)
    (hleaf : EndsInLeaf p) (hleaf' : EndsInLeaf q) (hfree : CollisionFree (p ++ q)) : p = q := by
  induction hp generalizing d q with
  | single e =>
      obtain ⟨k, v, hdecode⟩ := hleaf.decode_single
      cases q with
      | nil => cases hhead'
      | cons e' rest' =>
          obtain rfl := hfree.first_eq hhead hhead'
          rw [hq.eq_nil_of_leaf hdecode]
  | extension hdecode _ ih =>
      cases hq with
      | single e' =>
          obtain rfl := hfree.first_eq hhead hhead'
          obtain ⟨k, v, hdecode'⟩ := hleaf'.decode_single
          cases hdecode.symm.trans hdecode'
      | extension hdecode' hrest' =>
          obtain rfl := hfree.first_eq hhead hhead'
          have hnext := (Content.extension.inj (Except.ok.inj (hdecode.symm.trans hdecode'))).2
          rw [ih hrest' rfl (congrArg some hnext.symm) hleaf.of_cons hleaf'.of_cons hfree.rests]
      | branch hdecode' _ _ =>
          obtain rfl := hfree.first_eq hhead hhead'
          cases hdecode.symm.trans hdecode'
  | branch hdecode hslot _ ih =>
      cases hq with
      | extension hdecode' _ =>
          obtain rfl := hfree.first_eq hhead hhead'
          cases hdecode.symm.trans hdecode'
      | branch hdecode' hslot' hrest' =>
          obtain rfl := hfree.first_eq hhead hhead'
          obtain rfl := Content.branch.inj (Except.ok.inj (hdecode.symm.trans hdecode'))
          have hnext := Option.some.inj (Option.some.inj (hslot.symm.trans hslot'))
          rw [ih hrest' rfl (congrArg some hnext.symm) hleaf.of_cons hleaf'.of_cons hfree.rests]

/-- A proof that ends in a leaf is no beginning of a longer chain. -/
theorem eq_of_isPrefix_endsInLeaf {p q : List Bytes} (h : p <+: q) (hleaf : EndsInLeaf p)
    (hlinks : q.IsChain Linked) : p = q := by
  obtain ⟨rest, rfl⟩ := h
  cases rest with
  | nil => exact (List.append_nil p).symm
  | cons next rest =>
      exfalso
      obtain ⟨e, k, v, hlast, hdecode⟩ := hleaf
      have hlink : Linked e next :=
        (List.isChain_append.mp hlinks).2.2 e hlast next rfl
      obtain ⟨path, hc⟩ | ⟨slots, hc, _⟩ := hlink
      · cases hdecode.symm.trans hc
      · cases hdecode.symm.trans hc

/-- One chain states one value at its leaf. -/
theorem HashChain.value_unique {root root' : Digest} {key key' value value' : Bytes}
    {proof : List Bytes} (h : HashChain root key value proof)
    (h' : HashChain root' key' value' proof) (hleaf : EndsInLeaf proof) : value = value' := by
  obtain ⟨e, k, v, hlast, hdecode⟩ := hleaf
  exact (h.last e hlast k v hdecode).2.symm.trans (h'.last e hlast k v hdecode).2

/-! ## A fork -/

/-- An entry of a leaf with the path `a` and this value. -/
def shortLeaf (value : UInt8) : Bytes := [0xc2, 0x3a, value]

/-- An entry of a branch with two such leaves, of the values `9` and `8`, in its slots 0 and 1. -/
def forkEntry : Bytes :=
  [0xf8, 0x51, 0xa0] ++ (keccak256 (shortLeaf 9)).bytes ++ [0xa0] ++
    (keccak256 (shortLeaf 8)).bytes ++ List.replicate 15 0x80

theorem fork_shows_nine : ∃ n,
    (checkProof (keccak256 forkEntry).bytes [0x0a] [9] [forkEntry, shortLeaf 9] {}).result
      = .ok n := by
  rw [checkProof_digest, Claim.check_ok_iff]
  decide +kernel

theorem fork_shows_eight : ∃ n,
    (checkProof (keccak256 forkEntry).bytes [0x0a] [8] [forkEntry, shortLeaf 8] {}).result
      = .ok n := by
  rw [checkProof_digest, Claim.check_ok_iff]
  decide +kernel

theorem fork_collisionFree :
    CollisionFree ([forkEntry, shortLeaf 9] ++ [forkEntry, shortLeaf 8]) := by
  unfold CollisionFree
  decide +kernel

theorem endsInLeaf_nine : EndsInLeaf [forkEntry, shortLeaf 9] :=
  ⟨shortLeaf 9, [0x0a], [9], rfl, by decide +kernel⟩

theorem endsInLeaf_eight : EndsInLeaf [forkEntry, shortLeaf 8] :=
  ⟨shortLeaf 8, [0x0a], [8], rfl, by decide +kernel⟩

/-! ## Accepted proofs -/

/-- **A root binds a key on a route to one value.** Two proofs that are accepted for one key, and
end in leaves, are one proof of one value, or they part at a branch. If they leave every branch by
the same slot, they do not part; and each of them leads through some slots. -/
theorem root_binds_value_on_route {root : Digest} {key value value' : Bytes} {p q : List Bytes}
    {mode : KeyMode} (hp : ∃ n, (checkProof root.bytes key value p mode).result = .ok n)
    (hq : ∃ n, (checkProof root.bytes key value' q mode).result = .ok n)
    (hleaf : EndsInLeaf p) (hleaf' : EndsInLeaf q) (hfree : CollisionFree (p ++ q)) :
    ((p = q ∧ value = value') ∨ PartAtBranch p q) ∧
      (∀ route, LeadsThrough p route → LeadsThrough q route → p = q ∧ value = value') ∧
      (∃ route, LeadsThrough p route) ∧ ∃ route, LeadsThrough q route := by
  obtain ⟨_, hchain⟩ := hashChain_of_accepted hp hleaf.ne_nil
  obtain ⟨_, hchain'⟩ := hashChain_of_accepted hq hleaf'.ne_nil
  have hvalue (h : p = q) : p = q ∧ value = value' := by
    subst h
    exact ⟨rfl, hchain.value_unique hchain' hleaf⟩
  refine ⟨?_, ?_, exists_route hleaf.ne_nil hchain.linked,
    exists_route hleaf'.ne_nil hchain'.linked⟩
  · obtain h | h | h := prefix_or_part hchain.first hchain'.first hchain.linked hchain'.linked hfree
    · exact Or.inl (hvalue (eq_of_isPrefix_endsInLeaf h hleaf hchain'.linked))
    · exact Or.inl (hvalue (eq_of_isPrefix_endsInLeaf h hleaf' hchain.linked).symm)
    · exact Or.inr h
  · intro route hroute hroute'
    exact hvalue
      (eq_of_leadsThrough hroute hroute' hchain.first hchain'.first hleaf hleaf' hfree)

/-- The two proofs part at the fork: only one of them leads through slot 0. -/
theorem root_binds_value_on_route_of_fork :
    let p := [forkEntry, shortLeaf 9]
    let q := [forkEntry, shortLeaf 8]
    PartAtBranch p q ∧ LeadsThrough p [0] ∧ ¬ LeadsThrough q [0] := by
  intro p q
  obtain ⟨hbinds, hroutes, _⟩ := root_binds_value_on_route fork_shows_nine fork_shows_eight
    endsInLeaf_nine endsInLeaf_eight fork_collisionFree
  have hne : p ≠ q := by decide +kernel
  have hdecode : Content.decode forkEntry = .ok (.branch ([some (keccak256 (shortLeaf 9)),
      some (keccak256 (shortLeaf 8))] ++ List.replicate 15 none)) := by decide +kernel
  have hroute : LeadsThrough p [0] := .branch hdecode rfl (.single _)
  exact ⟨hbinds.resolve_left fun h => hne h.1, hroute, fun h => hne (hroutes [0] hroute h).1⟩

/-- The root of the fork shows two values of one key. -/
theorem two_values_of_one_key :
    let root := keccak256 forkEntry
    let p := [forkEntry, shortLeaf 9]
    let q := [forkEntry, shortLeaf 8]
    (∃ n, (checkProof root.bytes [0x0a] [9] p {}).result = .ok n) ∧
      (∃ n, (checkProof root.bytes [0x0a] [8] q {}).result = .ok n) ∧
      EndsInLeaf p ∧ EndsInLeaf q ∧ CollisionFree (p ++ q) ∧ [(9 : UInt8)] ≠ [8] :=
  ⟨fork_shows_nine, fork_shows_eight, endsInLeaf_nine, endsInLeaf_eight, fork_collisionFree,
    by decide⟩

end Patricia
