import Patricia.Proofs.Node.Descent
import Patricia.Proofs.Store.Backing

/-
  The verdict does not depend on what was learned before.

  The check of a proof compares what an entry decodes to, but goes down through what is remembered.
  In a store in which everything known is backed by an entry (`Backed`), an entry that hashes to a
  node and the entry behind that node have one digest; where keccak-256 has no collision among the
  entries, they are one entry, and what is remembered is what was just decoded
  (`byDigest_of_open`). So a check tells the descent from the digest of its node, whatever the
  store has seen (`verify_outcome`), and the descent knows only digests and entries.

  Checking goes on changing the store, below a branch once for every slot that matches. Each visit
  finds the store that the visits before it have left; what all of these stores have in common is
  that they come from one store by learning entries of the proof (`Changes`).
-/

namespace Patricia

namespace Store

/-! ## What is remembered and what was just decoded -/

theorem learn_known (s : Store) (id : Nat) (c : Content Digest)
    (hid : id < s.cells.size) : ∃ known, (s.learn id c).contentOf id = some known := by
  cases hknown : s.contentOf id with
  | none => exact ⟨_, contentOf_learn_self s id c hknown hid⟩
  | some known => exact ⟨known, by rw [learn_of_known s id c known hknown, hknown]⟩

/-- Without collisions, what is known of a node is what any entry encodes that hashes to it. -/
theorem byDigest_of_open {entries : List Bytes} (hfree : CollisionFree entries) {s : Store}
    (hbacked : Backed entries s) {id : Nat} {known : Content NodeId}
    (hknown : s.contentOf id = some known) {entry : Bytes} (hentry : entry ∈ entries)
    {c : Content Digest} (hopen : openEntry (s.cell id).digest entry = .ok c) :
    s.byDigest known = c := by
  obtain ⟨e, he, hopen'⟩ := hbacked id known hknown
  have hdigest := (openEntry_eq_ok.mp hopen').1.trans (openEntry_eq_ok.mp hopen).1.symm
  obtain rfl := hfree e he entry hentry hdigest
  rw [hopen] at hopen'
  exact (Except.ok.inj hopen').symm

/-! ## Going down through what is remembered -/

/-- Every slot that matches tells the same, if that is told from every store that the visits before
it can leave; `P` holds of these stores. -/
theorem visitSlots_outcome {P : Store → Prop} (branch next : Digest)
    (visit : NodeId → Store → Visit Store) (below : Visit Unit) (digest : NodeId → Digest)
    (slots : List (Option NodeId)) (i : Nat)
    (hdigest : ∀ id, some id ∈ slots → ∀ s, P s → (s.cell id).digest = digest id)
    (hkeeps : ∀ id, some id ∈ slots → ∀ s, P s → P (visit id s).after)
    (hvisit : ∀ id, some id ∈ slots → digest id = next → ∀ s, P s → (visit id s).outcome = below)
    (s : Store) (hs : P s) :
    (visitSlots branch next visit i slots s).outcome =
      fanOut branch below (slotsHolding next i (slots.map (Option.map digest))) := by
  induction slots generalizing i s with
  | nil => rfl
  | cons slot rest ih =>
      have hrest := ih (i + 1) (fun id hid => hdigest id (List.mem_cons_of_mem _ hid))
        (fun id hid => hkeeps id (List.mem_cons_of_mem _ hid))
        (fun id hid => hvisit id (List.mem_cons_of_mem _ hid))
      cases slot with
      | none =>
          rw [List.map_cons, Option.map_none, slotsHolding_cons_none, ← hrest s hs]
          rfl
      | some id =>
          rw [List.map_cons, Option.map_some, visitSlots, hdigest id List.mem_cons_self s hs]
          by_cases hid : digest id = next
          · have hafter := hkeeps id List.mem_cons_self s hs
            rw [hid, slotsHolding_cons_eq, if_pos rfl, Visit.outcome_andThen, Visit.outcome_told,
              hvisit id List.mem_cons_self hid s hs]
            show (below.told _).andThen _
              (fun _ => (visitSlots _ _ _ _ _ (visit id s).after).outcome) = _
            rw [hrest _ hafter]
            rfl
          · rw [slotsHolding_cons_ne _ _ hid, if_neg hid, ← hrest s hs]

/-- Below a node that is known, the check follows what is known. -/
theorem descend_outcome {P : Store → Prop} (next : Digest) (visit : NodeId → Store → Visit Store)
    (check : Digest → Visit Unit) (id : NodeId) (s : Store) (known : Content NodeId)
    (hknown : s.contentOf id = some known)
    (hdigest : ∀ j ∈ known.children, ∀ t, P t → (t.cell j).digest = (s.cell j).digest)
    (hkeeps : ∀ j ∈ known.children, ∀ t, P t → P (visit j t).after)
    (hvisit : ∀ j ∈ known.children, ∀ t, P t → (visit j t).outcome = check (t.cell j).digest)
    (hs : P s) :
    (descend next visit id s).outcome =
      (s.byDigest known).follow next check (s.cell id).digest := by
  cases known with
  | leaf key value =>
      simp only [descend, hknown]
      rfl
  | extension path child =>
      have hchild := hvisit child (List.mem_singleton.mpr rfl) s hs
      simp only [descend, hknown, Visit.outcome_told, hchild]
      rfl
  | branch slots =>
      have hmem := any_slot_iff (fun j => (s.cell j).digest) next slots
      have hchildren : ∀ j, some j ∈ slots → j ∈ (Content.branch slots).children :=
        fun j hj => List.mem_filterMap.mpr ⟨some j, hj, rfl⟩
      simp only [descend, hknown, refersTo, hmem, byDigest, Content.map_branch, Content.follow]
      split
      · refine visitSlots_outcome (P := P) _ next visit (check next) (fun j => (s.cell j).digest)
          slots 0 (fun j hj => hdigest j (hchildren j hj)) (fun j hj => hkeeps j (hchildren j hj))
          ?_ s hs
        intro j hj hnext t ht
        rw [hvisit j (hchildren j hj) t ht, hdigest j (hchildren j hj) t ht, hnext]
      · rfl

/-! ## Checking -/

/-- One entry: the node learns it, unless it is known already, and the rest is checked against what
the entry refers to. Each check of the rest starts from a store that learning has led to. -/
theorem descend_learn_outcome {entries : List Bytes} (hfree : CollisionFree entries) (next : Digest)
    (visit : NodeId → Store → Visit Store) (check : Digest → Visit Unit)
    (hvisit : ∀ (j : Nat) (t : Store), WellFormed t → Backed entries t → j < t.cells.size →
      Changes entries false t (visit j t).after ∧ (visit j t).outcome = check (t.cell j).digest)
    (id : Nat) (s : Store) (hs : WellFormed s) (hbacked : Backed entries s)
    (hid : id < s.cells.size) (entry : Bytes) (hentry : entry ∈ entries) (c : Content Digest)
    (hopen : openEntry (s.cell id).digest entry = .ok c) :
    (descend next visit id (s.learn id c)).outcome = c.follow next check (s.cell id).digest := by
  have hlearn := learn_changes false s id entry c hid hentry hopen
  have hwf := hlearn.wellFormed hs
  have hbacked' := hlearn.backed hs hbacked
  have hsame := hlearn.extends.digest_eq id hid
  obtain ⟨known, hknown⟩ := learn_known s id c hid
  have hc : (s.learn id c).byDigest known = c :=
    byDigest_of_open hfree hbacked' hknown hentry (hsame ▸ hopen)
  have hchild : ∀ j ∈ known.children, ∀ t, Changes entries false (s.learn id c) t →
      Changes entries false t (visit j t).after ∧
        (visit j t).outcome = check (t.cell j).digest := by
    intro j hj t ht
    have hlt := Nat.lt_of_lt_of_le (hwf.child_of_contentOf hknown j hj) ht.extends.cells_le
    exact hvisit j t (ht.wellFormed hwf) (ht.backed hwf hbacked') hlt
  have hbelow := descend_outcome (P := Changes entries false (s.learn id c)) next visit check id
    (s.learn id c) known hknown ?_ ?_ ?_ Relation.ReflTransGen.refl
  · rwa [hc, hsame] at hbelow
  · exact fun j hj t ht => ht.extends.digest_eq j (hwf.child_of_contentOf hknown j hj)
  · exact fun j hj t ht => ht.trans (hchild j hj t ht).1
  · exact fun j hj t ht => (hchild j hj t ht).2

/-- A check tells the descent from the digest of its node. -/
theorem verify_outcome {entries : List Bytes} (hfree : CollisionFree entries) (key value : Bytes)
    (proof : List Bytes) (hproof : ∀ e ∈ proof, e ∈ entries) (id : Nat) (s : Store)
    (hs : WellFormed s) (hbacked : Backed entries s) (hid : id < s.cells.size) :
    (verify key value proof id s).outcome = descent key value proof (s.cell id).digest := by
  induction proof generalizing id s with
  | nil => rfl
  | cons entry rest ih =>
      have hentry := hproof entry List.mem_cons_self
      have hrest := fun e he => hproof e (List.mem_cons_of_mem _ he)
      simp only [verify, descent]
      cases hopen : openEntry (s.cell id).digest entry with
      | error f => rfl
      | ok c =>
          dsimp only
          cases c.agree key value with
          | error f => rfl
          | ok _ =>
              cases rest with
              | nil => rfl
              | cons next rest =>
                  refine descend_learn_outcome hfree _ _ _ ?_ id s hs hbacked hid entry hentry c
                    hopen
                  intro j t ht hbacked' hj
                  have hchanges := verify_changes key value false (next :: rest) j t ht hj
                  exact ⟨hchanges.mono hrest (fun h => h), ih hrest j t ht hbacked' hj⟩

end Store

namespace Session

/-- **The verdict does not depend on what was learned before.** After any steps that give no node a
content by hand, a check of a proof against any node tells the same and ends the same as the check
of that proof against a node with the same digest of which nothing is known: as a value, or a new
node of the same store, of either mode. Keccak-256 must have no collision among the entries handed
in by the steps and by the proof. -/
theorem run_verify_eq_fresh (steps : List Step) (hsteps : ∀ a ∈ steps, a.setsContent = false)
    (key value : Bytes) (proof : List Bytes)
    (hfree : CollisionFree (empty.handedInRun steps ++ proof)) :
    let s := (empty.run steps).1.store
    ∀ id : NodeId, id < s.cells.size → ∀ hashesKeys : Bool,
      let v := s.verify key value proof id
      let fresh := s.addNode hashesKeys (s.cell id).digest
      let w := fresh.1.verify key value proof fresh.2
      let u := (Node.unknown hashesKeys (s.cell id).digest).verify key value proof
      (v.verdict = w.verdict ∧ v.events = w.events) ∧
        v.verdict = u.verdict ∧ v.events = u.events := by
  intro s id hid hashesKeys v fresh w u
  have hproof : ∀ e ∈ proof, e ∈ empty.handedInRun steps ++ proof :=
    fun e he => List.mem_append_right _ he
  have hs := (run_empty_wellFormed steps hsteps).store
  have hbacked := (run_empty_backed steps hsteps).mono
    (fun e he => List.mem_append_left proof he)
  have hv := Store.verify_outcome hfree key value proof hproof id s hs hbacked hid
  have hadded : Store.Change (empty.handedInRun steps ++ proof) false s fresh.1 :=
    .node s hashesKeys (s.cell id).digest
  have hw := Store.verify_outcome hfree key value proof hproof fresh.2 fresh.1
    (hadded.wellFormed hs) (hadded.backed hs hbacked) (by simp [fresh, Store.addNode])
  have hdigest : (fresh.1.cell fresh.2).digest = (s.cell id).digest := by
    show ((s.addNode hashesKeys _).1.cell s.cells.size).digest = _
    rw [Store.cell_addNode_new]
  rw [hdigest] at hw
  have hu := Node.verify_unknown_outcome key value hashesKeys proof (s.cell id).digest
  have hvw := Visit.outcome_eq_iff v w |>.mp (hv.trans hw.symm)
  have hvu := Visit.outcome_eq_iff v u |>.mp (hv.trans hu.symm)
  exact ⟨hvw.symm, hvu.symm⟩

/-- What a failed check has left behind does not change what the right value is told. -/
theorem run_verify_eq_fresh_failedCheck :
    (∀ a ∈ failedCheck, a.setsContent = false) ∧
      CollisionFree (empty.handedInRun failedCheck ++ [extensionEntry, leafEntry]) ∧
      let s := (empty.run failedCheck).1.store
      0 < s.cells.size ∧
        (s.verify [] [9] [extensionEntry, leafEntry] 0).verdict =
          ((Node.unknown true (s.cell 0).digest).verify [] [9] [extensionEntry, leafEntry]).verdict
          := by
  have hsteps : ∀ a ∈ failedCheck, a.setsContent = false := by decide
  have hfree : CollisionFree (empty.handedInRun failedCheck ++ [extensionEntry, leafEntry]) := by
    unfold CollisionFree
    decide +kernel
  have hsize : 0 < (empty.run failedCheck).1.store.cells.size := by decide +kernel
  obtain ⟨_, hverdict, _⟩ := run_verify_eq_fresh failedCheck hsteps [] [9]
    [extensionEntry, leafEntry] hfree 0 hsize true
  exact ⟨hsteps, hfree, hsize, hverdict⟩

end Session

end Patricia
