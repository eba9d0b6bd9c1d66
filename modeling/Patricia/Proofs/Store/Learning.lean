import Mathlib.Logic.Relation
import Patricia.Store.Session
import Patricia.Proofs.Node.Decode
import Patricia.Proofs.Store.Growth

/-
  What can happen to a store.

  `Change` lists the four changes: a new node, a new content under no node yet, a node of which
  nothing is known learning the content of an entry that hashes to it, and another mode. Checking
  a proof is a sequence of learning steps with entries of that proof, wherever it fails
  (`verify_changes`); a step of a session that gives no node a content by hand, and so a run of
  such steps, is a sequence of changes with the entries handed in (`run_changes`). What one change
  keeps, every run keeps.
-/

namespace Patricia

namespace Store

theorem learn_of_known (s : Store) (id : NodeId) (c : Content Digest) (known : Content NodeId)
    (h : s.contentOf id = some known) : s.learn id c = s := by
  unfold learn
  rw [h]

theorem learn_of_unknown (s : Store) (id : NodeId) (c : Content Digest)
    (h : s.contentOf id = none) :
    s.learn id c =
      (s.addContent (s.cell id).hashesKeys c).1.setContent id (some s.contents.size) := by
  unfold learn
  rw [h]
  rfl

/-- One change of a store, with entries that have been handed in. Modes change if `modes` is
set. -/
inductive Change (entries : List Bytes) (modes : Bool) : Store → Store → Prop
  | node (s : Store) (hashesKeys : Bool) (d : Digest) :
    Change entries modes s (s.addNode hashesKeys d).1
  | content (s : Store) (hashesKeys : Bool) (c : Content Digest) :
    Change entries modes s (s.addContent hashesKeys c).1
  | learn (s : Store) (id : NodeId) (e : Bytes) (c : Content Digest) (hid : id < s.cells.size)
    (he : e ∈ entries) (hopen : openEntry (s.cell id).digest e = .ok c)
    (hunknown : s.contentOf id = none) :
    Change entries modes s (s.learn id c)
  | mode (s : Store) (id : NodeId) (hashesKeys : Bool) (hmodes : modes = true) :
    Change entries modes s (s.setHashesKeys id hashesKeys)

/-- Any number of changes, one after the other. -/
abbrev Changes (entries : List Bytes) (modes : Bool) : Store → Store → Prop :=
  Relation.ReflTransGen (Change entries modes)

theorem Change.mono {entries entries' : List Bytes} {modes modes' : Bool} {s t : Store}
    (h : Change entries modes s t) (hentries : ∀ e ∈ entries, e ∈ entries')
    (hmodes : modes = true → modes' = true) : Change entries' modes' s t := by
  cases h with
  | node hashesKeys d => exact .node s hashesKeys d
  | content hashesKeys c => exact .content s hashesKeys c
  | learn id e c hid he hopen hunknown => exact .learn s id e c hid (hentries e he) hopen hunknown
  | mode id hashesKeys h => exact .mode s id hashesKeys (hmodes h)

theorem Changes.mono {entries entries' : List Bytes} {modes modes' : Bool} {s t : Store}
    (h : Changes entries modes s t) (hentries : ∀ e ∈ entries, e ∈ entries')
    (hmodes : modes = true → modes' = true) : Changes entries' modes' s t :=
  Relation.ReflTransGen.mono (fun _ _ hchange => Change.mono hchange hentries hmodes) _ _ h

/-- What every change keeps, any number of changes keeps. -/
theorem Changes.keeps {entries : List Bytes} {modes : Bool} {P : Store → Prop}
    (hchange : ∀ s t, Change entries modes s t → P s → P t) {s t : Store}
    (h : Changes entries modes s t) (hs : P s) : P t := by
  induction h with
  | refl => exact hs
  | tail _ hlast ih => exact hchange _ _ hlast ih

/-! ## Growth -/

theorem Change.wellFormed {entries : List Bytes} {modes : Bool} {s t : Store}
    (h : Change entries modes s t) (hs : WellFormed s) : WellFormed t := by
  cases h with
  | node hashesKeys d => exact hs.addNode hashesKeys d
  | content hashesKeys c => exact hs.addContent hashesKeys c
  | learn id e c hid he hopen hunknown =>
      rw [learn_of_unknown s id c hunknown]
      exact (hs.addContent _ c).setContent id _ (by simp)
  | mode id hashesKeys _ => exact hs.setHashesKeys id hashesKeys

theorem Change.extends {entries : List Bytes} {modes : Bool} {s t : Store}
    (h : Change entries modes s t) : Extends s t := by
  cases h with
  | node hashesKeys d => exact Extends.addNode s hashesKeys d
  | content hashesKeys c => exact Extends.addContent s hashesKeys c
  | learn id e c hid he hopen hunknown =>
      rw [learn_of_unknown s id c hunknown]
      exact (Extends.addContent s _ c).trans (Extends.setContent _ id _)
  | mode id hashesKeys _ => exact Extends.setHashesKeys s id hashesKeys

theorem Changes.wellFormed {entries : List Bytes} {modes : Bool} {s t : Store}
    (h : Changes entries modes s t) (hs : WellFormed s) : WellFormed t :=
  h.keeps (fun _ _ hchange => hchange.wellFormed) hs

/-- What every change of a well-formed store keeps, any number of changes keeps. -/
theorem Changes.keeps_of_wellFormed {entries : List Bytes} {modes : Bool} {P : Store → Prop}
    (hchange : ∀ s t, Change entries modes s t → WellFormed s → P s → P t) {s t : Store}
    (h : Changes entries modes s t) (hs : WellFormed s) (hP : P s) : P t :=
  (h.keeps (P := fun u => WellFormed u ∧ P u)
    (fun _ _ hstep hu => ⟨hstep.wellFormed hu.1, hchange _ _ hstep hu.1 hu.2⟩) ⟨hs, hP⟩).2

theorem Changes.extends {entries : List Bytes} {modes : Bool} {s t : Store}
    (h : Changes entries modes s t) : Extends s t :=
  h.keeps (P := Extends s) (fun _ _ hchange hs => hs.trans hchange.extends) (Extends.refl s)

/-! ## Checking a proof -/

theorem visitSlots_keeps {P : Store → Prop} (branch next : Digest)
    (visit : NodeId → Store → Visit Store) (slots : List (Option NodeId)) (i : Nat)
    (hvisit : ∀ id, some id ∈ slots → ∀ s, (s.cell id).digest = next → P s →
      P (visit id s).after)
    (s : Store) (hs : P s) : P (visitSlots branch next visit i slots s).after := by
  induction slots generalizing i s with
  | nil => exact hs
  | cons slot rest ih =>
      have hrest := fun i => ih i (fun id hid => hvisit id (List.mem_cons_of_mem _ hid))
      cases slot with
      | none => exact hrest (i + 1) s hs
      | some id =>
          simp only [visitSlots]
          split
          · next hdigest =>
              have hafter := hvisit id List.mem_cons_self s hdigest hs
              simp only [Visit.andThen, Visit.told]
              cases (visit id s).verdict with
              | error f => exact hafter
              | ok _ => exact hrest (i + 1) _ hafter
          · exact hrest (i + 1) s hs

theorem descend_keeps {P : Store → Prop} (next : Digest) (visit : NodeId → Store → Visit Store)
    (id : NodeId) (s : Store)
    (hvisit : ∀ c, s.contentOf id = some c → ∀ child ∈ c.children, ∀ t, P t →
      P (visit child t).after)
    (hs : P s) : P (descend next visit id s).after := by
  unfold descend
  split
  · next path child hc => exact hvisit _ hc child (List.mem_singleton.mpr rfl) s hs
  · next slots hc =>
      split
      · refine visitSlots_keeps _ next visit slots 0 (fun child hchild t _ ht => ?_) s hs
        exact hvisit _ hc child (List.mem_filterMap.mpr ⟨some child, hchild, rfl⟩) t ht
      · exact hs
  · exact hs

/-- A node learns an entry that hashes to it, or is known already. -/
theorem learn_changes {entries : List Bytes} (modes : Bool) (s : Store) (id : NodeId) (e : Bytes)
    (c : Content Digest) (hid : id < s.cells.size) (he : e ∈ entries)
    (hopen : openEntry (s.cell id).digest e = .ok c) :
    Changes entries modes s (s.learn id c) := by
  cases hknown : s.contentOf id with
  | none => exact Relation.ReflTransGen.single (.learn s id e c hid he hopen hknown)
  | some known =>
      rw [learn_of_known s id c known hknown]

/-- Whatever its verdict, the check of a proof only makes nodes learn entries of that proof. -/
theorem verify_changes (key value : Bytes) (modes : Bool) (proof : List Bytes) (id : NodeId)
    (s : Store) (hs : WellFormed s) (hid : id < s.cells.size) :
    Changes proof modes s (verify key value proof id s).after := by
  induction proof generalizing id s with
  | nil => exact Relation.ReflTransGen.refl
  | cons entry rest ih =>
      simp only [verify]
      cases hopen : openEntry (s.cell id).digest entry with
      | error f => exact Relation.ReflTransGen.refl
      | ok c =>
          have hlearn := learn_changes modes s id entry c hid (List.mem_cons_self (l := rest)) hopen
          dsimp only
          cases c.agree key value with
          | error f => exact hlearn
          | ok _ =>
              cases rest with
              | nil => exact hlearn
              | cons next rest =>
                  have hwf := hlearn.wellFormed hs
                  refine hlearn.trans (descend_keeps (P := Changes _ modes (s.learn id c)) _ _ id _
                    ?_ Relation.ReflTransGen.refl)
                  intro known hknown child hchild t ht
                  have hlt := hwf.child_of_contentOf hknown child hchild
                  have hsize := ht.extends.cells_le
                  have hrest := ih child t (ht.wellFormed hwf) (Nat.lt_of_lt_of_le hlt hsize)
                  exact ht.trans (hrest.mono (fun e he => List.mem_cons_of_mem _ he) (fun h => h))

end Store

/-! ## Steps of a session -/

/-- The step gives a node a content by hand. -/
def Step.setsContent : Step → Bool
  | .setContent _ _ => true
  | _ => false

/-- The step changes the mode of a node. -/
def Step.setsMode : Step → Bool
  | .setHashesKeys _ _ => true
  | _ => false

/-- What a register holds is there. -/
def Store.Holds (s : Store) : Held → Prop
  | .node id => id < s.cells.size
  | .content c => ∀ k, c = some k → k < s.contents.size

theorem Store.Holds.mono {s t : Store} (hext : Extends s t) {h : Held} (hs : s.Holds h) :
    t.Holds h := by
  cases h with
  | node id => exact Nat.lt_of_lt_of_le hs hext.cells_le
  | content c => exact fun k hk => Nat.lt_of_lt_of_le (hs k hk) hext.contents_le

namespace Session

/-- Nothing in the store or the registers points outside of the store. -/
structure WellFormed (s : Session) : Prop where
  store : s.store.WellFormed
  held : ∀ name h, s.held? name = some h → s.store.Holds h

theorem WellFormed.empty : WellFormed Session.empty :=
  ⟨Store.WellFormed.empty, fun _ _ h => by cases h⟩

theorem WellFormed.node {s : Session} (h : s.WellFormed) {name : String} {id : NodeId}
    (hid : s.node? name = some id) : id < s.store.cells.size := by
  unfold node? at hid
  split at hid
  · next hheld =>
      cases hid
      exact h.held name _ hheld
  · cases hid

/-- The registers stay what they are while the store grows. -/
theorem WellFormed.grow {s : Session} (h : s.WellFormed) {t : Store} (ht : t.WellFormed)
    (hext : Store.Extends s.store t) : WellFormed ⟨t, s.registers⟩ :=
  ⟨ht, fun name held hheld => (h.held name held hheld).mono hext⟩

theorem WellFormed.set {s : Session} (h : s.WellFormed) (name : String) (held : Held)
    (hheld : s.store.Holds held) : (s.set name held).WellFormed := by
  refine ⟨h.store, fun other held' hother => ?_⟩
  simp only [held?, Session.set, List.lookup_cons] at hother
  split at hother
  · cases hother
    exact hheld
  · exact h.held other held' hother

theorem hop_holds {s : Session} (hs : s.WellFormed) (h h' : Held) (way : Hop)
    (hhop : s.hop h way = some h') : s.store.Holds h' := by
  have hchild : ∀ c, s.store.content? (s.contentHeld h) = some c →
      ∀ j ∈ c.children, j < s.store.cells.size := by
    intro c hc
    obtain ⟨k, _, hk⟩ := Option.bind_eq_some_iff.mp hc
    exact hs.store.child_lt k c hk
  unfold hop at hhop
  split at hhop
  · next path child hc =>
      cases hhop
      exact hchild _ hc child (List.mem_singleton.mpr rfl)
  · next slots i hc =>
      obtain ⟨id, hid, rfl⟩ := Option.map_eq_some_iff.mp hhop
      obtain ⟨slot, hslot, rfl⟩ := Option.bind_eq_some_iff.mp hid
      exact hchild _ hc id (List.mem_filterMap.mpr ⟨some id, List.mem_of_getElem? hslot, rfl⟩)
  · cases hhop

theorem follow_holds {s : Session} (hs : s.WellFormed) (path : List Hop) (h h' : Held)
    (hh : s.store.Holds h) (hfollow : s.follow h path = some h') : s.store.Holds h' := by
  induction path generalizing h with
  | nil =>
      cases hfollow
      exact hh
  | cons way rest ih =>
      simp only [follow] at hfollow
      split at hfollow
      · cases hfollow
      · next next hhop => exact ih next (hop_holds hs h next way hhop) hfollow

/-- The entries that a step hands in: those of a proof that is checked against a node. -/
def handedIn (s : Session) : Step → List Bytes
  | .verify node _ _ proof => if (s.node? node).isSome then proof else []
  | _ => []

/-- The entries that a run hands in. -/
def handedInRun (s : Session) : List Step → List Bytes
  | [] => []
  | a :: rest => s.handedIn a ++ (s.step a).1.handedInRun rest

/-- What a step can do: the store changes, and then one register is set, to something that is there,
or none. -/
def Moves (entries : List Bytes) (modes : Bool) (s s' : Session) : Prop :=
  ∃ t, Store.Changes entries modes s.store t ∧
    (s' = ⟨t, s.registers⟩ ∨
      ∃ name held, t.Holds held ∧ s' = Session.set ⟨t, s.registers⟩ name held)

namespace Moves

variable {entries : List Bytes} {modes : Bool} {s : Session}

theorem refl : s.Moves entries modes s := ⟨s.store, Relation.ReflTransGen.refl, Or.inl rfl⟩

theorem set (name : String) (held : Held) (h : s.store.Holds held) :
    s.Moves entries modes (s.set name held) :=
  ⟨s.store, Relation.ReflTransGen.refl, Or.inr ⟨name, held, h, rfl⟩⟩

theorem store {t : Store} (h : Store.Changes entries modes s.store t) :
    s.Moves entries modes ⟨t, s.registers⟩ := ⟨t, h, Or.inl rfl⟩

theorem storeSet {t : Store} (h : Store.Changes entries modes s.store t) (name : String)
    (held : Held) (hheld : t.Holds held) :
    s.Moves entries modes (Session.set ⟨t, s.registers⟩ name held) :=
  ⟨t, h, Or.inr ⟨name, held, hheld, rfl⟩⟩

theorem changes {s' : Session} (h : s.Moves entries modes s') :
    Store.Changes entries modes s.store s'.store := by
  obtain ⟨t, hchanges, rfl | ⟨name, held, _, rfl⟩⟩ := h
  · exact hchanges
  · exact hchanges

theorem wellFormed {s' : Session} (h : s.Moves entries modes s') (hs : s.WellFormed) :
    s'.WellFormed := by
  obtain ⟨t, hchanges, hstep⟩ := h
  have hgrow := hs.grow (hchanges.wellFormed hs.store) hchanges.extends
  obtain rfl | ⟨name, held, hheld, rfl⟩ := hstep
  · exact hgrow
  · exact hgrow.set name held hheld

end Moves

theorem onNode_moves {entries : List Bytes} {modes : Bool} (s : Session) (name : String)
    (f : NodeId → Session × Reply)
    (h : ∀ id, s.node? name = some id → s.Moves entries modes (f id).1) :
    s.Moves entries modes (s.onNode name f).1 := by
  unfold onNode
  split
  · next id hid => exact h id hid
  · exact Moves.refl

/-- One step that gives no node a content by hand. -/
theorem step_moves (s : Session) (hs : s.WellFormed) (a : Step) (ha : a.setsContent = false) :
    s.Moves (s.handedIn a) a.setsMode (s.step a).1 := by
  cases a with
  | setContent node source => cases ha
  | new target digest hashesKeys =>
      simp only [step]
      split
      · exact Moves.refl
      · next d _ =>
          refine Moves.storeSet (Relation.ReflTransGen.single (.node s.store hashesKeys d)) target
            (.node s.store.cells.size) ?_
          show s.store.cells.size < (s.store.addNode hashesKeys d).1.cells.size
          rw [Store.size_addNode]
          exact Nat.lt_succ_self _
  | decode target raw hashesKeys =>
      simp only [step]
      split
      · exact Moves.refl
      · next c _ =>
          refine Moves.storeSet (Relation.ReflTransGen.single (.content s.store hashesKeys c))
            target (.content (some s.store.contents.size)) ?_
          rintro k hk
          cases hk
          rw [Store.contents_size_addContent]
          exact Nat.lt_succ_self _
  | child target source path =>
      simp only [step]
      split
      · next id h =>
          obtain ⟨start, hstart, hfollow⟩ := Option.bind_eq_some_iff.mp h
          have hheld := follow_holds hs path start _ (hs.held source start hstart) hfollow
          exact Moves.set target _ hheld
      · exact Moves.refl
  | content target source =>
      refine s.onNode_moves source _ (fun id _ => Moves.set target _ ?_)
      exact fun k hk => hs.store.content_lt id k hk
  | verify node key value proof =>
      refine s.onNode_moves node _ (fun id hid => Moves.store ?_)
      have hentries : s.handedIn (.verify node key value proof) = proof := by
        simp only [handedIn, hid, Option.isSome_some, if_true]
      rw [hentries]
      exact Store.verify_changes key value _ proof id s.store hs.store (hs.node hid)
  | setHashesKeys node hashesKeys =>
      refine s.onNode_moves node _ (fun id _ => Moves.store ?_)
      exact Relation.ReflTransGen.single (.mode s.store id hashesKeys rfl)
  | setDigest node digest => exact s.onNode_moves node _ (fun _ _ => Moves.refl)
  | storedKey node key => exact s.onNode_moves node _ (fun _ _ => Moves.refl)
  | setField content field => exact Moves.refl
  | removeField content field => exact Moves.refl
  | equal a b =>
      simp only [step]
      split
      · exact Moves.refl
      · exact Moves.refl
  | view source =>
      simp only [step]
      split
      · exact Moves.refl
      · exact Moves.refl
  | render source =>
      simp only [step]
      split
      · exact Moves.refl
      · exact Moves.refl

theorem run_append (s : Session) (past future : List Step) :
    (s.run (past ++ future)).1 = ((s.run past).1.run future).1 := by
  induction past generalizing s with
  | nil => rfl
  | cons a rest ih => exact ih (s.step a).1

theorem run_wellFormed (s : Session) (hs : s.WellFormed) (steps : List Step)
    (hsteps : ∀ a ∈ steps, a.setsContent = false) : (s.run steps).1.WellFormed := by
  induction steps generalizing s with
  | nil => exact hs
  | cons a rest ih =>
      exact ih (s.step a).1 ((s.step_moves hs a (hsteps a List.mem_cons_self)).wellFormed hs)
        (fun b hb => hsteps b (List.mem_cons_of_mem _ hb))

open Store in
/-- A run of such steps is a sequence of changes with the entries that it hands in. -/
theorem run_changes (s : Session) (hs : s.WellFormed) (steps : List Step)
    (hsteps : ∀ a ∈ steps, a.setsContent = false) :
    Changes (s.handedInRun steps) (steps.any Step.setsMode) s.store (s.run steps).1.store := by
  induction steps generalizing s with
  | nil => exact Relation.ReflTransGen.refl
  | cons a rest ih =>
      have ha := hsteps a List.mem_cons_self
      have hmoves := s.step_moves hs a ha
      have hfirst := hmoves.changes
      have hrest := ih (s.step a).1 (hmoves.wellFormed hs)
        (fun b hb => hsteps b (List.mem_cons_of_mem _ hb))
      refine (hfirst.mono ?_ ?_).trans (hrest.mono ?_ ?_)
      · exact fun e he => List.mem_append_left _ he
      · exact fun h => by simp [h]
      · exact fun e he => List.mem_append_right _ he
      · exact fun h => by simp only [List.any_cons, h, Bool.or_true]

end Session

end Patricia
