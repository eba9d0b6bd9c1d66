import Patricia.Proofs.Node.Places
import Patricia.Proofs.Store.History

/-
  What a check adds to a tree.

  A tree is looked at through the places where something is known (`Node.Knows`). In a tree in
  which everything known is backed by an entry (`Node.Backed`), a check adds the places that it
  adds to a node of which nothing is known, whatever the tree knows already (`verify_knows`). Here
  keccak-256 must have no collision among the entries: what is known of a node is then what an
  entry decodes to that hashes to it, so that the check goes the same way through both, and visits
  of equal slots end alike.
-/

namespace Patricia

/-! ## Known places -/

/-- Something is known of the node at a place. -/
def Node.Knows (n : Node) (p : List Hop) : Prop := ∃ m c, n.at? p = some m ∧ m.content = some c

/-- Something is known at a place below a child. -/
def Content.Knows (c : Content Node) (way : Hop) (p : List Hop) : Prop :=
  ∃ m, c.at? way = some m ∧ m.Knows p

namespace Node

theorem knows_nil (n : Node) : n.Knows [] ↔ ∃ c, n.content = some c := by
  constructor
  · rintro ⟨m, c, hm, hc⟩
    obtain rfl : n = m := Option.some.inj hm
    exact ⟨c, hc⟩
  · rintro ⟨c, hc⟩
    exact ⟨n, c, rfl, hc⟩

theorem not_knows_of_unknown {n : Node} (h : n.content = none) (p : List Hop) : ¬ n.Knows p := by
  rintro ⟨m, c, hm, hc⟩
  cases p with
  | nil =>
      obtain rfl : n = m := Option.some.inj hm
      rw [h] at hc
      cases hc
  | cons way rest =>
      rw [at?, h] at hm
      cases hm

theorem knows_cons {n : Node} {c : Content Node} (hc : n.content = some c) (way : Hop)
    (p : List Hop) : n.Knows (way :: p) ↔ c.Knows way p := by
  unfold Knows Content.Knows
  rw [at?, hc, Option.bind_some]
  constructor
  · rintro ⟨m, known, hm, hknown⟩
    obtain ⟨child, hchild, hp⟩ := Option.bind_eq_some_iff.mp hm
    exact ⟨child, hchild, m, known, hp, hknown⟩
  · rintro ⟨child, hchild, m, known, hp, hknown⟩
    exact ⟨m, known, Option.bind_eq_some_iff.mpr ⟨child, hchild, hp⟩, hknown⟩

theorem knows_withContent (n : Node) (c : Content Node) (way : Hop) (p : List Hop) :
    (n.withContent (some c)).Knows (way :: p) ↔ c.Knows way p := knows_cons rfl way p

theorem knows_append {n m : Node} {q : List Hop} (h : n.at? q = some m) (p : List Hop) :
    n.Knows (q ++ p) ↔ m.Knows p := by
  unfold Knows
  rw [at?_append, h, Option.bind_some]

/-- A change at a place that adds known places there adds them, and no others, to the tree. -/
theorem knows_modifyAt {f : Node → Node} {added : List Hop → Prop} {n m : Node} {p : List Hop}
    (hm : n.at? p = some m) (hf : ∀ q, (f m).Knows q ↔ m.Knows q ∨ added q) (path : List Hop) :
    (n.modifyAt f p).Knows path ↔ n.Knows path ∨ ∃ q, path = p ++ q ∧ added q := by
  induction p generalizing n path with
  | nil =>
      obtain rfl : n = m := Option.some.inj hm
      rw [modifyAt, hf]
      simp
  | cons way rest ih =>
      rw [at?] at hm
      obtain ⟨child, hchild, hrest⟩ := Option.bind_eq_some_iff.mp hm
      obtain ⟨c, hc, hway⟩ := Option.bind_eq_some_iff.mp hchild
      have hafter : (n.modifyAt f (way :: rest)).content =
          some (c.modifyAt (modifyAt f rest) way) := by
        rw [modifyAt, hc]
        rfl
      cases path with
      | nil => simp [knows_nil, hafter, hc]
      | cons way' path =>
          rw [knows_cons hafter, knows_cons hc]
          by_cases hsame : way' = way
          · subst hsame
            unfold Content.Knows
            rw [Content.at?_modifyAt_self, hway]
            simpa using ih hrest path
          · unfold Content.Knows
            rw [Content.at?_modifyAt_ne _ hsame]
            simp [hsame]

/-! ## Backed trees -/

/-- What is known anywhere in a tree is what some entry encodes that hashes to its node. -/
def Backed (entries : List Bytes) (n : Node) : Prop :=
  ∀ p m c, n.at? p = some m → m.content = some c →
    ∃ e ∈ entries, openEntry m.digest e = .ok (c.map digest)

namespace Backed

variable {entries : List Bytes} {n : Node}

theorem child (h : n.Backed entries) {c : Content Node} (hc : n.content = some c) {m : Node}
    (hm : m ∈ c.children) : m.Backed entries := by
  obtain ⟨way, hway⟩ := (Content.mem_children_iff m c).mp hm
  intro p x known hx hknown
  refine h (way :: p) x known ?_ hknown
  rw [at?, hc, Option.bind_some, hway, Option.bind_some, hx]

theorem learn (h : n.Backed entries) {e : Bytes} (he : e ∈ entries) {c : Content Digest}
    (hopen : openEntry n.digest e = .ok c) : (n.learn c).Backed entries := by
  unfold Node.learn
  cases hn : n.content with
  | some known => exact h
  | none =>
      intro p m found hm hfound
      cases p with
      | nil =>
          obtain rfl : _ = m := Option.some.inj hm
          obtain rfl : _ = found := Option.some.inj hfound
          exact ⟨e, he, by rw [digest_fresh]; exact hopen⟩
      | cons way rest =>
          have hfresh : (c.fresh n.hashesKeys).at? way = (c.at? way).map (unknown n.hashesKeys) :=
            Content.at?_map _ way c
          obtain ⟨child, hchild, hrest⟩ := Option.bind_eq_some_iff.mp hm
          rw [withContent, content_mk, Option.bind_some, hfresh] at hchild
          obtain ⟨d, _, rfl⟩ := Option.map_eq_some_iff.mp hchild
          exact absurd ⟨m, found, hrest, hfound⟩ (not_knows_of_unknown rfl rest)

/-- Without collisions, what is known of a node is what any entry encodes that hashes to it. -/
theorem digests (h : n.Backed entries) (hfree : CollisionFree entries) {known : Content Node}
    (hknown : n.content = some known) {e : Bytes} (he : e ∈ entries) {c : Content Digest}
    (hopen : openEntry n.digest e = .ok c) : known.map digest = c := by
  obtain ⟨e', he', hopen'⟩ := h [] n known rfl hknown
  have hdigest := (openEntry_eq_ok.mp hopen').1.trans (openEntry_eq_ok.mp hopen).1.symm
  obtain rfl := hfree e' he' e he hdigest
  rw [hopen] at hopen'
  exact (Except.ok.inj hopen').symm

end Backed

/-! ## Outcomes -/

theorem learn_known (n : Node) (c : Content Digest) :
    ∃ known, (n.learn c).content = some known := by
  unfold learn
  cases hn : n.content with
  | some known => exact ⟨known, hn⟩
  | none => exact ⟨c.fresh n.hashesKeys, rfl⟩

/-- A check of a backed tree tells the descent from its digest. -/
theorem verify_outcome {entries : List Bytes} (hfree : CollisionFree entries) (key value : Bytes)
    (proof : List Bytes) (hproof : ∀ e ∈ proof, e ∈ entries) (n : Node) (hn : n.Backed entries) :
    (n.verify key value proof).outcome = descent key value proof n.digest := by
  induction proof generalizing n with
  | nil => rfl
  | cons e rest ih =>
      have he := hproof e List.mem_cons_self
      have hrest := fun e he => hproof e (List.mem_cons_of_mem _ he)
      refine verify_cons_outcome key value e rest n (fun c hopen => ?_)
      have hlearn := hn.learn he hopen
      obtain ⟨known, hknown⟩ := n.learn_known c
      have hopen' : openEntry (n.learn c).digest e = .ok c := by rw [digest_learn, hopen]
      exact ⟨known, hknown, hlearn.digests hfree hknown he hopen',
        fun m hm => ih hrest m (hlearn.child hknown hm)⟩

/-! ## Beside a node of which nothing is known -/

/-- The node with nothing known of it. -/
def blank (hashesKeys : Bool) (n : Node) : Node := unknown hashesKeys n.digest

/-- A visit ends as one of the blank node does, and adds the places that it adds to that. -/
structure AddsAsBlank (hashesKeys : Bool) (visit : Node → Visit Node) (n : Node) : Prop where
  verdict : (visit n).verdict = (visit (n.blank hashesKeys)).verdict
  knows : ∀ p, (visit n).after.Knows p ↔ n.Knows p ∨ (visit (n.blank hashesKeys)).after.Knows p

theorem not_knows_blank (hashesKeys : Bool) (c : Content Node) (way : Hop) (p : List Hop) :
    ¬ (c.map (blank hashesKeys)).Knows way p := by
  rintro ⟨m, hm, hknows⟩
  rw [Content.at?_map] at hm
  obtain ⟨m', _, rfl⟩ := Option.map_eq_some_iff.mp hm
  exact not_knows_of_unknown rfl p hknows

/-- What is added to the slots of a branch is added to the first one or to the others. -/
theorem knows_slots_cons {after before added : Option Node}
    {afters befores addeds : List (Option Node)} {p : List Hop}
    (hfirst : (∃ m, after = some m ∧ m.Knows p) ↔
      (∃ m, before = some m ∧ m.Knows p) ∨ ∃ m, added = some m ∧ m.Knows p)
    (hrest : ∀ j, (Content.branch afters).Knows (.slot j) p ↔
      (Content.branch befores).Knows (.slot j) p ∨ (Content.branch addeds).Knows (.slot j) p)
    (j : Nat) :
    (Content.branch (after :: afters)).Knows (.slot j) p ↔
      (Content.branch (before :: befores)).Knows (.slot j) p ∨
        (Content.branch (added :: addeds)).Knows (.slot j) p := by
  have hzero : ∀ (slot : Option Node) (rest : List (Option Node)),
      (Content.branch (slot :: rest)).Knows (.slot 0) p ↔ ∃ m, slot = some m ∧ m.Knows p := by
    intro slot rest
    cases slot <;> simp [Content.Knows, Content.at?]
  cases j with
  | zero =>
      rw [hzero, hzero, hzero]
      exact hfirst
  | succ j => exact hrest j

section Visits

variable {hashesKeys : Bool} {visit : Node → Visit Node}

/-- Slots are visited beside blank slots, and what is added is added in the same places. -/
theorem visitSlots_knows (branch next : Digest) (slots : List (Option Node))
    (h : ∀ m, some m ∈ slots → AddsAsBlank hashesKeys visit m) (i j : Nat) (p : List Hop) :
    (Content.branch (visitSlots branch next visit i slots).after).Knows (.slot j) p ↔
      (Content.branch slots).Knows (.slot j) p ∨
        (Content.branch (visitSlots branch next visit i
          (slots.map (Option.map (blank hashesKeys)))).after).Knows (.slot j) p := by
  induction slots generalizing i j with
  | nil => exact (or_self_iff).symm
  | cons slot rest ih =>
      have hrest := fun j => ih (fun m hm => h m (List.mem_cons_of_mem _ hm)) (i + 1) j
      have hblank := not_knows_blank hashesKeys (.branch rest)
      cases slot with
      | none =>
          simp only [List.map_cons, Option.map_none, visitSlots, Visit.map]
          exact knows_slots_cons (or_self_iff).symm hrest j
      | some m =>
          have hm := h m List.mem_cons_self
          have hdigest : (m.blank hashesKeys).digest = m.digest := rfl
          simp only [List.map_cons, Option.map_some, visitSlots, hdigest]
          by_cases hnext : m.digest = next
          · have hfirst : (∃ x, some (visit m).after = some x ∧ x.Knows p) ↔
                (∃ x, some m = some x ∧ x.Knows p) ∨
                  ∃ x, some (visit (m.blank hashesKeys)).after = some x ∧ x.Knows p := by
              simpa using hm.knows p
            have hverdict := hm.verdict
            rw [if_pos hnext, if_pos hnext]
            cases hv : (visit m).verdict with
            | error f =>
                rw [hv] at hverdict
                simp only [Visit.andThen, Visit.told, hv, ← hverdict]
                have hunvisited : ∀ j, (Content.branch rest).Knows (.slot j) p ↔
                    (Content.branch rest).Knows (.slot j) p ∨
                      (Content.branch (rest.map (Option.map (blank hashesKeys)))).Knows
                        (.slot j) p :=
                  fun j => ⟨Or.inl, fun hknows => hknows.resolve_right (hblank (.slot j) p)⟩
                exact knows_slots_cons hfirst hunvisited j
            | ok _ =>
                rw [hv] at hverdict
                simp only [Visit.andThen, Visit.told, hv, ← hverdict, Visit.map]
                exact knows_slots_cons hfirst hrest j
          · have hnone : ¬ (m.blank hashesKeys).Knows p := not_knows_of_unknown rfl p
            rw [if_neg hnext, if_neg hnext]
            exact knows_slots_cons (by simp [hnone]) hrest j

/-- Going on below a known node is going on below the node with the same content over blank
children, and adds what is added there. -/
theorem descend_knows (next : Digest) (n blanked : Node) (known : Content Node)
    (hn : n.content = some known) (hdigest : blanked.digest = n.digest)
    (hblanked : blanked.content = some (known.map (blank hashesKeys)))
    (h : ∀ m ∈ known.children, AddsAsBlank hashesKeys visit m) (p : List Hop) :
    (descend next visit n).after.Knows p ↔
      n.Knows p ∨ (descend next visit blanked).after.Knows p := by
  -- Where the check goes on to no child, both nodes stay as they are.
  have hstay : n.Knows p ↔ n.Knows p ∨ blanked.Knows p := by
    cases p with
    | nil => simp [knows_nil, hn]
    | cons way p =>
        rw [knows_cons hblanked]
        exact ⟨Or.inl, fun hknows => hknows.resolve_right (not_knows_blank hashesKeys known way p)⟩
  cases known with
  | leaf k v =>
      simp only [descend, hn, hblanked, Content.map_leaf, Visit.fail]
      exact hstay
  | extension path child =>
      have hchild := h child (List.mem_singleton.mpr rfl)
      simp only [descend, hn, hblanked, Content.map_extension, Visit.map, Visit.told]
      cases p with
      | nil => simp [knows_nil, withContent, hn]
      | cons way p =>
          rw [knows_withContent, knows_withContent, knows_cons hn]
          cases way with
          | child => simpa [Content.Knows, Content.at?] using hchild.knows p
          | slot i => simp [Content.Knows, Content.at?]
  | branch slots =>
      have hrefers : refersTo next (slots.map (Option.map (blank hashesKeys))) =
          refersTo next slots := by
        simp only [refersTo, List.any_map, Function.comp_def, Option.any_map]
        rfl
      simp only [descend, hn, hblanked, Content.map_branch, hrefers, hdigest]
      split
      · have hslots := visitSlots_knows n.digest next slots
          (fun m hm => h m (List.mem_filterMap.mpr ⟨some m, hm, rfl⟩)) 0
        cases p with
        | nil => simp [knows_nil, Visit.map, withContent, hn]
        | cons way p =>
            simp only [Visit.map]
            rw [knows_withContent, knows_withContent, knows_cons hn]
            cases way with
            | child => simp [Content.Knows, Content.at?]
            | slot j => exact hslots j p
      · exact hstay

end Visits

/-- What is known before a descent is known after it. -/
theorem descend_known (next : Digest) (visit : Node → Visit Node) (n : Node)
    (known : Content Node) (hn : n.content = some known) :
    (descend next visit n).after.Knows [] := by
  rw [knows_nil]
  cases known with
  | leaf k v =>
      simp only [descend, hn]
      exact ⟨_, hn⟩
  | extension path child =>
      simp only [descend, hn]
      exact ⟨_, rfl⟩
  | branch slots =>
      simp only [descend, hn]
      split
      · exact ⟨_, rfl⟩
      · exact ⟨_, hn⟩

theorem learn_knows (n : Node) (c : Content Digest) (p : List Hop) :
    (n.learn c).Knows p ↔ n.Knows p ∨ p = [] := by
  unfold learn
  cases hn : n.content with
  | some known =>
      have hnil : n.Knows [] := (knows_nil n).mpr ⟨known, hn⟩
      exact ⟨Or.inl, fun h => h.elim id (fun hp => hp ▸ hnil)⟩
  | none =>
      have hunknown := not_knows_of_unknown hn p
      cases p with
      | nil => simp [knows_nil, withContent]
      | cons way p =>
          have hfresh : ¬ (c.fresh n.hashesKeys).Knows way p := by
            have hblank := not_knows_blank n.hashesKeys (c.fresh n.hashesKeys) way p
            rw [Content.fresh, Content.map_map] at hblank
            exact hblank
          rw [knows_withContent]
          simp [hfresh, hunknown]

/-- **A check adds to a backed tree what it adds to a node of which nothing is known.** -/
theorem verify_knows {entries : List Bytes} (hfree : CollisionFree entries) (key value : Bytes)
    (hashesKeys : Bool) (proof : List Bytes) (hproof : ∀ e ∈ proof, e ∈ entries) (n : Node)
    (hn : n.Backed entries) (p : List Hop) :
    (n.verify key value proof).after.Knows p ↔
      n.Knows p ∨ ((n.blank hashesKeys).verify key value proof).after.Knows p := by
  induction proof generalizing n p with
  | nil =>
      have hblank : ¬ (n.blank hashesKeys).Knows p := not_knows_of_unknown rfl p
      exact ⟨Or.inl, fun h => h.resolve_right hblank⟩
  | cons e rest ih =>
      have he := hproof e List.mem_cons_self
      have hrest := fun e he => hproof e (List.mem_cons_of_mem _ he)
      have hblank : ¬ (n.blank hashesKeys).Knows p := not_knows_of_unknown rfl p
      have hlearned : ∀ c, (n.learn c).Knows p ↔
          n.Knows p ∨ ((n.blank hashesKeys).learn c).Knows p := by
        intro c
        rw [learn_knows, learn_knows]
        simp [hblank]
      cases hopen : openEntry n.digest e with
      | error f =>
          rw [verify_of_open key value e rest n hopen,
            verify_of_open key value e rest (n.blank hashesKeys) hopen]
          exact ⟨Or.inl, fun h => h.resolve_right hblank⟩
      | ok c =>
          cases hagree : c.agree key value with
          | error f =>
              rw [verify_of_agree key value e rest n hopen hagree,
                verify_of_agree key value e rest (n.blank hashesKeys) hopen hagree]
              exact hlearned c
          | ok _ =>
              cases rest with
              | nil =>
                  rw [verify_singleton key value e n hopen hagree,
                    verify_singleton key value e (n.blank hashesKeys) hopen hagree]
                  exact hlearned c
              | cons next rest =>
                  rw [verify_cons_cons key value e rest n next hopen hagree,
                    verify_cons_cons key value e rest (n.blank hashesKeys) next hopen hagree]
                  have hlearn := hn.learn he hopen
                  obtain ⟨known, hknown⟩ := n.learn_known c
                  have hdigests := hlearn.digests hfree hknown he ((n.digest_learn c).symm ▸ hopen)
                  have hblanked : ((n.blank hashesKeys).learn c).content =
                      some (known.map (blank hashesKeys)) := by
                    have hmap := Content.map_map (unknown hashesKeys) digest known
                    rw [hdigests] at hmap
                    exact congrArg some hmap
                  have hadds : ∀ m ∈ known.children,
                      AddsAsBlank hashesKeys (verify key value (next :: rest)) m := by
                    intro m hm
                    have hm' := hlearn.child hknown hm
                    have houtcome := verify_outcome hfree key value (next :: rest) hrest m hm'
                    have hfresh :=
                      verify_unknown_outcome key value hashesKeys (next :: rest) m.digest
                    exact ⟨((Visit.outcome_eq_iff _ _).mp (houtcome.trans hfresh.symm)).2,
                      ih hrest m hm'⟩
                  have hbelow := descend_knows (keccak256 next) (n.learn c)
                    ((n.blank hashesKeys).learn c) known hknown (n.digest_learn c).symm hblanked
                    hadds p
                  have hnil := descend_known (keccak256 next) (verify key value (next :: rest)) _ _
                    hblanked
                  rw [hbelow, learn_knows]
                  constructor
                  · rintro ((h | rfl) | h)
                    · exact Or.inl h
                    · exact Or.inr hnil
                    · exact Or.inr h
                  · rintro (h | h)
                    · exact Or.inl (Or.inl h)
                    · exact Or.inr h

end Node

end Patricia
