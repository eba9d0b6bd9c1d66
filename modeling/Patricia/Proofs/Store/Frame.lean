import Patricia.Proofs.Store.Backing

/-
  What the check of a proof leaves alone.

  Nothing is assumed of the nodes here but that their numbers point inside of the store: children
  may be shared, a content may disagree with the digest of its node, and a content may lead back
  to its own node. `Learned` is all that can happen to such a store while a proof is checked: old
  nodes keep digest and mode, old contents stay what they are, and a node of which nothing was
  known may get a new content, over new children, that an entry of the proof encodes.

  `verify_learned` derives it for every check, together with where it can happen: at the node that
  is checked and at those known below it. Old nodes have only old parents (`Learned.below_old`),
  so what is below a node while the check is going on was below it before, new nodes apart.

  `callsTo_eq_verify` is termination with a bound. A check with the calls nested deeper than some
  depth left to an arbitrary function is the check itself, as soon as the depth is not less than
  the number of entries: every call has one entry less than the call that makes it.
-/

namespace Patricia

namespace Store

/-! ## Parents and children -/

/-- The content of `parent` refers to `child`. -/
def Child (s : Store) (parent child : NodeId) : Prop :=
  ∃ c, s.contentOf parent = some c ∧ child ∈ c.children

theorem Child.parent_lt {s : Store} {parent child : NodeId} (h : s.Child parent child) :
    parent < s.cells.size := by
  obtain ⟨c, hc, _⟩ := h
  exact lt_size_of_contentOf hc

theorem WellFormed.lt_of_child {s : Store} (hs : WellFormed s) {parent child : Nat}
    (h : s.Child parent child) : child < s.cells.size := by
  obtain ⟨c, hc, hmem⟩ := h
  exact hs.child_of_contentOf hc child hmem

theorem Child.below {s : Store} {parent child x : NodeId} (h : s.Child parent child)
    (hx : s.Below child x) : s.Below parent x :=
  Relation.ReflTransGen.head h hx

/-! ## What learning does to a store -/

/-- Nothing was known of a node of `s`, and by `t` it has learned the entry `e`: it has a new
content, which is what `e` encodes, over new children, each in one place, with the mode of the
node. -/
structure LearnedEntry (s t : Store) (id : NodeId) (e : Bytes) : Prop where
  unknown : (s.cell id).content = none
  digest : keccak256 e = (s.cell id).digest
  content : ∃ (k : ContentId) (c : Content NodeId), (t.cell id).content = some k ∧
    s.contents.size ≤ k ∧ t.contents[k]? = some c ∧ Content.decode e = .ok (t.byDigest c) ∧
    c.children.Nodup ∧ ∀ j ∈ c.children, s.cells.size ≤ j ∧ j < t.cells.size ∧
      (t.cell j).hashesKeys = (s.cell id).hashesKeys

/-- `t` is `s` after nodes in `scope` have learned entries. -/
structure Learned (entries : List Bytes) (scope : NodeId → Prop) (s t : Store) : Prop where
  grows : Extends s t
  mode_eq : ∀ id : Nat, id < s.cells.size → (t.cell id).hashesKeys = (s.cell id).hashesKeys
  content : ∀ id : Nat, id < s.cells.size → (t.cell id).content = (s.cell id).content ∨
    (scope id ∧ ∃ e ∈ entries, s.LearnedEntry t id e)
  /-- New nodes have new contents. -/
  new_content : ∀ id k : Nat, s.cells.size ≤ id → (t.cell id).content = some k →
    s.contents.size ≤ k
  /-- New contents have new children. -/
  new_children : ∀ (k : Nat) (c : Content NodeId), s.contents.size ≤ k →
    t.contents[k]? = some c → ∀ j ∈ c.children, s.cells.size ≤ j
  /-- A new node has the mode of its parent. -/
  new_mode : ∀ parent child : Nat, t.Child parent child → s.cells.size ≤ child →
    (t.cell child).hashesKeys = (t.cell parent).hashesKeys

namespace Learned

variable {entries : List Bytes} {scope : NodeId → Prop} {s t u : Store}

theorem refl (entries : List Bytes) (scope : NodeId → Prop) (hs : WellFormed s) :
    Learned entries scope s s where
  grows := Extends.refl s
  mode_eq := fun _ _ => rfl
  content := fun _ _ => Or.inl rfl
  new_content := fun id k hid hk => by
    rw [cell_of_size_le s id hid] at hk
    cases hk
  new_children := fun k c hk hc => by
    rw [Array.getElem?_eq_none hk] at hc
    cases hc
  new_mode := fun parent child hchild hnew => absurd (hs.lt_of_child hchild) (by omega)

theorem mono (h : Learned entries scope s t) {entries' : List Bytes} {scope' : NodeId → Prop}
    (hentries : ∀ e ∈ entries, e ∈ entries')
    (hscope : ∀ id : Nat, id < s.cells.size → scope id → scope' id) :
    Learned entries' scope' s t := by
  refine { h with content := fun id hid => ?_ }
  rcases h.content id hid with hsame | ⟨hin, e, he, hlearned⟩
  · exact Or.inl hsame
  · exact Or.inr ⟨hscope id hid hin, e, hentries e he, hlearned⟩

/-- What is known of a node stays. -/
theorem content_of_known (h : Learned entries scope s t) {id k : Nat}
    (hk : (s.cell id).content = some k) : (t.cell id).content = some k := by
  rcases h.content id (lt_size_of_content s id k hk) with hsame | ⟨_, e, _, hlearned⟩
  · rw [hsame, hk]
  · rw [hlearned.unknown] at hk
    cases hk

theorem contentOf_of_known (h : Learned entries scope s t) (hs : WellFormed s) {id : NodeId}
    {c : Content NodeId} (hc : s.contentOf id = some c) : t.contentOf id = some c := by
  obtain ⟨k, hk, hcontent⟩ := contentOf_eq_some s id c hc
  rw [contentOf_of_content t id k (h.content_of_known hk),
    h.grows.contents_eq k (hs.content_lt id k hk), hcontent]

theorem child (h : Learned entries scope s t) (hs : WellFormed s) {parent child : NodeId}
    (hchild : s.Child parent child) : t.Child parent child := by
  obtain ⟨c, hc, hmem⟩ := hchild
  exact ⟨c, h.contentOf_of_known hs hc, hmem⟩

theorem below (h : Learned entries scope s t) (hs : WellFormed s) {root x : NodeId}
    (hbelow : s.Below root x) : t.Below root x :=
  Relation.ReflTransGen.mono (fun _ _ hchild => h.child hs hchild) _ _ hbelow

/-- The parents of an old node are old, and were its parents before. -/
theorem child_old (h : Learned entries scope s t) {parent child : Nat}
    (hchild : t.Child parent child) (hold : child < s.cells.size) : s.Child parent child := by
  obtain ⟨c, hc, hmem⟩ := hchild
  obtain ⟨k, hk, hcontent⟩ := contentOf_eq_some t parent c hc
  have hkold : k < s.contents.size := by
    refine Nat.lt_of_not_le (fun hnew => ?_)
    exact absurd hold (Nat.not_lt.mpr (h.new_children k c hnew hcontent child hmem))
  have hparent : parent < s.cells.size := by
    refine Nat.lt_of_not_le (fun hnew => ?_)
    have := h.new_content parent k hnew hk
    omega
  rcases h.content parent hparent with hsame | ⟨_, e, _, hlearned⟩
  · refine ⟨c, ?_, hmem⟩
    rw [contentOf_of_content s parent k (by rw [← hsame, hk]), ← h.grows.contents_eq k hkold,
      hcontent]
  · obtain ⟨k', _, hk', hnew, _⟩ := hlearned.content
    rw [hk] at hk'
    cases hk'
    omega

/-- An old node is only known below nodes that it was known below before. -/
theorem below_old (h : Learned entries scope s t) {root x : NodeId} (hbelow : t.Below root x)
    (hold : x < s.cells.size) : s.Below root x := by
  induction hbelow with
  | refl => exact Relation.ReflTransGen.refl
  | tail _ hlast ih =>
      have hchild := h.child_old hlast hold
      exact (ih hchild.parent_lt).tail hchild

end Learned

/-- An entry that a node has learned stays learned. -/
theorem LearnedEntry.mono {s t u : Store} {id : NodeId} {e : Bytes} (h : s.LearnedEntry t id e)
    (ht : WellFormed t) {entries : List Bytes} {scope : NodeId → Prop}
    (h' : Learned entries scope t u) : s.LearnedEntry u id e := by
  obtain ⟨k, c, hk, hnew, hc, hdecode, hnodup, hchildren⟩ := h.content
  have hlt := ht.child_lt k c hc
  have hdigest : u.byDigest c = t.byDigest c :=
    Content.map_congr c (fun j hj => h'.grows.digest_eq j (hlt j hj))
  refine ⟨h.unknown, h.digest, k, c, h'.content_of_known hk, hnew, ?_, ?_, hnodup, ?_⟩
  · rw [h'.grows.contents_eq k (ht.content_lt id k hk), hc]
  · rw [hdecode, hdigest]
  · intro j hj
    obtain ⟨hjnew, hjt, hmode⟩ := hchildren j hj
    exact ⟨hjnew, Nat.lt_of_lt_of_le hjt h'.grows.cells_le, by rw [h'.mode_eq j hjt, hmode]⟩

/-- Learning after learning; `scope` says where of the old nodes. -/
theorem Learned.trans {entries : List Bytes} {scope scope' : NodeId → Prop} {s t u : Store}
    (h : Learned entries scope s t) (ht : WellFormed t) (h' : Learned entries scope' t u)
    (hscope : ∀ id : Nat, id < s.cells.size → scope' id → scope id) :
    Learned entries scope s u where
  grows := h.grows.trans h'.grows
  mode_eq := fun id hid => by
    rw [h'.mode_eq id (Nat.lt_of_lt_of_le hid h.grows.cells_le), h.mode_eq id hid]
  content := fun id hid => by
    have hidt := Nat.lt_of_lt_of_le hid h.grows.cells_le
    rcases h.content id hid with hsame | ⟨hin, e, he, hlearned⟩
    · rcases h'.content id hidt with hsame' | ⟨hin, e, he, hlearned⟩
      · exact Or.inl (hsame'.trans hsame)
      · obtain ⟨k, c, hk, hnew, hc, hdecode, hnodup, hchildren⟩ := hlearned.content
        have hcells := h.grows.cells_le
        have hcontents := h.grows.contents_le
        refine Or.inr ⟨hscope id hid hin, e, he, ?_, ?_, k, c, hk, by omega, hc, hdecode, hnodup,
          ?_⟩
        · rw [← hsame, hlearned.unknown]
        · rw [hlearned.digest, h.grows.digest_eq id hid]
        · intro j hj
          obtain ⟨hjnew, hju, hmode⟩ := hchildren j hj
          exact ⟨by omega, hju, by rw [hmode, h.mode_eq id hid]⟩
    · exact Or.inr ⟨hin, e, he, hlearned.mono ht h'⟩
  new_content := fun id k hid hk => by
    have hcontents := h.grows.contents_le
    rcases Nat.lt_or_ge id t.cells.size with hidt | hidt
    · rcases h'.content id hidt with hsame | ⟨_, e, _, hlearned⟩
      · exact h.new_content id k hid (by rw [← hsame, hk])
      · obtain ⟨k', _, hk', hnew, _⟩ := hlearned.content
        obtain rfl : k = k' := Option.some.inj (hk.symm.trans hk')
        omega
    · have := h'.new_content id k hidt hk
      omega
  new_children := fun k c hk hc j hj => by
    have hcells := h.grows.cells_le
    rcases Nat.lt_or_ge k t.contents.size with hkt | hkt
    · rw [h'.grows.contents_eq k hkt] at hc
      exact h.new_children k c hk hc j hj
    · have := h'.new_children k c hkt hc j hj
      omega
  new_mode := fun parent child hchild hnew => by
    rcases Nat.lt_or_ge child t.cells.size with hct | hct
    · have hold := h'.child_old hchild hct
      rw [h'.mode_eq child hct, h'.mode_eq parent hold.parent_lt]
      exact h.new_mode parent child hold hnew
    · exact h'.new_mode parent child hchild hct

section Learn

variable (s : Store) (id : Nat) (c : Content Digest) (hunknown : s.contentOf id = none)
include hunknown

theorem content_learn (hid : id < s.cells.size) (j : Nat) :
    ((s.learn id c).cell j).content =
      if j = id then some s.contents.size
      else ((s.addContent (s.cell id).hashesKeys c).1.cell j).content := by
  rw [learn_of_unknown s id c hunknown, cell_setContent, size_addContent]
  by_cases hj : j = id
  · rw [if_pos ⟨hj, by omega⟩, if_pos hj]
  · rw [if_neg (fun h => hj h.1), if_neg hj]

theorem contents_learn :
    (s.learn id c).contents = (s.addContent (s.cell id).hashesKeys c).1.contents := by
  rw [learn_of_unknown s id c hunknown, contents_setContent]

theorem contents_learn_new :
    (s.learn id c).contents[s.contents.size]? = some (c.number s.cells.size) := by
  rw [contents_learn s id c hunknown, contents_addContent_new]

/-- There is one new content. -/
theorem contents_learn_of_size_le (k : Nat) (known : Content NodeId) (hk : s.contents.size ≤ k)
    (hknown : (s.learn id c).contents[k]? = some known) : known = c.number s.cells.size := by
  rw [contents_learn s id c hunknown] at hknown
  have hlt := (Array.getElem?_eq_some_iff.mp hknown).1
  rw [contents_size_addContent] at hlt
  obtain rfl : k = s.contents.size := by omega
  rw [contents_addContent_new] at hknown
  exact (Option.some.inj hknown).symm

/-- The children of the new content are new, and have the mode of their parent. -/
theorem children_learn (j : Nat) (hj : j ∈ (c.number s.cells.size).children) :
    s.cells.size ≤ j ∧ j < (s.learn id c).cells.size ∧
      ((s.learn id c).cell j).hashesKeys = (s.cell id).hashesKeys := by
  rw [Content.children_number, List.mem_range'_1] at hj
  obtain ⟨i, rfl⟩ := Nat.exists_eq_add_of_le hj.1
  have hi : i < c.children.length := by omega
  have hmode := (cell_learn_new s id c hunknown i _ (List.getElem?_eq_getElem hi)).2
  refine ⟨hj.1, ?_, hmode⟩
  rw [learn_of_unknown s id c hunknown, size_setContent, size_addContent]
  omega

/-- A node of which nothing was known has learned the entry that it is given. -/
theorem learnedEntry_learn (hs : WellFormed s) (hid : id < s.cells.size) (e : Bytes)
    (hopen : openEntry (s.cell id).digest e = .ok c) :
    s.LearnedEntry (s.learn id c) id e := by
  obtain ⟨hdigest, hdecode⟩ := openEntry_eq_ok.mp hopen
  refine ⟨hs.content_of_unknown hunknown, hdigest, s.contents.size, c.number s.cells.size, ?_,
    Nat.le_refl _, contents_learn_new s id c hunknown, ?_, ?_, children_learn s id c hunknown⟩
  · rw [content_learn s id c hunknown hid, if_pos rfl]
  · rw [hdecode, byDigest_learn s id c hunknown]
  · rw [Content.children_number]
    exact List.nodup_range'

end Learn

/-- One node learns, unless it is known already. -/
theorem Learned.learn {entries : List Bytes} {scope : NodeId → Prop} {s : Store} (hs : WellFormed s)
    {id : Nat} (hid : id < s.cells.size) (hscope : scope id) {e : Bytes} (he : e ∈ entries)
    {c : Content Digest} (hopen : openEntry (s.cell id).digest e = .ok c) :
    Learned entries scope s (s.learn id c) := by
  cases hknown : s.contentOf id with
  | some known =>
      rw [learn_of_known s id c known hknown]
      exact Learned.refl entries scope hs
  | none =>
      have hchange : Change entries false s (s.learn id c) := .learn s id e c hid he hopen hknown
      have hcontent := content_learn s id c hknown hid
      refine ⟨hchange.extends, hashesKeys_learn_lt s id c hknown, ?_, ?_, ?_, ?_⟩
      · intro j hj
        by_cases hjid : j = id
        · subst hjid
          exact Or.inr ⟨hscope, e, he, learnedEntry_learn s j c hknown hs hid e hopen⟩
        · rw [hcontent j, if_neg hjid, cell_addContent_lt s _ c j hj]
          exact Or.inl rfl
      · intro j k hj hk
        rw [hcontent j, if_neg (by omega), content_addContent_of_size_le s _ c j hj] at hk
        cases hk
      · intro k known hk hc j hj
        rw [contents_learn_of_size_le s id c hknown k known hk hc] at hj
        exact (children_learn s id c hknown j hj).1
      · rintro parent child ⟨known, hc, hmem⟩ hnew
        by_cases hparent : parent = id
        · subst hparent
          rw [contentOf_learn_self s parent c hknown hid] at hc
          cases hc
          obtain ⟨_, _, hmode⟩ := children_learn s parent c hknown child hmem
          rw [hmode, hashesKeys_learn_lt s parent c hknown parent hid]
        · rw [contentOf_learn_ne s hs id c hknown parent hparent] at hc
          exact absurd (hs.child_of_contentOf hc child hmem) (Nat.not_lt.mpr hnew)

/-! ## Checking a proof -/

section Visits

variable {entries : List Bytes} {visit : NodeId → Store → Visit Store}
  (hvisit : ∀ (j : Nat) (t : Store), WellFormed t → j < t.cells.size →
    WellFormed (visit j t).after ∧ Learned entries (t.Below j) t (visit j t).after)
include hvisit

/-- Visits of slots make nodes learn that are known below a slot with the digest that is looked
for. -/
theorem visitSlots_learned (branch next : Digest) (slots : List (Option NodeId)) (i : Nat)
    (s : Store) (hs : WellFormed s) (hslots : ∀ j : Nat, some j ∈ slots → j < s.cells.size) :
    WellFormed (visitSlots branch next visit i slots s).after ∧
      Learned entries (fun x => ∃ j, some j ∈ slots ∧ (s.cell j).digest = next ∧ s.Below j x) s
        (visitSlots branch next visit i slots s).after := by
  refine visitSlots_keeps (P := fun t => WellFormed t ∧ Learned entries
    (fun x => ∃ j, some j ∈ slots ∧ (s.cell j).digest = next ∧ s.Below j x) s t)
    branch next visit slots i ?_ s ⟨hs, Learned.refl entries _ hs⟩
  rintro j hj t hdigest ⟨ht, hlearned⟩
  rw [hlearned.grows.digest_eq j (hslots j hj)] at hdigest
  have hlt := Nat.lt_of_lt_of_le (hslots j hj) hlearned.grows.cells_le
  obtain ⟨hafter, hbelow⟩ := hvisit j t ht hlt
  refine ⟨hafter, hlearned.trans ht hbelow (fun x hx hin => ?_)⟩
  exact ⟨j, hj, hdigest, hlearned.below_old hin hx⟩

/-- Going on below a node makes nodes learn that are known below it. -/
theorem descend_learned (next : Digest) (id : Nat) (s : Store) (hs : WellFormed s) :
    WellFormed (descend next visit id s).after ∧
      Learned entries (s.Below id) s (descend next visit id s).after := by
  unfold descend
  split
  · next path child hc =>
      have hmem : child ∈ (Content.extension path child).children := List.mem_singleton.mpr rfl
      obtain ⟨hafter, hbelow⟩ := hvisit child s hs (hs.child_of_contentOf hc child hmem)
      have hchild : s.Child id child := ⟨_, hc, hmem⟩
      exact ⟨hafter, hbelow.mono (fun _ he => he) (fun x _ hx => hchild.below hx)⟩
  · next slots hc =>
      have hmem : ∀ j : Nat, some j ∈ slots → j ∈ (Content.branch slots).children :=
        fun j hj => List.mem_filterMap.mpr ⟨some j, hj, rfl⟩
      split
      · obtain ⟨hafter, hbelow⟩ := visitSlots_learned hvisit (s.cell id).digest next slots 0 s hs
          (fun j hj => hs.child_of_contentOf hc j (hmem j hj))
        refine ⟨hafter, hbelow.mono (fun _ he => he) (fun x _ hx => ?_)⟩
        obtain ⟨j, hj, _, hjx⟩ := hx
        have hchild : s.Child id j := ⟨_, hc, hmem j hj⟩
        exact hchild.below hjx
      · exact ⟨hs, Learned.refl entries _ hs⟩
  · exact ⟨hs, Learned.refl entries _ hs⟩

end Visits

/-- Whatever its verdict, the check of a proof makes nodes below the one that is checked learn
entries of that proof, and does nothing else. -/
theorem verify_learned (key value : Bytes) (proof : List Bytes) (id : Nat) (s : Store)
    (hs : WellFormed s) (hid : id < s.cells.size) :
    WellFormed (verify key value proof id s).after ∧
      Learned proof (s.Below id) s (verify key value proof id s).after := by
  induction proof generalizing id s with
  | nil => exact ⟨hs, Learned.refl [] _ hs⟩
  | cons entry rest ih =>
      simp only [verify]
      cases hopen : openEntry (s.cell id).digest entry with
      | error f => exact ⟨hs, Learned.refl _ _ hs⟩
      | ok c =>
          have hentry : entry ∈ entry :: rest := List.mem_cons_self
          have hlearn : Learned (entry :: rest) (s.Below id) s (s.learn id c) :=
            Learned.learn hs hid Relation.ReflTransGen.refl hentry hopen
          have hwf : WellFormed (s.learn id c) :=
            (learn_changes false s id entry c hid hentry hopen).wellFormed hs
          dsimp only
          cases c.agree key value with
          | error f => exact ⟨hwf, hlearn⟩
          | ok _ =>
              cases rest with
              | nil => exact ⟨hwf, hlearn⟩
              | cons next rest =>
                  obtain ⟨hafter, hbelow⟩ :=
                    descend_learned ih (keccak256 next) id (s.learn id c) hwf
                  have hbelow' := hbelow.mono (fun e he => List.mem_cons_of_mem entry he)
                    (fun x _ hx => hx)
                  exact ⟨hafter, hlearn.trans hwf hbelow' (fun x hx hin => hlearn.below_old hin hx)⟩

/-! ## Nested calls -/

/-- One call of a check; `below` stands for the calls that it makes in turn. -/
def call (key value : Bytes) (below : List Bytes → NodeId → Store → Visit Store) :
    List Bytes → NodeId → Store → Visit Store
  | [], id, s => ⟨s, [], emptyProofVerdict (s.cell id).digest value⟩
  | entry :: rest, id, s =>
    match openEntry (s.cell id).digest entry with
    | .error f => .fail s f
    | .ok c =>
      match c.agree key value with
      | .error f => .fail (s.learn id c) f
      | .ok () =>
        match rest.head? with
        | none => .done (s.learn id c)
        | some next => descend (keccak256 next) (below rest) id (s.learn id c)

/-- A check with at most `depth` calls in one another; what would be called deeper is `deeper`. -/
def callsTo (key value : Bytes) (deeper : List Bytes → NodeId → Store → Visit Store) :
    Nat → List Bytes → NodeId → Store → Visit Store
  | 0 => deeper
  | depth + 1 => call key value (callsTo key value deeper depth)

/-- A check is one call, which checks the rest of the proof by further calls. -/
theorem call_verify (key value : Bytes) (proof : List Bytes) (id : NodeId) (s : Store) :
    call key value (verify key value) proof id s = verify key value proof id s := by
  cases proof with
  | nil => rfl
  | cons entry rest => rfl

/-- A call makes further calls only with the proof less its first entry, and with no empty one. -/
theorem call_congr (key value : Bytes) (below below' : List Bytes → NodeId → Store → Visit Store)
    (proof : List Bytes) (h : proof.tail ≠ [] → below proof.tail = below' proof.tail) :
    call key value below proof = call key value below' proof := by
  funext id s
  cases proof with
  | nil => rfl
  | cons entry rest =>
      cases rest with
      | nil => rfl
      | cons next rest =>
          have hrest : below (next :: rest) = below' (next :: rest) := h (List.cons_ne_nil _ _)
          simp only [call, hrest]

/-- No more calls are ever nested than the proof has entries, the first call apart. -/
theorem callsTo_eq_verify (key value : Bytes)
    (deeper : List Bytes → NodeId → Store → Visit Store) (depth : Nat) (proof : List Bytes)
    (h : proof.length ≤ depth + 1) :
    callsTo key value deeper (depth + 1) proof = verify key value proof := by
  induction depth generalizing proof with
  | zero =>
      have htail : proof.tail = [] := by
        rw [← List.length_eq_zero_iff, List.length_tail]
        omega
      have hcall : callsTo key value deeper 1 proof = call key value (verify key value) proof :=
        call_congr key value _ _ proof (fun hne => absurd htail hne)
      rw [hcall]
      funext id s
      exact call_verify key value proof id s
  | succ depth ih =>
      have htail : proof.tail.length ≤ depth + 1 := by
        rw [List.length_tail]
        omega
      have hcall : callsTo key value deeper (depth + 2) proof =
          call key value (verify key value) proof :=
        call_congr key value _ _ proof (fun _ => ih proof.tail htail)
      rw [hcall]
      funext id s
      exact call_verify key value proof id s

/-! ## Stores of sessions -/

theorem WellFormed.clearContent {s : Store} (h : WellFormed s) (id : NodeId) :
    WellFormed (s.setContent id none) where
  content_lt := fun j k hk => by
    rw [cell_setContent] at hk
    split at hk
    · cases hk
    · exact h.content_lt j k hk
  child_lt := fun k c hc j hj => by
    rw [size_setContent]
    exact h.child_lt k c hc j hj

end Store

namespace Session

theorem WellFormed.content {s : Session} (h : s.WellFormed) {name : String}
    {c : Option ContentId} (hc : s.content? name = some c) : s.store.Holds (.content c) := by
  unfold content? at hc
  split at hc
  · next hheld =>
      cases hc
      exact h.held name _ hheld
  · cases hc

/-- A node is given a content that is there, or none. -/
theorem WellFormed.setContent {s : Session} (h : s.WellFormed) (id : NodeId)
    {c : Option ContentId} (hc : s.store.Holds (.content c)) :
    WellFormed ⟨s.store.setContent id c, s.registers⟩ := by
  refine h.grow ?_ (Store.Extends.setContent s.store id c)
  cases c with
  | none => exact h.store.clearContent id
  | some k => exact h.store.setContent id k (hc k rfl)

/-- Every step keeps all numbers inside of the store, also one that gives a node a content by
hand. -/
theorem step_wellFormed (s : Session) (hs : s.WellFormed) (a : Step) : (s.step a).1.WellFormed := by
  cases ha : a.setsContent with
  | false => exact (s.step_moves hs a ha).wellFormed hs
  | true =>
      cases a with
      | setContent node source =>
          simp only [step, onNode]
          split
          · next id hid =>
              split
              · next c hc =>
                  refine hs.setContent id ?_
                  cases source with
                  | none =>
                      cases hc
                      exact fun k hk => by cases hk
                  | some name => exact hs.content hc
              · exact hs
          · exact hs
      | _ => cases ha

/-- The numbers in every session stay inside of its store. -/
theorem run_keeps_wellFormed (s : Session) (hs : s.WellFormed) (steps : List Step) :
    (s.run steps).1.WellFormed := by
  induction steps generalizing s with
  | nil => exact hs
  | cons a rest ih => exact ih (s.step a).1 (s.step_wellFormed hs a)

/-- A branch, and its first child with the content of the branch, so that it is its own child. -/
def circle : List Step :=
  [.new "branch" (keccak256 branchEntry).bytes true, .verify "branch" [] [9] [branchEntry],
    .child "child" "branch" [.slot 0], .content "content" "branch",
    .setContent "child" (some "content")]

end Session

/-! ## Every store -/

namespace Store

/-- **A check is safe on every graph of nodes.** Whatever is known in a store, shared, false or in
a circle, the check of a proof against any of its nodes comes to an end with no more calls in one
another than there are entries, and whatever its verdict: no node that was there has another
digest or mode, and no content that was there is another; a node that was there has another
content only if nothing was known of it and it is the checked node or was known below it, and then
it has learned an entry of the proof that hashes to it; and a node that no entry hashes to is what
it was. -/
theorem verify_frame (key value : Bytes) (proof : List Bytes) (s : Store) (hs : WellFormed s)
    (id : NodeId) (hid : id < s.cells.size) :
    (∀ deeper depth, proof.length ≤ depth + 1 →
      callsTo key value deeper (depth + 1) proof id s = verify key value proof id s) ∧
      let t := (verify key value proof id s).after
      (∀ j : NodeId, j < s.cells.size → j < t.cells.size ∧
        (t.cell j).digest = (s.cell j).digest ∧ (t.cell j).hashesKeys = (s.cell j).hashesKeys) ∧
      (∀ k : ContentId, k < s.contents.size → t.contents[k]? = s.contents[k]?) ∧
      (∀ j : NodeId, j < s.cells.size → (t.cell j).content ≠ (s.cell j).content →
        s.Below id j ∧ ∃ e ∈ proof, s.LearnedEntry t j e) ∧
      ∀ j : NodeId, j < s.cells.size → (∀ e ∈ proof, keccak256 e ≠ (s.cell j).digest) →
        t.cell j = s.cell j := by
  obtain ⟨_, hlearned⟩ := verify_learned key value proof id s hs hid
  have hchanged : ∀ j : NodeId, j < s.cells.size →
      ((verify key value proof id s).after.cell j).content ≠ (s.cell j).content →
      s.Below id j ∧ ∃ e ∈ proof, s.LearnedEntry (verify key value proof id s).after j e := by
    intro j hj hne
    exact (hlearned.content j hj).resolve_left hne
  refine ⟨fun deeper depth h => ?_, fun j hj => ⟨Nat.lt_of_lt_of_le hj hlearned.grows.cells_le,
    hlearned.grows.digest_eq j hj, hlearned.mode_eq j hj⟩, hlearned.grows.contents_eq, hchanged,
    fun j hj hnone => ?_⟩
  · rw [callsTo_eq_verify key value deeper depth proof h]
  · have hcontent : ((verify key value proof id s).after.cell j).content = (s.cell j).content := by
      by_cases hsame : ((verify key value proof id s).after.cell j).content = (s.cell j).content
      · exact hsame
      · obtain ⟨_, e, he, hentry⟩ := hchanged j hj hsame
        exact absurd hentry.digest (hnone e he)
    rw [Cell.mk.injEq]
    exact ⟨hlearned.grows.digest_eq j hj, hlearned.mode_eq j hj, hcontent⟩

/-- In a circle, a check that goes round and then out of it changes only the node that it leads
to. -/
theorem verify_frame_circle :
    let s := (Session.empty.run Session.circle).1.store
    let t := (s.verify [] [9] [leafEntry, leafEntry, extensionEntry] 1).after
    s.WellFormed ∧ 1 < s.cells.size ∧ s.Child 1 1 ∧ (t.cell 2).content ≠ (s.cell 2).content ∧
      (s.Below 1 2 ∧
        ∃ e ∈ [leafEntry, leafEntry, extensionEntry], s.LearnedEntry t 2 e) ∧
      ∀ j : NodeId, j < s.cells.size → (t.cell j).digest = (s.cell j).digest := by
  have hs : (Session.empty.run Session.circle).1.store.WellFormed :=
    (Session.empty.run_keeps_wellFormed Session.WellFormed.empty Session.circle).store
  have hsize : 1 < (Session.empty.run Session.circle).1.store.cells.size := by decide +kernel
  have hcontent : (Session.empty.run Session.circle).1.store.contentOf 1 =
      some (.branch (some 1 :: some 2 :: List.replicate 15 none)) := by decide +kernel
  have hchanged : (((Session.empty.run Session.circle).1.store.verify [] [9]
      [leafEntry, leafEntry, extensionEntry] 1).after.cell 2).content ≠
      ((Session.empty.run Session.circle).1.store.cell 2).content := by decide +kernel
  have hsize' : 2 < (Session.empty.run Session.circle).1.store.cells.size := by decide +kernel
  obtain ⟨_, hcells, _, hlearned, _⟩ := verify_frame [] [9]
    [leafEntry, leafEntry, extensionEntry] (Session.empty.run Session.circle).1.store hs 1 hsize
  exact ⟨hs, hsize, ⟨_, hcontent, by decide⟩, hchanged, hlearned 2 hsize' hchanged,
    fun j hj => (hcells j hj).2.1⟩

end Store

end Patricia
