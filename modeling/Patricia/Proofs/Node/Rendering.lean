import Patricia.Proofs.Check.Mode
import Patricia.Proofs.Cli.Report

/-
  The text form of a node is unambiguous.

  A text form ends where it ends: it is told apart from whatever stands behind it
  (`Node.render_append_inj`). For byte strings, which may be of any length, this needs that no
  digit stands behind them, which is what the marks between the fields are for; for slots, of which
  there may be any number, it needs the bracket that closes them. The kinds of content differ in
  their first letter, an empty slot from a full one in its third.

  The mode of a node is not shown, so two nodes have the same text form exactly if they are the
  same but for their modes (`Node.render_eq_iff`). What the tools print adds a fixed text in front
  of a text form and a line end behind it, and the texts of faults start otherwise; so what is
  printed determines what was learned (`rendering_unambiguous`).
-/

namespace Patricia

/-! ## Byte strings -/

namespace Hex

/-- The text starts, and not with a digit. -/
def EndsDigits (mark : String) : Prop := ∃ c rest, mark.toList = c :: rest ∧ c ∉ digits

theorem encodeList_append_inj {a b : Bytes} {s t : List Char}
    (hs : ∀ c, s.head? = some c → c ∉ digits) (ht : ∀ c, t.head? = some c → c ∉ digits)
    (h : encodeList a ++ s = encodeList b ++ t) : a = b ∧ s = t := by
  induction a generalizing b with
  | nil =>
      cases b with
      | nil => exact ⟨rfl, h⟩
      | cons y rest => exact absurd (digit_mem (div_sixteen_lt y)) (hs _ (congrArg List.head? h))
  | cons x rest ih =>
      cases b with
      | nil => exact absurd (digit_mem (div_sixteen_lt x)) (ht _ (congrArg List.head? h).symm)
      | cons y rest' =>
          simp only [encodeList, List.cons_append, List.cons.injEq] at h
          obtain ⟨hhigh, hlow, hrest⟩ := h
          obtain ⟨rfl, hst⟩ := ih hrest
          have hdiv := digit_inj (div_sixteen_lt x) (div_sixteen_lt y) hhigh
          have hmod := digit_inj (Nat.mod_lt _ (by decide)) (Nat.mod_lt _ (by decide)) hlow
          have hxy : x = y := by
            rw [← UInt8.toNat_inj]
            omega
          exact ⟨by rw [hxy], hst⟩

theorem toList_encode_append (b : Bytes) (s : String) :
    (encode b ++ s).toList = encodeList b ++ s.toList := by
  rw [String.toList_append, encode, String.toList_ofList]

/-- A byte string ends where a mark follows that does not start with a digit. -/
theorem marked_append_inj {a b : Bytes} {mark s t : String} (hmark : EndsDigits mark)
    (h : marked a ++ (mark ++ s) = marked b ++ (mark ++ t)) : a = b ∧ s = t := by
  obtain ⟨c, rest, hc, hdigit⟩ := hmark
  have hends (u : String) : ∀ d, (mark ++ u).toList.head? = some d → d ∉ digits := by
    intro d hd
    rw [String.toList_append, hc, List.cons_append, List.head?_cons, Option.some.injEq] at hd
    exact hd ▸ hdigit
  rw [marked, marked, String.append_assoc, String.append_assoc, String.append_right_inj,
    ← String.toList_inj, toList_encode_append, toList_encode_append] at h
  obtain ⟨hab, hst⟩ := encodeList_append_inj (hends s) (hends t) h
  exact ⟨hab, (String.append_right_inj mark).mp (String.toList_inj.mp hst)⟩

end Hex

namespace Node

/-! ## Parts of a text form -/

-- The equations of these functions are stated here, since deriving them from the definitions takes
-- long.
theorem render_mk (d : Digest) (hashesKeys : Bool) (c : Option (Content Node)) :
    render (.mk d hashesKeys c) =
      "Node(hash=" ++ Hex.marked d.bytes ++ ", data=" ++ renderContent c ++ ")" := rfl

theorem renderContent_none : renderContent none = "UnknownNode" := rfl

theorem renderContent_leaf (key value : Bytes) :
    renderContent (some (.leaf key value)) =
      "LeafNode(key=" ++ Hex.marked key ++ ", value=" ++ Hex.marked value ++ ")" := rfl

theorem renderContent_extension (path : Bytes) (child : Node) :
    renderContent (some (.extension path child)) =
      "ExtensionNode(key=" ++ Hex.marked path ++ ", child=" ++ child.render ++ ")" := rfl

theorem renderContent_branch (slots : List (Option Node)) :
    renderContent (some (.branch slots)) = "BranchNode([" ++ renderSlots slots ++ "])" := rfl

theorem renderSlots_nil : renderSlots [] = "" := rfl

theorem renderSlots_singleton (slot : Option Node) : renderSlots [slot] = renderSlot slot := rfl

theorem renderSlots_cons_cons (slot next : Option Node) (rest : List (Option Node)) :
    renderSlots (slot :: next :: rest) = renderSlot slot ++ ", " ++ renderSlots (next :: rest) :=
  rfl

theorem renderSlot_none : renderSlot none = "None" := rfl

theorem renderSlot_some (n : Node) : renderSlot (some n) = n.render := rfl

/-! ## Letters that tell text forms apart -/

/-- The first letter of the text form of a content. -/
def contentLetter : Option (Content Node) → Char
  | none => 'U'
  | some (.leaf _ _) => 'L'
  | some (.extension _ _) => 'E'
  | some (.branch _) => 'B'

theorem renderContent_letter (c : Option (Content Node)) (s : String) :
    (renderContent c ++ s).toList.take 1 = [contentLetter c] := by
  rcases c with _ | ⟨key, value⟩ | ⟨path, child⟩ | slots
  · simp [renderContent_none, contentLetter]
  · simp [renderContent_leaf, contentLetter]
  · simp [renderContent_extension, contentLetter]
  · simp [renderContent_branch, contentLetter]

/-- The third letter of the text form of a slot. -/
def slotLetter : Option Node → Char
  | none => 'n'
  | some _ => 'd'

theorem renderSlot_letter (slot : Option Node) (s : String) :
    (renderSlot slot ++ s).toList.take 3 = ['N', 'o', slotLetter slot] := by
  rcases slot with _ | ⟨d, hashesKeys, c⟩
  · simp [renderSlot_none, slotLetter]
  · simp [renderSlot_some, render_mk, slotLetter]

/-! ## Slots -/

/-- The text forms of further slots, each behind a comma, up to the closing bracket. -/
def renderFurther : List (Option Node) → String
  | [] => "]"
  | slot :: rest => ", " ++ (renderSlot slot ++ renderFurther rest)

theorem renderSlots_closed (slot : Option Node) (rest : List (Option Node)) (s : String) :
    renderSlots (slot :: rest) ++ ("]" ++ s) = renderSlot slot ++ (renderFurther rest ++ s) := by
  induction rest generalizing slot with
  | nil => rw [renderSlots_singleton, renderFurther]
  | cons next rest ih =>
      rw [renderSlots_cons_cons, String.append_assoc, String.append_assoc, ih]
      simp only [renderFurther, String.append_assoc]

/-- No slot stands where the bracket is closed at once. -/
theorem renderSlots_nil_ne (slot : Option Node) (s t : String) :
    renderSlots [] ++ ("]" ++ s) ≠ renderSlot slot ++ t := by
  intro h
  have htake := renderSlot_letter slot t
  rw [← h, renderSlots_nil] at htake
  simp at htake

/-- No comma stands where the bracket is closed. -/
theorem renderFurther_nil_ne (slot : Option Node) (rest : List (Option Node)) (s t : String) :
    renderFurther [] ++ s ≠ renderFurther (slot :: rest) ++ t := by
  intro h
  have htake := congrArg (fun text => text.toList.take 1) h
  simp [renderFurther] at htake

/-- In front of the closing bracket, slots may be read as further ones. -/
theorem renderFurther_of_renderSlots {slots slots' : List (Option Node)} {s t : String}
    (h : renderSlots slots ++ ("]" ++ s) = renderSlots slots' ++ ("]" ++ t)) :
    renderFurther slots ++ s = renderFurther slots' ++ t := by
  match slots, slots' with
  | [], [] => exact (String.append_right_inj _).mp h
  | [], slot' :: rest' =>
      rw [renderSlots_closed] at h
      exact absurd h (renderSlots_nil_ne slot' _ _)
  | slot :: rest, [] =>
      rw [renderSlots_closed] at h
      exact absurd h.symm (renderSlots_nil_ne slot _ _)
  | slot :: rest, slot' :: rest' =>
      rw [renderSlots_closed, renderSlots_closed] at h
      simp only [renderFurther, String.append_assoc, h]

/-! ## Text forms and what stands behind them -/

section Behind

variable (k : Bool)

mutual
theorem render_append_inj : ∀ (n m : Node) (s t : String), n.render ++ s = m.render ++ t →
    n.inMode k = m.inMode k ∧ s = t
  | .mk d _ c, .mk d' _ c', s, t, h => by
      simp only [render_mk, String.append_assoc, String.append_right_inj] at h
      obtain ⟨hd, h⟩ := Hex.marked_append_inj ⟨',', _, rfl, by decide⟩ h
      obtain ⟨hc, h⟩ := renderContent_append_inj c c' _ _ h
      rw [inMode, inMode, Digest.eq_of_bytes_eq hd, hc]
      exact ⟨rfl, (String.append_right_inj _).mp h⟩
termination_by structural n => n

theorem renderContent_append_inj : ∀ (c c' : Option (Content Node)) (s t : String),
    renderContent c ++ s = renderContent c' ++ t →
      contentInMode k c = contentInMode k c' ∧ s = t := by
  intro c c' s t h
  have hletter : [contentLetter c] = [contentLetter c'] := by
    rw [← renderContent_letter c s, h, renderContent_letter]
  -- Contents of two kinds differ in their first letters.
  rcases c with _ | ⟨key, value⟩ | ⟨path, child⟩ | slots <;>
    rcases c' with _ | ⟨key', value'⟩ | ⟨path', child'⟩ | slots' <;>
    simp [contentLetter] at hletter
  · rw [renderContent_none, String.append_right_inj] at h
    exact ⟨rfl, h⟩
  · simp only [renderContent_leaf, String.append_assoc, String.append_right_inj] at h
    obtain ⟨hkey, h⟩ := Hex.marked_append_inj ⟨',', _, rfl, by decide⟩ h
    obtain ⟨hvalue, h⟩ := Hex.marked_append_inj ⟨')', _, rfl, by decide⟩ h
    rw [hkey, hvalue]
    exact ⟨rfl, h⟩
  · simp only [renderContent_extension, String.append_assoc, String.append_right_inj] at h
    obtain ⟨hpath, h⟩ := Hex.marked_append_inj ⟨',', _, rfl, by decide⟩ h
    obtain ⟨hchild, h⟩ := render_append_inj child child' _ _ h
    rw [contentInMode, contentInMode, hpath, hchild]
    exact ⟨rfl, (String.append_right_inj _).mp h⟩
  · have hclose : "])" = "]" ++ ")" := rfl
    simp only [renderContent_branch, hclose, String.append_assoc, String.append_right_inj] at h
    obtain ⟨hslots, h⟩ := renderFurther_append_inj slots slots' _ _ (renderFurther_of_renderSlots h)
    rw [contentInMode, contentInMode, slotsInMode_eq_map, slotsInMode_eq_map, hslots]
    exact ⟨rfl, (String.append_right_inj _).mp h⟩
termination_by structural c => c

theorem renderFurther_append_inj : ∀ (slots slots' : List (Option Node)) (s t : String),
    renderFurther slots ++ s = renderFurther slots' ++ t →
      slots.map (Option.map (inMode k)) = slots'.map (Option.map (inMode k)) ∧ s = t
  | [], [], s, t, h => ⟨rfl, (String.append_right_inj _).mp h⟩
  | [], slot :: rest, s, t, h => absurd h (renderFurther_nil_ne slot rest s t)
  | slot :: rest, [], s, t, h => absurd h.symm (renderFurther_nil_ne slot rest t s)
  | slot :: rest, slot' :: rest', s, t, h => by
      simp only [renderFurther, String.append_assoc, String.append_right_inj] at h
      obtain ⟨hslot, h⟩ := renderSlot_append_inj slot slot' _ _ h
      obtain ⟨hrest, h⟩ := renderFurther_append_inj rest rest' _ _ h
      rw [List.map_cons, List.map_cons, hslot, hrest]
      exact ⟨rfl, h⟩
termination_by structural slots => slots

theorem renderSlot_append_inj : ∀ (slot slot' : Option Node) (s t : String),
    renderSlot slot ++ s = renderSlot slot' ++ t →
      slot.map (inMode k) = slot'.map (inMode k) ∧ s = t := by
  intro slot slot' s t h
  have hletter : ['N', 'o', slotLetter slot] = ['N', 'o', slotLetter slot'] := by
    rw [← renderSlot_letter slot s, h, renderSlot_letter]
  rcases slot with _ | n <;> rcases slot' with _ | n' <;> simp [slotLetter] at hletter
  · exact ⟨rfl, (String.append_right_inj _).mp h⟩
  · obtain ⟨hn, h⟩ := render_append_inj n n' _ _ h
    rw [Option.map_some, Option.map_some, hn]
    exact ⟨rfl, h⟩
termination_by structural slot => slot
end

end Behind

/-! ## The mode is not shown -/

section Shown

variable (k : Bool)

mutual
theorem render_inMode : ∀ n : Node, (n.inMode k).render = n.render
  | .mk d _ c => by rw [inMode, render_mk, render_mk, renderContent_inMode c]

theorem renderContent_inMode : ∀ c : Option (Content Node),
    renderContent (contentInMode k c) = renderContent c
  | none => rfl
  | some (.leaf _ _) => rfl
  | some (.extension path child) => by
      rw [contentInMode, renderContent_extension, renderContent_extension, render_inMode child]
  | some (.branch slots) => by
      rw [contentInMode, slotsInMode_eq_map, renderContent_branch, renderContent_branch,
        renderSlots_map_inMode slots]

theorem renderSlots_map_inMode : ∀ slots : List (Option Node),
    renderSlots (slots.map (Option.map (inMode k))) = renderSlots slots
  | [] => rfl
  | [slot] => renderSlot_map_inMode slot
  | slot :: next :: rest => by
      rw [renderSlots_cons_cons, ← renderSlot_map_inMode slot,
        ← renderSlots_map_inMode (next :: rest)]
      rfl

theorem renderSlot_map_inMode : ∀ slot : Option Node,
    renderSlot (slot.map (inMode k)) = renderSlot slot
  | none => rfl
  | some n => render_inMode n
end

/-- The text form of a node shows the node but for its modes, and the modes not at all. -/
theorem render_eq_iff (n m : Node) : n.render = m.render ↔ n.inMode k = m.inMode k := by
  constructor
  · intro h
    exact (render_append_inj k n m "" "" (by rw [h])).1
  · intro h
    rw [← render_inMode k n, h, render_inMode]

theorem renderContent_eq_iff (c c' : Option (Content Node)) :
    renderContent c = renderContent c' ↔ contentInMode k c = contentInMode k c' := by
  constructor
  · intro h
    exact (renderContent_append_inj k c c' "" "" (by rw [h])).1
  · intro h
    rw [← renderContent_inMode k c, h, renderContent_inMode]

end Shown

/-- The nodes that decoding makes have one mode. -/
theorem contentInMode_of_decodeNodes {raw : Bytes} {k : Bool} {c : Content Node}
    (h : Content.decodeNodes raw k = .ok c) : contentInMode k (some c) = some c := by
  obtain ⟨c', _, rfl⟩ := Content.map_ok _ _ _ h
  rw [contentInMode_eq_map, Option.map_some, map_inMode_fresh]

end Node

/-! ## What the tools print -/

namespace Cli

/-- The tool prints the text about a claim, and was asked for what it has learned. -/
def Shows (o : VerifyOptions) (c : Claim) (text : String) : Prop :=
  o.showNodes = true ∧ ∃ said, reportClaim o c = .ok said ∧ said.out = text

theorem Shows.eq_of_ok {o : VerifyOptions} {c : Claim} {text : String} {n : Node}
    (h : Shows o c text) (hn : (c.check o.keyMode).result = .ok n) :
    text = "valid\n" ++ (n.render ++ "\n") := by
  obtain ⟨hshow, said, hsaid, rfl⟩ := h
  obtain rfl := Except.ok.inj ((reportClaim_of_ok hn).symm.trans hsaid)
  simp only [hshow, if_true, String.append_assoc]

/-- What is shown of a valid claim is not said of another one, unless the same was learned. -/
theorem Shows.learned {o o' : VerifyOptions} {c c' : Claim} {text : String} {n : Node} (k : Bool)
    (h : Shows o c text) (h' : Shows o' c' text) (hn : (c.check o.keyMode).result = .ok n) :
    ∃ n', (c'.check o'.keyMode).result = .ok n' ∧ n'.inMode k = n.inMode k := by
  have htext := h.eq_of_ok hn
  cases hresult : (c'.check o'.keyMode).result with
  | ok n' =>
      have htext' := h'.eq_of_ok hresult
      rw [htext, String.append_right_inj] at htext'
      exact ⟨n', rfl, (Node.render_append_inj k n' n _ _ htext'.symm).1⟩
  | error f =>
      obtain ⟨_, said, hsaid, hout⟩ := h'
      obtain ⟨kind, _, hkind⟩ := c'.check_fault o'.keyMode f hresult
      obtain rfl := Except.ok.inj ((reportClaim_of_kind hresult hkind).symm.trans hsaid)
      -- "invalid" is told from "valid" by its first letter.
      have hletter := congrArg (fun s => s.toList.take 1) (hout.trans htext)
      simp at hletter

/-- The tool prints the text about the bytes that another text stands for. -/
def Describes (node text : String) : Prop := ∃ said, runDecode node = .ok said ∧ said.out = text

theorem Describes.reports {node text : String} (h : Describes node text) :
    ∃ said, said.out = text ∧ ReportsDecoding (Hex.parse node) said := by
  obtain ⟨said, hsaid, hout⟩ := h
  obtain ⟨said', hsaid', _, hreports⟩ := runDecode_reports node
  obtain rfl := Except.ok.inj (hsaid'.symm.trans hsaid)
  exact ⟨said', hout, hreports⟩

/-- The nodes that the decoding tool makes have one mode, so what it prints of them tells all. -/
theorem Describes.decoded {node node' text : String} {raw : Bytes} {c : Content Node}
    (h : Describes node text) (h' : Describes node' text) (hraw : Hex.parse node = .ok raw)
    (hc : Content.decodeNodes raw true = .ok c) :
    ∃ raw', Hex.parse node' = .ok raw' ∧ Content.decodeNodes raw' true = .ok c := by
  obtain ⟨said, hout, hreports⟩ := h.reports
  obtain ⟨said', hout', hreports'⟩ := h'.reports
  have htext : said'.out = Node.renderContent (some c) ++ "\n" := by
    rw [hout', ← hout, (hreports.valid raw c hraw hc).out]
  have hletter := Node.renderContent_letter (some c) "\n"
  rw [← htext] at hletter
  cases hraw' : Hex.parse node' with
  | error f =>
      rw [(hreports'.unread f hraw').out] at hletter
      simp at hletter
  | ok raw' =>
      refine ⟨raw', rfl, ?_⟩
      cases hc' : Content.decodeNodes raw' true with
      | error f =>
          -- No kind of content starts like "error".
          obtain ⟨kind, line, _, rfl, _, hinvalid⟩ := (hreports'.invalid raw' f hraw' hc').out
          rw [hinvalid] at hletter
          cases c <;> simp [Node.contentLetter] at hletter
      | ok c' =>
          have hboth := (hreports'.valid raw' c' hraw' hc').out.symm.trans htext
          obtain ⟨hmode, _⟩ := Node.renderContent_append_inj true _ _ _ _ hboth
          rw [Node.contentInMode_of_decodeNodes hc, Node.contentInMode_of_decodeNodes hc',
            Option.some.injEq] at hmode
          rw [hmode]

end Cli


/-- **Text forms are unambiguous.** Nodes, and contents, with the same text form are the same but
for their modes, and those with the same but for their modes have the same text form. So what is
printed of a valid claim tells that the claim is valid and what was learned of every node, and what
is printed of a decoded node tells the node. -/
theorem rendering_unambiguous (k : Bool) :
    (∀ n m : Node, n.render = m.render ↔ n.inMode k = m.inMode k) ∧
    (∀ c d : Option (Content Node), Node.renderContent c = Node.renderContent d ↔
      Node.contentInMode k c = Node.contentInMode k d) ∧
    (∀ o o' c c' text n, Cli.Shows o c text → Cli.Shows o' c' text →
      (c.check o.keyMode).result = .ok n →
        ∃ n', (c'.check o'.keyMode).result = .ok n' ∧ n'.inMode k = n.inMode k) ∧
    (∀ node node' text raw c, Cli.Describes node text → Cli.Describes node' text →
      Hex.parse node = .ok raw → Content.decodeNodes raw true = .ok c →
        ∃ raw', Hex.parse node' = .ok raw' ∧ Content.decodeNodes raw' true = .ok c) :=
  ⟨Node.render_eq_iff k, Node.renderContent_eq_iff k,
    fun _ _ _ _ _ _ h h' hn => h.learned k h' hn,
    fun _ _ _ _ _ h h' hraw hc => h.decoded h' hraw hc⟩

/-- Options that ask for what was learned. -/
def Cli.showingOptions (rawKeys : Bool) : VerifyOptions where
  rawKeys := rawKeys
  showNodes := true

/-- An extension and its leaf, learned in both modes: the trees differ, and are shown as one text.
A leaf, given with the mark and without it, is printed as one text too. -/
theorem rendering_unambiguous_extension :
    let leaf (k : Bool) := Node.mk (keccak256 leafEntry) k (some (.leaf [] [9]))
    let tree (k : Bool) := Node.mk (keccak256 extensionEntry) k (some (.extension [] (leaf k)))
    let c : Claim := ⟨keccak256 extensionEntry, [], [9], [extensionEntry, leafEntry]⟩
    let o := Cli.showingOptions
    let text := "valid\n" ++ (tree true).render ++ "\n"
    let leafText := "LeafNode(key=0x, value=0x09)\n"
    tree true ≠ tree false ∧ (c.check (o false).keyMode).result = .ok (tree true) ∧
      Cli.Shows (o false) c text ∧ Cli.Shows (o true) c text ∧
      (∃ n, (c.check (o true).keyMode).result = .ok n ∧
        n.inMode true = (tree true).inMode true) ∧
      Cli.Describes "c22009" leafText ∧ Cli.Describes "0xC22009" leafText ∧
      ∃ raw, Hex.parse "0xC22009" = .ok raw ∧
        Content.decodeNodes raw true = .ok (.leaf [] [9]) := by
  intro leaf tree c o text leafText
  obtain ⟨hnodes, _, hshown, hdecoded⟩ := rendering_unambiguous true
  have hstored : (c.check (o false).keyMode).result = .ok (tree true) := by decide +kernel
  have hraw : (c.check (o true).keyMode).result = .ok (tree false) := by decide +kernel
  have htext : (tree false).render = (tree true).render := (hnodes _ _).mpr rfl
  have hshows : Cli.Shows (o false) c text := ⟨rfl, _, Cli.reportClaim_of_ok hstored, rfl⟩
  have hshows' : Cli.Shows (o true) c text := by
    refine ⟨rfl, _, Cli.reportClaim_of_ok hraw, ?_⟩
    rw [htext]
    rfl
  have hdescribes : Cli.Describes "c22009" leafText :=
    ⟨⟨0, leafText, []⟩, by decide +kernel, rfl⟩
  have hdescribes' : Cli.Describes "0xC22009" leafText :=
    ⟨⟨0, leafText, []⟩, by decide +kernel, rfl⟩
  exact ⟨by decide +kernel, hstored, hshows, hshows',
    hshown _ _ c c text _ hshows hshows' hstored, hdescribes, hdescribes',
    hdecoded _ _ _ leafEntry _ hdescribes hdescribes' (by cbv) (by decide +kernel)⟩

end Patricia
