import Patricia.Proofs.Cli.Overwriting
import Patricia.Proofs.Hex.Spelling
import Patricia.Proofs.Node.Decode

/-
  Which claims are loaded, and which fault is told.

  A claim takes what the options give under a name, or else the field of the document
  (`VerifyOptions.effective`). `Loads` says what a claim has to be then, without an order.
  `LoadFails` says of each check by itself when it fails and with which fault; several checks can
  fail at once, and the fault that is told is that of the first one in the order `loadChecks`
  (`FirstFails`): all shapes of entries come before the fields, their digits behind them.

  Loading ends in one of the two ways (`loadFields_outcome`). A claim that could be loaded fails no
  check (`Loads.passes`), and no two faults are the first (`FirstFails.unique`), so both ways are
  exact (`load_iff`).

  Not claimed: anything about sources that cannot be read or do not hold JSON.
-/

namespace Patricia

/-! ## The first of several -/

/-- The item at an index is bad, and none in front of it is. -/
structure Lowest {α : Type} (bad : α → Prop) (items : List α) (i : Nat) (a : α) : Prop where
  at_index : items[i]? = some a
  isBad : bad a
  before : ∀ j < i, ∀ b, items[j]? = some b → ¬ bad b

namespace Lowest

variable {α : Type} {bad : α → Prop} {items : List α} {a : α}

theorem zero (h : bad a) (rest : List α) : Lowest bad (a :: rest) 0 a :=
  ⟨rfl, h, fun _ hj => absurd hj (Nat.not_lt_zero _)⟩

theorem succ {i : Nat} {b : α} (h : Lowest bad items i a) (hb : ¬ bad b) :
    Lowest bad (b :: items) (i + 1) a := by
  refine ⟨h.at_index, h.isBad, fun j hj c hc => ?_⟩
  cases j with
  | zero =>
      obtain rfl := Option.some.inj hc
      exact hb
  | succ j => exact h.before j (Nat.lt_of_succ_lt_succ hj) c hc

theorem unique {i j : Nat} {b : α} (h : Lowest bad items i a) (h' : Lowest bad items j b) :
    i = j ∧ a = b := by
  obtain hlt | rfl | hlt := Nat.lt_trichotomy i j
  · exact absurd h.isBad (h'.before i hlt a h.at_index)
  · exact ⟨rfl, Option.some.inj (h.at_index.symm.trans h'.at_index)⟩
  · exact absurd h'.isBad (h.before j hlt b h'.at_index)

theorem mem {i : Nat} (h : Lowest bad items i a) : a ∈ items := List.mem_of_getElem? h.at_index

end Lowest

/-- The fault is that of the first check of a list that fails. -/
inductive FirstFails {χ ε : Type} (fails : χ → ε → Prop) : List χ → ε → Prop
  | here {check : χ} {rest : List χ} {f : ε} (h : fails check f) :
    FirstFails fails (check :: rest) f
  | later {check : χ} {rest : List χ} {f : ε} (hpasses : ∀ f', ¬ fails check f')
    (h : FirstFails fails rest f) : FirstFails fails (check :: rest) f

namespace FirstFails

variable {χ ε : Type} {fails : χ → ε → Prop} {checks : List χ}

theorem exists_fails {f : ε} (h : FirstFails fails checks f) : ∃ check, fails check f := by
  induction h with
  | here h => exact ⟨_, h⟩
  | later _ _ ih => exact ih

theorem unique (hdet : ∀ check f f', fails check f → fails check f' → f = f') {f f' : ε}
    (h : FirstFails fails checks f) (h' : FirstFails fails checks f') : f = f' := by
  induction h with
  | here h =>
      cases h' with
      | here h' => exact hdet _ _ _ h h'
      | later hpasses => exact absurd h (hpasses _)
  | later hpasses _ ih =>
      cases h' with
      | here h' => exact absurd h' (hpasses _)
      | later _ h' => exact ih h'

end FirstFails

namespace Cli

/-! ## Claims and faults -/

/-- What a claim takes under a name: what the options give, or else the field of the document. -/
def VerifyOptions.effective (o : VerifyOptions) (fields : List (String × Json)) (name : String) :
    Option Json :=
  (o.given name).or (Json.field? fields name)

/-- The document, if there is one, has these fields; a list is the one field `proof`. -/
inductive HasFields : Option Json → List (String × Json) → Prop
  | nothing : HasFields none []
  | list (items : List Json) : HasFields (some (.list items)) [("proof", .list items)]
  | object (fields : List (String × Json)) : HasFields (some (.object fields)) fields

/-- The items under the name `proof`; there are none where there is nothing. -/
inductive HasItems : Option Json → List Json → Prop
  | nothing : HasItems none []
  | list (items : List Json) : HasItems (some (.list items)) items

/-- The claim that options and fields make. -/
structure Loads (o : VerifyOptions) (fields : List (String × Json)) (c : Claim) : Prop where
  root : ∃ t, o.effective fields "root" = some (.text t) ∧ Hex.parse t = .ok c.root.bytes
  key : ∃ t, o.effective fields "key" = some (.text t) ∧ Hex.parse t = .ok c.key
  value : ∃ t, o.effective fields "value" = some (.text t) ∧ Hex.parse t = .ok c.value
  proof : ∃ texts, HasItems (o.effective fields "proof") (texts.map .text) ∧
    List.Forall₂ (fun t b => Hex.parse t = .ok b) texts c.proof

/-- What can be wrong with the text of a field. -/
inductive BadText : Field → String → Fault → Prop
  | digits (field : Field) {t : String} {f : Fault} (h : Hex.parse t = .error f) : BadText field t f
  | size {t : String} {b : Bytes} (h : Hex.parse t = .ok b) (hsize : b.length ≠ 32) :
    BadText .root t (.digestSize b.length)

/-- The value is no text. -/
def NoText (v : Json) : Prop := ∀ t, v ≠ .text t

/-- The value is a text that does not write bytes. -/
def NoBytes (v : Json) : Prop := ∃ t f, v = .text t ∧ Hex.parse t = .error f

/-- The checks that are made of options and fields. -/
inductive LoadCheck
  | entries
  | entryKinds
  | field (field : Field)
  | entryDigits

/-- The checks in their order. -/
def loadChecks : List LoadCheck :=
  [.entries, .entryKinds, .field .root, .field .key, .field .value, .entryDigits]

/-- When a check fails, and with which fault. -/
inductive LoadFails (o : VerifyOptions) (fields : List (String × Json)) :
    LoadCheck → LoadFault → Prop
  | entries {v : Json} (h : o.effective fields "proof" = some v)
    (hlist : ∀ items, v ≠ .list items) : LoadFails o fields .entries .entriesKind
  | entryKind {items : List Json} {i : Nat} {v : Json}
    (h : HasItems (o.effective fields "proof") items) (hlowest : Lowest NoText items i v) :
    LoadFails o fields .entryKinds (.entryKind i)
  | missing {field : Field}
    (h : o.effective fields field.name = none ∨ o.effective fields field.name = some .null) :
    LoadFails o fields (.field field) (.missing field)
  | fieldKind {field : Field} {v : Json} (h : o.effective fields field.name = some v)
    (hnull : v ≠ .null) (htext : NoText v) : LoadFails o fields (.field field) (.fieldKind field)
  | malformed {field : Field} {t : String} {f : Fault}
    (h : o.effective fields field.name = some (.text t)) (hbad : BadText field t f) :
    LoadFails o fields (.field field) (.malformed f)
  | entryDigits {items : List Json} {i : Nat} {t : String} {f : Fault}
    (h : HasItems (o.effective fields "proof") items) (hlowest : Lowest NoBytes items i (.text t))
    (hdigits : Hex.parse t = .error f) : LoadFails o fields .entryDigits (.malformed f)

/-- Why options and a document make no claim: the kind of the document, or else the first check that
fails. -/
inductive LoadRejected (o : VerifyOptions) : Option Json → LoadFault → Prop
  | documentKind {d : Json} (hlist : ∀ items, d ≠ .list items)
    (hobject : ∀ fields, d ≠ .object fields) : LoadRejected o (some d) .documentKind
  | check {document : Option Json} {fields : List (String × Json)} {f : LoadFault}
    (h : HasFields document fields) (hfirst : FirstFails (LoadFails o fields) loadChecks f) :
    LoadRejected o document f

/-- The source, if one is named, holds the document. -/
inductive Holds (host : Host) (inputs : Inputs) : Option String → Option Json → Prop
  | nothing : Holds host inputs none none
  | document {source : String} {d : Json} (h : inputs.document host source = .ok d) :
    Holds host inputs (some source) (some d)

/-! ## Fields -/

section Fields

variable {o : VerifyOptions} {fields : List (String × Json)}

theorem effective_field (field : Field) :
    o.effective fields field.name = (o.setting field).json?.or (Json.field? fields field.name) := by
  rw [VerifyOptions.effective, given_field]

/-- The text that a value is, for a field. -/
def textOf (field : Field) : Option Json → Except LoadFault String
  | none | some .null => .error (.missing field)
  | some (.text t) => .ok t
  | some _ => .error (.fieldKind field)

theorem pick_eq (field : Field) :
    pick o fields field = textOf field (o.effective fields field.name) := by
  rw [effective_field]
  unfold pick
  cases o.setting field with
  | text t => rfl
  | void => rfl
  | absent => rfl

theorem pick_ok {field : Field} {t : String} (h : pick o fields field = .ok t) :
    o.effective fields field.name = some (.text t) := by
  rw [pick_eq] at h
  unfold textOf at h
  split at h
  · cases h
  · cases h
  · next t' heffective => rw [heffective, Except.ok.inj h]
  · cases h

theorem pick_error {field : Field} {f : LoadFault} (h : pick o fields field = .error f) :
    LoadFails o fields (.field field) f := by
  rw [pick_eq] at h
  unfold textOf at h
  split at h
  · next heffective =>
      cases h
      exact .missing (Or.inl heffective)
  · next heffective =>
      cases h
      exact .missing (Or.inr heffective)
  · cases h
  · next v hnull htext heffective =>
      cases h
      exact .fieldKind heffective hnull htext

/-- A field that is read does not fail its check. -/
theorem field_passes {field : Field} {t : String}
    (h : o.effective fields field.name = some (.text t)) (htext : ∀ f, ¬ BadText field t f)
    (f : LoadFault) : ¬ LoadFails o fields (.field field) f := by
  intro hfails
  cases hfails with
  | missing hmissing =>
      rw [h] at hmissing
      simp at hmissing
  | fieldKind hkind _ hno =>
      obtain rfl := Option.some.inj (h.symm.trans hkind)
      exact hno t rfl
  | malformed hmalformed hbad =>
      rw [h, Option.some.injEq, Json.text.injEq] at hmalformed
      exact htext _ (hmalformed ▸ hbad)

theorem lift_error {α : Type} {e : Except Fault α} {f : LoadFault} (h : lift e = .error f) :
    ∃ f', e = .error f' ∧ f = .malformed f' := by
  cases e with
  | error f' => exact ⟨f', rfl, (Except.error.inj h).symm⟩
  | ok a => cases h

theorem lift_ok {α : Type} {e : Except Fault α} {a : α} (h : lift e = .ok a) : e = .ok a := by
  cases e with
  | error f' => cases h
  | ok b => rw [Except.ok.inj h]

/-! ## Entries -/

theorem hasItems_unique {v : Option Json} {items items' : List Json} (h : HasItems v items)
    (h' : HasItems v items') : items = items' := by
  cases h <;> cases h' <;> rfl

theorem text_or_noText (v : Json) : (∃ t, v = .text t) ∨ NoText v := by
  cases v with
  | text t => exact Or.inl ⟨t, rfl⟩
  | _ => exact Or.inr (fun t h => by cases h)

theorem not_noText (t : String) : ¬ NoText (.text t) := fun h => h t rfl

theorem entryTexts_of_noText (i : Nat) {v : Json} (h : NoText v) (rest : List Json) :
    entryTexts i (v :: rest) = .error (.entryKind i) := by
  cases v with
  | text t => exact absurd rfl (h t)
  | _ => rfl

theorem entryTexts_ok {i : Nat} {items : List Json} {texts : List String}
    (h : entryTexts i items = .ok texts) : items = texts.map .text := by
  induction items generalizing i texts with
  | nil =>
      cases h
      rfl
  | cons v rest ih =>
      obtain ⟨t, rfl⟩ | hv := text_or_noText v
      · rw [entryTexts] at h
        obtain ⟨texts', hrest, rfl⟩ := Content.map_ok _ _ _ h
        rw [List.map_cons, ← ih hrest]
      · rw [entryTexts_of_noText i hv] at h
        cases h

theorem entryTexts_error {i : Nat} {items : List Json} {f : LoadFault}
    (h : entryTexts i items = .error f) :
    ∃ j v, Lowest NoText items j v ∧ f = .entryKind (i + j) := by
  induction items generalizing i with
  | nil => cases h
  | cons v rest ih =>
      obtain ⟨t, rfl⟩ | hv := text_or_noText v
      · rw [entryTexts] at h
        obtain ⟨j, v, hlowest, rfl⟩ := ih (Content.map_fault _ _ _ h)
        exact ⟨j + 1, v, hlowest.succ (not_noText t), by rw [Nat.add_right_comm, Nat.add_assoc]⟩
      · rw [entryTexts_of_noText i hv] at h
        exact ⟨0, v, .zero hv rest, (Except.error.inj h).symm⟩

theorem not_noBytes {t : String} {b : Bytes} (h : Hex.parse t = .ok b) : ¬ NoBytes (.text t) := by
  rintro ⟨t', f, htext, hf⟩
  rw [← Json.text.inj htext, h] at hf
  cases hf

theorem parseEntries_ok {texts : List String} {entries : List Bytes}
    (h : parseEntries texts = .ok entries) :
    List.Forall₂ (fun t b => Hex.parse t = .ok b) texts entries := by
  induction texts generalizing entries with
  | nil =>
      cases h
      exact .nil
  | cons t rest ih =>
      rw [parseEntries] at h
      cases hparse : Hex.parse t with
      | error f =>
          rw [hparse] at h
          cases h
      | ok b =>
          rw [hparse] at h
          obtain ⟨entries', hrest, rfl⟩ := Content.map_ok _ _ _ h
          exact .cons hparse (ih hrest)

theorem exists_bytes {texts : List String} {entries : List Bytes}
    (h : List.Forall₂ (fun t b => Hex.parse t = .ok b) texts entries) {t : String}
    (ht : t ∈ texts) : ∃ b, Hex.parse t = .ok b := by
  induction h with
  | nil => cases ht
  | cons hparse _ ih =>
      obtain rfl | ht := List.mem_cons.mp ht
      · exact ⟨_, hparse⟩
      · exact ih ht

theorem parseEntries_error {texts : List String} {f : Fault} (h : parseEntries texts = .error f) :
    ∃ i t, Lowest NoBytes (texts.map .text) i (.text t) ∧ Hex.parse t = .error f := by
  induction texts with
  | nil => cases h
  | cons t rest ih =>
      rw [parseEntries] at h
      cases hparse : Hex.parse t with
      | error f' =>
          rw [hparse] at h
          obtain rfl := Except.error.inj h
          exact ⟨0, t, .zero ⟨t, f', rfl, hparse⟩ _, hparse⟩
      | ok b =>
          rw [hparse] at h
          obtain ⟨i, t', hlowest, hdigits⟩ := ih (Content.map_fault _ _ _ h)
          exact ⟨i + 1, t', hlowest.succ (not_noBytes hparse), hdigits⟩

/-- The texts that a value is, for the entries. -/
def textsOf : Option Json → Except LoadFault (List String)
  | none => .ok []
  | some (.list items) => entryTexts 0 items
  | some _ => .error .entriesKind

theorem pickEntries_eq : pickEntries o fields = textsOf (o.effective fields "proof") := by
  unfold pickEntries VerifyOptions.effective
  by_cases hentries : o.entries = []
  · have hgiven : o.given "proof" = none := by simp [VerifyOptions.given, hentries]
    rw [hgiven, Option.none_or, if_neg (not_not.mpr hentries)]
    rfl
  · have hgiven : o.given "proof" = some (.list (o.entries.map .text)) := by
      simp [VerifyOptions.given, hentries]
    rw [hgiven, Option.some_or, if_pos hentries]
    exact (entryTexts_map_text 0 o.entries).symm

theorem pickEntries_ok {texts : List String} (h : pickEntries o fields = .ok texts) :
    HasItems (o.effective fields "proof") (texts.map .text) := by
  rw [pickEntries_eq] at h
  unfold textsOf at h
  split at h
  · next heffective =>
      cases h
      rw [heffective]
      exact .nothing
  · next items heffective =>
      rw [heffective, entryTexts_ok h]
      exact .list _
  · cases h

theorem entries_passes {items : List Json} (h : HasItems (o.effective fields "proof") items)
    (f : LoadFault) : ¬ LoadFails o fields .entries f := by
  intro hfails
  cases hfails with
  | entries heffective hlist =>
      rw [heffective] at h
      cases h
      exact hlist items rfl

theorem pickEntries_error {f : LoadFault} (h : pickEntries o fields = .error f)
    (later : List LoadCheck) :
    FirstFails (LoadFails o fields) (.entries :: .entryKinds :: later) f := by
  rw [pickEntries_eq] at h
  unfold textsOf at h
  split at h
  · cases h
  · next items heffective =>
      have hitems : HasItems (o.effective fields "proof") items := heffective ▸ .list items
      obtain ⟨i, v, hlowest, rfl⟩ := entryTexts_error h
      rw [Nat.zero_add]
      exact .later (entries_passes hitems) (.here (.entryKind hitems hlowest))
  · next v hlist heffective =>
      cases h
      exact .here (.entries heffective hlist)

section Texts

variable {texts : List String} (h : HasItems (o.effective fields "proof") (texts.map .text))
include h

theorem entryKinds_passes (f : LoadFault) : ¬ LoadFails o fields .entryKinds f := by
  intro hfails
  cases hfails with
  | entryKind hitems hlowest =>
      obtain rfl := hasItems_unique h hitems
      obtain ⟨t, _, rfl⟩ := List.mem_map.mp hlowest.mem
      exact not_noText t hlowest.isBad

theorem entryDigits_passes {entries : List Bytes}
    (hparse : List.Forall₂ (fun t b => Hex.parse t = .ok b) texts entries) (f : LoadFault) :
    ¬ LoadFails o fields .entryDigits f := by
  intro hfails
  cases hfails with
  | entryDigits hitems hlowest _ =>
      obtain rfl := hasItems_unique h hitems
      obtain ⟨t, ht, htext⟩ := List.mem_map.mp hlowest.mem
      obtain ⟨b, hb⟩ := exists_bytes hparse ht
      exact not_noBytes hb (htext ▸ hlowest.isBad)

end Texts

/-! ## Loading -/

/-- The bytes of a field, or the digest. -/
def readField {α : Type} (o : VerifyOptions) (fields : List (String × Json)) (field : Field)
    (parse : String → Except Fault α) : Except LoadFault α :=
  pick o fields field >>= fun t => lift (parse t)

theorem loadFields_eq : loadFields o fields = do
    let texts ← pickEntries o fields
    let root ← readField o fields .root Hex.parseDigest
    let key ← readField o fields .key Hex.parse
    let value ← readField o fields .value Hex.parse
    let proof ← lift (parseEntries texts)
    return ⟨root, key, value, proof⟩ := by
  simp only [loadFields, readField, bind_assoc]

section ReadField

variable {α : Type} {field : Field} {parse : String → Except Fault α}

theorem readField_ok {a : α} (h : readField o fields field parse = .ok a) :
    ∃ t, o.effective fields field.name = some (.text t) ∧ parse t = .ok a := by
  unfold readField at h
  cases hpick : pick o fields field with
  | error f =>
      rw [hpick] at h
      cases h
  | ok t =>
      rw [hpick] at h
      exact ⟨t, pick_ok hpick, lift_ok h⟩

theorem readField_error (hbad : ∀ t f, parse t = .error f → BadText field t f) {f : LoadFault}
    (h : readField o fields field parse = .error f) : LoadFails o fields (.field field) f := by
  unfold readField at h
  cases hpick : pick o fields field with
  | error f' =>
      rw [hpick] at h
      obtain rfl := Except.error.inj h
      exact pick_error hpick
  | ok t =>
      rw [hpick] at h
      obtain ⟨f', hparse, rfl⟩ := lift_error h
      exact .malformed (pick_ok hpick) (hbad t f' hparse)

end ReadField

theorem badText_root {t : String} {f : Fault} (h : Hex.parseDigest t = .error f) :
    BadText .root t f := by
  obtain hparse | ⟨b, hparse, hsize, rfl⟩ := Hex.parseDigest_error h
  · exact .digits .root hparse
  · exact .size hparse hsize

theorem not_badText {field : Field} {t : String} {b : Bytes} (h : Hex.parse t = .ok b)
    (hsize : field = .root → b.length = 32) (f : Fault) : ¬ BadText field t f := by
  intro hbad
  cases hbad with
  | digits _ hparse =>
      rw [h] at hparse
      cases hparse
  | size hparse hne =>
      obtain rfl := Except.ok.inj (h.symm.trans hparse)
      exact hne (hsize rfl)

/-- A claim that options and fields make fails no check. -/
theorem Loads.passes {c : Claim} (h : Loads o fields c) (check : LoadCheck) (f : LoadFault) :
    ¬ LoadFails o fields check f := by
  obtain ⟨texts, hitems, hparse⟩ := h.proof
  cases check with
  | entries => exact entries_passes hitems f
  | entryKinds => exact entryKinds_passes hitems f
  | entryDigits => exact entryDigits_passes hitems hparse f
  | field field =>
      cases field with
      | root =>
          obtain ⟨t, heffective, ht⟩ := h.root
          exact field_passes heffective (not_badText ht (fun _ => c.root.size_eq)) f
      | key =>
          obtain ⟨t, heffective, ht⟩ := h.key
          exact field_passes heffective (not_badText ht (fun h => by cases h)) f
      | value =>
          obtain ⟨t, heffective, ht⟩ := h.value
          exact field_passes heffective (not_badText ht (fun h => by cases h)) f

/-- Loading ends with the claim that options and fields make, or with the fault of the first check
that fails. -/
theorem loadFields_outcome (o : VerifyOptions) (fields : List (String × Json)) :
    (∃ c, loadFields o fields = .ok c ∧ Loads o fields c) ∨
      ∃ f, loadFields o fields = .error f ∧ FirstFails (LoadFails o fields) loadChecks f := by
  rw [loadFields_eq]
  rcases hentries : pickEntries o fields with f | texts
  · exact Or.inr ⟨f, rfl, pickEntries_error hentries _⟩
  have hitems := pickEntries_ok hentries
  -- Each check is made when those in front of it have passed.
  have hkinds {f : LoadFault} (h : FirstFails (LoadFails o fields)
      [.field .root, .field .key, .field .value, .entryDigits] f) :
      FirstFails (LoadFails o fields) loadChecks f :=
    .later (entries_passes hitems) (.later (entryKinds_passes hitems) h)
  rcases hroot : readField o fields .root Hex.parseDigest with f | root
  · exact Or.inr ⟨f, rfl, hkinds (.here (readField_error (fun _ _ => badText_root) hroot))⟩
  obtain ⟨rootText, hrootText, hrootDigits⟩ := readField_ok hroot
  rw [Hex.parseDigest_ok_iff] at hrootDigits
  have hrootPasses := field_passes hrootText (not_badText hrootDigits (fun _ => root.size_eq))
  rcases hkey : readField o fields .key Hex.parse with f | key
  · exact Or.inr ⟨f, rfl, hkinds (.later hrootPasses
      (.here (readField_error (fun _ _ => .digits .key) hkey)))⟩
  obtain ⟨keyText, hkeyText, hkeyDigits⟩ := readField_ok hkey
  have hkeyPasses := field_passes hkeyText (not_badText hkeyDigits (fun h => by cases h))
  rcases hvalue : readField o fields .value Hex.parse with f | value
  · exact Or.inr ⟨f, rfl, hkinds (.later hrootPasses (.later hkeyPasses
      (.here (readField_error (fun _ _ => .digits .value) hvalue))))⟩
  obtain ⟨valueText, hvalueText, hvalueDigits⟩ := readField_ok hvalue
  have hvaluePasses := field_passes hvalueText (not_badText hvalueDigits (fun h => by cases h))
  change (∃ c, (lift (parseEntries texts)).map (Claim.mk root key value) = .ok c ∧ _) ∨
    ∃ f, (lift (parseEntries texts)).map (Claim.mk root key value) = .error f ∧ _
  rcases hproof : parseEntries texts with f | proof
  · obtain ⟨i, t, hlowest, hdigits⟩ := parseEntries_error hproof
    exact Or.inr ⟨.malformed f, rfl, hkinds (.later hrootPasses (.later hkeyPasses
      (.later hvaluePasses (.here (.entryDigits hitems hlowest hdigits)))))⟩
  · exact Or.inl ⟨⟨root, key, value, proof⟩, rfl, ⟨rootText, hrootText, hrootDigits⟩,
      ⟨keyText, hkeyText, hkeyDigits⟩, ⟨valueText, hvalueText, hvalueDigits⟩,
      texts, hitems, parseEntries_ok hproof⟩

end Fields

section Unique

variable {o : VerifyOptions} {fields : List (String × Json)}

theorem parsed_unique {v : Option Json} {b b' : Bytes}
    (h : ∃ t, v = some (.text t) ∧ Hex.parse t = .ok b)
    (h' : ∃ t, v = some (.text t) ∧ Hex.parse t = .ok b') : b = b' := by
  obtain ⟨t, ht, hb⟩ := h
  obtain ⟨t', ht', hb'⟩ := h'
  obtain rfl := Json.text.inj (Option.some.inj (ht.symm.trans ht'))
  exact Except.ok.inj (hb.symm.trans hb')

/-- Options and fields make one claim at most. -/
theorem Loads.unique {c c' : Claim} (h : Loads o fields c) (h' : Loads o fields c') : c = c' := by
  have hroot := Digest.eq_of_bytes_eq (parsed_unique h.root h'.root)
  have hkey := parsed_unique h.key h'.key
  have hvalue := parsed_unique h.value h'.value
  obtain ⟨texts, hitems, hparse⟩ := h.proof
  obtain ⟨texts', hitems', hparse'⟩ := h'.proof
  have htexts : texts = texts' :=
    List.map_injective_iff.mpr (fun _ _ ht => Json.text.inj ht) (hasItems_unique hitems hitems')
  have hproof : c.proof = c'.proof := by
    refine List.right_unique_forall₂' (fun t b b' hb hb' => ?_) hparse (htexts ▸ hparse')
    exact Except.ok.inj (hb.symm.trans hb')
  cases c
  cases c'
  simp only [Claim.mk.injEq]
  exact ⟨hroot, hkey, hvalue, hproof⟩

theorem eq_null_of_missing {v : Option Json} {w : Json} (h : v = none ∨ v = some .null)
    (hv : v = some w) : w = .null := by
  obtain h | h := h
  · cases h.symm.trans hv
  · exact Option.some.inj (hv.symm.trans h)

theorem badText_unique {field : Field} {t : String} {f f' : Fault} (h : BadText field t f)
    (h' : BadText field t f') : f = f' := by
  cases h with
  | digits _ hparse =>
      cases h' with
      | digits _ hparse' => exact Except.error.inj (hparse.symm.trans hparse')
      | size hparse' => cases hparse.symm.trans hparse'
  | size hparse =>
      cases h' with
      | digits _ hparse' => cases hparse.symm.trans hparse'
      | size hparse' => rw [Except.ok.inj (hparse.symm.trans hparse')]

/-- A check fails with one fault. -/
theorem loadFails_unique (check : LoadCheck) (f f' : LoadFault) (h : LoadFails o fields check f)
    (h' : LoadFails o fields check f') : f = f' := by
  cases h with
  | entries => cases h' with
    | entries => rfl
  | entryKind hitems hlowest => cases h' with
    | entryKind hitems' hlowest' =>
        obtain rfl := hasItems_unique hitems hitems'
        rw [(hlowest.unique hlowest').1]
  | entryDigits hitems hlowest hdigits => cases h' with
    | entryDigits hitems' hlowest' hdigits' =>
        obtain rfl := hasItems_unique hitems hitems'
        obtain rfl := Json.text.inj (hlowest.unique hlowest').2
        rw [Except.error.inj (hdigits.symm.trans hdigits')]
  | missing h => cases h' with
    | missing => rfl
    | fieldKind h' hnull => exact absurd (eq_null_of_missing h h') hnull
    | malformed h' => cases eq_null_of_missing h h'
  | fieldKind h hnull htext => cases h' with
    | missing h' => exact absurd (eq_null_of_missing h' h) hnull
    | fieldKind => rfl
    | malformed h' =>
        obtain rfl := Option.some.inj (h.symm.trans h')
        exact absurd rfl (htext _)
  | malformed h hbad => cases h' with
    | missing h' => cases eq_null_of_missing h' h
    | fieldKind h' _ htext =>
        obtain rfl := Option.some.inj (h.symm.trans h')
        exact absurd rfl (htext _)
    | malformed h' hbad' =>
        obtain rfl := Json.text.inj (Option.some.inj (h.symm.trans h'))
        rw [badText_unique hbad hbad']

end Unique

/-- Loading over fields. -/
theorem loadFields_iff (o : VerifyOptions) (fields : List (String × Json)) :
    (∀ c, loadFields o fields = .ok c ↔ Loads o fields c) ∧
      ∀ f, loadFields o fields = .error f ↔ FirstFails (LoadFails o fields) loadChecks f := by
  obtain ⟨c', hc', hloads⟩ | ⟨f', hf', hfails⟩ := loadFields_outcome o fields
  · refine ⟨fun c => ?_, fun f => ?_⟩
    · rw [hc', Except.ok.injEq]
      exact ⟨fun h => h ▸ hloads, fun h => hloads.unique h⟩
    · rw [hc']
      refine ⟨(fun h => by cases h), fun h => ?_⟩
      obtain ⟨check, hcheck⟩ := h.exists_fails
      exact absurd hcheck (hloads.passes check f)
  · refine ⟨fun c => ?_, fun f => ?_⟩
    · rw [hf']
      refine ⟨(fun h => by cases h), fun h => ?_⟩
      obtain ⟨check, hcheck⟩ := hfails.exists_fails
      exact absurd hcheck (h.passes check f')
    · rw [hf', Except.error.injEq]
      exact ⟨fun h => h ▸ hfails, fun h => hfails.unique loadFails_unique h⟩

/-! ## Documents -/

theorem loadDocument_of_fields (o : VerifyOptions) {document : Option Json}
    {fields : List (String × Json)} (h : HasFields document fields) :
    loadDocument o document = loadFields o fields := by
  cases h <;> rfl

theorem hasFields_unique {document : Option Json} {fields fields' : List (String × Json)}
    (h : HasFields document fields) (h' : HasFields document fields') : fields = fields' := by
  cases h <;> cases h' <;> rfl

/-- A document of another kind has no fields. -/
theorem not_hasFields {d : Json} (hlist : ∀ items, d ≠ .list items)
    (hobject : ∀ fields, d ≠ .object fields) (fields : List (String × Json)) :
    ¬ HasFields (some d) fields := by
  intro h
  cases h with
  | list items => exact hlist items rfl
  | object => exact hobject fields rfl

theorem loadDocument_of_kind (o : VerifyOptions) {d : Json} (hlist : ∀ items, d ≠ .list items)
    (hobject : ∀ fields, d ≠ .object fields) :
    loadDocument o (some d) = .error .documentKind := by
  cases d with
  | list items => exact absurd rfl (hlist items)
  | object fields => exact absurd rfl (hobject fields)
  | _ => rfl

theorem loadDocument_iff (o : VerifyOptions) (document : Option Json) :
    (∀ c, loadDocument o document = .ok c ↔
      ∃ fields, HasFields document fields ∧ Loads o fields c) ∧
      ∀ f, loadDocument o document = .error f ↔ LoadRejected o document f := by
  by_cases hfields : ∃ fields, HasFields document fields
  · obtain ⟨fields, hfields⟩ := hfields
    rw [loadDocument_of_fields o hfields]
    obtain ⟨hok, herror⟩ := loadFields_iff o fields
    refine ⟨fun c => (hok c).trans ⟨fun h => ⟨fields, hfields, h⟩, ?_⟩,
      fun f => (herror f).trans ⟨fun h => .check hfields h, ?_⟩⟩
    · rintro ⟨fields', hfields', h⟩
      rwa [hasFields_unique hfields hfields']
    · intro h
      cases h with
      | documentKind hlist hobject => exact absurd hfields (not_hasFields hlist hobject fields)
      | check hfields' h => rwa [hasFields_unique hfields hfields']
  · obtain ⟨d, rfl⟩ : ∃ d, document = some d :=
      Option.ne_none_iff_exists'.mp (fun h => hfields ⟨[], h ▸ .nothing⟩)
    have hlist (items : List Json) : d ≠ .list items := by
      rintro rfl
      exact hfields ⟨_, .list items⟩
    have hobject (fields : List (String × Json)) : d ≠ .object fields := by
      rintro rfl
      exact hfields ⟨_, .object fields⟩
    rw [loadDocument_of_kind o hlist hobject]
    refine ⟨fun c => ⟨(fun h => by cases h), fun ⟨fields, h, _⟩ => absurd ⟨fields, h⟩ hfields⟩,
      fun f => ⟨fun h => ?_, fun h => ?_⟩⟩
    · obtain rfl := Except.error.inj h
      exact .documentKind hlist hobject
    · cases h with
      | documentKind => rfl
      | check h => exact absurd ⟨_, h⟩ hfields

/-! ## Sources -/

theorem load_of_holds {host : Host} {inputs : Inputs} {source : Option String}
    {document : Option Json} (o : VerifyOptions) (h : Holds host inputs source document) :
    load host inputs o source = loadDocument o document := by
  cases h with
  | nothing => rfl
  | document h => simp only [load, h]

/-- **What is loaded, and which fault is told.** Over a document, or none, a claim is loaded exactly
if it is the one that options and fields make: the fields come from an object or a list, the entries
are texts, `root`, `key` and `value` are texts, all of them write bytes, and those of `root` are 32.
Otherwise the fault is that of the document, or of the first check that fails. -/
theorem load_iff {host : Host} {inputs : Inputs} {source : Option String}
    {document : Option Json} (o : VerifyOptions) (h : Holds host inputs source document) :
    (∀ c, load host inputs o source = .ok c ↔
        ∃ fields, HasFields document fields ∧ Loads o fields c) ∧
      ∀ f, load host inputs o source = .error f ↔ LoadRejected o document f := by
  rw [load_of_holds o h]
  exact loadDocument_iff o document

/-- Several things are wrong with this document: the second entry is no text, the first one has no
digits, the root has one byte, the key is `null`. -/
def faultyInputs : Inputs where
  stdin := "\x7b\"proof\":[\"zz\",7],\"root\":\"00\",\"key\":null\x7d".toUTF8.toList
  file? := fun _ => none

/-- Options that give parts of a claim. -/
def claimOptions (root key value : Setting) (entries : List String) : VerifyOptions where
  root := root
  key := key
  value := value
  entries := entries

/-- Each is told in turn, as options take the place of what is wrong in front of it, and when they
take the place of all there is a claim. -/
theorem load_iff_faulty :
    let document := Json.object [("proof", .list [.text "zz", .number (.decimal 7 0)]),
      ("root", .text "00"), ("key", .null)]
    let root := Setting.text (Hex.marked (keccak256 leafEntry).bytes)
    let digits := claimOptions .absent .absent .absent ["zz"]
    let rooted := claimOptions root .absent .absent ["zz"]
    let keyed := claimOptions root (.text "") (.text "09") ["zz"]
    let whole := claimOptions root (.text "") (.text "09") ["c22009"]
    Holds (.usual true) faultyInputs (some "stdin") (some document) ∧
      LoadRejected {} (some document) (.entryKind 1) ∧
      LoadRejected digits (some document) (.malformed (.digestSize 1)) ∧
      LoadRejected rooted (some document) (.missing .key) ∧
      LoadRejected keyed (some document) (.malformed (.hexDigit 0)) ∧
      ∃ fields, HasFields (some document) fields ∧
        Loads whole fields ⟨keccak256 leafEntry, [], [9], [leafEntry]⟩ := by
  intro document root digits rooted keyed whole
  have hdocument : Holds (.usual true) faultyInputs (some "stdin") (some document) :=
    .document (by cbv)
  exact ⟨hdocument, ((load_iff {} hdocument).2 _).mp (by decide +kernel),
    ((load_iff digits hdocument).2 _).mp (by decide +kernel),
    ((load_iff rooted hdocument).2 _).mp (by decide +kernel),
    ((load_iff keyed hdocument).2 _).mp (by decide +kernel),
    ((load_iff whole hdocument).1 _).mp (by decide +kernel)⟩

end Cli

end Patricia
