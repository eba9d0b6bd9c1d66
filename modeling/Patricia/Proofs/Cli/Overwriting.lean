import Mathlib
import Patricia.Cli.Run

/-
  Options and fields of the document say the same.

  A claim is made from four names: `root`, `key`, `value` and `proof`. What an option says under
  one of them could stand in the document instead (`VerifyOptions.given`), and a document that is
  overwritten by what the options give (`Overwritten`) needs no options. There is always one: the
  given fields can stand behind those of the document (`overwritten_append`). So a run with options
  and a document, and a run with the overwritten document alone, make the same claim or end with
  the same fault (`loadFields_overwritten`), and then check it in the same way.

  The two ways have different tests for what is absent: an option is absent if it is not given, the
  entries if there are none, a field if it is not there or `null`. They agree because an option
  that is given is never read as one that is not, the empty text and the void setting included: the
  latter is neither a text nor `null`, and an empty list in a document is the same.

  Other fields of the document are never looked at: `Overwritten` says nothing about them. Together
  this is `options_overwrite_document`, for whole runs.
-/

namespace Patricia

namespace Json

/-- Fields that come later win. -/
theorem field?_append (fields later : List (String × Json)) (name : String) :
    field? (fields ++ later) name = (field? later name).or (field? fields name) := by
  unfold field?
  rw [List.reverse_append, List.lookup_append]

end Json

namespace Cli

/-! ## What options give -/

/-- The value that a field has to have to say what a setting says. -/
def Setting.json? : Setting → Option Json
  | .absent => none
  | .text t => some (.text t)
  | .void => some (.list [])

/-- The names of the fields that a claim is made from. -/
def claimNames : List String := ["root", "key", "value", "proof"]

/-- What the options give under the name of a field. -/
def VerifyOptions.given (o : VerifyOptions) (name : String) : Option Json :=
  if name = "root" then o.root.json?
  else if name = "key" then o.key.json?
  else if name = "value" then o.value.json?
  else if name = "proof" ∧ o.entries ≠ [] then some (.list (o.entries.map .text))
  else none

/-- `after` are the fields `before`, overwritten by what the options give. Nothing is said of
fields that no claim is made from. -/
def Overwritten (o : VerifyOptions) (before after : List (String × Json)) : Prop :=
  ∀ name ∈ claimNames, Json.field? after name = (o.given name).or (Json.field? before name)

/-- The fields that the options give. -/
def VerifyOptions.givenFields (o : VerifyOptions) : List (String × Json) :=
  claimNames.filterMap (fun name => (o.given name).map (name, ·))

/-- The options with the same way to check and to report, and a document as the only source of the
claim. -/
def VerifyOptions.onlySource (o : VerifyOptions) (source : String) : VerifyOptions where
  source := .text source
  hashKey := o.hashKey
  rawKeys := o.rawKeys
  showNodes := o.showNodes

/-- The options read these fields: none without a document, those of an object, or a list as the
one field `proof`. -/
inductive Reads (host : Host) (inputs : Inputs) (o : VerifyOptions) :
    List (String × Json) → Prop
  | nothing (h : o.source = .absent) : Reads host inputs o []
  | list {source : String} {items : List Json} (h : o.source = .text source)
    (hdocument : inputs.document host source = .ok (.list items)) :
    Reads host inputs o [("proof", .list items)]
  | object {source : String} {fields : List (String × Json)} (h : o.source = .text source)
    (hdocument : inputs.document host source = .ok (.object fields)) : Reads host inputs o fields

theorem lookup_filterMap (f : String → Option Json) (names : List String) (name : String) :
    (names.filterMap (fun n => (f n).map (n, ·))).lookup name
      = if name ∈ names then f name else none := by
  induction names with
  | nil => rfl
  | cons n rest ih =>
    by_cases hn : name = n
    · subst hn
      cases hf : f name with
      | none => simp [hf, ih]
      | some v => simp [hf]
    · have hbeq : (name == n) = false := by simpa using hn
      cases hf : f n with
      | none => simp [hf, ih, hn]
      | some v => simp [hf, ih, hn, List.lookup_cons, hbeq]

theorem field?_givenFields (o : VerifyOptions) (name : String) (h : name ∈ claimNames) :
    Json.field? o.givenFields name = o.given name := by
  unfold Json.field? VerifyOptions.givenFields
  rw [← List.filterMap_reverse, lookup_filterMap, if_pos (List.mem_reverse.mpr h)]

/-- Behind the fields of a document, the given fields overwrite it. -/
theorem overwritten_append (o : VerifyOptions) (fields : List (String × Json)) :
    Overwritten o fields (fields ++ o.givenFields) := by
  intro name hname
  rw [Json.field?_append, field?_givenFields o name hname]

/-! ## One field -/

theorem given_field (o : VerifyOptions) (field : Field) :
    o.given field.name = (o.setting field).json? := by
  cases field <;> rfl

theorem name_mem_claimNames (field : Field) : field.name ∈ claimNames := by
  cases field <;> decide

section Overwritten

variable {o : VerifyOptions} {before after : List (String × Json)} (h : Overwritten o before after)
  (source : String)
include h

theorem pick_overwritten (field : Field) :
    pick (o.onlySource source) after field = pick o before field := by
  have hlookup := h field.name (name_mem_claimNames field)
  rw [given_field] at hlookup
  have habsent : (o.onlySource source).setting field = .absent := by cases field <;> rfl
  unfold pick
  rw [habsent, hlookup]
  cases o.setting field with
  | absent => rfl
  | text t => rfl
  | void => rfl

omit h in
theorem entryTexts_map_text (i : Nat) (texts : List String) :
    entryTexts i (texts.map .text) = .ok texts := by
  induction texts generalizing i with
  | nil => rfl
  | cons t rest ih => rw [List.map_cons, entryTexts, ih]; rfl

theorem pickEntries_overwritten :
    pickEntries (o.onlySource source) after = pickEntries o before := by
  have hlookup := h "proof" (by decide)
  unfold pickEntries
  rw [if_neg (by simp [VerifyOptions.onlySource])]
  -- Without entries the field is read in both ways; with some, it reads back as these.
  by_cases hentries : o.entries = []
  · have hgiven : o.given "proof" = none := by simp [VerifyOptions.given, hentries]
    rw [hlookup, hgiven, Option.none_or, if_neg (not_not.mpr hentries)]
  · have hgiven : o.given "proof" = some (.list (o.entries.map .text)) := by
      simp [VerifyOptions.given, hentries]
    rw [hlookup, hgiven, Option.some_or, if_pos hentries]
    exact entryTexts_map_text 0 o.entries

theorem loadFields_overwritten :
    loadFields (o.onlySource source) after = loadFields o before := by
  unfold loadFields
  simp only [pick_overwritten h, pickEntries_overwritten h]

end Overwritten

/-! ## A run -/

section Run

variable {host : Host} {inputs inputs' : Inputs} {o : VerifyOptions}

theorem runVerify_of_reads {fields : List (String × Json)} (h : Reads host inputs o fields) :
    runVerify host inputs o = reportLoad host o (loadFields o fields) := by
  unfold runVerify
  cases h with
  | nothing hsource => rw [hsource]; rfl
  | list hsource hdocument => simp only [hsource, load, hdocument]; rfl
  | object hsource hdocument => simp only [hsource, load, hdocument]; rfl

theorem reportLoad_onlySource (source : String) (loaded : Except LoadFault Claim) :
    reportLoad host (o.onlySource source) loaded = reportLoad host o loaded := by
  cases loaded <;> rfl

theorem runVerify_overwritten {source : String} {before after : List (String × Json)}
    (hreads : Reads host inputs o before)
    (hdocument : inputs'.document host source = .ok (.object after))
    (h : Overwritten o before after) :
    runVerify host inputs' (o.onlySource source) = runVerify host inputs o := by
  rw [runVerify_of_reads hreads, runVerify_of_reads (.object rfl hdocument),
    reportLoad_onlySource, loadFields_overwritten h]

end Run

/-- Fields that no claim is made from are not looked at. -/
theorem loadFields_congr {o : VerifyOptions} {fields others : List (String × Json)}
    (h : ∀ name ∈ claimNames, Json.field? others name = Json.field? fields name) :
    loadFields o others = loadFields o fields := by
  have hpick : pick o others = pick o fields := by
    funext field
    unfold pick
    rw [h field.name (name_mem_claimNames field)]
  unfold loadFields pickEntries
  rw [hpick, h "proof" (by decide)]

/-- Options and a document may be replaced by the overwritten document, which there is for any
fields that are read: the run ends in the same way, with the same lines in the log, and leaves the
same log. And documents that have the same fields `root`, `key`, `value` and `proof` are the same
for a run. -/
theorem options_overwrite_document {host : Host} {log : Logging} {inputs inputs' : Inputs}
    {args args' : List String} {level : Option Level} {o : VerifyOptions} {source : String}
    {before after : List (String × Json)}
    (hargs : Request.parse host args = .ok ⟨level, some (.verify o)⟩)
    (hargs' : Request.parse host args' = .ok ⟨level, some (.verify (o.onlySource source))⟩)
    (hreads : Reads host inputs o before)
    (hdocument : inputs'.document host source = .ok (.object after))
    (hoverwritten : Overwritten o before after) :
    run host log inputs' args' = run host log inputs args
      ∧ (∀ (inputs₂ : Inputs) (fields : List (String × Json)), Reads host inputs₂ o fields →
          (∀ name ∈ claimNames, Json.field? fields name = Json.field? before name) →
          run host log inputs₂ args = run host log inputs args)
      ∧ Overwritten o before (before ++ o.givenFields) := by
  simp only [run, hargs, hargs', execute, runTool]
  refine ⟨?_, fun inputs₂ fields hreads₂ hfields => ?_, overwritten_append o before⟩
  · rw [runVerify_overwritten hreads hdocument hoverwritten]
  · rw [runVerify_of_reads hreads₂, runVerify_of_reads hreads, loadFields_congr hfields]

/-- Options that give a root, a key and an entry. -/
def tidyingOptions : VerifyOptions where
  root := .text "00"
  key := .text ""
  source := .text "stdin"
  entries := ["c0"]

/-- A document whose root is no text, and which has no entries. -/
def untidyInputs : Inputs where
  stdin := "\x7b\"root\":7,\"value\":\"\"\x7d".toUTF8.toList
  file? := fun _ => none

/-- The document in which the options are fields. -/
def tidyInputs : Inputs where
  stdin := "\x7b\"root\":\"00\",\"key\":\"\",\"value\":\"\",\"proof\":[\"c0\"]\x7d".toUTF8.toList
  file? := fun _ => none

theorem options_overwrite_untidy :
    let host := Host.usual true
    run host .initial tidyInputs ["verify", "--proof-file=stdin"]
      = run host .initial untidyInputs
          ["verify", "--root=00", "--key=", "--proof-file=stdin", "c0"] :=
  have hargs : Request.parse (.usual true)
      ["verify", "--root=00", "--key=", "--proof-file=stdin", "c0"]
      = .ok ⟨some .warning, some (.verify tidyingOptions)⟩ := by decide +kernel
  have hargs' : Request.parse (.usual true) ["verify", "--proof-file=stdin"]
      = .ok ⟨some .warning, some (.verify (tidyingOptions.onlySource "stdin"))⟩ := by
    decide +kernel
  have huntidy : untidyInputs.document (.usual true) "stdin"
      = .ok (.object [("root", .number (.decimal 7 0)), ("value", .text "")]) := by cbv
  have htidy : tidyInputs.document (.usual true) "stdin"
      = .ok (.object [("root", .text "00"), ("key", .text ""), ("value", .text ""),
          ("proof", .list [.text "c0"])]) := by cbv
  have hoverwritten : Overwritten tidyingOptions
      [("root", .number (.decimal 7 0)), ("value", .text "")]
      [("root", .text "00"), ("key", .text ""), ("value", .text ""),
        ("proof", .list [.text "c0"])] := by
    simp [Overwritten, claimNames, tidyingOptions, VerifyOptions.given, Setting.json?,
      Json.field?, List.lookup]
  (options_overwrite_document hargs hargs' (.object rfl huntidy) htidy hoverwritten).1

end Cli

end Patricia
