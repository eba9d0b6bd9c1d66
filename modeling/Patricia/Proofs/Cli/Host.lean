import Patricia.Cli.Request
import Patricia.Cli.Document

/-
  What a host decides.

  A host that keeps the marker leaves no option void (`Request.parse_filled`): a setting is void
  only where the marker was dropped, and reading goes on with what it has.

  A document that starts with more brackets than the host reads levels is not read, whatever
  follows (`Inputs.document_of_brackets`). The bracket that is one too many is met before anything
  that could be wrong behind it.
-/

namespace Patricia

/-! ## Deep documents -/

namespace JsonText

variable (limits : Limits) {fuel levels : Nat}

theorem value_bracket (rest : List Char) :
    value limits (fuel + 1) (levels + 1) ('[' :: '[' :: rest)
      = (elements limits fuel levels ('[' :: rest)).map (fun r => (.list r.1, r.2)) := rfl

theorem elements_of_error {text : List Char} {f : Unread}
    (h : value limits fuel levels text = .error f) :
    elements limits (fuel + 1) levels text = .error f := by
  simp only [elements, h]

/-- One bracket more than there are levels left. -/
theorem value_of_brackets (rest : List Char) (hfuel : 2 * levels < fuel) :
    value limits fuel levels (List.replicate (levels + 1) '[' ++ rest) = .error .tooDeep := by
  induction levels generalizing fuel with
  | zero =>
      obtain ⟨fuel, rfl⟩ := Nat.exists_eq_add_of_lt hfuel
      rfl
  | succ levels ih =>
      obtain ⟨fuel, rfl⟩ : ∃ n, fuel = n + 2 := ⟨fuel - 2, by omega⟩
      have hinner := @ih fuel (by omega)
      rw [List.replicate_succ, List.cons_append] at hinner
      rw [List.replicate_succ, List.replicate_succ, List.cons_append, List.cons_append,
        value_bracket, elements_of_error limits hinner]
      rfl

end JsonText

theorem Json.parse_of_brackets (limits : JsonText.Limits) (rest : List Char) :
    Json.parse limits (String.ofList (List.replicate (limits.nesting + 1) '[' ++ rest))
      = .error .tooDeep := by
  have hblanks : JsonText.skipBlanks (List.replicate (limits.nesting + 1) '[' ++ rest)
      = List.replicate (limits.nesting + 1) '[' ++ rest := by
    rw [List.replicate_succ]
    rfl
  simp only [Json.parse, String.toList_ofList, hblanks]
  rw [JsonText.value_of_brackets]
  simp only [List.length_append, List.length_replicate]
  omega

namespace Cli

theorem Inputs.document_of_brackets (host : Host) {inputs : Inputs} (rest : List Char)
    (h : inputs.stdin =
      (String.ofList (List.replicate (host.limits.nesting + 1) '[' ++ rest)).toUTF8.data.toList) :
    inputs.document host "stdin" = .error (.unread .tooDeep) := by
  have htext (t : String) : String.fromUTF8? ⟨t.toUTF8.data.toList.toArray⟩ = some t := by
    rw [Array.toArray_toList]
    exact dif_pos t.isValidUTF8
  simp only [Inputs.document, Inputs.bytesOf, if_true, h, htext, Json.parse_of_brackets]

/-! ## The marker -/

/-- The option for the level, or the one for the document, was left void. -/
def Request.LeavesVoid (r : Request) : Prop :=
  r.level = none ∨ ∃ o : VerifyOptions, r.tool = some (.verify o) ∧ o.source = .void

theorem Setting.ofAttached_ne_void {host : Host} (h : host.keepsMarker = true)
    (value : List Char) : ofAttached host value ≠ .void := by
  simp [ofAttached, h]

theorem levelOf_ne_none {s : Setting} (hs : s ≠ .void) {level : Option Level}
    (h : levelOf s = .ok level) : level ≠ none := by
  rintro rfl
  unfold levelOf at h
  split at h
  · split at h <;> cases h
  · exact hs rfl
  · cases h

theorem VerifyOption.set_source {option : VerifyOption}
    {set : Setting → VerifyOptions → VerifyOptions} (hset : option.set? = some set) {s : Setting}
    (hs : s ≠ .void) {o : VerifyOptions} (ho : o.source ≠ .void) : (set s o).source ≠ .void := by
  cases option <;> cases hset <;> assumption

theorem VerifyOption.setFlag_source (option : VerifyOption) (o : VerifyOptions) :
    (option.setFlag o).source = o.source := by
  cases option <;> rfl

theorem readDecode_tool {node : Option String} {justRead left : Bool}
    {words : List (String × Word Unit)} {read : Tool × Bool}
    (h : readDecode node justRead left words = .ok read) : ∃ n, read.1 = .decode n := by
  fun_induction readDecode node justRead left words with
  | case1 => exact ⟨_, (congrArg Prod.fst (Except.ok.inj h)).symm⟩
  | case5 _ _ _ _ _ ih => exact ih h
  | case6 _ _ _ _ _ _ ih => exact ih h
  | case7 _ _ _ _ _ ih => exact ih h
  | case8 _ _ _ _ _ ih => exact ih h
  | _ => cases h

section Keeps

variable {host : Host} (hkeeps : host.keepsMarker = true)
include hkeeps

theorem readVerify_filled {o : VerifyOptions} {group : Group} {left : Bool}
    {words : List (String × Word VerifyOption)} {read : Tool × Bool} (ho : o.source ≠ .void)
    (h : readVerify host o group left words = .ok read) (o' : VerifyOptions)
    (htool : read.1 = .verify o') : o'.source ≠ .void := by
  fun_induction readVerify host o group left words with
  | case1 =>
      obtain rfl := Except.ok.inj h
      obtain rfl := Tool.verify.inj htool
      exact ho
  | case2 _ _ _ _ option _ set hset text ih =>
      exact ih (option.set_source hset (Setting.ofAttached_ne_void hkeeps text) ho) h
  | case4 _ _ _ _ option set hset _ text _ ih =>
      exact ih (option.set_source hset (s := .text text) nofun ho) h
  | case8 o group left _ option _ _ _ _ _ ih => exact ih (by rwa [option.setFlag_source]) h
  | case9 _ _ _ _ _ ih => exact ih ho h
  | case10 _ _ _ _ _ _ _ ih => exact ih ho h
  | case11 _ _ _ _ ih => exact ih ho h
  | case12 _ _ _ _ _ _ ih => exact ih ho h
  | case13 _ _ _ _ _ ih => exact ih ho h
  | _ => cases h

theorem readTool_filled {name : String} {args : List String} {read : Tool × Bool}
    (h : readTool host name args = .ok read) (o : VerifyOptions) (htool : read.1 = .verify o) :
    o.source ≠ .void := by
  unfold readTool at h
  split at h
  · split at h
    · cases h
    · exact readVerify_filled hkeeps (by decide) h o htool
  · split at h
    · split at h
      · cases h
      · obtain ⟨n, hn⟩ := readDecode_tool h
        cases hn.symm.trans htool
    · cases h

theorem readTop_filled {level : Option Level} {left : Bool}
    {words : List (String × Word TopOption)} {r : Request} (hlevel : level ≠ none)
    (h : readTop host level left words = .ok r) : ¬ r.LeavesVoid := by
  fun_induction readTop host level left words with
  | case2 =>
      obtain rfl := Except.ok.inj h
      rintro (hnone | ⟨o, ho, _⟩)
      · exact hlevel hnone
      · cases ho
  | case5 _ _ _ _ _ _ _ htool =>
      obtain rfl := Except.ok.inj h
      rintro (hnone | ⟨o, ho, hvoid⟩)
      · exact hlevel hnone
      · exact readTool_filled hkeeps htool o (Option.some.inj ho) hvoid
  | case7 _ _ _ _ ih => exact ih hlevel h
  | case12 _ _ _ _ text _ hl ih =>
      exact ih (levelOf_ne_none (Setting.ofAttached_ne_void hkeeps text) hl) h
  | case15 _ _ _ _ text _ _ hl ih => exact ih (levelOf_ne_none (s := .text text) nofun hl) h
  | _ => cases h

end Keeps

/-- A host that keeps the marker leaves no option void. -/
theorem Request.parse_filled {host : Host} (hkeeps : host.keepsMarker = true) {args : List String}
    {r : Request} (h : Request.parse host args = .ok r) : ¬ r.LeavesVoid := by
  unfold Request.parse at h
  split at h
  · cases h
  · exact readTop_filled hkeeps (Option.some_ne_none _) h

end Cli

end Patricia
