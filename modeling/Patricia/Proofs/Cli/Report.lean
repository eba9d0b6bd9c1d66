import Patricia.Cli.Run
import Patricia.Proofs.Check.Faults
import Patricia.Proofs.Cli.Host

/-
  What the command reports is what checking and decoding say.

  The tool that checks a proof takes every fault of a family for a no, and a check ends with no
  other (`Claim.check_fault`); the tool that decodes takes the families of decoding, and decoding
  ends with no other (`Content.decode_fault`). So neither tool meets a fault that it does not
  expect, and exit codes, printed text and records follow `isProven`, `checkProof` and
  `decodeNodes` (`run_reports`). A message has no line feed, so a rejection is one line.

  The exceptions are what a run relies on and does not look at: an option that the host left void,
  for the level of the log or for the document; a document that is nested deeper than the host
  reads; a job that the stack has no room for. Such a run is not reported at all
  (`run_escapes_unreported`). Under a host that keeps the marker no option is void. The options
  `root`, `key` and `value`, left void, are reported as values of a wrong kind.

  Not claimed: anything about arguments that ask for no run, which texts are JSON, and which jobs
  the stack has room for.
-/

namespace Patricia

/-! ## One line -/

/-- The text has no line feed. -/
def OneLine (text : String) : Prop := '\n' ∉ text.toList

instance (text : String) : Decidable (OneLine text) := inferInstanceAs (Decidable (¬ _))

@[simp]
theorem oneLine_append {a b : String} : OneLine (a ++ b) ↔ OneLine a ∧ OneLine b := by
  unfold OneLine
  rw [String.toList_append, List.mem_append, not_or]

@[simp]
theorem oneLine_toString (n : Nat) : OneLine (toString n) := by
  intro hmem
  have hdigits : '\n' ∈ Nat.toDigits 10 n := by simpa [toString] using hmem
  have hdigit := Nat.isDigit_of_mem_toDigits (by omega) (Nat.le_refl 10) hdigits
  revert hdigit
  decide

theorem Hex.newline_notMem_digits : '\n' ∉ digits := by decide

@[simp]
theorem oneLine_marked (b : Bytes) : OneLine (Hex.marked b) := by
  refine oneLine_append.mpr ⟨by decide, ?_⟩
  unfold OneLine Hex.encode
  rw [String.toList_ofList]
  exact fun h => Hex.newline_notMem_digits (Hex.mem_digits_of_mem_encodeList h)

@[simp]
theorem oneLine_digit (n : Nat) : OneLine (String.ofList [Hex.digit n]) := by
  unfold OneLine
  rw [String.toList_ofList, List.mem_singleton]
  obtain hn | hn := Nat.lt_or_ge n 16
  · exact fun h => Hex.newline_notMem_digits (h ▸ Hex.digit_mem hn)
  · rw [Hex.digit_of_le hn]
    decide

@[simp]
theorem Place.description_oneLine (place : Place) : OneLine place.description := by
  cases place with
  | path => decide
  | second => decide
  | slot i => exact oneLine_append.mpr ⟨by decide, oneLine_toString i⟩

theorem Kind.name_oneLine (k : Kind) : OneLine k.name := by
  cases k <;> decide

theorem Fault.message_oneLine (f : Fault) : OneLine f.message := by
  -- Unfolded as a whole, since the equations of `message` take long to derive.
  unfold message
  cases f <;>
    simp only [oneLine_append, oneLine_toString, oneLine_marked, oneLine_digit,
      Place.description_oneLine, and_true, true_and] <;>
    decide +kernel

namespace Cli

/-! ## Shapes of an output -/

/-- No record is an error. -/
def Output.Quiet (said : Output) : Prop := ∀ r ∈ said.records, r.level ≠ .error

/-- What is needed could not be read: nothing is printed, and one record tells why. -/
structure Output.Unread (said : Output) (text : String) : Prop where
  code : said.code = 2
  out : said.out = ""
  records : said.records = [⟨.error, .tool, text⟩]

/-- A fault is printed, as one line with its family and message. -/
structure Output.Rejects (said : Output) (word : String) (f : Fault) : Prop where
  code : said.code = 1
  out : ∃ k line, f.kind? = some k ∧ line = word ++ ": " ++ k.name ++ ": " ++ f.message ∧
    OneLine line ∧ said.out = line ++ "\n"
  quiet : said.Quiet

/-- A text is printed. -/
structure Output.Prints (said : Output) (text : String) : Prop where
  code : said.code = 0
  out : said.out = text
  quiet : said.Quiet

theorem Output.Rejects.of_report {word : String} {f : Fault} {k : Kind} {records : List Record}
    (hword : OneLine word) (hk : f.kind? = some k)
    (hquiet : ∀ r ∈ records, r.level ≠ .error) :
    Output.Rejects ⟨1, word ++ ": " ++ f.report ++ "\n", records⟩ word f where
  code := rfl
  out := by
    refine ⟨k, _, hk, rfl, ?_, ?_⟩
    · simp only [oneLine_append, hword, k.name_oneLine, f.message_oneLine, true_and, and_true]
      decide
    · simp only [Fault.report_of_kind hk, String.append_assoc]
  quiet := hquiet

/-! ## The tool that checks a proof -/

/-- What is said about a claim is the verdict of checking it. -/
structure ReportsClaim (o : VerifyOptions) (c : Claim) (said : Output) : Prop where
  zero_iff : said.code = 0 ↔
    (isProven c.root.bytes c.key c.value c.proof ⟨!o.rawKeys, o.hashKey⟩).result = .ok true
  one_iff : said.code = 1 ↔
    (isProven c.root.bytes c.key c.value c.proof ⟨!o.rawKeys, o.hashKey⟩).result = .ok false
  valid : ∀ n,
    (checkProof c.root.bytes c.key c.value c.proof ⟨!o.rawKeys, o.hashKey⟩).result = .ok n →
      said.Prints (if o.showNodes then "valid\n" ++ n.render ++ "\n" else "valid\n")
  invalid : ∀ f,
    (checkProof c.root.bytes c.key c.value c.proof ⟨!o.rawKeys, o.hashKey⟩).result = .error f →
      said.Rejects "invalid" f

theorem Record.ofEvent_ne_error (c : Claim) (events : List Event) :
    ∀ r ∈ startRecord c :: events.map Record.ofEvent, r.level ≠ .error := by
  intro r hr hlevel
  obtain rfl | hr := List.mem_cons.mp hr
  · cases hlevel
  · obtain ⟨e, _, rfl⟩ := List.mem_map.mp hr
    cases hlevel

theorem reportClaim_of_ok {o : VerifyOptions} {c : Claim} {n : Node}
    (h : (c.check o.keyMode).result = .ok n) :
    reportClaim o c = .ok ⟨0, if o.showNodes then "valid\n" ++ n.render ++ "\n" else "valid\n",
      startRecord c :: (c.check o.keyMode).events.map .ofEvent⟩ := by
  simp only [reportClaim, h]
  cases o.showNodes
  · rfl
  · simp only [if_true, String.append_assoc]

theorem reportClaim_of_kind {o : VerifyOptions} {c : Claim} {f : Fault} {k : Kind}
    (h : (c.check o.keyMode).result = .error f) (hk : f.kind? = some k) :
    reportClaim o c = .ok ⟨1, "invalid" ++ ": " ++ f.report ++ "\n",
      startRecord c :: (c.check o.keyMode).events.map .ofEvent⟩ := by
  simp only [reportClaim, h, hk, Option.isSome_some, if_true]
  rfl

theorem reportClaim_reports (o : VerifyOptions) (c : Claim) :
    ∃ said, reportClaim o c = .ok said ∧ ReportsClaim o c said := by
  have hcheck : checkProof c.root.bytes c.key c.value c.proof ⟨!o.rawKeys, o.hashKey⟩
      = c.check o.keyMode := checkProof_digest ..
  cases hresult : (c.check o.keyMode).result with
  | ok n =>
      have hproven := isProven_of_ok (hcheck ▸ hresult)
      refine ⟨_, reportClaim_of_ok hresult, ?_, ?_, ?_, ?_⟩
      · simp [hproven]
      · simp [hproven]
      · intro m hm
        rw [hcheck, hresult] at hm
        obtain rfl := Except.ok.inj hm
        exact ⟨rfl, rfl, Record.ofEvent_ne_error c _⟩
      · intro f hf
        rw [hcheck, hresult] at hf
        cases hf
  | error f =>
      obtain ⟨k, _, hk⟩ := c.check_fault o.keyMode f hresult
      have hproven := isProven_of_kind (hcheck ▸ hresult) hk
      refine ⟨_, reportClaim_of_kind hresult hk, ?_, ?_, ?_, ?_⟩
      · simp [hproven]
      · simp [hproven]
      · intro n hn
        rw [hcheck, hresult] at hn
        cases hn
      · intro g hg
        rw [hcheck, hresult] at hg
        obtain rfl := Except.error.inj hg
        exact .of_report (by decide) hk (Record.ofEvent_ne_error c _)

theorem ReportsClaim.code_le {o : VerifyOptions} {c : Claim} {said : Output}
    (h : ReportsClaim o c said) : said.code ≤ 1 := by
  cases hresult :
      (checkProof c.root.bytes c.key c.value c.proof ⟨!o.rawKeys, o.hashKey⟩).result with
  | ok n => exact Nat.le_trans (Nat.le_of_eq (h.valid n hresult).code) (Nat.zero_le 1)
  | error f => exact Nat.le_of_eq (h.invalid f hresult).code

/-- What is said about the claim that was loaded, or about why there is none. -/
structure ReportsLoad (o : VerifyOptions) (loaded : Except LoadFault Claim) (said : Output) :
    Prop where
  two_iff : said.code = 2 ↔ ∃ f, loaded = .error f
  unread : ∀ f, loaded = .error f → said.Unread ("cannot load proof: " ++ f.message)
  claim : ∀ c, loaded = .ok c → ReportsClaim o c said

/-- The host cannot go on from what was loaded: the document is nested too deep, or the stack has
no room for the check. -/
inductive LoadOverflows (host : Host) (o : VerifyOptions) : Except LoadFault Claim → Prop
  | document : LoadOverflows host o (.error (.unread (.unread .tooDeep)))
  | check {c : Claim} (h : host.hasRoom (o.job c) = false) : LoadOverflows host o (.ok c)

theorem isTold_or_deep (f : LoadFault) : f.isTold = true ∨ f = .unread (.unread .tooDeep) := by
  unfold LoadFault.isTold
  split
  · exact Or.inr rfl
  · exact Or.inl rfl

theorem reportLoad_of_overflows {host : Host} {o : VerifyOptions}
    {loaded : Except LoadFault Claim} (h : LoadOverflows host o loaded) :
    ∃ cause, reportLoad host o loaded = .error cause := by
  cases h with
  | document => exact ⟨.deepDocument, rfl⟩
  | check h => exact ⟨.noRoom, by simp [reportLoad, h]⟩

theorem reportLoad_reports {host : Host} {o : VerifyOptions} {loaded : Except LoadFault Claim}
    (h : ¬ LoadOverflows host o loaded) :
    ∃ said, reportLoad host o loaded = .ok said ∧ said.code ≤ 2 ∧ ReportsLoad o loaded said := by
  cases loaded with
  | error f =>
      have htold : f.isTold = true := (isTold_or_deep f).resolve_right fun hf => h (hf ▸ .document)
      refine ⟨_, if_pos htold, Nat.le_refl 2, by simp, ?_, ?_⟩
      · intro g hg
        obtain rfl := Except.error.inj hg
        exact ⟨rfl, rfl, rfl⟩
      · intro c hc
        cases hc
  | ok c =>
      have hroom : host.hasRoom (o.job c) = true := Bool.of_not_eq_false fun hc => h (.check hc)
      obtain ⟨said, hsaid, hreports⟩ := reportClaim_reports o c
      have hcode := hreports.code_le
      refine ⟨said, (if_pos hroom).trans hsaid, by omega, ?_, ?_, ?_⟩
      · simp only [reduceCtorEq, exists_false, iff_false]
        omega
      · intro f hf
        cases hf
      · intro d hd
        obtain rfl := Except.ok.inj hd
        exact hreports

/-! ## The tool that decodes a node -/

/-- What is said about a text that was read as bytes is what decoding says about them. -/
structure ReportsDecoding (parsed : Except Fault Bytes) (said : Output) : Prop where
  two_iff : said.code = 2 ↔ ∃ f, parsed = .error f
  one_iff : said.code = 1 ↔ ∃ raw f, parsed = .ok raw ∧ Content.decodeNodes raw true = .error f
  unread : ∀ f, parsed = .error f → said.Unread ("node is not valid hex: " ++ f.message)
  invalid : ∀ raw f, parsed = .ok raw → Content.decodeNodes raw true = .error f →
    said.Rejects "error" f
  valid : ∀ raw c, parsed = .ok raw → Content.decodeNodes raw true = .ok c →
    said.Prints (Node.renderContent (some c) ++ "\n")

theorem isDecodingFault_iff {f : Fault} : isDecodingFault f = true ↔ f.IsDecoding := by
  simp only [isDecodingFault, Fault.IsDecoding, beq_iff_eq]

theorem runDecode_reports (text : String) :
    ∃ said, runDecode text = .ok said ∧ said.code ≤ 2 ∧ ReportsDecoding (Hex.parse text) said := by
  unfold runDecode
  generalize Hex.parse text = parsed
  cases parsed with
  | error f =>
      refine ⟨_, rfl, Nat.le_refl 2, by simp, by simp, ?_, by simp, by simp⟩
      intro g hg
      obtain rfl := Except.error.inj hg
      exact ⟨rfl, rfl, rfl⟩
  | ok raw =>
      cases hdecode : Content.decodeNodes raw true with
      | ok c =>
          refine ⟨⟨0, Node.renderContent (some c) ++ "\n", []⟩, by simp only [hdecode],
            Nat.zero_le 2, by simp, by simp [hdecode], by simp, ?_, ?_⟩
          · intro raw' f hraw hf
            obtain rfl := Except.ok.inj hraw
            rw [hdecode] at hf
            cases hf
          · intro raw' d hraw hd
            obtain rfl := Except.ok.inj hraw
            obtain rfl := Except.ok.inj (hdecode.symm.trans hd)
            exact ⟨rfl, rfl, by simp [Output.Quiet]⟩
      | error f =>
          have hdecoding : f.IsDecoding :=
            Content.decode_fault raw f (Content.map_fault _ _ _ hdecode)
          obtain ⟨k, _, hk⟩ := hdecoding.mem
          refine ⟨⟨1, "error" ++ ": " ++ f.report ++ "\n", []⟩,
            by simp only [hdecode, isDecodingFault_iff.mpr hdecoding]; rfl,
            Nat.le_succ 1, by simp, by simp [hdecode], by simp, ?_, ?_⟩
          · intro raw' g hraw hg
            obtain rfl := Except.ok.inj hraw
            obtain rfl := Except.error.inj (hdecode.symm.trans hg)
            exact .of_report (by decide) hk (by simp)
          · intro raw' c hraw hc
            obtain rfl := Except.ok.inj hraw
            rw [hdecode] at hc
            cases hc

/-! ## A run -/

/-- The document that a claim is read from, if one is named. -/
def VerifyOptions.source? (o : VerifyOptions) : Option String :=
  match o.source with
  | .text source => some source
  | .absent | .void => none

/-- The tool is asked for more than the host can do. -/
inductive Overflows (host : Host) (inputs : Inputs) : Option Tool → Prop
  | verify {o : VerifyOptions} (h : LoadOverflows host o (load host inputs o o.source?)) :
    Overflows host inputs (some (.verify o))
  | decode {text : String} (h : host.hasRoom (.decode text) = false) :
    Overflows host inputs (some (.decode text))

/-- What is said is the verdict that was asked for; without a tool it is the help text. -/
def Reports (host : Host) (inputs : Inputs) : Option Tool → Output → Prop
  | some (.verify o), said => ReportsLoad o (load host inputs o o.source?) said
  | some (.decode text), said => ReportsDecoding (Hex.parse text) said
  | none, said => said.Prints (Topic.text .top)

section Run

variable {host : Host} {inputs : Inputs}

theorem runVerify_eq {o : VerifyOptions} (h : o.source ≠ .void) :
    runVerify host inputs o = reportLoad host o (load host inputs o o.source?) := by
  unfold runVerify VerifyOptions.source?
  cases hsource : o.source with
  | absent => rfl
  | text source => rfl
  | void => exact absurd hsource h

theorem runTool_reports {tool : Option Tool}
    (hsource : ∀ o : VerifyOptions, tool = some (.verify o) → o.source ≠ .void)
    (h : ¬ Overflows host inputs tool) :
    ∃ said, runTool host inputs tool = .ok said ∧ said.code ≤ 2 ∧
      Reports host inputs tool said := by
  cases tool with
  | none => exact ⟨_, rfl, Nat.zero_le 2, rfl, rfl, by simp [Output.Quiet]⟩
  | some tool =>
      cases tool with
      | decode text =>
          have hroom : host.hasRoom (.decode text) = true :=
            Bool.of_not_eq_false fun hroom => h (.decode hroom)
          obtain ⟨said, hsaid, hreports⟩ := runDecode_reports text
          exact ⟨said, (if_pos hroom).trans hsaid, hreports⟩
      | verify o =>
          have hload : ¬ LoadOverflows host o (load host inputs o o.source?) :=
            fun hload => h (.verify hload)
          have hreports := reportLoad_reports hload
          rwa [← runVerify_eq (hsource o rfl)] at hreports

theorem runTool_of_void {o : VerifyOptions} (h : o.source = .void) :
    runTool host inputs (some (.verify o)) = .error .voidSource := by
  simp only [runTool, runVerify, h]

theorem runTool_of_overflows {tool : Option Tool}
    (hsource : ∀ o : VerifyOptions, tool = some (.verify o) → o.source ≠ .void)
    (h : Overflows host inputs tool) : ∃ cause, runTool host inputs tool = .error cause := by
  cases h with
  | decode h => exact ⟨.noRoom, by simp [runTool, h]⟩
  | @verify o h =>
      obtain ⟨cause, hcause⟩ := reportLoad_of_overflows h
      exact ⟨cause, (runVerify_eq (hsource o rfl)).trans hcause⟩

theorem run_of_parse {log : Logging} {args : List String} {level : Level}
    {tool : Option Tool} {said : Output}
    (hargs : Request.parse host args = .ok ⟨some level, tool⟩)
    (hsaid : runTool host inputs tool = .ok said) :
    run host log inputs args = (log.setUp level,
      .finished said.code said.out ((log.setUp level).lines said.records)) := by
  simp only [run, hargs, execute, hsaid]

theorem run_of_escape {log : Logging} {args : List String} {level : Level} {tool : Option Tool}
    {cause : Escape} (hargs : Request.parse host args = .ok ⟨some level, tool⟩)
    (hcause : runTool host inputs tool = .error cause) :
    run host log inputs args = (log.setUp level, .escaped cause) := by
  simp only [run, hargs, execute, hcause]

theorem Request.filled_of_not_void {r : Request} (h : ¬ r.LeavesVoid) :
    (∃ level, r.level = some level) ∧
      ∀ o : VerifyOptions, r.tool = some (.verify o) → o.source ≠ .void :=
  ⟨Option.ne_none_iff_exists'.mp fun hlevel => h (Or.inl hlevel),
    fun o htool hsource => h (Or.inr ⟨o, htool, hsource⟩)⟩

/-- A run in which nothing is void and which has room finishes with its verdict. -/
theorem run_finished {log : Logging} {args : List String} {r : Request}
    (hargs : Request.parse host args = .ok r) (hvoid : ¬ r.LeavesVoid)
    (hroom : ¬ Overflows host inputs r.tool) :
    ∃ level said, r.level = some level ∧ said.code ≤ 2 ∧ Reports host inputs r.tool said ∧
      (run host log inputs args).2
        = .finished said.code said.out ((log.setUp level).lines said.records) := by
  obtain ⟨⟨level, hlevel⟩, hsource⟩ := Request.filled_of_not_void hvoid
  obtain ⟨said, hsaid, hcode, hreports⟩ := runTool_reports hsource hroom
  obtain ⟨_, tool⟩ := r
  obtain rfl := hlevel
  exact ⟨level, said, rfl, hcode, hreports, congrArg Prod.snd (run_of_parse hargs hsaid)⟩

/-- A run in which something is void, or which has no room, is not reported. -/
theorem run_escapes {log : Logging} {args : List String} {r : Request}
    (hargs : Request.parse host args = .ok r)
    (hmissing : r.LeavesVoid ∨ Overflows host inputs r.tool) :
    ∃ cause, (run host log inputs args).2 = .escaped cause := by
  obtain ⟨level?, tool⟩ := r
  by_cases hvoid : Request.LeavesVoid ⟨level?, tool⟩
  · cases level? with
    | none => exact ⟨.voidLevel, by simp only [run, hargs, execute]⟩
    | some level =>
        obtain hlevel | ⟨o, rfl, hsource⟩ := hvoid
        · cases hlevel
        · exact ⟨_, congrArg Prod.snd (run_of_escape hargs (runTool_of_void hsource))⟩
  · obtain ⟨⟨level, rfl⟩, hsource⟩ := Request.filled_of_not_void hvoid
    obtain ⟨cause, hcause⟩ := runTool_of_overflows hsource (hmissing.resolve_left hvoid)
    exact ⟨cause, congrArg Prod.snd (run_of_escape hargs hcause)⟩

end Run

/-- An error of the tool reaches every level, once with one handler at most. -/
theorem Logging.lines_error (log : Logging) (level : Level) (text : String)
    (h : log.tool.handlers ≤ 1) :
    (log.setUp level).lines [⟨.error, .tool, text⟩]
      = ["ERROR:trie-proof:" ++ text ++ "\n"] := by
  have hhandlers : (log.setUp level).tool.handlers = 1 := Sink.attach_handlers h
  have hrank : (log.setUp level).tool.level.rank ≤ Level.error.rank := by
    change level.rank ≤ Level.error.rank
    cases level <;> decide
  simp only [Logging.lines, Logging.sink, Sink.lines, List.flatMap_cons, List.flatMap_nil,
    if_pos hrank, hhandlers, List.replicate_one, List.append_nil]
  rfl

/-- **The command reports the verdict.** A request that leaves no option void and asks for no more
than the host can do ends with the exit code 0, 1 or 2 and with what its tool has to say, which is
the verdict of checking or decoding; what could not be read is one line of the log. Any other
request ends without a report. Under a host that keeps the marker no request leaves an option
void. -/
theorem run_reports {host : Host} {log : Logging} {inputs : Inputs} {args : List String}
    {r : Request} (hargs : Request.parse host args = .ok r) :
    ((∃ cause, (run host log inputs args).2 = .escaped cause) ↔
      r.LeavesVoid ∨ Overflows host inputs r.tool) ∧
    (host.keepsMarker = true → ¬ r.LeavesVoid) ∧
    (¬ r.LeavesVoid → ¬ Overflows host inputs r.tool → ∃ level said, r.level = some level ∧
      said.code ≤ 2 ∧ Reports host inputs r.tool said ∧
      (run host log inputs args).2
        = .finished said.code said.out ((log.setUp level).lines said.records) ∧
      ∀ text, said.records = [⟨.error, .tool, text⟩] → log.tool.handlers ≤ 1 →
        (log.setUp level).lines said.records = ["ERROR:trie-proof:" ++ text ++ "\n"]) := by
  refine ⟨⟨?_, run_escapes hargs⟩, fun hkeeps => Request.parse_filled hkeeps hargs, ?_⟩
  · rintro ⟨cause, hcause⟩
    by_contra hnot
    obtain ⟨hvoid, hroom⟩ := not_or.mp hnot
    obtain ⟨level, said, _, _, _, hrun⟩ := run_finished hargs hvoid hroom
    cases hcause.symm.trans hrun
  · intro hvoid hroom
    obtain ⟨level, said, hlevel, hcode, hreports, hrun⟩ := run_finished hargs hvoid hroom
    refine ⟨level, said, hlevel, hcode, hreports, hrun, ?_⟩
    intro text hrecords hhandlers
    rw [hrecords]
    exact log.lines_error level text hhandlers

/-- Under the digest of a leaf, a run that hands in this leaf says that it is valid. -/
theorem run_reports_leaf :
    let host := Host.usual true
    let inputs : Inputs := ⟨[], fun _ => none⟩
    let o : VerifyOptions := {
      root := .text (Hex.marked (keccak256 leafEntry).bytes)
      key := .text ""
      value := .text "09"
      rawKeys := true
      entries := ["c22009"] }
    let args := ["verify", "--root", Hex.marked (keccak256 leafEntry).bytes, "--key=",
      "--value=09", "--raw-keys", "c22009"]
    Request.parse host args = .ok ⟨some .warning, some (.verify o)⟩ ∧
      ¬ Request.LeavesVoid ⟨some .warning, some (.verify o)⟩ ∧
      ¬ Overflows host inputs (some (.verify o)) ∧
      ∃ err, (run host .initial inputs args).2 = .finished 0 "valid\n" err := by
  intro host inputs o args
  have hargs : Request.parse host args = .ok ⟨some .warning, some (.verify o)⟩ := by
    decide +kernel
  have hload : load host inputs o o.source? = .ok ⟨keccak256 leafEntry, [], [9], [leafEntry]⟩ := by
    decide +kernel
  have hroom : ¬ Overflows host inputs (some (.verify o)) := by
    intro h
    cases h with
    | verify h =>
        rw [hload] at h
        cases h with
        | check h => cases h
  have hproven : (isProven (keccak256 leafEntry).bytes [] [9] [leafEntry] ⟨false, false⟩).result
      = .ok true := by decide +kernel
  obtain ⟨_, hkeeps, hfinished⟩ := @run_reports host .initial inputs args _ hargs
  have hvoid := hkeeps rfl
  obtain ⟨level, said, _, _, hreports, hrun, _⟩ := hfinished hvoid hroom
  obtain ⟨n, hn⟩ := (answeredBy_isProven ..).yes.mp hproven
  have hprints := (hreports.claim _ hload).valid n hn
  refine ⟨hargs, hvoid, hroom, (Logging.initial.setUp level).lines said.records, ?_⟩
  rw [hrun, hprints.code, hprints.out]
  rfl

/-- No host reports a document that starts with more brackets than it reads levels, whatever else
the options say. -/
theorem run_of_brackets {host : Host} {log : Logging} {inputs : Inputs} {args : List String}
    {level : Level} {o : VerifyOptions} (rest : List Char)
    (hargs : Request.parse host args = .ok ⟨some level, some (.verify o)⟩)
    (hsource : o.source = .text "stdin")
    (hstdin : inputs.stdin =
      (String.ofList (List.replicate (host.limits.nesting + 1) '[' ++ rest)).toUTF8.data.toList) :
    (run host log inputs args).2 = .escaped .deepDocument := by
  have hdocument := Inputs.document_of_brackets host rest hstdin
  have hcause : runTool host inputs (some (.verify o)) = .error .deepDocument := by
    simp only [runTool, runVerify, hsource, load, hdocument]
    rfl
  rw [run_of_escape hargs hcause]

/-- A list in a list and so on, with one level more than the host reads. -/
def Inputs.brackets (host : Host) : Inputs where
  stdin := (String.ofList (List.replicate (host.limits.nesting + 1) '[' ++
    List.replicate (host.limits.nesting + 1) ']')).toUTF8.data.toList
  file? := fun _ => none

-- Stated for any host: for a certain one, comparing the two sides would write the list out.
theorem Inputs.brackets_stdin (host : Host) : (brackets host).stdin =
    (String.ofList (List.replicate (host.limits.nesting + 1) '[' ++
      List.replicate (host.limits.nesting + 1) ']')).toUTF8.data.toList := rfl

/-- A marker in the place of the document's name is not reported by a host that drops it, though
one in the place of the root is; a host that keeps it looks for a document of this name, but does
not report a document that is nested too deep. -/
theorem run_escapes_unreported :
    let inputs : Inputs := ⟨[], fun _ => none⟩
    (Request.parse (.usual false) ["verify", "--proof-file=--"]
        = .ok ⟨some .warning, some (.verify { source := .void })⟩ ∧
      (run (.usual false) .initial inputs ["verify", "--proof-file=--"]).2
        = .escaped .voidSource ∧
      (run (.usual false) .initial inputs ["verify", "--root=--"]).2 = .finished 2 ""
        ["ERROR:trie-proof:cannot load proof: root must be a hex string\n"]) ∧
    (run (.usual true) .initial inputs ["verify", "--proof-file=--"]).2 = .finished 2 ""
      ["ERROR:trie-proof:cannot load proof: <OSError>\n"] ∧
    (run (.usual true) .initial (.brackets (.usual true)) ["verify", "--proof-file=stdin"]).2
      = .escaped .deepDocument := by
  intro inputs
  have hdeep : Request.parse (.usual true) ["verify", "--proof-file=stdin"]
      = .ok ⟨some .warning, some (.verify { source := .text "stdin" })⟩ := by decide +kernel
  refine ⟨by decide +kernel, ?_, run_of_brackets _ hdeep rfl (Inputs.brackets_stdin _)⟩
  have hargs : Request.parse (.usual true) ["verify", "--proof-file=--"]
      = .ok ⟨some .warning, some (.verify { source := .text "--" })⟩ := by decide +kernel
  have hdocument : inputs.document (.usual true) "--" = .error .unreadable := by cbv
  have hsaid : runTool (.usual true) inputs (some (.verify { source := .text "--" }))
      = .ok ⟨2, "", [⟨.error, .tool, "cannot load proof: <OSError>"⟩]⟩ := by
    simp only [runTool, runVerify, load, hdocument]
    rfl
  rw [run_of_parse hargs hsaid]
  rfl

end Cli

end Patricia
