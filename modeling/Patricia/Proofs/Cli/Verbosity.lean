import Patricia.Proofs.Cli.Report

/-
  The level of the log decides which lines are written, and nothing else.

  A run at a level writes, once and in order, the lines of the records that reach it
  (`execute_of_tidy`). The tool that is asked for has its code, text and records without the level,
  so a graver level only drops lines (`Outcome.above`).

  Runs share the log. No sink ever gets a second handler (`run_tidy`), and a run that writes sets
  the level of both sinks first; so whatever ran before, a run is like the first one
  (`runAll_append`, `run_of_tidy`). A run that escapes is no exception.

  Any arguments that are accepted end with ones that ask for the same tool at any level that is
  given in front of them (`exists_atLevel`).

  Not claimed: anything about the room on the stack that writing a line needs itself.
-/

namespace Patricia.Cli

/-! ## Lines and their levels -/

/-- The level that a line shows in front of its first colon. -/
def Level.ofLine? (line : String) : Option Level :=
  ofName? (String.ofList (line.toList.takeWhile (· != ':')))

/-- The line shows this level or a graver one. -/
def Level.keeps (level : Level) (line : String) : Bool :=
  (ofLine? line).any (fun shown => level.rank ≤ shown.rank)

/-- The outcome without the lines below a level. -/
def Outcome.above (level : Level) : Outcome → Outcome
  | finished code out err => finished code out (err.filter level.keeps)
  | stopped code out => stopped code out
  | escaped cause => escaped cause

theorem Level.colon_notMem_name (level : Level) : ':' ∉ level.name.toList := by
  cases level <;> decide

theorem Level.ofName?_name (level : Level) : ofName? level.name = some level := by
  cases level <;> decide

theorem Record.ofLine?_line (r : Record) : Level.ofLine? r.line = some r.level := by
  have hname : ∀ c ∈ r.level.name.toList, (c != ':') = true := by
    intro c hc
    rw [bne_iff_ne]
    rintro rfl
    exact r.level.colon_notMem_name hc
  have hfront : r.line.toList.takeWhile (· != ':') = r.level.name.toList := by
    simp only [Record.line, String.toList_append, List.append_assoc]
    rw [List.takeWhile_append_of_pos hname]
    simp
  rw [Level.ofLine?, hfront, String.ofList_toList, Level.ofName?_name]

/-- The record reaches the level. -/
def Record.Reaches (level : Level) (r : Record) : Prop := level.rank ≤ r.level.rank

instance (level : Level) : DecidablePred (Record.Reaches level) :=
  fun _ => inferInstanceAs (Decidable (_ ≤ _))

/-- The lines of the records that reach a level. -/
def linesAt (level : Level) (records : List Record) : List String :=
  (records.filter (Record.Reaches level)).map Record.line

theorem keeps_line (level : Level) (r : Record) :
    level.keeps r.line = decide (r.Reaches level) := by
  rw [Level.keeps, r.ofLine?_line]
  rfl

/-- The lines at a graver level are some of those at a less grave one. -/
theorem linesAt_filter {l₁ l₂ : Level} (h : l₁.rank ≤ l₂.rank) (records : List Record) :
    linesAt l₂ records = (linesAt l₁ records).filter l₂.keeps := by
  unfold linesAt
  rw [List.filter_map, List.filter_filter]
  refine congrArg _ (List.filter_congr fun r _ => ?_)
  rw [Function.comp_apply, keeps_line]
  unfold Record.Reaches
  by_cases hr : l₂.rank ≤ r.level.rank
  · simp [hr, Nat.le_trans h hr]
  · simp [hr]

/-! ## The log between runs -/

/-- No sink writes a line twice. -/
structure Logging.Tidy (log : Logging) : Prop where
  tool : log.tool.handlers ≤ 1
  library : log.library.handlers ≤ 1

/-- The log of a run at a level. -/
def Logging.atLevel (level : Level) : Logging := ⟨⟨level, 1⟩, ⟨level, 1⟩⟩

/-- The log behind runs, one after the other. -/
def logAfter (host : Host) (log : Logging) : List (Inputs × List String) → Logging
  | [] => log
  | (inputs, args) :: rest => logAfter host (run host log inputs args).1 rest

theorem Logging.initial_tidy : initial.Tidy := ⟨Nat.zero_le 1, Nat.zero_le 1⟩

theorem Logging.setUp_of_tidy {log : Logging} (h : log.Tidy) (level : Level) :
    log.setUp level = atLevel level := by
  simp only [setUp, Sink.setUp, Sink.attach_handlers h.tool, Sink.attach_handlers h.library]
  rfl

theorem Logging.lines_atLevel (level : Level) (records : List Record) :
    (atLevel level).lines records = linesAt level records := by
  have hsink (r : Record) : (atLevel level).sink r.speaker = ⟨level, 1⟩ := by
    cases r.speaker <;> rfl
  induction records with
  | nil => rfl
  | cons r rest ih =>
      unfold lines linesAt at ih ⊢
      rw [List.flatMap_cons, ih, hsink]
      unfold Sink.lines Record.Reaches
      by_cases hr : level.rank ≤ r.level.rank <;> simp [hr]

section Runs

variable {host : Host}

/-- What a run at a level says and leaves, in any log without a second handler. -/
theorem execute_of_tidy {log : Logging} (h : log.Tidy) (inputs : Inputs) (level : Level)
    (tool : Option Tool) :
    execute host log inputs ⟨some level, tool⟩ = (Logging.atLevel level,
      match runTool host inputs tool with
      | .error cause => .escaped cause
      | .ok said => .finished said.code said.out (linesAt level said.records)) := by
  unfold execute
  simp only [Logging.setUp_of_tidy h, Logging.lines_atLevel]
  cases runTool host inputs tool <;> rfl

/-- One run keeps the log tidy, however it ends. -/
theorem run_tidy {log : Logging} (h : log.Tidy) (inputs : Inputs) (args : List String) :
    (run host log inputs args).1.Tidy := by
  unfold run
  cases Request.parse host args with
  | error e => exact h
  | ok r =>
      obtain ⟨level?, tool⟩ := r
      cases level? with
      | none => exact ⟨Nat.le_of_eq (Sink.attach_handlers h.tool), h.library⟩
      | some level =>
          simp only [execute_of_tidy h]
          exact ⟨Nat.le_refl 1, Nat.le_refl 1⟩

theorem logAfter_tidy {log : Logging} (h : log.Tidy) (calls : List (Inputs × List String)) :
    (logAfter host log calls).Tidy := by
  induction calls generalizing log with
  | nil => exact h
  | cons call rest ih => exact ih (run_tidy h call.1 call.2)

theorem run_of_tidy {log log' : Logging} (h : log.Tidy) (h' : log'.Tidy) (inputs : Inputs)
    (args : List String) : (run host log inputs args).2 = (run host log' inputs args).2 := by
  unfold run
  cases Request.parse host args with
  | error e => rfl
  | ok r =>
      obtain ⟨level?, tool⟩ := r
      cases level? with
      | none => rfl
      | some level => simp only [execute_of_tidy h, execute_of_tidy h']

theorem runAll_append (log : Logging) (calls later : List (Inputs × List String)) :
    runAll host log (calls ++ later)
      = runAll host log calls ++ runAll host (logAfter host log calls) later := by
  induction calls generalizing log with
  | nil => rfl
  | cons call rest ih =>
      simp only [List.cons_append, runAll, logAfter]
      rw [ih]

end Runs

/-! ## Asking for a level -/

theorem classifyAll_cons {ι : Type} {spellings : List (Spelling ι)} {args : List String}
    {name : String} {word : Word ι} {words : List (String × Word ι)}
    (h : classifyAll spellings args = some ((name, word) :: words)) (hword : word ≠ .marker) :
    ∃ behind, args = name :: behind ∧ classifyAll spellings behind = some words := by
  cases args with
  | nil => cases h
  | cons arg behind =>
      unfold classifyAll at h
      split at h
      · obtain ⟨⟨_, rfl⟩, _⟩ := by simpa using h
        exact absurd rfl hword
      · split at h
        next hbehind =>
          obtain ⟨⟨rfl, _⟩, rfl⟩ := by simpa using h
          exact ⟨behind, rfl, hbehind⟩
        next => cases h

/-- The arguments end with ones that ask for a tool, and leave the level open. -/
def EndsWithTool (host : Host) (args : List String) (tool : Option Tool) : Prop :=
  ∃ rest words, rest <:+ args ∧ classifyAll topSpellings rest = some words ∧
    ∀ level : Level, readTop host (some level) false words = .ok ⟨some level, tool⟩

section Levels

variable {host : Host}

theorem EndsWithTool.cons {args : List String} {tool : Option Tool}
    (h : EndsWithTool host args tool) (arg : String) : EndsWithTool host (arg :: args) tool := by
  obtain ⟨rest, words, hrest, hwords, hread⟩ := h
  exact ⟨rest, words, hrest.trans (List.suffix_cons arg args), hwords, hread⟩

theorem endsWithTool_of_readTop {level : Option Level} {left : Bool}
    {words : List (String × Word TopOption)} {args : List String} {r : Request}
    (hwords : classifyAll topSpellings args = some words)
    (h : readTop host level left words = .ok r) : EndsWithTool host args r.tool := by
  fun_induction readTop host level left words generalizing args with
  | case2 level left hleft =>
      obtain rfl := Except.ok.inj h
      exact ⟨args, [], List.suffix_refl args, hwords, fun _ => rfl⟩
  | case5 level left name text rest tool left' htool hleft =>
      obtain rfl := Except.ok.inj h
      rw [Bool.not_eq_true, Bool.or_eq_false_iff] at hleft
      obtain rfl : left' = false := hleft.2
      refine ⟨args, _, List.suffix_refl args, hwords, fun l => ?_⟩
      simp only [readTop, htool]
      rfl
  | case7 level left name rest ih =>
      obtain ⟨behind, rfl, hbehind⟩ := classifyAll_cons hwords (by simp)
      exact (ih hbehind h).cons name
  | case12 level left name rest text l _ ih =>
      obtain ⟨behind, rfl, hbehind⟩ := classifyAll_cons hwords (by simp)
      exact (ih hbehind h).cons name
  | case15 level left name name' text rest l _ ih =>
      obtain ⟨value, rfl, hvalue⟩ := classifyAll_cons hwords (by simp)
      obtain ⟨behind, rfl, hbehind⟩ := classifyAll_cons hvalue (by simp)
      exact ((ih hbehind h).cons name').cons name
  | _ => cases h

/-- Accepted arguments end with ones that ask for the same tool at any level in front of them. -/
theorem exists_atLevel {args : List String} {r : Request} (h : Request.parse host args = .ok r) :
    ∃ rest, rest <:+ args ∧ ∀ level : Level,
      Request.parse host ("--log-level" :: level.name :: rest) = .ok ⟨some level, r.tool⟩ := by
  unfold Request.parse at h
  split at h
  · cases h
  next words hwords =>
    obtain ⟨rest, words', hrest, hwords', hread⟩ := endsWithTool_of_readTop hwords h
    refine ⟨rest, hrest, fun level => ?_⟩
    have hoption : classify topSpellings "--log-level" = some (.known .logLevel .nothing) := by
      decide
    have hname : classify topSpellings level.name = some (.plain level.name) := by
      cases level <;> decide
    have hmarker : level.name ≠ "--" := by cases level <;> decide
    have hlevel : levelOf (.text level.name) = .ok (some level) := by
      simp only [levelOf, level.ofName?_name]
    have hall : classifyAll topSpellings ("--log-level" :: level.name :: rest) =
        some (("--log-level", .known .logLevel .nothing) :: (level.name, .plain level.name) ::
          words') := by
      simp only [classifyAll, if_neg hmarker, hoption, hname, hwords']
      rfl
    simp only [Request.parse, hall, readTop, hlevel, hread]

end Levels

/-- **The level drops lines and nothing else, and runs do not disturb each other.** Accepted
arguments can be written at every level. Two runs that ask for the same tool at two levels end in
the same way; the lines of the graver level are those lines of the other one that show this level or
a graver one, in order. Behind any runs, whatever they asked for and however they ended, no sink has
a second handler, and a run ends as it would as the first one. If it is at a level, it leaves both
sinks with one handler and this level; if it finishes, it writes each record that reaches the level
once. -/
theorem verbosity_only_drops_lines {host : Host} {args : List String} {r : Request}
    (hargs : Request.parse host args = .ok r) (inputs : Inputs) :
    (∃ rest, rest <:+ args ∧ ∀ level : Level,
      Request.parse host ("--log-level" :: level.name :: rest) = .ok ⟨some level, r.tool⟩) ∧
    (∀ (args₁ args₂ : List String) (l₁ l₂ : Level),
      Request.parse host args₁ = .ok ⟨some l₁, r.tool⟩ →
      Request.parse host args₂ = .ok ⟨some l₂, r.tool⟩ → l₁.rank ≤ l₂.rank →
      (run host .initial inputs args₂).2 = (run host .initial inputs args₁).2.above l₂) ∧
    ∀ earlier : List (Inputs × List String),
      (logAfter host .initial earlier).Tidy ∧
      runAll host .initial (earlier ++ [(inputs, args)])
        = runAll host .initial earlier ++ [(run host .initial inputs args).2] ∧
      ∀ level, r.level = some level →
        (run host (logAfter host .initial earlier) inputs args).1 = .atLevel level ∧
        ∀ said, runTool host inputs r.tool = .ok said →
          (run host (logAfter host .initial earlier) inputs args).2
            = .finished said.code said.out (linesAt level said.records) := by
  refine ⟨exists_atLevel hargs, fun args₁ args₂ l₁ l₂ hargs₁ hargs₂ hle => ?_, fun earlier => ?_⟩
  · simp only [run, hargs₁, hargs₂, execute_of_tidy Logging.initial_tidy]
    cases runTool host inputs r.tool with
    | error cause => rfl
    | ok said => simp only [Outcome.above, linesAt_filter hle]
  · have htidy : (logAfter host .initial earlier).Tidy :=
      logAfter_tidy Logging.initial_tidy earlier
    refine ⟨htidy, ?_, fun level hlevel => ?_⟩
    · rw [runAll_append]
      simp only [runAll, run_of_tidy htidy Logging.initial_tidy]
    · obtain ⟨level?, tool⟩ := r
      obtain rfl : level? = some level := hlevel
      simp only [run, hargs, execute_of_tidy htidy, true_and]
      intro said hsaid
      rw [hsaid]

/-- Behind a run that has no claim and one that tells everything, a check that goes down an
extension tells its start only, once. -/
theorem verbosity_only_drops_lines_extension :
    let host := Host.usual true
    let inputs : Inputs := ⟨[], fun _ => none⟩
    let root := Hex.marked (keccak256 extensionEntry).bytes
    let tool := ["verify", "--root", root, "--key=", "--value=09", "--raw-keys",
      Hex.encode extensionEntry, "c22009"]
    let start := "INFO:trie-proof:verifying 2 proof entries against " ++ root ++ "\n"
    let descent := "DEBUG:ethereum_trie_proof.node:descending from extension " ++ root ++ "\n"
    let earlier := [(inputs, ["verify"]), (inputs, "--log-level=DEBUG" :: tool)]
    runAll host .initial (earlier ++ [(inputs, "--log-level=INFO" :: tool)])
        = runAll host .initial earlier ++ [.finished 0 "valid\n" [start]] ∧
      (run host .initial inputs ("--log-level=DEBUG" :: tool)).2
        = .finished 0 "valid\n" [start, descent] ∧
      (run host .initial inputs ("--log-level=INFO" :: tool)).2
        = (run host .initial inputs ("--log-level=DEBUG" :: tool)).2.above .info := by
  intro host inputs root tool start descent earlier
  let o : VerifyOptions := {
    root := .text root
    key := .text ""
    value := .text "09"
    rawKeys := true
    entries := [Hex.encode extensionEntry, "c22009"] }
  have hinfo : Request.parse host ("--log-level=INFO" :: tool)
      = .ok ⟨some .info, some (.verify o)⟩ := by decide +kernel
  have hdebug : Request.parse host ("--log-level=DEBUG" :: tool)
      = .ok ⟨some .debug, some (.verify o)⟩ := by decide +kernel
  have hsaid : runTool host inputs (some (.verify o)) = .ok ⟨0, "valid\n",
      [⟨.info, .tool, "verifying 2 proof entries against " ++ root⟩,
        ⟨.debug, .node, "descending from extension " ++ root⟩]⟩ := by decide +kernel
  obtain ⟨_, hdrops, hruns⟩ := verbosity_only_drops_lines hinfo inputs
  obtain ⟨_, _, hruns'⟩ := verbosity_only_drops_lines hdebug inputs
  obtain ⟨_, hlast, _⟩ := hruns earlier
  obtain ⟨_, hfirst⟩ := (hruns []).2.2 .info rfl
  obtain ⟨_, hfirst'⟩ := (hruns' []).2.2 .debug rfl
  refine ⟨?_, hfirst' _ hsaid, hdrops _ _ .debug .info hdebug hinfo (by decide)⟩
  have hinitial : (run host .initial inputs ("--log-level=INFO" :: tool)).2
      = .finished 0 "valid\n" [start] := hfirst _ hsaid
  rw [hlast, hinitial]

end Patricia.Cli
