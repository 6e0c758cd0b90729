import LoxLang.Proofs.Sessions.Outcome

/-!
# Reporting at once and later

A console that shows every diagnostic when it is recorded and one that keeps them for a flush **show
the same lines** in the same order, and the flush adds no more than a headline, where more than one
of them is an error. What a program prints is the same on both, though it is not printed in the same
places between the diagnostics.

`Console.Mirrors` says how two such consoles differ while a program runs. Recording and printing
keep it, so a unit does, and `reporting_agrees` is what is left of it when the one is flushed and
the other starts over.
-/

namespace LoxLang

/-- The line of an entry that a program printed. -/
def Entry.printed? : Entry → Option String
  | printed line => some line
  | shown _ => none

/-- The text of an entry that a console showed. -/
def Entry.shown? : Entry → Option String
  | printed _ => none
  | shown text => some text

namespace Console

/-- All **lines printed** so far, in order. -/
def linesPrinted (c : Console) : List String := c.transcript.toList.filterMap Entry.printed?

/-- All **texts shown** so far, in order. -/
def textsShown (c : Console) : List String := c.transcript.toList.filterMap Entry.shown?

/-- The texts that records are shown as. -/
def recordTexts (c : Console) : List String := c.records.toList.map fun d => d.text c.styled ++ "\n"

theorem filterMap_printed?_shownLines (styled : Bool) (ds : List Diagnostic) :
    (shownLines styled ds).filterMap Entry.printed? = [] := by
  rw [shownLines, List.filterMap_map]
  exact List.filterMap_eq_nil_iff.mpr fun _ _ => rfl

theorem filterMap_shown?_shownLines (styled : Bool) (ds : List Diagnostic) :
    (shownLines styled ds).filterMap Entry.shown? = ds.map fun d => d.text styled ++ "\n" := by
  rw [shownLines, List.filterMap_map]
  exact congrFun List.filterMap_eq_map ds

/-- A **flush** prints nothing. -/
theorem linesPrinted_flush (c : Console) : c.flush.linesPrinted = c.linesPrinted := by
  have hflushed : c.flushed.filterMap Entry.printed? = [] := by
    rw [flushed]
    split
    · rfl
    · rw [List.filterMap_append, filterMap_printed?_shownLines, List.append_nil]
      split <;> rfl
  rw [flush_eq, linesPrinted, Array.toList_append, List.filterMap_append, hflushed, List.append_nil]
  rfl

/-- A **flush** shows the records that were kept, below a headline if more than one is an error. -/
theorem textsShown_flush {c : Console} (h : c.immediate = false) :
    let errors := c.records.countP fun d => d.severity != .warning
    c.flush.textsShown = c.textsShown ++
      ((if 1 < errors then [headline c.styled errors ++ "\n"] else []) ++ c.recordTexts) := by
  intro errors
  rw [flush_eq, textsShown, Array.toList_append, List.filterMap_append, flushed, h]
  refine congrArg (c.textsShown ++ ·) ?_
  rw [if_neg Bool.false_ne_true, List.filterMap_append, filterMap_shown?_shownLines]
  refine congrArg (· ++ c.recordTexts) ?_
  split <;> rfl

/-- A console that shows every record at once **mirrors** one that keeps them and has shown nothing:
it has recorded the same and printed the same, and has shown what the other one keeps. -/
structure Mirrors (later now : Console) : Prop where
  deferred : later.immediate = false
  immediate : now.immediate = true
  styled_eq : now.styled = later.styled
  records_eq : now.records = later.records
  hadError_eq : now.hadError = later.hadError
  hadRuntimeError_eq : now.hadRuntimeError = later.hadRuntimeError
  linesPrinted_eq : now.linesPrinted = later.linesPrinted
  nothing_shown : later.textsShown = []
  textsShown_eq : now.textsShown = later.recordTexts

theorem mirrors_new (fatal fatal' styled : Bool) :
    (new false fatal styled).Mirrors { new true fatal' styled with fatal := false } :=
  ⟨rfl, rfl, rfl, rfl, rfl, rfl, rfl, rfl, rfl⟩

namespace Mirrors

variable {later now : Console} (h : later.Mirrors now)

include h

/-- A **record** is shown by the one and kept by the other. -/
theorem record (d : Diagnostic) : (later.record d).Mirrors (now.record d) := by
  have hlater : later.shownAtOnce [d] = [] := by simp [shownAtOnce, h.deferred]
  have hnow : now.shownAtOnce [d] = shownLines now.styled [d] := if_pos h.immediate
  rw [record_eq, record_eq, hlater, hnow]
  refine ⟨h.deferred, h.immediate, h.styled_eq, ?_, h.hadError_eq, h.hadRuntimeError_eq, ?_, ?_, ?_⟩
  · exact congrArg (Array.push · d) h.records_eq
  · simpa [linesPrinted, filterMap_printed?_shownLines] using h.linesPrinted_eq
  · simpa [textsShown] using h.nothing_shown
  · have hshown := h.textsShown_eq
    simp only [textsShown, recordTexts] at hshown
    simp [textsShown, recordTexts, filterMap_shown?_shownLines, hshown, h.styled_eq]

theorem report (line : Int) (place message : String) :
    (later.report line place message).Mirrors (now.report line place message) := by
  have hflag : { later with hadError := true }.Mirrors { now with hadError := true } :=
    { h with hadError_eq := rfl }
  exact hflag.record _

theorem runtimeError (token : Option Token) (message : String) :
    (later.runtimeError token message).Mirrors (now.runtimeError token message) := by
  have hflag :
      { later with hadRuntimeError := true }.Mirrors { now with hadRuntimeError := true } :=
    { h with hadRuntimeError_eq := rfl }
  exact hflag.record _

theorem warn (t : Token) (message : String) :
    (later.warn t message).Mirrors (now.warn t message) := h.record _

theorem reportAll (ds : List Diagnostic) :
    (later.reportAll ds).Mirrors (now.reportAll ds) := by
  induction ds generalizing later now with
  | nil => exact h
  | cons d ds ih => exact ih (h.report d.line d.place d.message)

/-- **Printed lines** are added to both. -/
theorem printAll (lines : Array String) : (later.printAll lines).Mirrors (now.printAll lines) := by
  have hprinted : ∀ c : Console,
      (c.printAll lines).linesPrinted = c.linesPrinted ++ lines.toList := fun c => by
    simp [Console.printAll, linesPrinted, List.filterMap_map, Function.comp_def, Entry.printed?]
  have hshown : ∀ c : Console, (c.printAll lines).textsShown = c.textsShown := fun c => by
    simp [Console.printAll, textsShown, List.filterMap_map, Function.comp_def, Entry.shown?]
  refine ⟨h.deferred, h.immediate, h.styled_eq, h.records_eq, h.hadError_eq, h.hadRuntimeError_eq,
    ?_, ?_, ?_⟩
  · rw [hprinted, hprinted, h.linesPrinted_eq]
  · rw [hshown, h.nothing_shown]
  · rw [hshown, h.textsShown_eq]
    rfl

/-- **Statements** do the same to both, however they end. -/
theorem ran (result : Except Interrupt Unit) (printed : Array String) :
    (later.ran result printed).Mirrors (now.ran result printed) := by
  rw [ran_eq, ran_eq]
  rcases result with (e | ⟨keyword, _⟩ | _) | _
  · exact (h.printAll printed).runtimeError (some e.token) e.message
  · exact (h.printAll printed).warn keyword Session.returnOutside
  · exact h.printAll printed
  · exact h.printAll printed

theorem exitStatus_eq : now.exitStatus = later.exitStatus := by
  rw [exitStatus, exitStatus, h.hadError_eq, h.hadRuntimeError_eq]

end Mirrors

end Console

/-! ### Units -/

namespace Session

variable (machine : Machine) (s : Session) (source : String)

theorem fst_run :
    (s.run machine source).1 = match (s.unitRun machine source).1 with
      | .error (.abort reason) => .error reason
      | _ => .ok (s.unitEnd machine source).console.exitStatus := by
  rw [run_eq]
  rcases (s.unitRun machine source).1 with (_ | _ | _) | _ <;> rfl

/-- A session that starts over with its console has printed and shown all that it had before. -/
theorem transcript_run :
    (s.run machine source).2.console.transcript =
      (s.unitEnd machine source).console.transcript := by
  rw [run_eq]
  rcases (s.unitRun machine source).1 with (_ | _ | _) | _
  case error.abort => rfl
  all_goals
    dsimp only
    split <;> rfl

end Session

/-- **Reporting at once and reporting later agree**, whatever the text. A script session that was
not used before and keeps its diagnostics, and an interactive session that was not used before,
answer the same and print the same lines, in order. When the former is flushed, it has shown its
records in order, as the latter has, below a headline exactly if more than one of them is an
error. -/
theorem reporting_agrees (machine : Machine) (immediate fatal fatal' styled : Bool)
    (path path' source : String) :
    let script := (Session.new (Console.new false fatal styled) path false).run machine source
    let interactive :=
      (Session.new (Console.new immediate fatal' styled) path' true).run machine source
    let later := script.2.console
    let now := interactive.2.console
    let errors := later.records.countP fun d => d.severity != .warning
    interactive.1 = script.1 ∧
      now.linesPrinted = later.flush.linesPrinted ∧
      now.textsShown = later.records.toList.map (fun d => d.text styled ++ "\n") ∧
      later.flush.textsShown =
        (if 1 < errors then [Console.headline styled errors ++ "\n"] else []) ++
          now.textsShown := by
  intro script interactive later now errors
  let batch := Session.new (Console.new false fatal styled) path false
  let shell := Session.new (Console.new immediate fatal' styled) path' true
  have hmirrors : (batch.unitEnd machine source).console.Mirrors
      (shell.unitEnd machine source).console :=
    ((Console.mirrors_new fatal fatal' styled).reportAll _).ran _ _
  have hanswer : interactive.1 = script.1 := by
    have hshell := Session.fst_run machine shell source
    rw [hmirrors.exitStatus_eq] at hshell
    exact hshell.trans (Session.fst_run machine batch source).symm
  have hlater : later = (batch.unitEnd machine source).console :=
    congrArg (·.2.console) (Session.run_new machine false fatal styled path source)
  have hnow : now.transcript = (shell.unitEnd machine source).console.transcript :=
    Session.transcript_run machine shell source
  have hstyled : later.styled = styled := hlater.symm ▸
    congrArg Console.styled (Session.console_unitEnd_new machine false fatal styled path source)
  have hprinted : now.linesPrinted = later.linesPrinted := by
    rw [hlater, ← hmirrors.linesPrinted_eq, Console.linesPrinted, hnow, Console.linesPrinted]
  have hshown : now.textsShown = later.recordTexts := by
    rw [hlater, ← hmirrors.textsShown_eq, Console.textsShown, hnow, Console.textsShown]
  refine ⟨hanswer, ?_, ?_, ?_⟩
  · rw [Console.linesPrinted_flush, hprinted]
  · rw [hshown, Console.recordTexts, hstyled]
  · have hnothing : later.textsShown = [] := hlater ▸ hmirrors.nothing_shown
    have hdeferred : later.immediate = false := hlater ▸ hmirrors.deferred
    rw [Console.textsShown_flush hdeferred, hstyled, hshown, hnothing, List.nil_append]

end LoxLang
