import LoxLang.CommandLine
import LoxLang.Proofs.Semantics.Refinement
import LoxLang.Proofs.Sessions.Records

/-!
# The outcome of a run

The exit status, the flags, the records and the output of a run **tell one story**. A script session
that runs one text records the static errors of the text and then why its statements were stopped,
if they were; the flags and the status say what these records say (`Session.agrees_run`). The
program that runs a file puts out what its statements print and then the records, and leaves with
the status (`CommandLine.runUnit_eq`).
-/

namespace LoxLang

open Eval Semantics

/-! ### A script session -/

/-- The flags and the records of a console and an exit status **agree** on how a text was run that
has these static errors, and whose statements were stopped or not. -/
structure Console.Agrees (static : List Diagnostic) (stopped : Prop) (status : Nat)
    (c : Console) : Prop where
  hadError_iff : c.hadError = true ↔ ∃ d ∈ c.records, d.severity = .static
  hadRuntimeError_iff : c.hadRuntimeError = true ↔ ∃ d ∈ c.records, d.severity = .runtime
  records_eq : ∃ last : Option Diagnostic,
    c.records.toList = static ++ last.toList ∧
      (∀ d ∈ static, d.severity = .static) ∧
      (∀ d ∈ last, d.severity = .runtime ∨ d.severity = .warning) ∧
      (last.isSome = true ↔ stopped) ∧
      status = if last.any fun d => d.severity = .runtime then 70
        else if static.isEmpty then 0 else 65

namespace Session

section

variable (machine : Machine) (immediate fatal styled : Bool) (path source : String)

/-- The console behind the statements of a text. -/
theorem console_unitEnd_new :
    let static := (Parse.ofSource source).diagnostics
    let run := freshRun machine source
    let fresh := Console.new immediate fatal styled
    ((new fresh path false).unitEnd machine source).console =
      { fresh with
        records := (static ++ (stopped? run.1).toList).toArray
        hadError := !static.isEmpty
        hadRuntimeError := failed run.1
        transcript := (fresh.shownAtOnce static ++ run.2.printed.toList.map Entry.printed ++
          fresh.shownAtOnce (stopped? run.1).toList).toArray } := by
  intro static run fresh
  have hrun : (new fresh path false).unitRun machine source = run := rfl
  rw [unitEnd, hrun, reportAll_diagnostics]
  simp [Console.ran, new, fresh, Console.new, Console.shownAtOnce, static]

/-- A script session **answers** the exit status of its console, or why it was aborted. -/
theorem run_new :
    let fresh := new (Console.new immediate fatal styled) path false
    fresh.run machine source =
      (match (freshRun machine source).1 with
        | .error (.abort reason) => .error reason
        | _ => .ok (fresh.unitEnd machine source).console.exitStatus,
      fresh.unitEnd machine source) := by
  intro fresh
  have hrun : fresh.unitRun machine source = freshRun machine source := rfl
  rw [run_eq, hrun]
  rcases (freshRun machine source).1 with (_ | _ | _) | _ <;> rfl

end

/-- Statements are stopped by a runtime error or with a warning. -/
theorem severity_of_stopped? {result : Except Interrupt Unit} {d : Diagnostic}
    (h : d ∈ stopped? result) : d.severity = if failed result then .runtime else .warning := by
  rcases result with (e | ⟨keyword, value⟩ | reason) | _ <;> cases h <;> rfl

/-- The record of why statements were stopped tells whether it was by a runtime error. -/
theorem any_stopped? (result : Except Interrupt Unit) :
    ((stopped? result).any fun d => d.severity = .runtime) = failed result := by
  rcases result with (_ | _ | _) | _ <;> rfl

/-- A console **agrees** with itself that sets its flags for what it records. -/
theorem agrees_of_records {static : List Diagnostic} {result : Except Interrupt Unit} {c : Console}
    (hstatic : ∀ d ∈ static, d.severity = .static)
    (hrecords : c.records = (static ++ (stopped? result).toList).toArray)
    (herror : c.hadError = !static.isEmpty) (hruntime : c.hadRuntimeError = failed result) :
    c.Agrees static ((stopped? result).isSome = true) c.exitStatus := by
  have hlast : ∀ d ∈ stopped? result, d.severity = .runtime ∨ d.severity = .warning := by
    intro d hd
    rw [severity_of_stopped? hd]
    split <;> simp
  have hmem : ∀ d, d ∈ c.records ↔ d ∈ static ∨ d ∈ stopped? result := by
    simp [hrecords]
  refine ⟨⟨fun h => ?_, ?_⟩, ⟨fun h => ?_, ?_⟩, stopped? result, ?_, hstatic, hlast, Iff.rfl, ?_⟩
  · rw [herror, Bool.not_eq_true', List.isEmpty_eq_false_iff] at h
    obtain ⟨d, hd⟩ := List.exists_mem_of_ne_nil _ h
    exact ⟨d, (hmem d).mpr (.inl hd), hstatic d hd⟩
  · rintro ⟨d, hd, hseverity⟩
    rcases (hmem d).mp hd with hd | hd
    · rw [herror, Bool.not_eq_true', List.isEmpty_eq_false_iff]
      exact List.ne_nil_of_mem hd
    · rcases hlast d hd with h | h <;> cases hseverity.symm.trans h
  · rw [hruntime, ← any_stopped?, Option.any_eq_true] at h
    obtain ⟨d, hd, hseverity⟩ := h
    exact ⟨d, (hmem d).mpr (.inr hd), of_decide_eq_true hseverity⟩
  · rintro ⟨d, hd, hseverity⟩
    rcases (hmem d).mp hd with hd | hd
    · cases hseverity.symm.trans (hstatic d hd)
    · rw [hruntime, ← any_stopped?, Option.any_eq_true]
      exact ⟨d, hd, decide_eq_true hseverity⟩
  · rw [hrecords]
  · rw [any_stopped?, Console.exitStatus, hruntime, herror]
    cases static <;> rfl

section

variable (machine : Machine) (immediate fatal styled : Bool) (path source : String)

theorem agrees_unitEnd :
    let fresh := new (Console.new immediate fatal styled) path false
    (fresh.unitEnd machine source).console.Agrees (Parse.ofSource source).diagnostics
      ((stopped? (freshRun machine source).1).isSome = true)
      (fresh.unitEnd machine source).console.exitStatus := by
  intro fresh
  have hconsole := console_unitEnd_new machine immediate fatal styled path source
  exact agrees_of_records (fun _ => severity_of_mem_diagnostics)
    (congrArg Console.records hconsole) (congrArg Console.hadError hconsole)
    (congrArg Console.hadRuntimeError hconsole)

/-- There is a record of why statements were stopped exactly if they **answer** that they were. -/
theorem isSome_stopped?_iff {s : Session} (h : s.memory = .fresh) :
    (stopped? (freshRun machine source).1).isSome = true ↔
      ((s.parse source).2.interpret machine (s.parse source).1).1 = .ok false := by
  have hrun : (executeAll machine.toHost machine.nesting (s.parse source).1).run
      (s.parse source).2.memory = freshRun machine source := congrArg _ h
  rw [fst_interpret, hrun]
  rcases (freshRun machine source).1 with (_ | _ | _) | _ <;> simp [stopped?]

/-- A script session that ends **agrees** with the exit status it answers. What can keep it from its
end is a bound, and then it has recorded the static errors. -/
theorem agrees_run :
    let fresh := new (Console.new immediate fatal styled) path false
    match fresh.run machine source with
    | (.ok status, s) => s.console.Agrees (Parse.ofSource source).diagnostics
        (((fresh.parse source).2.interpret machine (fresh.parse source).1).1 = .ok false) status
    | (.error reason, s) => reason.IsBound ∧
        s.console.records = (Parse.ofSource source).diagnostics.toArray := by
  intro fresh
  have hagrees := agrees_unitEnd machine immediate fatal styled path source
  have hstopped := isSome_stopped?_iff machine source (s := fresh) rfl
  rw [hstopped] at hagrees
  rw [run_new]
  rcases hresult : (freshRun machine source).1 with (_ | _ | reason) | _
  · exact hagrees
  · exact hagrees
  · refine ⟨isBound_of_executeAll _ _ (scan source).tokens .fresh hresult, ?_⟩
    have hconsole := console_unitEnd_new machine immediate fatal styled path source
    rw [hconsole, hresult]
    simp [stopped?]
  · exact hagrees

end

end Session

/-! ### The program on a file -/

namespace CommandLine

/-- The **output** of a run: the printed lines, and then the records, below a headline if more than
one is an error. -/
def output (styled : Bool) (printed : List String) (records : List Diagnostic) : String :=
  let errors := records.countP fun d => d.severity != .warning
  String.join (printed.map (fun line => line ++ "\n") ++
    (if 1 < errors then [Console.headline styled errors ++ "\n"] else []) ++
    records.map fun d => d.text styled ++ "\n")

/-- All that a console has shown and still has to show. -/
def wholeText (c : Console) : String :=
  String.join ((c.transcript.toList ++ c.flushed).map Entry.text)

section

variable {c : Console} {text : String} (htext : wholeText c = text)

include htext

theorem finish_eq (status : Nat) : finish status c = ⟨some status, text, ""⟩ := by
  subst htext
  simp [finish, concluded, Console.conclude, outcomeOf, Console.textFrom, Console.flush_eq,
    wholeText]

/-- Behind a run that was aborted, the console says **why**, last of all. -/
theorem concluded_endingOf_error {styled : Bool} (hfatal : c.fatal = true)
    (hstyled : c.styled = styled) (reason : Abort) :
    concluded (Session.endingOf (.error reason : Except Abort Unit)) c =
      ⟨some 70, text ++ (Console.lastWords styled reason).text, ""⟩ := by
  subst htext hstyled
  simp [concluded, Console.conclude_endingOf_error, hfatal, outcomeOf, Console.textFrom, wholeText,
    String.append_assoc]

end

section

variable (machine : Machine) (styled : Bool)

/-- The program shows the printed lines at once, and keeps the records for a flush. -/
theorem wholeText_unitEnd (path source : String) :
    let c := ((Session.new (console styled) path false).unitEnd machine source).console
    wholeText c =
      output styled (Session.freshRun machine source).2.printed.toList c.records.toList := by
  intro c
  have hconsole : c = _ := Session.console_unitEnd_new machine false true styled path source
  have hprinted : c.transcript.toList =
      (Session.freshRun machine source).2.printed.toList.map Entry.printed := by
    rw [hconsole]
    simp [Console.shownAtOnce, Console.new]
  have himmediate : c.immediate = false := congrArg Console.immediate hconsole
  have hstyled : c.styled = styled := congrArg Console.styled hconsole
  rw [wholeText, hprinted, Console.flushed, himmediate, hstyled, output, Array.countP_toList]
  simp only [shownLines, List.map_append, List.map_map, Bool.false_eq_true, if_false,
    List.append_assoc]
  refine congrArg String.join ?_
  split <;> rfl

/-- The program **runs a text**: it puts out what is printed and the records, and leaves with the
status of the session. Behind a run that was aborted it says why, and the status is that of a
runtime error. -/
theorem runUnit_eq (path source : String) :
    let fresh := Session.new (console styled) path false
    let printed := (Session.freshRun machine source).2.printed.toList
    runUnit machine source fresh =
      match fresh.run machine source with
      | (.ok status, s) => ⟨some status, output styled printed s.console.records.toList, ""⟩
      | (.error reason, s) =>
        ⟨some 70, output styled printed s.console.records.toList ++
          (Console.lastWords styled reason).text, ""⟩ := by
  intro fresh printed
  have htext := wholeText_unitEnd machine styled path source
  have hconsole := Session.console_unitEnd_new machine false true styled path source
  have hfatal : (fresh.unitEnd machine source).console.fatal = true :=
    congrArg Console.fatal hconsole
  have hstyled : (fresh.unitEnd machine source).console.styled = styled :=
    congrArg Console.styled hconsole
  have hrun : fresh.run machine source = _ := Session.run_new machine false true styled path source
  rw [runUnit, hrun]
  rcases (Session.freshRun machine source).1 with (_ | _ | reason) | _
  case error.abort => exact concluded_endingOf_error htext hfatal hstyled reason
  all_goals exact finish_eq htext _

variable {files : Files} {arguments : List String} {path : String} {bytes : ByteArray}

/-- What the program does with a file that it can read. -/
theorem run_of_runFile {source : String} (input : String)
    (harguments : Request.ofArguments arguments = .ok (.runFile path))
    (hpath : path.contains '\x00' = false) (hbytes : files path = some bytes)
    (hsource : decode? bytes = some source) :
    run machine styled files arguments input =
      runUnit machine source (Session.new (console styled) path false) := by
  let fresh := Session.new (console styled) path false
  have hpath' : fresh.path.contains '\x00' = false := hpath
  have hbytes' : files fresh.path = some bytes := hbytes
  have hload : fresh.load files = (.text source, fresh) := by
    simp [Session.load, hpath', hbytes', hsource]
  simp only [run, start, harguments, withFile]
  rw [hload]

end

end CommandLine

/-- **The outcome of a run tells one story**, whatever the text.

- A script session that was not used before ends with records, flags and a status that agree, unless
  it is stopped by a bound: there are the static errors, and then at most one record of why the
  statements were stopped, which is there exactly if they answer so; the flags say which records
  there are; and the status is 70 after a runtime error, else 65 if there are static errors, else 0.
- The program that runs a file puts out what the statements print, then a headline if more than one
  record is an error, and then every record once, in order; and it leaves with that status. If the
  run overflows, the static errors are put out all the same, then why the run could not go on, and
  the status is 70. -/
theorem outcome_tells_one_story (machine : Machine) (styled : Bool) (path source : String) :
    (∀ immediate fatal : Bool,
      let fresh := Session.new (Console.new immediate fatal styled) path false
      match fresh.run machine source with
      | (.ok status, s) => s.console.Agrees (Parse.ofSource source).diagnostics
          (((fresh.parse source).2.interpret machine (fresh.parse source).1).1 = .ok false) status
      | (.error reason, s) => reason.IsBound ∧
          s.console.records = (Parse.ofSource source).diagnostics.toArray) ∧
      ∀ (files : Files) (arguments : List String) (input : String) (bytes : ByteArray),
        Request.ofArguments arguments = .ok (.runFile path) → path.contains '\x00' = false →
          files path = some bytes → decode? bytes = some source →
            let outcome := CommandLine.run machine styled files arguments input
            let printed := (Session.freshRun machine source).2.printed.toList
            match (Session.new (CommandLine.console styled) path false).run machine source with
            | (.ok status, s) => outcome =
                ⟨some status, CommandLine.output styled printed s.console.records.toList, ""⟩
            | (.error reason, s) => outcome =
                ⟨some 70, CommandLine.output styled printed s.console.records.toList ++
                  (Console.lastWords styled reason).text, ""⟩ := by
  refine ⟨fun immediate fatal => Session.agrees_run machine immediate fatal styled path source, ?_⟩
  intro files arguments input bytes harguments hpath hbytes hsource outcome printed
  have houtcome : outcome = _ :=
    CommandLine.run_of_runFile machine styled input harguments hpath hbytes hsource
  rw [houtcome, CommandLine.runUnit_eq]
  rcases (Session.new (CommandLine.console styled) path false).run machine source with ⟨_ | _, s⟩
  · rfl
  · rfl

/-- A file with a static error in its second statement and a runtime error in its third. -/
theorem outcome_tells_one_story_of_errors :
    let machine : Machine := { clock := fun _ => 0, rounds := 0 }
    CommandLine.run machine false (fun _ => some "print \"hi\"; print ; -nil;".toUTF8)
        ["a.lox"] "" =
      ⟨some 70, "hi\nFound 2 errors:\n" ++ "[line 1] error at ';': Expect expression.\n" ++
        "[line 1] runtime error at '-': Operand must be a number.\n", ""⟩ := by
  intro machine
  let source := "print \"hi\"; print ; -nil;"
  let fresh := Session.new (CommandLine.console false) "a.lox" false
  have hstatus : (fresh.run machine source).1.toOption = some 70 := by decide +kernel
  have houtput : CommandLine.output false (Session.freshRun machine source).2.printed.toList
      (fresh.run machine source).2.console.records.toList =
        "hi\nFound 2 errors:\n" ++ "[line 1] error at ';': Expect expression.\n" ++
          "[line 1] runtime error at '-': Operand must be a number.\n" := by decide +kernel
  have hstory := (outcome_tells_one_story machine false "a.lox" source).2
    (fun _ => some source.toUTF8) ["a.lox"] "" source.toUTF8 (by decide) (by cbv) rfl
    (by decide +kernel)
  rcases hrun : fresh.run machine source with ⟨_ | status, s⟩
  · rw [hrun] at hstatus
    cases hstatus
  · rw [hrun] at hstatus houtput hstory
    cases hstatus
    exact Eq.trans hstory (congrArg (fun text => (⟨some 70, text, ""⟩ : Outcome)) houtput)

end LoxLang
