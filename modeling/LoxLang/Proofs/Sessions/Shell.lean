import LoxLang.Proofs.Sessions.Records
import LoxLang.Shell

/-!
# The shell and its lines

The shell **loses, repeats and reorders nothing**. The lines that are entered are cut into units,
each of which ends with the first line behind which no brace and no parenthesis is open, and into
lines that are left over (`Shell.Units`). The units are run in this order, the lines that are left
over are pending, and a unit shows what it shows on a session of its own, since a session of the
shell shows every diagnostic at once and starts every unit from a fresh memory.

`Shell.step_of_entered?_eq_none`, `Shell.step_of_needsMore` and `Shell.step_of_complete` say all
that one line can do.
-/

namespace LoxLang

/-- The console with entries behind its transcript. -/
def Console.showAll (entries : List Entry) (c : Console) : Console :=
  { c with transcript := c.transcript ++ entries.toArray }

/-! ### One unit -/

namespace Session

/-- The session of a **shell**: it shows diagnostics at once, and never leaves because of them. -/
structure Shells (styled : Bool) (s : Session) : Prop extends s.Immediate where
  fatal : s.console.fatal = false
  styled_eq : s.console.styled = styled

theorem shells_new (immediate fatal styled : Bool) (path : String) :
    (new (Console.new immediate fatal styled) path true).Shells styled :=
  ⟨immediate_new _ _, rfl, rfl⟩

/-- Why a run could not go on, if it could not. -/
def aborted? : Except Interrupt Unit → Option Abort
  | .error (.abort reason) => some reason
  | _ => none

/-- All that a unit **shows** in a shell: its static errors, the lines it prints, why it was
stopped, and why it could not go on. -/
def unitShown (styled : Bool) (machine : Machine) (source : String) : List Entry :=
  let run := freshRun machine source
  shownLines styled (Parse.ofSource source).diagnostics ++ run.2.printed.toList.map .printed ++
    shownLines styled (stopped? run.1).toList ++
    (aborted? run.1).toList.map (Console.lastWords styled)

namespace Shells

variable {styled : Bool} {s : Session} (h : s.Shells styled) (machine : Machine) (source : String)

include h

theorem unitEnd : (s.unitEnd machine source).Shells styled := by
  rw [Session.unitEnd, reportAll_diagnostics]
  exact ⟨⟨h.interactive, h.immediate⟩, h.fatal, h.styled_eq⟩

/-- The statements of a unit show all that the unit shows, except why it could not go on. -/
theorem transcript_unitEnd :
    (s.unitEnd machine source).console.transcript.toList ++
        (aborted? (s.unitRun machine source).1).toList.map (Console.lastWords styled) =
      s.console.transcript.toList ++ unitShown styled machine source := by
  have hshown : ∀ ds, s.console.shownAtOnce ds = shownLines styled ds := fun ds => by
    rw [Console.shownAtOnce, if_pos h.immediate, h.styled_eq]
  rw [Session.unitEnd, reportAll_diagnostics, unitShown, freshRun, unitRun, if_pos h.interactive,
    Console.ran, ← hshown, ← hshown]
  simp [Console.shownAtOnce]

/-- A **unit** leaves a session of a shell one, and adds to its transcript what it shows. It is no
reason to leave. -/
theorem runWatched :
    (s.runWatched machine source).2.Shells styled ∧
      (s.runWatched machine source).2.console.transcript.toList =
        s.console.transcript.toList ++ unitShown styled machine source ∧
      ((s.run machine source).2.console.conclude (endingOf (s.run machine source).1)).2 = none := by
  have hend := h.unitEnd machine source
  rw [← h.transcript_unitEnd, Session.runWatched, run_eq, if_pos h.interactive]
  have himmediate : (s.unitEnd machine source).console.flushed = [] := by
    rw [Console.flushed, if_pos hend.immediate]
  rcases (s.unitRun machine source).1 with (_ | _ | reason) | _
  case error.abort =>
    simp only [Console.conclude_endingOf_error, himmediate, hend.fatal, hend.styled_eq, onConsole]
    refine ⟨⟨⟨h.interactive, hend.immediate⟩, rfl, rfl⟩, ?_, rfl⟩
    simp [aborted?]
  all_goals
    refine ⟨⟨⟨h.interactive, hend.immediate⟩, hend.fatal, hend.styled_eq⟩, ?_, rfl⟩
    exact (List.append_nil _).symm

end Shells

end Session

namespace Shell

open Session

/-! ### Lines and units -/

/-- Lines, one below the other. -/
def joined (lines : List String) : String := "\n".intercalate lines

/-- Among the tokens of a text, there are no more opening braces than closing ones, and no more
opening parentheses than closing ones. -/
def Closed (source : String) : Prop :=
  let count (kind : TokenKind) : Nat := countKind kind (scan source).tokens
  count .leftBrace ≤ count .rightBrace ∧ count .leftParen ≤ count .rightParen

/-- The text of the lines is **open** behind each of them. -/
def StaysOpen (lines : List String) : Prop :=
  ∀ front, front <+: lines → front ≠ [] → ¬ Closed (joined front)

/-- The lines are **complete** at the last of them and not before. -/
def Complete (lines : List String) : Prop :=
  ∃ front last, lines = front ++ [last] ∧ StaysOpen front ∧ Closed (joined lines)

/-- The lines are those of the **units**, in order, and some that are left over. -/
structure Units (lines : List String) (units : List (List String)) (rest : List String) : Prop where
  eq_append : lines = units.flatten ++ rest
  complete : ∀ unit ∈ units, Complete unit
  staysOpen : StaysOpen rest

theorem needsMore_eq_false_iff {source : String} : needsMore source = false ↔ Closed source := by
  rw [needsMore, decide_eq_false_iff_not, not_or, Nat.not_lt, Nat.not_lt]
  rfl

theorem needsMore_eq_true_iff {source : String} : needsMore source = true ↔ ¬ Closed source := by
  rw [← needsMore_eq_false_iff, Bool.not_eq_false]

theorem joined_nil : joined [] = "" := String.intercalate_nil

theorem joined_append {lines lines' : List String} (h : lines ≠ []) (h' : lines' ≠ []) :
    joined (lines ++ lines') = joined lines ++ "\n" ++ joined lines' :=
  String.intercalate_append_of_ne_nil h h'

/-- Joining some lines at a time, and then what this gives, is joining all lines. -/
theorem joined_map_joined {units : List (List String)} (h : ∀ unit ∈ units, unit ≠ []) :
    joined (units.map joined) = joined units.flatten := by
  induction units with
  | nil => rfl
  | cons unit units ih =>
    obtain ⟨hunit, hunits⟩ := List.forall_mem_cons.mp h
    cases units with
    | nil => rw [List.map_singleton, List.flatten_singleton, joined, String.intercalate_singleton]
    | cons unit' units =>
      have hne : (unit' :: units).flatten ≠ [] :=
        List.append_ne_nil_of_left_ne_nil (hunits unit' List.mem_cons_self) _
      rw [List.map_cons, List.flatten_cons, joined_append hunit hne, ← ih hunits]
      exact String.intercalate_cons_of_ne_nil (List.cons_ne_nil _ _)

theorem staysOpen_nil : StaysOpen [] := fun _ hfront hne => absurd (List.prefix_nil.mp hfront) hne

theorem StaysOpen.append_singleton {lines : List String} {line : String} (h : StaysOpen lines)
    (hopen : ¬ Closed (joined (lines ++ [line]))) : StaysOpen (lines ++ [line]) := by
  intro front hfront hne
  rcases List.prefix_concat_iff.mp hfront with rfl | hfront
  · exact hopen
  · exact h front hfront hne

/-- Where something is open, there is text. -/
theorem StaysOpen.joined_ne_empty {lines : List String} (h : StaysOpen lines) (hne : lines ≠ []) :
    joined lines ≠ "" := by
  intro hempty
  have hclosed : needsMore "" = false := by cbv
  exact h lines (List.prefix_refl _) hne (hempty ▸ needsMore_eq_false_iff.mp hclosed)

namespace Complete

variable {unit unit' : List String}

theorem ne_nil (h : Complete unit) : unit ≠ [] := by
  obtain ⟨front, last, rfl, -⟩ := h
  exact List.append_ne_nil_of_right_ne_nil _ (List.cons_ne_nil _ _)

/-- Lines are not complete while something stays open. -/
theorem not_isPrefix_of_staysOpen (h : Complete unit) {lines : List String}
    (hopen : StaysOpen lines) : ¬ unit <+: lines := by
  obtain ⟨front, last, -, -, hclosed⟩ := id h
  exact fun hfront => hopen unit hfront h.ne_nil hclosed

/-- No unit goes on behind another. -/
theorem eq_of_isPrefix (h : Complete unit) (h' : Complete unit') (hfront : unit <+: unit') :
    unit = unit' := by
  obtain ⟨front, last, rfl, hopen, -⟩ := h'
  rcases List.prefix_concat_iff.mp hfront with heq | hfront
  · exact heq
  · exact absurd hfront (h.not_isPrefix_of_staysOpen hopen)

end Complete

/-- A line behind the lines that are left over is joined to them. -/
theorem StaysOpen.joinLine {lines : List String} (h : StaysOpen lines) (line : String) :
    joinLine line (joined lines) =
      (joined (lines ++ [line]), needsMore (joined (lines ++ [line]))) := by
  have hjoined : (if (joined lines).isEmpty then line else joined lines ++ "\n" ++ line) =
      joined (lines ++ [line]) := by
    by_cases hne : lines = []
    · subst hne
      exact String.intercalate_singleton.symm
    · rw [if_neg (by simpa using h.joined_ne_empty hne), joined_append hne (List.cons_ne_nil _ _)]
      exact congrArg _ String.intercalate_singleton.symm
  rw [Session.joinLine, hjoined]

namespace Units

variable {lines rest : List String} {units : List (List String)} {line : String}

theorem append_open (h : Units lines units rest)
    (hopen : ¬ Closed (joined (rest ++ [line]))) :
    Units (lines ++ [line]) units (rest ++ [line]) where
  eq_append := by rw [h.eq_append, List.append_assoc]
  complete := h.complete
  staysOpen := h.staysOpen.append_singleton hopen

theorem append_complete (h : Units lines units rest)
    (hclosed : Closed (joined (rest ++ [line]))) :
    Units (lines ++ [line]) (units ++ [rest ++ [line]]) [] where
  eq_append := by simp [h.eq_append]
  complete := List.forall_mem_append.mpr ⟨h.complete,
    List.forall_mem_singleton.mpr ⟨rest, line, rfl, h.staysOpen, hclosed⟩⟩
  staysOpen := staysOpen_nil

/-- The texts of the units, and that of the lines left over if there are any, are all lines. -/
theorem joined_eq (h : Units lines units rest) :
    joined (units.map joined ++ if joined rest = "" then [] else [joined rest]) = joined lines := by
  have hunits : ∀ unit ∈ units, unit ≠ [] := fun unit hunit => (h.complete unit hunit).ne_nil
  rw [h.eq_append]
  by_cases hrest : rest = []
  · subst hrest
    rw [if_pos joined_nil, List.append_nil, List.append_nil, joined_map_joined hunits]
  · have hall : ∀ unit ∈ units ++ [rest], unit ≠ [] :=
      List.forall_mem_append.mpr ⟨hunits, List.forall_mem_singleton.mpr hrest⟩
    rw [if_neg (h.staysOpen.joined_ne_empty hrest), ← List.map_singleton, ← List.map_append,
      joined_map_joined hall, List.flatten_append, List.flatten_singleton]

/-- Behind the first unit, there are the others. -/
theorem of_cons {unit : List String} (h : Units lines (unit :: units) rest) :
    Complete unit ∧ ∃ behind, lines = unit ++ behind ∧ Units behind units rest := by
  obtain ⟨hunit, hunits⟩ := List.forall_mem_cons.mp h.complete
  refine ⟨hunit, units.flatten ++ rest, ?_, rfl, hunits, h.staysOpen⟩
  rw [h.eq_append, List.flatten_cons, List.append_assoc]

/-- There is **one** way to cut lines into units. -/
theorem unique {units' : List (List String)} {rest' : List String} (h : Units lines units rest)
    (h' : Units lines units' rest') : units = units' ∧ rest = rest' := by
  induction units generalizing lines units' with
  | nil =>
    obtain rfl : lines = rest := h.eq_append
    cases units' with
    | nil => exact ⟨rfl, h'.eq_append⟩
    | cons unit' units' =>
      obtain ⟨hunit', behind, hlines, -⟩ := h'.of_cons
      exact absurd ⟨behind, hlines.symm⟩ (hunit'.not_isPrefix_of_staysOpen h.staysOpen)
  | cons unit units ih =>
    obtain ⟨hunit, behind, hlines, h⟩ := h.of_cons
    cases units' with
    | nil =>
      obtain rfl : lines = rest' := h'.eq_append
      exact absurd ⟨behind, hlines.symm⟩ (hunit.not_isPrefix_of_staysOpen h'.staysOpen)
    | cons unit' units' =>
      obtain ⟨hunit', behind', hlines', h'⟩ := h'.of_cons
      -- One of the first units is a front of the other.
      obtain rfl : unit = unit' := by
        rcases List.prefix_or_prefix_of_prefix ⟨_, hlines.symm⟩ ⟨_, hlines'.symm⟩ with hle | hle
        · exact hunit.eq_of_isPrefix hunit' hle
        · exact (hunit'.eq_of_isPrefix hunit hle).symm
      obtain rfl := List.append_cancel_left (hlines.symm.trans hlines')
      obtain ⟨rfl, rfl⟩ := ih h h'
      exact ⟨rfl, rfl⟩

end Units

/-! ### One line -/

/-- The **word** in front of a line, behind its blank space. -/
def commandWord (line : String) : String :=
  String.ofList ((stripped line.toList).takeWhile fun c => isAlphanumeric c)

/-- What a line **enters** into the program, which is the line without blank space around it: a
blank line enters nothing, and neither does a question mark or a command. -/
def entered? (line : String) : Option String :=
  let cs := stripped line.toList
  if cs = [] ∨ cs.head? = some '?' ∨ commandWord line ∈ ["help", "exit", "EOF"] then none
  else some (String.ofList cs)

/-- What the shell itself answers to a line. -/
def answer (line : String) : List Entry :=
  match Command.ofLine line with
  | .help => [.shown (helpText ++ "\n")]
  | .endOfInput => [.shown "\n"]
  | _ => []

/-- The **unit** that a line completes, if it completes one. -/
def unit? (line : String) (shell : Shell) : Option String :=
  (entered? line).bind fun line =>
    let (source, more) := joinLine line shell.pending
    if more then none else some source

/-- What the shell makes of a line: **input** if it enters something, and else what its word
says. -/
theorem ofLine_eq (line : String) :
    Command.ofLine line =
      match entered? line with
      | some line => .input line
      | none =>
        if commandWord line = "exit" then .leave
        else if commandWord line = "EOF" then .endOfInput
        else if stripped line.toList = [] then .nothing
        else .help := by
  unfold Command.ofLine entered? commandWord Command.ofStripped
  generalize stripped line.toList = cs
  split
  · rfl
  · rfl
  · next hne hquestion =>
    have hhead : cs.head? ≠ some '?' := by
      intro h
      obtain ⟨cs, rfl⟩ := List.head?_eq_some_iff.mp h
      exact hquestion _ rfl
    have hne : cs ≠ [] := hne
    generalize String.ofList (cs.takeWhile fun c => isAlphanumeric c) = word
    by_cases hhelp : word = "help"
    · subst hhelp
      simp [hne]
    by_cases hexit : word = "exit"
    · subst hexit
      simp
    by_cases hend : word = "EOF"
    · subst hend
      simp
    · simp [hne, hhead, hhelp, hexit, hend]

/-- A line is **input** exactly if it enters something. -/
theorem ofLine_eq_input_iff {line input : String} :
    Command.ofLine line = .input input ↔ entered? line = some input := by
  rw [ofLine_eq]
  rcases entered? line with _ | entered
  · dsimp only
    refine ⟨fun h => ?_, nofun⟩
    split at h
    · cases h
    split at h
    · cases h
    split at h <;> cases h
  · simp

variable {machine : Machine} {line : String} {shell : Shell}

/-- The word of a line that enters something is no command. -/
theorem commandWord_of_entered? {input : String} (h : entered? line = some input) :
    ¬ (commandWord line = "exit" ∨ commandWord line = "EOF") := by
  intro hword
  have hcommand : commandWord line ∈ ["help", "exit", "EOF"] := by
    rcases hword with hword | hword <;> simp [hword]
  have hnone : entered? line = none := if_pos (.inr (.inr hcommand))
  rw [h] at hnone
  cases hnone

/-- A line that enters nothing is **answered** at most, and nothing else happens. -/
theorem step_of_entered?_eq_none (h : entered? line = none) :
    shell.step machine line =
      ({ shell with session := shell.session.onConsole (Console.showAll (answer line)) },
        decide (commandWord line = "exit" ∨ commandWord line = "EOF")) := by
  have hcommand := ofLine_eq line
  rw [h] at hcommand
  have hwrite : ∀ text, shell.write text =
      { shell with session := shell.session.onConsole (Console.showAll [.shown text]) } := by
    simp [write, onConsole, Console.write, Console.add, Console.showAll]
  have hsilent :
      shell = { shell with session := shell.session.onConsole (Console.showAll []) } := by
    simp [onConsole, Console.showAll]
  unfold step answer
  by_cases hexit : commandWord line = "exit"
  · rw [hcommand, if_pos hexit]
    simpa [hexit] using hsilent
  by_cases hend : commandWord line = "EOF"
  · rw [hcommand, if_neg hexit, if_pos hend]
    simp [hend, hwrite]
  rw [hcommand, if_neg hexit, if_neg hend]
  have hstays : ¬ (commandWord line = "exit" ∨ commandWord line = "EOF") := not_or.mpr ⟨hexit, hend⟩
  by_cases hblank : stripped line.toList = []
  · simpa [hblank, hstays] using hsilent
  · simp [hblank, hstays, hwrite]

/-- A line that leaves something open is **pending**, with what was pending before. -/
theorem step_of_needsMore {input pending : String} (h : entered? line = some input)
    (hjoined : joinLine input shell.pending = (pending, true)) :
    shell.step machine line = ({ shell with pending, prompt := secondPrompt }, false) := by
  rw [step, ofLine_eq_input_iff.mpr h]
  simp only [feed, hjoined, Option.isSome_none]

/-- A line that leaves nothing open **completes a unit**, which is run. -/
theorem step_of_complete {styled : Bool} {input source : String}
    (hsession : shell.session.Shells styled) (h : entered? line = some input)
    (hjoined : joinLine input shell.pending = (source, false)) :
    shell.step machine line =
      (⟨(shell.session.runWatched machine source).2, "", firstPrompt⟩, false) := by
  obtain ⟨-, -, hexit⟩ := hsession.runWatched machine source
  rw [step, ofLine_eq_input_iff.mpr h]
  simp only [feed, hjoined, hexit, Option.isSome_none]
  rfl

section

variable {styled : Bool} (hsession : shell.session.Shells styled) (machine line)

include hsession

/-- The shell is **left** by a command, and by nothing else. -/
theorem left_step_iff :
    (shell.step machine line).2 = true ↔ commandWord line = "exit" ∨ commandWord line = "EOF" := by
  rcases hentered : entered? line with _ | input
  · rw [step_of_entered?_eq_none hentered, decide_eq_true_iff]
  have hword := commandWord_of_entered? hentered
  rcases hjoined : joinLine input shell.pending with ⟨source, _ | _⟩
  · simp [step_of_complete hsession hentered hjoined, hword]
  · simp [step_of_needsMore hentered hjoined, hword]

/-- A line that completes a unit **runs** it, and any other line is answered at most. -/
theorem session_step :
    (shell.step machine line).1.session =
      match shell.unit? line with
      | some source => (shell.session.runWatched machine source).2
      | none => shell.session.onConsole (Console.showAll (answer line)) := by
  rcases hentered : entered? line with _ | input
  · rw [step_of_entered?_eq_none hentered, unit?, hentered]
    rfl
  rcases hjoined : joinLine input shell.pending with ⟨source, _ | _⟩
  · rw [step_of_complete hsession hentered hjoined, unit?, hentered]
    simp [hjoined]
  · rw [step_of_needsMore hentered hjoined, unit?, hentered]
    simp [hjoined, answer, ofLine_eq_input_iff.mpr hentered, onConsole, Console.showAll]

end

/-! ### Many lines -/

/-- The shell behind lines that it was given one after the other, each with its own machine. -/
def after (history : List (Machine × String)) (shell : Shell) : Shell :=
  history.foldl (fun shell (machine, line) => (shell.step machine line).1) shell

/-- The **units that are run** on lines, in order. -/
def unitsRun : List (Machine × String) → Shell → List String
  | [], _ => []
  | (machine, line) :: history, shell =>
    (shell.unit? line).toList ++ unitsRun history (shell.step machine line).1

/-- The lines that are entered on lines. -/
def linesEntered (history : List (Machine × String)) : List String :=
  history.filterMap fun (_, line) => entered? line

theorem after_append_singleton (history : List (Machine × String)) (machine : Machine)
    (line : String) (shell : Shell) :
    shell.after (history ++ [(machine, line)]) = ((shell.after history).step machine line).1 := by
  rw [after, after, List.foldl_append]
  rfl

theorem unitsRun_append_singleton (history : List (Machine × String)) (machine : Machine)
    (line : String) (shell : Shell) :
    unitsRun (history ++ [(machine, line)]) shell =
      unitsRun history shell ++ ((shell.after history).unit? line).toList := by
  induction history generalizing shell with
  | nil => simp [unitsRun, after]
  | cons entry history ih =>
    rw [List.cons_append, unitsRun, ih, unitsRun, List.append_assoc]
    rfl

theorem linesEntered_append_singleton (history : List (Machine × String)) (machine : Machine)
    (line : String) :
    linesEntered (history ++ [(machine, line)]) =
      linesEntered history ++ (entered? line).toList := by
  rw [linesEntered, List.filterMap_append, linesEntered]
  rcases h : entered? line with _ | input <;> simp [h]

/-- The **prompt** of a shell is in step with its pending text. -/
def InStep (shell : Shell) : Prop :=
  shell.prompt = if shell.pending = "" then firstPrompt else secondPrompt

/-- The shell asks for more exactly while something is pending. -/
theorem InStep.prompt_eq_iff (h : shell.InStep) : shell.prompt = ". " ↔ shell.pending ≠ "" := by
  rw [h]
  split
  · next hnone => exact iff_of_false (by decide) (not_not_intro hnone)
  · next hsome => exact iff_of_true rfl hsome

/-- The shell **accounts** for the lines that were entered: they are those of the units that were
run, and the pending ones, and the prompt says whether there are any of these. -/
structure Accounts (styled : Bool) (entered ran : List String) (shell : Shell) : Prop where
  shells : shell.session.Shells styled
  inStep : shell.InStep
  units : ∃ units rest, Units entered units rest ∧ ran = units.map joined ∧
    shell.pending = joined rest

/-- **One line** is accounted for. -/
theorem Accounts.step {styled : Bool} {entered ran : List String}
    (h : shell.Accounts styled entered ran) (machine : Machine) (line : String) :
    (shell.step machine line).1.Accounts styled (entered ++ (entered? line).toList)
      (ran ++ (shell.unit? line).toList) := by
  obtain ⟨hsession, hinStep, units, rest, hunits, rfl, hpending⟩ := h
  rcases hentered : entered? line with _ | input
  · rw [step_of_entered?_eq_none hentered, unit?, hentered]
    refine ⟨?_, hinStep, units, rest, ?_, ?_, hpending⟩
    · exact ⟨⟨hsession.interactive, hsession.immediate⟩, hsession.fatal, hsession.styled_eq⟩
    · simpa using hunits
    · simp
  have hjoined := hunits.staysOpen.joinLine input
  rw [← hpending] at hjoined
  by_cases hclosed : Closed (joined (rest ++ [input]))
  · rw [needsMore_eq_false_iff.mpr hclosed] at hjoined
    rw [step_of_complete hsession hentered hjoined, unit?, hentered]
    refine ⟨(hsession.runWatched machine _).1, rfl, units ++ [rest ++ [input]], [],
      hunits.append_complete hclosed, ?_, joined_nil.symm⟩
    simp [hjoined]
  · rw [needsMore_eq_true_iff.mpr hclosed] at hjoined
    rw [step_of_needsMore hentered hjoined, unit?, hentered]
    have hopen := hunits.append_open hclosed
    have hne : joined (rest ++ [input]) ≠ "" :=
      hopen.staysOpen.joined_ne_empty (List.append_ne_nil_of_right_ne_nil _ (List.cons_ne_nil _ _))
    refine ⟨hsession, (if_neg hne).symm, units, rest ++ [input], hopen, ?_, rfl⟩
    simp [hjoined]

/-- **All lines** are accounted for. -/
theorem accounts_after {styled : Bool} {fresh : Session} (h : fresh.Shells styled)
    (history : List (Machine × String)) :
    ((new fresh).after history).Accounts styled (linesEntered history)
      (unitsRun history (new fresh)) := by
  -- From the back, as a line is taken behind all those before it.
  induction history using List.reverseRecOn with
  | nil => exact ⟨h, rfl, [], [], ⟨rfl, nofun, staysOpen_nil⟩, rfl, joined_nil.symm⟩
  | append_singleton history entry ih =>
    obtain ⟨machine, line⟩ := entry
    rw [after_append_singleton, unitsRun_append_singleton, linesEntered_append_singleton]
    exact ih.step machine line

end Shell

open Session Shell

/-- **The shell loses, repeats and reorders nothing**. Whatever lines it was given:

- The units that were run and the text that is pending, if any, are together the lines that were
  entered. There is one way to cut these lines into units, each complete at its last line and not
  before, and lines left over. The units are those that were run, and the lines left over are
  pending.
- The prompt asks for more exactly if something is pending. A line that enters nothing changes
  neither.
- A line that completes a unit runs it, which shows what the unit shows on a session of its own. No
  other line does anything but to be answered by the shell.
- A line leaves the shell exactly if its word is one of the two commands that do. -/
theorem shell_runs_all_lines (immediate fatal styled : Bool) (path : String)
    (history : List (Machine × String)) (machine : Machine) (line : String) :
    let fresh := Session.new (Console.new immediate fatal styled) path true
    let shell := (Shell.new fresh).after history
    let ran := unitsRun history (Shell.new fresh)
    let next := (shell.step machine line).1
    joined (ran ++ if shell.pending = "" then [] else [shell.pending]) =
        joined (linesEntered history) ∧
      (∃ units rest,
        Units (linesEntered history) units rest ∧
          (∀ units' rest', Units (linesEntered history) units' rest' →
            units' = units ∧ rest' = rest) ∧
          ran = units.map joined ∧ shell.pending = joined rest) ∧
      (shell.prompt = ". " ↔ shell.pending ≠ "") ∧
      (entered? line = none → next.pending = shell.pending ∧ next.prompt = shell.prompt) ∧
      (match shell.unit? line with
        | some source =>
          next.session = (shell.session.runWatched machine source).2 ∧
            next.session.console.transcript = shell.session.console.transcript ++
              (fresh.runWatched machine source).2.console.transcript
        | none => next.session = shell.session.onConsole (Console.showAll (answer line))) ∧
      ((shell.step machine line).2 = true ↔
        commandWord line = "exit" ∨ commandWord line = "EOF") := by
  intro fresh shell ran next
  have hfresh : fresh.Shells styled := shells_new immediate fatal styled path
  obtain ⟨hsession, hinStep, units, rest, hunits, hran, hpending⟩ := accounts_after hfresh history
  refine ⟨?_, ?_, hinStep.prompt_eq_iff, ?_, ?_, left_step_iff machine line hsession⟩
  · rw [← hunits.joined_eq, ← hpending, ← hran]
  · exact ⟨units, rest, hunits, fun _ _ h => h.unique hunits, hran, hpending⟩
  · intro hentered
    have hnext : next =
        { shell with session := shell.session.onConsole (Console.showAll (answer line)) } :=
      congrArg Prod.fst (step_of_entered?_eq_none hentered)
    rw [hnext]
    exact ⟨rfl, rfl⟩
  · have hnext := session_step machine line hsession
    rcases hunit : shell.unit? line with _ | source
    · rw [hunit] at hnext
      exact hnext
    · rw [hunit] at hnext
      obtain ⟨-, halone, -⟩ := hfresh.runWatched machine source
      obtain ⟨-, hhere, -⟩ := hsession.runWatched machine source
      refine ⟨hnext, ?_⟩
      rw [hnext, ← Array.toList_inj, Array.toList_append, hhere, halone]
      rfl

end LoxLang
