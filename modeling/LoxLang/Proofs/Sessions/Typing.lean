import Mathlib.Data.List.Infix
import LoxLang.Proofs.Lexemes.BlankLines
import LoxLang.Proofs.Sessions.Shell

/-!
# Units that are typed line by line

A unit may be typed into a shell line by line. The shell joins the lines with line feeds, and runs
the unit when nothing is open any more; but it skips **empty** lines, as it does where no unit has
begun. So what is run is the text of the lines that are not empty: a token below an empty line is
told of on a line further up, and a string that goes on over an empty line has lost it
(`shell_runs_typed_unit`). Whether a unit is complete does not depend on empty lines, since they
change no kinds of tokens.
-/

namespace LoxLang

open Session

namespace Shell

/-! ### Empty lines -/

/-- The text of the lines that the shell does not **skip**. -/
def kept (lines : List String) : List String := lines.filter (· ≠ "")

theorem kept_append_empty (lines : List String) : kept (lines ++ [""]) = kept lines := by
  simp [kept]

theorem kept_append_of_ne {line : String} (h : line ≠ "") (lines : List String) :
    kept (lines ++ [line]) = kept lines ++ [line] := by
  simp [kept, h]

theorem kept_eq_self {lines : List String} (h : "" ∉ lines) : kept lines = lines :=
  List.filter_eq_self.mpr fun _ hline => decide_eq_true (ne_of_mem_of_not_mem hline h)

theorem kept_ne_nil {first : String} (h : first ≠ "") (rest : List String) :
    kept (first :: rest) ≠ [] := by
  simp [kept, h]

theorem countKind_eq_countP (kind : TokenKind) (tokens : List Token) :
    countKind kind tokens = (tokens.map Token.kind).countP fun k => k = kind := by
  rw [countKind, List.countP_map]
  rfl

/-- Tokens of the same kinds leave the same **open**. -/
theorem closed_iff_of_sameKinds {source source' : String}
    (h : SameKinds source.toList source'.toList) : Closed source ↔ Closed source' := by
  simp only [Closed, countKind_eq_countP, h.map_kind_tokens_eq]

/-- Lines have the same kinds of tokens with the empty ones and without, whatever **follows** them
on other lines. -/
theorem sameKinds_joined {first : String} (hfirst : first ≠ "") (rest : List String) :
    (∀ ds, SameKinds ((joined (first :: rest)).toList ++ '\n' :: ds)
      ((joined (kept (first :: rest))).toList ++ '\n' :: ds)) ∧
    SameKinds (joined (first :: rest)).toList (joined (kept (first :: rest))).toList := by
  -- From the back, as the lines are joined.
  induction rest using List.reverseRecOn with
  | nil =>
    have hkept : kept [first] = [first] := by simp [kept, hfirst]
    rw [hkept]
    exact ⟨fun ds => .refl _, .refl _⟩
  | append_singleton rest line ih =>
    obtain ⟨hbehind, hwhole⟩ := ih
    have hjoined : (joined (first :: (rest ++ [line]))).toList =
        (joined (first :: rest)).toList ++ '\n' :: line.toList := by
      rw [← List.cons_append, joined_append (List.cons_ne_nil _ _) (List.cons_ne_nil _ _)]
      simp [joined]
    rw [hjoined, ← List.cons_append]
    by_cases hline : line = ""
    · subst hline
      rw [kept_append_empty]
      constructor
      · intro ds
        simp only [String.toList_empty, List.append_assoc, List.cons_append, List.nil_append]
        exact (sameKinds_blank_line _ ds).trans (hbehind ds)
      · exact (sameKinds_newline _).trans hwhole
    · have hkept : (joined (kept (first :: rest) ++ [line])).toList =
          (joined (kept (first :: rest))).toList ++ '\n' :: line.toList := by
        rw [joined_append (kept_ne_nil hfirst rest) (List.cons_ne_nil _ _)]
        simp [joined]
      rw [kept_append_of_ne hline, hkept]
      constructor
      · intro ds
        simp only [List.append_assoc, List.cons_append]
        exact hbehind _
      · exact hbehind _

/-- Lines that do not begin with an empty one are closed **exactly if** those that are kept are. -/
theorem closed_joined_kept {lines : List String} (h : lines.head? ≠ some "") :
    Closed (joined (kept lines)) ↔ Closed (joined lines) := by
  cases lines with
  | nil => exact Iff.rfl
  | cons first rest =>
    have hfirst : first ≠ "" := fun hempty => h (congrArg some hempty)
    exact (closed_iff_of_sameKinds (sameKinds_joined hfirst rest).2).symm

theorem StaysOpen.kept {lines : List String} (h : StaysOpen lines)
    (hbegins : lines.head? ≠ some "") : StaysOpen (Shell.kept lines) := by
  intro front hfront hne hclosed
  obtain ⟨front', hfront', rfl⟩ := List.prefix_filter_iff.mp hfront
  have hne' : front' ≠ [] := by
    rintro rfl
    exact hne rfl
  have hhead : front'.head? = lines.head? := by
    obtain ⟨behind, rfl⟩ := hfront'
    rw [List.head?_append_of_ne_nil _ hne']
  exact h front' hfront' hne' ((closed_joined_kept (hhead ▸ hbegins)).mp hclosed)

/-! ### Typing -/

/-- A line that is **typed** into a unit: it has no blank space around it, and is no question mark
and no command. -/
structure Plain (line : String) : Prop where
  stripped_eq : stripped line.toList = line.toList
  noQuestion : line.toList.head? ≠ some '?'
  noCommand : commandWord line ∉ ["help", "exit", "EOF"]

/-- The lines are **typed** for one unit, which does not begin with an empty line. -/
structure Typed (lines : List String) : Prop where
  plain : ∀ line ∈ lines, Plain line
  begins : lines.head? ≠ some ""
  complete : Complete lines

instance (source : String) : Decidable (Closed source) :=
  inferInstanceAs (Decidable (_ ∧ _))

instance (lines : List String) : Decidable (StaysOpen lines) :=
  decidable_of_iff (∀ front ∈ lines.inits, front ≠ [] → ¬ Closed (joined front)) (by
    simp only [List.mem_inits]
    rfl)

instance (lines : List String) : Decidable (Complete lines) :=
  decidable_of_iff (lines ≠ [] ∧ StaysOpen lines.dropLast ∧ Closed (joined lines)) (by
    constructor
    · rintro ⟨hne, hopen, hclosed⟩
      exact ⟨_, _, (List.dropLast_append_getLast hne).symm, hopen, hclosed⟩
    · rintro ⟨front, last, rfl, hopen, hclosed⟩
      rw [List.dropLast_concat]
      exact ⟨by simp, hopen, hclosed⟩)

instance (line : String) : Decidable (Plain line) :=
  decidable_of_iff (stripped line.toList = line.toList ∧ line.toList.head? ≠ some '?' ∧
      commandWord line ∉ ["help", "exit", "EOF"])
    ⟨fun ⟨h, h', h''⟩ => ⟨h, h', h''⟩, fun ⟨h, h', h''⟩ => ⟨h, h', h''⟩⟩

instance (lines : List String) : Decidable (Typed lines) :=
  decidable_of_iff ((∀ line ∈ lines, Plain line) ∧ lines.head? ≠ some "" ∧ Complete lines)
    ⟨fun ⟨h, h', h''⟩ => ⟨h, h', h''⟩, fun ⟨h, h', h''⟩ => ⟨h, h', h''⟩⟩

theorem Plain.entered?_eq {line : String} (h : Plain line) (hne : line ≠ "") :
    entered? line = some line := by
  have hcs : line.toList ≠ [] := fun hnil => hne (String.toList_eq_nil_iff.mp hnil)
  rw [entered?, h.stripped_eq, if_neg]
  · exact congrArg some String.ofList_toList
  · rintro (hnil | hquestion | hcommand)
    · exact hcs hnil
    · exact h.noQuestion hquestion
    · exact h.noCommand hcommand

/-- An **empty** line is skipped. -/
theorem step_empty (machine : Machine) (shell : Shell) :
    shell.step machine "" = (shell, false) := rfl

section

variable {styled : Bool} {fresh : Session} {lines front : List String} {last : String}

/-- While something stays open, the lines that are kept are **pending**. -/
theorem after_of_staysOpen (machine : Machine) (hopen : StaysOpen lines)
    (hbegins : lines.head? ≠ some "") (hplain : ∀ line ∈ lines, Plain line) :
    ∃ prompt, (new fresh).after (lines.map fun line => (machine, line)) =
      ⟨fresh, joined (kept lines), prompt⟩ := by
  induction lines using List.reverseRecOn with
  | nil => exact ⟨firstPrompt, rfl⟩
  | append_singleton front line ih =>
    obtain ⟨hfront, hline⟩ := List.forall_mem_append.mp hplain
    have hopenFront : StaysOpen front := fun front' hfront' =>
      hopen front' (hfront'.trans (List.prefix_append _ _))
    have hbeginsFront : front.head? ≠ some "" := by
      cases front with
      | nil => nofun
      | cons first rest => exact hbegins
    obtain ⟨prompt, hafter⟩ := ih hopenFront hbeginsFront hfront
    rw [List.map_append, List.map_singleton, after_append_singleton, hafter]
    by_cases hempty : line = ""
    · subst hempty
      exact ⟨prompt, by rw [step_empty, kept_append_empty]⟩
    · have hentered := (hline line (List.mem_singleton_self line)).entered?_eq hempty
      have hkept := hopen.kept hbegins
      rw [kept_append_of_ne hempty] at hkept ⊢
      have hjoined := (hopenFront.kept hbeginsFront).joinLine line
      rw [needsMore_eq_true_iff.mpr (hkept _ (List.prefix_refl _) (by simp))] at hjoined
      exact ⟨secondPrompt, by rw [step_of_needsMore hentered hjoined]⟩

/-- The last line of a unit is not empty. -/
theorem Typed.last_ne_empty (h : Typed (front ++ [last])) (hopen : StaysOpen front)
    (hclosed : Closed (joined (front ++ [last]))) : last ≠ "" := by
  rintro rfl
  have hbegins := h.begins
  rcases front with _ | ⟨first, rest⟩
  · exact hbegins rfl
  · have hfirst : (first :: rest).head? ≠ some "" := hbegins
    rw [← closed_joined_kept hbegins, kept_append_empty, closed_joined_kept hfirst] at hclosed
    exact hopen _ (List.prefix_refl _) (List.cons_ne_nil _ _) hclosed

/-- Behind the lines of a unit the shell has run the lines that it has **kept**. -/
theorem Typed.after_eq (h : Typed lines) (hfresh : fresh.Shells styled) (machine : Machine) :
    (new fresh).after (lines.map fun line => (machine, line)) =
      ⟨(fresh.runWatched machine (joined (kept lines))).2, "", firstPrompt⟩ := by
  obtain ⟨front, last, rfl, hopen, hclosed⟩ := h.complete
  obtain ⟨hfront, hlast⟩ := List.forall_mem_append.mp h.plain
  have hne : last ≠ "" := h.last_ne_empty hopen hclosed
  have hbegins : front.head? ≠ some "" := by
    have hhead := h.begins
    cases front with
    | nil => nofun
    | cons first rest => exact hhead
  have hentered := (hlast last (List.mem_singleton_self last)).entered?_eq hne
  have hjoined := (hopen.kept hbegins).joinLine last
  rw [← closed_joined_kept h.begins] at hclosed
  rw [← kept_append_of_ne hne, needsMore_eq_false_iff.mpr hclosed] at hjoined
  obtain ⟨prompt, hafter⟩ := after_of_staysOpen machine hopen hbegins hfront
  rw [List.map_append, List.map_singleton, after_append_singleton, hafter,
    step_of_complete hfresh hentered hjoined]

end

end Shell

open Shell

/-- **A unit that is typed line by line** is run as the text of its lines that are not empty, and
shows what this shows on a session of its own, with a line that says why it could not go on if it
was cut off. If no line is empty, this is the text of all lines. -/
theorem shell_runs_typed_unit (immediate fatal styled : Bool) (path : String) (machine : Machine)
    {lines : List String} (h : Typed lines) :
    let fresh := Session.new (Console.new immediate fatal styled) path true
    let shell := (Shell.new fresh).after (lines.map fun line => (machine, line))
    let source := joined (kept lines)
    let run := fresh.run machine source
    shell.pending = "" ∧
      shell.session = (fresh.runWatched machine source).2 ∧
      (∀ status, run.1 = .ok status →
        shell.session.console.transcript = run.2.console.transcript) ∧
      ("" ∉ lines → source = joined lines) := by
  intro fresh shell source run
  have hfresh : fresh.Shells styled := shells_new immediate fatal styled path
  have hshell : shell = _ := h.after_eq hfresh machine
  refine ⟨congrArg Shell.pending hshell, congrArg Shell.session hshell, fun status hrun => ?_,
    fun hfull => congrArg joined (kept_eq_self hfull)⟩
  rw [hshell]
  have hend : endingOf run.1 = .completed := by
    rw [hrun]
    rfl
  change (run.2.console.conclude (endingOf run.1)).1.transcript = _
  rw [hend]
  rfl

/-- A block with an empty line in it is run without this line. -/
theorem shell_runs_typed_unit_of_block :
    let machine : Machine := { clock := fun _ => 0, rounds := 0 }
    let lines := ["\x7b", "", "print \"a\";", "\x7d"]
    let fresh := Session.new (Console.new true false false) Session.noFile true
    let shell := (Shell.new fresh).after (lines.map fun line => (machine, line))
    Typed lines ∧ shell.pending = "" ∧ shell.session.console.transcript = #[.printed "a"] := by
  intro machine lines fresh shell
  have htyped : Typed lines := by decide +kernel
  obtain ⟨hpending, hsession, -⟩ :=
    shell_runs_typed_unit true false false Session.noFile machine htyped
  have hrun : (fresh.runWatched machine (joined (kept lines))).2.console.transcript =
      #[.printed "a"] := by decide +kernel
  exact ⟨htyped, hpending, (congrArg (·.console.transcript) hsession).trans hrun⟩

/-- The unit is not run as the text of **all** lines: what fails below an empty line is told of one
line further up. -/
theorem not_shell_runs_all_typed_lines :
    ¬ ∀ (machine : Machine) (lines : List String) (status : Nat), Typed lines →
      let fresh := Session.new (Console.new true false false) Session.noFile true
      let whole := fresh.run machine (joined lines)
      whole.1 = .ok status →
        ((Shell.new fresh).after
            (lines.map fun line => (machine, line))).session.console.transcript =
          whole.2.console.transcript := by
  intro h
  let machine : Machine := { clock := fun _ => 0, rounds := 0 }
  let lines := ["\x7b", "", "print -nil;", "\x7d"]
  let fresh := Session.new (Console.new true false false) Session.noFile true
  have hstatus : (fresh.run machine (joined lines)).1 = .ok 70 := by
    have hsome : (fresh.run machine (joined lines)).1.toOption = some 70 := by decide +kernel
    rcases hrun : (fresh.run machine (joined lines)).1 with _ | status
    · rw [hrun] at hsome
      cases hsome
    · rw [hrun] at hsome
      cases hsome
      rfl
  have hsame := h machine lines 70 (by decide +kernel) hstatus
  have htyped : ((Shell.new fresh).after
      (lines.map fun line => (machine, line))).session.console.transcript =
        #[.shown "[line 2] runtime error at '-': Operand must be a number.\n"] := by decide +kernel
  have hwhole : (fresh.run machine (joined lines)).2.console.transcript =
      #[.shown "[line 3] runtime error at '-': Operand must be a number.\n"] := by decide +kernel
  rw [htyped, hwhole] at hsame
  exact absurd hsame (by decide +kernel)

end LoxLang
