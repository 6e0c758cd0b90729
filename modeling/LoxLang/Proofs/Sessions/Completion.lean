import LoxLang.Proofs.Sessions.Typing
import LoxLang.Proofs.Syntax.Brackets

/-!
# Complete programs

There are two notions of a text that is complete: that it is a program, and that it leaves no
bracket open. A program is **complete in both**, since its brackets are properly nested, and so a
line that ends a program asks for no other line (`complete_program_never_waits`).

A program that is taken line by line may still leave something pending. Whether anything is open is
only asked of the lines so far, and these may end in a string that goes on: then they are run as
they are, and what follows is no longer in the string.
-/

namespace LoxLang

open Session

/-- The text ends **inside a string**. -/
def EndsInString (source : String) : Prop :=
  ∃ f ∈ (scan source).faults, f.error = .unterminatedString

instance (source : String) : Decidable (EndsInString source) := List.decidableBEx _ _

/-- The kinds of the tokens of a text, without the end token. -/
def kindsOf (source : String) : List TokenKind := (Parse.body (scan source).tokens).map Token.kind

/-- The brackets of a text are **balanced**, those of each kind. -/
def BalancedText (source : String) : Prop :=
  ∀ pair ∈ bracketPairs, Balanced pair.1 pair.2 (kindsOf source)

/-! ### Texts and their kinds -/

theorem kindsOf_eq {source : String} {ps : List Piece} (h : Cutting source.toList ps) :
    kindsOf source = ps.filterMap Piece.kind? := by
  rw [kindsOf, body_scan, List.map_dropLast, map_kind_tokens h, List.dropLast_concat]

theorem map_kind_tokens_eq_kindsOf (source : String) :
    (scan source).tokens.map Token.kind = kindsOf source ++ [.eof] := by
  obtain ⟨ps, hps⟩ := exists_cutting source.toList
  rw [kindsOf_eq hps, map_kind_tokens hps]

/-- A text that does not end inside a string has no string without end. -/
theorem closed_of_not_endsInString {source : String} {ps : List Piece}
    (h : Cutting source.toList ps) (hstring : ¬ EndsInString source) :
    ∀ p ∈ ps, p.form ≠ .unclosed := by
  intro p hp hform
  rw [← map_toPiece_place 1 ps] at hp
  obtain ⟨placed, hplaced, rfl⟩ := List.mem_map.mp hp
  refine hstring ⟨⟨placed.line, .unterminatedString⟩, ?_, rfl⟩
  rw [scan_eq_of_cutting h]
  exact List.mem_filterMap.mpr ⟨placed, hplaced, by rw [PlacedPiece.fault?, hform]⟩

/-- Behind a text that does not end inside a string, a line feed **separates** the tokens. -/
theorem kindsOf_append_newline {a : String} (h : ¬ EndsInString a) (b : String) :
    kindsOf (a ++ "\n" ++ b) = kindsOf a ++ kindsOf b := by
  obtain ⟨ps, hps⟩ := exists_cutting a.toList
  obtain ⟨qs, hqs⟩ := exists_cutting b.toList
  have htext : (a ++ "\n" ++ b).toList = a.toList ++ '\n' :: b.toList := by simp
  have hcutting : Cutting (a ++ "\n" ++ b).toList (ps ++ ⟨.blank, ['\n']⟩ :: qs) :=
    htext ▸ hps.append_newline (closed_of_not_endsInString hps h) hqs
  rw [kindsOf_eq hcutting, kindsOf_eq hps, kindsOf_eq hqs, List.filterMap_append]
  rfl

/-- Nothing is left open exactly if no kind of brackets opens more than it closes. -/
theorem closed_iff {source : String} :
    Shell.Closed source ↔ ∀ pair ∈ bracketPairs,
      (kindsOf source).count pair.1 ≤ (kindsOf source).count pair.2 := by
  have hcount : ∀ kind, kind ≠ .eof →
      countKind kind (scan source).tokens = (kindsOf source).count kind := by
    intro kind hkind
    rw [Shell.countKind_eq_countP, map_kind_tokens_eq_kindsOf, List.countP_append,
      List.countP_singleton, if_neg (by simpa using hkind.symm), Nat.add_zero, List.count]
    exact List.countP_congr fun other _ => by simp
  simp [Shell.Closed, bracketPairs, hcount]

theorem BalancedText.closed {source : String} (h : BalancedText source) : Shell.Closed source :=
  closed_iff.mpr fun pair hpair => Nat.le_of_eq (h pair hpair).count.symm

/-- Behind lines in which nothing is open, the other lines are balanced. -/
theorem BalancedText.of_append_newline {a b : String} (h : BalancedText (a ++ "\n" ++ b))
    (hstring : ¬ EndsInString a) (hclosed : Shell.Closed a) : BalancedText b := by
  intro pair hpair
  have hall := h pair hpair
  rw [kindsOf_append_newline hstring] at hall
  exact hall.of_append (closed_iff.mp hclosed pair hpair)

/-- The text of a program is **balanced**. -/
theorem balancedText_of_program {source : String} (h : (Parse.ofSource source).diagnostics = []) :
    BalancedText source := by
  have hparse := (List.append_eq_nil_iff.mp h).2
  exact fun pair hpair => (program_of_diagnostics_eq_nil hparse).bracketed.balanced hpair

namespace Shell

/-! ### Lines -/

/-- A line is **taken**: it completes a unit with what is pending, or is pending with it. -/
def take (line : String) : List String × String → List String × String
  | (units, pending) =>
    match joinLine line pending with
    | (joined, true) => (units, joined)
    | (source, false) => (units ++ [source], "")

/-- The texts of the **units** that lines complete, taken one after the other, and the text that is
pending behind them. -/
def taken (lines : List String) : List String × String :=
  lines.foldl (fun state line => take line state) ([], "")

theorem take_of_units {lines rest : List String} {units : List (List String)}
    (h : Units lines units rest) (line : String) :
    ∃ units' rest', Units (lines ++ [line]) units' rest' ∧
      take line (units.map joined, joined rest) = (units'.map joined, joined rest') := by
  have hjoined := h.staysOpen.joinLine line
  by_cases hclosed : Closed (joined (rest ++ [line]))
  · rw [needsMore_eq_false_iff.mpr hclosed] at hjoined
    refine ⟨_, _, h.append_complete hclosed, ?_⟩
    simp [take, hjoined, joined_nil]
  · rw [needsMore_eq_true_iff.mpr hclosed] at hjoined
    refine ⟨_, _, h.append_open hclosed, ?_⟩
    simp [take, hjoined]

/-- What is taken are the units of the lines and the lines that are left over. -/
theorem exists_units_taken (lines : List String) :
    ∃ units rest, Units lines units rest ∧ taken lines = (units.map joined, joined rest) := by
  induction lines using List.reverseRecOn with
  | nil => exact ⟨[], [], ⟨rfl, nofun, staysOpen_nil⟩, by rw [joined_nil]; rfl⟩
  | append_singleton lines line ih =>
    obtain ⟨units, rest, hunits, htaken⟩ := ih
    obtain ⟨units', rest', hunits', htake⟩ := take_of_units hunits line
    refine ⟨units', rest', hunits', ?_⟩
    rw [taken, List.foldl_append, ← taken, htaken]
    exact htake

/-- The shell **takes** the lines that are entered. -/
theorem taken_linesEntered {styled : Bool} {fresh : Session} (h : fresh.Shells styled)
    (history : List (Machine × String)) :
    taken (linesEntered history) =
      (unitsRun history (new fresh), ((new fresh).after history).pending) := by
  obtain ⟨units, rest, hunits, htaken⟩ := exists_units_taken (linesEntered history)
  obtain ⟨-, -, units', rest', hunits', hran, hpending⟩ := accounts_after h history
  obtain ⟨rfl, rfl⟩ := hunits.unique hunits'
  rw [htaken, hran, hpending]

/-- From balanced lines nothing is **left over**, unless a unit ends inside a string. -/
theorem Units.rest_eq_nil {lines rest : List String} {units : List (List String)}
    (h : Units lines units rest) (hstrings : ∀ unit ∈ units, ¬ EndsInString (joined unit))
    (hbalanced : BalancedText (joined lines)) : rest = [] := by
  induction units generalizing lines with
  | nil =>
    obtain rfl : lines = rest := h.eq_append
    by_contra hne
    exact h.staysOpen lines (List.prefix_refl _) hne hbalanced.closed
  | cons unit units ih =>
    obtain ⟨hunit, behind, rfl, hbehind⟩ := h.of_cons
    obtain ⟨hstring, hstrings⟩ := List.forall_mem_cons.mp hstrings
    by_cases hnil : behind = []
    · exact (List.append_eq_nil_iff.mp (hbehind.eq_append.symm.trans hnil)).2
    · rw [joined_append hunit.ne_nil hnil] at hbalanced
      obtain ⟨front, last, -, -, hclosed⟩ := id hunit
      exact ih hbehind hstrings (hbalanced.of_append_newline hstring hclosed)

end Shell

open Shell

/-- **A complete program never waits** for another line. The braces and the parentheses of its
tokens are balanced, so that it is run when its last line is joined to the others. If it is taken
line by line, nothing is pending behind its last line, unless a unit on the way ends inside a
string; and so it is with the lines that are entered into a shell. -/
theorem complete_program_never_waits {source : String}
    (h : (Parse.ofSource source).diagnostics = []) :
    (∀ pair ∈ bracketPairs,
        Balanced pair.1 pair.2 ((scan source).tokens.map Token.kind)) ∧
      joinLine source "" = (source, false) ∧
      (∀ front last, joined (front ++ [last]) = source → joined front ≠ "" →
        joinLine last (joined front) = (source, false)) ∧
      (∀ lines, joined lines = source → (∀ unit ∈ (taken lines).1, ¬ EndsInString unit) →
        (taken lines).2 = "") ∧
      ∀ immediate fatal styled path history,
        let fresh := Session.new (Console.new immediate fatal styled) path true
        let shell := (Shell.new fresh).after history
        joined (linesEntered history) = source →
          (∀ unit ∈ unitsRun history (Shell.new fresh), ¬ EndsInString unit) →
          shell.pending = "" ∧ shell.prompt = "> " := by
  have hbalanced := balancedText_of_program h
  have hcomplete : needsMore source = false := needsMore_eq_false_iff.mpr hbalanced.closed
  have htaken : ∀ lines, joined lines = source →
      (∀ unit ∈ (taken lines).1, ¬ EndsInString unit) → (taken lines).2 = "" := by
    intro lines hlines hstrings
    obtain ⟨units, rest, hunits, heq⟩ := exists_units_taken lines
    rw [heq] at hstrings ⊢
    have hunit : ∀ unit ∈ units, ¬ EndsInString (joined unit) :=
      fun unit hmem => hstrings _ (List.mem_map_of_mem hmem)
    obtain rfl := hunits.rest_eq_nil hunit (hlines ▸ hbalanced)
    exact joined_nil
  refine ⟨fun pair hpair => ?_, ?_, fun front last hsource hne => ?_, htaken, ?_⟩
  · have hend : ∀ pair ∈ bracketPairs, TokenKind.eof ≠ pair.1 ∧ TokenKind.eof ≠ pair.2 := by decide
    rw [map_kind_tokens_eq_kindsOf]
    exact (hbalanced pair hpair).append (.singleton (hend pair hpair).1 (hend pair hpair).2)
  · exact congrArg (Prod.mk source) hcomplete
  · have hfront : front ≠ [] := by
      rintro rfl
      exact hne joined_nil
    have hlast : joined [last] = last := String.intercalate_singleton
    rw [joined_append hfront (List.cons_ne_nil _ _), hlast] at hsource
    rw [joinLine, if_neg (by simpa using hne), hsource, hcomplete]
  · intro immediate fatal styled path history fresh shell hlines hstrings
    have hfresh : fresh.Shells styled := shells_new immediate fatal styled path
    have hall := taken_linesEntered hfresh history
    have hpending : shell.pending = "" := by
      have hnone := htaken _ hlines (by rwa [hall])
      rwa [hall] at hnone
    exact ⟨hpending, (accounts_after hfresh history).inStep.trans (if_pos hpending)⟩

/-- A function over several lines, with a brace in a string: the first two lines ask for more, and
the last one does not. -/
theorem complete_program_never_waits_of_function :
    let lines := ["fun f(a) \x7b", "print a + \"\x7d\";", "\x7d f(1);"]
    (Parse.ofSource (joined lines)).diagnostics = [] ∧
      joinLine (joined lines) "" = (joined lines, false) ∧
      taken lines = ([joined lines], "") := by
  intro lines
  have hnone : (Parse.ofSource (joined lines)).diagnostics = [] := by decide +kernel
  obtain ⟨-, hwhole, -, hlines, -⟩ := complete_program_never_waits hnone
  have hunits : (taken lines).1 = [joined lines] := by decide +kernel
  have hstrings : ∀ unit ∈ (taken lines).1, ¬ EndsInString unit := by
    rw [hunits]
    decide +kernel
  exact ⟨hnone, hwhole, Prod.ext hunits (hlines lines rfl hstrings)⟩

/-- A program of **two lines** that a string goes over. The first line is run as it is, since it
leaves no bracket open, and the brace in the second one is not in a string any more: the shell is
left with this line pending. -/
theorem not_complete_program_never_waits_line_by_line :
    let machine : Machine := { clock := fun _ => 0, rounds := 0 }
    let lines := ["print \"a", "\x7b\";"]
    let fresh := Session.new (Console.new true false false) Session.noFile true
    let shell := (Shell.new fresh).after (lines.map fun line => (machine, line))
    (Parse.ofSource (joined lines)).diagnostics = [] ∧
      linesEntered (lines.map fun line => (machine, line)) = lines ∧
      taken lines = (["print \"a"], "\x7b\";") ∧
      shell.pending = "\x7b\";" ∧ shell.prompt = ". " := by
  intro machine lines fresh shell
  have hnone : (Parse.ofSource (joined lines)).diagnostics = [] := by decide +kernel
  have hentered : linesEntered (lines.map fun line => (machine, line)) = lines := by
    decide +kernel
  have htaken : taken lines = (["print \"a"], "\x7b\";") := by decide +kernel
  have hfresh : fresh.Shells false := shells_new true false false Session.noFile
  have hall := taken_linesEntered hfresh (lines.map fun line => (machine, line))
  rw [hentered, htaken] at hall
  have hpending : shell.pending = "\x7b\";" := (Prod.ext_iff.mp hall).2.symm
  have hprompt : shell.prompt = ". " :=
    (accounts_after hfresh _).inStep.prompt_eq_iff.mpr (by rw [hpending]; decide)
  exact ⟨hnone, hentered, htaken, hpending, hprompt⟩

end LoxLang
