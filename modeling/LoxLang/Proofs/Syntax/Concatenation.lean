import LoxLang.Proofs.Lexemes.Concatenation
import LoxLang.Proofs.Syntax.Shift

/-!
# Programs behind each other

Two correct programs with a line feed between them are **one** correct program, which says what the
first says and then what the second says. Both halves of this rest on what a text is and not on how
it is read: the cutting of the text falls apart at the line feed (`scan_append_newline`), and a
derivation of the first program goes on with the declarations of the second, since every declaration
is complete in itself (`Grammar.Program.append`).
-/

namespace LoxLang

open Grammar

/-! ### Tokens -/

/-- No lexeme is an end token. -/
theorem Lexeme.kind_ne_eof {kind : TokenKind} {text : List Char} (h : Lexeme kind text) :
    kind ≠ .eof := by
  cases h with
  | symbol h =>
    have hall : ∀ p ∈ symbols, p.2 ≠ .eof := by decide
    exact hall _ h
  | _ => nofun

/-- The only end token of a text is the **last** token. -/
theorem body_scan (source : String) :
    Parse.body (scan source).tokens = (scan source).tokens.dropLast := by
  obtain ⟨ps, hps⟩ := exists_cutting source.toList
  have hkinds : ∀ t ∈ (place 1 ps).filterMap PlacedPiece.token?, t.kind ≠ .eof := by
    intro t ht
    obtain ⟨text, htext, -⟩ := exists_lexeme_of_mem hps ht
    exact htext.kind_ne_eof
  rw [scan_eq_of_cutting hps, Parse.body_append_cons hkinds rfl, List.dropLast_concat]

/-- Tokens further down, without the end token among them. -/
theorem dropLast_append_map_lower (ts us : List Token) (hus : us ≠ []) (n : Nat) :
    (ts ++ us.map (Token.lower n)).dropLast = ts ++ us.dropLast.map (Token.lower n) := by
  rw [List.dropLast_append_of_ne_nil (by simpa using hus), List.map_dropLast]

/-! ### Programs -/

/-- Tokens that are parsed without a diagnostic are a **program**. -/
theorem program_of_diagnostics_eq_nil {tokens : List Token}
    (h : (Parse.ofTokens tokens).diagnostics = []) :
    Program (Parse.body tokens) (Parse.ofTokens tokens).statements := by
  rw [Parse.diagnostics_ofTokens, List.map_eq_nil_iff] at h
  obtain ⟨program, hreads⟩ := Rule.reads_program_of_faults_eq_nil h
  have hprogram := Rule.reads_program_iff.mp hreads
  rwa [Parse.ofTokens_eq hreads]

/-- A program is parsed without a diagnostic. -/
theorem ofTokens_of_program {tokens : List Token} {program : List Stmt}
    (h : Program (Parse.body tokens) program) : Parse.ofTokens tokens = ⟨program, []⟩ :=
  Parse.ofTokens_eq (Rule.reads_program_iff.mpr h)

/-- **Two correct programs** with a line feed between them are one correct program. Its tokens are
those of the first without the end token and then those of the second, and its statements those of
the first and then those of the second; and all that comes from the second program stands further
down, by one line and one more for each line feed in the first. Parsing it leaves no record. -/
theorem parse_append_newline (a b : String) (ha : (Parse.ofSource a).diagnostics = [])
    (hb : (Parse.ofSource b).diagnostics = []) :
    let lower := Token.lower (1 + a.toList.count '\n')
    let statements := (Parse.ofSource a).statements ++
      (Parse.ofSource b).statements.map (Stmt.mapTokens lower)
    (scan (a ++ "\n" ++ b)).tokens =
        (scan a).tokens.dropLast ++ (scan b).tokens.map lower ∧
      Parse.ofSource (a ++ "\n" ++ b) = ⟨statements, []⟩ ∧
      ∀ s : Session, s.parse (a ++ "\n" ++ b) = (statements, s) := by
  intro lower statements
  obtain ⟨hfaultsA, hparseA⟩ := List.append_eq_nil_iff.mp ha
  obtain ⟨hfaultsB, hparseB⟩ := List.append_eq_nil_iff.mp hb
  obtain ⟨htokens, hfaults⟩ := scan_append_newline (List.map_eq_nil_iff.mp hfaultsA) b
  have hprogramB := (program_of_diagnostics_eq_nil hparseB).mapTokens
    (f := lower) (fun _ => rfl) (fun _ => rfl)
  have hprogram := (program_of_diagnostics_eq_nil hparseA).append hprogramB
  have hne : (scan b).tokens ≠ [] := List.append_ne_nil_of_right_ne_nil _ (List.cons_ne_nil _ _)
  have hbody : Parse.body (scan (a ++ "\n" ++ b)).tokens =
      Parse.body (scan a).tokens ++ (Parse.body (scan b).tokens).map lower := by
    rw [body_scan, htokens, dropLast_append_map_lower _ _ hne, body_scan, body_scan]
  have hparse : Parse.ofSource (a ++ "\n" ++ b) = ⟨statements, []⟩ := by
    rw [Parse.ofSource, ofTokens_of_program (hbody ▸ hprogram),
      hfaults (List.map_eq_nil_iff.mp hfaultsB)]
    rfl
  refine ⟨htokens, hparse, fun s => ?_⟩
  rw [Session.parse, hparse]
  rfl

/-- An `if` without an `else`, and a comment behind it that the line feed ends. -/
theorem parse_append_newline_of_branch :
    let a := "if (a) { b(); } // no else"
    let b := "{ f(x); }"
    let lower := Token.lower (1 + a.toList.count '\n')
    (Parse.ofSource a).diagnostics = [] ∧ (Parse.ofSource b).diagnostics = [] ∧
      Parse.ofSource (a ++ "\n" ++ b) =
        ⟨(Parse.ofSource a).statements ++
          (Parse.ofSource b).statements.map (Stmt.mapTokens lower), []⟩ := by
  intro a b lower
  have ha : (Parse.ofSource a).diagnostics = [] := by decide +kernel
  have hb : (Parse.ofSource b).diagnostics = [] := by decide +kernel
  exact ⟨ha, hb, (parse_append_newline a b ha hb).2.1⟩

end LoxLang
