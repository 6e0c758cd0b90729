import LoxLang.Proofs.Syntax.Completeness
import LoxLang.Proofs.Syntax.Following

/-!
# The parser recognizes the grammar

A token list is parsed without a diagnostic exactly if the tokens in front of its first end token
derive a program, and then the program is what the parser answers. Since the parser gives one
answer, the grammar is unambiguous on whole programs.

Malformed declarations are dropped wherever they stand, also inside blocks that stay. What is left
is a program: without the tokens that the dropped declarations took, and those that recovery skipped
behind them, the token list parses without a diagnostic, and to the same statements.
-/

namespace LoxLang

open Grammar

namespace Rule

/-- The rule for programs **reads** what derives as a program, and nothing else. -/
theorem reads_program_iff {ts : List Token} {ss : List Stmt} :
    Reads program ts ss [] ↔ Program ts ss := by
  constructor
  · intro hreads
    obtain ⟨kept, hkeeps, hprogram⟩ := program_sound hreads
    rwa [hkeeps.eq_append, List.append_nil]
  · rintro ⟨pieces, hpieces, rfl, rfl⟩
    have hlength : (pieces.flatMap Prod.fst ++ []).length ≤ (pieces.flatMap Prod.fst).length :=
      Nat.le_of_eq (by rw [List.append_nil])
    have hstop : ∀ (t : Token) ts, t.kind ∉ closesStatement → ¬ List.isEmpty (t :: ts) = true :=
      fun t ts _ hempty => by cases hempty
    -- Behind a program there is no token, and so no `else`.
    have helse : ∀ t ∈ ([] : List Token).head?, t.kind ≠ .keyword .else_ :=
      fun t ht => by cases ht
    have hreads := declarations_complete (declaration_complete (pieces.flatMap Prod.fst).length)
      hstop hpieces rfl helse hlength
    rwa [List.append_nil] at hreads

/-- Without faults, the rule for programs reads to the end of the tokens. -/
theorem reads_program_of_faults_eq_nil {ts : List Token} (h : (program ts).faults = []) :
    ∃ ss, Reads program ts ss [] := by
  obtain ⟨faults, ss, hanswers⟩ := answers_program ts
  rw [hanswers] at h
  obtain rfl : faults = [] := h
  exact ⟨ss, hanswers⟩

end Rule

/-- **The parser recognizes the grammar**: a token list is parsed without a diagnostic if and only
if the tokens in front of its first end token derive a program, and the statements it is parsed to
are then the tree of every such derivation. -/
theorem parse_recognizes_grammar (tokens : List Token) :
    ((Parse.ofTokens tokens).diagnostics = [] ↔
        ∃ program, Program (Parse.body tokens) program) ∧
      ∀ program, Program (Parse.body tokens) program →
        (Parse.ofTokens tokens).statements = program := by
  have hreads : ∀ program, Program (Parse.body tokens) program →
      Rule.program (Parse.body tokens) = ⟨[], .ok (program, [])⟩ :=
    fun _ hprogram => Rule.reads_program_iff.mpr hprogram
  refine ⟨⟨fun hnone => ?_, ?_⟩, fun program hprogram => ?_⟩
  · rw [Parse.diagnostics_ofTokens] at hnone
    have hfaults : (Rule.program (Parse.body tokens)).faults = [] := List.map_eq_nil_iff.mp hnone
    obtain ⟨program, hprogram⟩ := Rule.reads_program_of_faults_eq_nil hfaults
    exact ⟨program, Rule.reads_program_iff.mp hprogram⟩
  · rintro ⟨program, hprogram⟩
    rw [Parse.ofTokens_eq (hreads program hprogram), List.map_nil]
  · rw [Parse.ofTokens_eq (hreads program hprogram)]

/-! ### What survives recovery -/

/-- **What survives recovery is a program of the tokens themselves**: some of the tokens in front of
the first end token, in their order, derive the statements that the parser answers, and are parsed
to them without a diagnostic. -/
theorem parse_survivors_parse (tokens : List Token) :
    ∃ kept, kept.Sublist (Parse.body tokens) ∧
      Program kept (Parse.ofTokens tokens).statements ∧
      Parse.ofTokens (kept ++ [Parse.ending tokens]) =
        { statements := (Parse.ofTokens tokens).statements, diagnostics := [] } := by
  obtain ⟨faults, ss, hanswers⟩ := Rule.answers_program (Parse.body tokens)
  obtain ⟨kept, hkeeps, hprogram⟩ := Rule.program_sound hanswers
  have hfront : ∀ t ∈ kept, t.kind ≠ .eof :=
    fun t ht => Parse.kind_ne_eof_of_mem_body (hkeeps.sublist.subset ht)
  rw [Parse.ofTokens_eq hanswers]
  exact ⟨kept, hkeeps.sublist, hprogram,
    Parse.ofTokens_append_singleton hfront (Parse.kind_ending tokens)
      (Rule.reads_program_iff.mpr hprogram)⟩

end LoxLang
