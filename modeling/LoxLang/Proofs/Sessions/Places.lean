import LoxLang.Proofs.Evaluation.Blame
import LoxLang.Proofs.Sessions.Outcome
import LoxLang.Proofs.Syntax.Concatenation
import LoxLang.Proofs.Syntax.Ends

/-!
# Where diagnostics point

Every diagnostic of a text **points into the text**. What scanning finds has a line and no token.
What parsing finds points at a token, which may be the end token, and what is found while the
program runs points at a token of one of its statements: a token that is blamed was put into a tree
by the parser, and the parser took it from those that were scanned (`diagnostics_point_into_text`).
-/

namespace LoxLang

variable {source : String}

/-! ### Lines -/

/-- Pieces are placed on the lines of their text. -/
theorem line_of_mem_place {line : Nat} {ps : List Piece} {p : PlacedPiece}
    (hp : p ∈ place line ps) :
    line ≤ p.line ∧ p.line ≤ line + (ps.flatMap Piece.text).count '\n' := by
  induction ps generalizing line with
  | nil => exact absurd hp List.not_mem_nil
  | cons q ps ih =>
    rw [List.flatMap_cons, List.count_append]
    rcases List.mem_cons.mp hp with rfl | hp
    · change line ≤ q.lineAfter line ∧ q.lineAfter line ≤ _
      rw [Piece.lineAfter]
      omega
    · have hline := ih hp
      rw [Piece.lineAfter] at hline
      omega

/-- The line is one of the **lines** of a text. -/
def IsLineOf (source : String) (line : Int) : Prop :=
  1 ≤ line ∧ line ≤ 1 + (source.toList.count '\n' : Nat)

theorem isLineOf_of_mem_place {ps : List Piece} (h : Cutting source.toList ps) {p : PlacedPiece}
    (hp : p ∈ place 1 ps) : IsLineOf source p.line := by
  have hline := line_of_mem_place hp
  rw [h.flatMap_text] at hline
  rw [IsLineOf]
  omega

/-- A **fault** is on a line of the text. -/
theorem isLineOf_of_mem_faults {f : LexicalFault} (hf : f ∈ (scan source).faults) :
    IsLineOf source f.line := by
  obtain ⟨ps, hps⟩ := exists_cutting source.toList
  rw [scan_eq_of_cutting hps] at hf
  obtain ⟨p, hp, hfault⟩ := List.mem_filterMap.mp hf
  have hline : f.line = p.line := by
    rw [PlacedPiece.fault?] at hfault
    split at hfault
    · obtain ⟨c, -, rfl⟩ := Option.map_eq_some_iff.mp hfault
      rfl
    · cases hfault
      rfl
    · cases hfault
  rw [hline]
  exact isLineOf_of_mem_place hps hp

/-- A **token** is on a line of the text. -/
theorem isLineOf_of_mem_tokens {t : Token} (ht : t ∈ (scan source).tokens) :
    IsLineOf source t.line := by
  obtain ⟨ps, hps⟩ := exists_cutting source.toList
  rw [scan_eq_of_cutting hps] at ht
  rcases List.mem_append.mp ht with ht | ht
  · obtain ⟨p, hp, htoken⟩ := List.mem_filterMap.mp ht
    have hline : t.line = p.line := by
      rw [PlacedPiece.token?] at htoken
      split at htoken
      · cases htoken
        rfl
      · cases htoken
    rw [hline]
    exact isLineOf_of_mem_place hps hp
  · rw [List.mem_singleton.mp ht]
    change IsLineOf source (1 + source.toList.count '\n' : Nat)
    rw [IsLineOf]
    omega

/-! ### Tokens -/

/-- The diagnostic **points at** a token: it has its line and its text. -/
def Diagnostic.PointsAt (d : Diagnostic) (t : Token) : Prop :=
  d.line = t.line ∧ d.place = " at '" ++ t.lexeme ++ "'"

theorem Diagnostic.pointsAt_atToken {t : Token} (h : t.kind ≠ .eof) (severity : Severity)
    (message : String) : (atToken severity t message).PointsAt t :=
  ⟨rfl, if_neg h⟩

/-- A **syntax error** points at a token, or at the end of the text. -/
theorem exists_token_of_mem_diagnostics {d : Diagnostic}
    (hd : d ∈ (Parse.ofTokens (scan source).tokens).diagnostics) :
    ∃ t ∈ (scan source).tokens, d.line = t.line ∧
      (t.kind = .eof ∧ d.place = " at end" ∨ t.kind ≠ .eof ∧ d.PointsAt t) := by
  have hend : ∃ t ∈ (scan source).tokens, t.kind = .eof :=
    ⟨_, List.mem_append_right _ (List.mem_singleton_self _), rfl⟩
  obtain ⟨i, t, e, -, ht, rfl⟩ := Parse.exists_blamed hend hd
  refine ⟨t, List.mem_of_getElem? ht, rfl, ?_⟩
  by_cases hkind : t.kind = .eof
  · exact .inl ⟨hkind, if_pos hkind⟩
  · exact .inr ⟨hkind, Diagnostic.pointsAt_atToken hkind _ _⟩

/-- The record of why statements were stopped is at the token that is to blame. -/
theorem Session.exists_blamed_of_mem_stopped? {result : Except Interrupt Unit} {d : Diagnostic}
    (hd : d ∈ stopped? result) : ∃ i t severity message,
      result = .error i ∧ t ∈ i.token? ∧ d = .atToken severity t message := by
  rcases result with (e | ⟨keyword, v⟩ | _) | _ <;> cases hd
  · exact ⟨_, e.token, _, _, rfl, rfl, rfl⟩
  · exact ⟨_, keyword, _, _, rfl, rfl, rfl⟩

/-- Why a **program was stopped** points at a token of one of its statements. -/
theorem exists_token_of_mem_stopped? {machine : Machine} {d : Diagnostic}
    (hd : d ∈ Session.stopped? (Session.freshRun machine source).1) :
    ∃ s ∈ (Parse.ofSource source).statements, ∃ t ∈ s.tokens,
      t ∈ (scan source).tokens ∧ t.kind ≠ .eof ∧ d.PointsAt t := by
  obtain ⟨i, t, severity, message, hi, ht, rfl⟩ := Session.exists_blamed_of_mem_stopped? hd
  obtain ⟨s, hs, hts⟩ := blamed_by_program machine.toHost machine.nesting _ hi t ht
  have hbody := parse_tokens (scan source).tokens s hs t hts
  have hkind := Parse.kind_ne_eof_of_mem_body hbody
  have hscanned : t ∈ (scan source).tokens := (List.takeWhile_sublist _).subset hbody
  exact ⟨s, hs, t, hts, hscanned, hkind, Diagnostic.pointsAt_atToken hkind _ _⟩

/-- **Diagnostics point into the text.** The records of a script session that was not used before,
behind the run of a text, are the faults of the text, then its syntax errors, and then at most one
that tells why the program was stopped.

- All of them are on lines of the text.
- The faults, and nothing else, have no place.
- A syntax error points at a token of the text with its line, or it is at the end, on the line of
  the end token.
- What stopped the program, be it a runtime error or a warning, points at a token of the text with
  its line, and this token is one of a statement of the program. -/
theorem diagnostics_point_into_text (machine : Machine) (immediate fatal styled : Bool)
    (path source : String) :
    let run := (Session.new (Console.new immediate fatal styled) path false).run machine source
    let records := run.2.console.records.toList
    let tokens := (scan source).tokens
    let lexical := (scan source).faults.map LexicalFault.diagnostic
    let syntactic := (Parse.ofTokens tokens).diagnostics
    ∃ dynamic : Option Diagnostic,
      records = lexical ++ syntactic ++ dynamic.toList ∧
      (∀ d ∈ records, IsLineOf source d.line) ∧
      (∀ d ∈ lexical, d.place = "") ∧
      (∀ d ∈ syntactic, ∃ t ∈ tokens, d.line = t.line ∧
        (t.kind = .eof ∧ d.place = " at end" ∨ t.kind ≠ .eof ∧ d.PointsAt t)) ∧
      ∀ d ∈ dynamic, (d.severity = .runtime ∨ d.severity = .warning) ∧
        ∃ s ∈ (Parse.ofTokens tokens).statements, ∃ t ∈ s.tokens,
          t ∈ tokens ∧ t.kind ≠ .eof ∧ d.PointsAt t := by
  intro run records tokens lexical syntactic
  have hconsole : run.2.console = _ :=
    (congrArg (·.2.console) (Session.run_new machine immediate fatal styled path source)).trans
      (Session.console_unitEnd_new machine immediate fatal styled path source)
  have hrecords : records = lexical ++ syntactic ++
      (Session.stopped? (Session.freshRun machine source).1).toList :=
    congrArg (·.records.toList) hconsole
  have hsyntactic : ∀ d ∈ syntactic, _ := fun d => exists_token_of_mem_diagnostics
  have hdynamic : ∀ d ∈ Session.stopped? (Session.freshRun machine source).1, _ :=
    fun d => exists_token_of_mem_stopped?
  refine ⟨_, hrecords, fun d hd => ?_, ?_, hsyntactic, fun d hd => ⟨?_, hdynamic d hd⟩⟩
  · rw [hrecords] at hd
    rcases List.mem_append.mp hd with hd | hd
    · rcases List.mem_append.mp hd with hd | hd
      · obtain ⟨f, hf, rfl⟩ := List.mem_map.mp hd
        exact isLineOf_of_mem_faults hf
      · obtain ⟨t, ht, hline, -⟩ := hsyntactic d hd
        exact hline ▸ isLineOf_of_mem_tokens ht
    · obtain ⟨s, -, t, -, ht, -, hline, -⟩ := hdynamic d (Option.mem_toList.mp hd)
      exact hline ▸ isLineOf_of_mem_tokens ht
  · rintro d hd
    obtain ⟨f, -, rfl⟩ := List.mem_map.mp hd
    rfl
  · rw [Session.severity_of_stopped? hd]
    split <;> simp

end LoxLang
