import LoxLang.Proofs.Evaluation.Bounds
import LoxLang.Proofs.Evaluation.Steps
import LoxLang.Proofs.Sessions.Records

/-!
# How deeply a session may nest

A session runs its statements with a bound on the nested steps, which is up to the machine. Here two
bounds are compared on the same statements in the same session. If the smaller one is enough, the
larger one changes nothing. If it is not, the session says so, has recorded nothing and has printed
the beginning of what is printed with the larger one (`interpret_overflows_or_agrees`).
-/

namespace LoxLang

open Eval

/-- What is printed goes in front of all else that statements show. -/
theorem Console.printAll_prefix_ran (c : Console) {printed printed' : Array String}
    (h : printed.toList <+: printed'.toList) (result : Except Interrupt Unit) :
    (c.printAll printed).transcript.toList <+: (c.ran result printed').transcript.toList := by
  obtain ⟨others, h⟩ := h
  simp [Console.printAll, Console.ran, ← h]

namespace Session

variable (host : Host) (n : Nat) (statements : List Stmt) (s : Session)

/-- A session answers that its statements overflow exactly if they **do**. -/
theorem fst_interpret_eq_overflow :
    (s.interpret ⟨host, n⟩ statements).1 = .error .overflow ↔
      (executeAll host n statements).Overflows s.memory := by
  rw [interpret_eq, Overflows]
  rcases (executeAll host n statements).run s.memory with ⟨(_ | _ | _) | _, m⟩ <;> simp

/-- Statements that overflow leave nothing but what they have **printed** on the console. -/
theorem console_of_overflows (h : (executeAll host n statements).Overflows s.memory) :
    (s.interpret ⟨host, n⟩ statements).2.console =
      s.console.printAll ((executeAll host n statements).run s.memory).2.printed := by
  rw [Overflows] at h
  rw [interpret_eq, h, Console.ran_eq]

end Session

/-- **An overflow is no result, and more nesting changes no answer.** With more nested steps, the
same statements in the same session give the same answer and the same session, unless they overflow.
If they do, this is what the session answers; it has recorded nothing, and what it has printed is
the beginning of what it prints with more. And statements overflow exactly if one of them takes a
step where nothing may nest any more, with whatever calls, blocks and loops around it. -/
theorem interpret_overflows_or_agrees (host : Host) (d more : Nat) (statements : List Stmt)
    (session : Session) :
    let before := session.interpret ⟨host, d⟩ statements
    let later := session.interpret ⟨host, d + more⟩ statements
    let printed (n : Nat) := ((executeAll host n statements).run session.memory).2.printed
    (before.1 ≠ .error .overflow → later = before) ∧
    (before.1 = .error .overflow →
      before.2.console = session.console.printAll (printed d) ∧
        (printed d).toList <+: (printed (d + more)).toList ∧
        before.2.console.transcript.toList <+: later.2.console.transcript.toList) ∧
    (before.1 = .error .overflow ↔
      ∃ front s behind m', statements = front ++ s :: behind ∧
        (executeAll host d front).run session.memory = (.ok (), m') ∧
        ∃ t m, Step.Takes host d (.statement s) m' 0 t m) := by
  intro before later printed
  have hcontinues := executeAll_deeper host (Nat.le_add_right d more) statements
  have hoverflow := Session.fst_interpret_eq_overflow host d statements session
  refine ⟨fun h => ?_, fun h => ?_, ?_⟩
  · have hrun : (executeAll host (d + more) statements).run session.memory =
        (executeAll host d statements).run session.memory :=
      hcontinues.run_eq_of_ne_overflow fun ho => h (hoverflow.mpr ho)
    change session.interpret ⟨host, d + more⟩ statements = _
    rw [Session.interpret_eq, hrun]
    exact (Session.interpret_eq ⟨host, d⟩ session statements).symm
  · have hprefix : (printed d).toList <+: (printed (d + more)).toList := by
      rcases hcontinues.runs session.memory with heq | ⟨-, hprinted⟩
      · exact (congrArg (·.2.printed.toList) heq).symm ▸ List.prefix_refl _
      · exact hprinted
    have hconsole := Session.console_of_overflows host d statements session (hoverflow.mp h)
    refine ⟨hconsole, hprefix, ?_⟩
    change (session.interpret ⟨host, d⟩ statements).2.console.transcript.toList <+:
      (session.interpret ⟨host, d + more⟩ statements).2.console.transcript.toList
    rw [hconsole, Session.interpret_eq]
    exact session.console.printAll_prefix_ran hprefix _
  · refine hoverflow.trans (overflows_forM.trans ?_)
    simp only [← Step.overflows_iff_takes]
    rfl

end LoxLang
