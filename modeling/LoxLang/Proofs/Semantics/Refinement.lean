import LoxLang.Proofs.Semantics.Completeness
import LoxLang.Proofs.Semantics.Soundness

/-!
# Evaluation refines its semantics

Evaluation keeps one memory, in which blocks and calls enter and leave scopes, and unwinds it by
interrupts. The reference semantics has neither. Here both are shown to say the same of every parsed
program, in every reachable memory: a run that is not cut off by a bound has the outcome, the
printed lines and the final frames that the rules derive, and whatever the rules derive is what all
runs with large enough bounds come to (`execution_refines_semantics`).

The rules leave no choice: what they derive is unique (`ExecutesAll.unique`).
-/

namespace LoxLang

namespace Semantics

open Eval

theorem Outcome.toExcept_injective {o o' : Outcome} (h : o.toExcept = o'.toExcept) : o = o' := by
  cases o <;> cases o' <;> cases h <;> rfl

theorem State.memory_injective {callers : List (List Frame)} {s s' : State}
    (h : s.memory callers = s'.memory callers) : s = s' := by
  cases s
  cases s'
  cases h
  rfl

/-- What the rules derive is **unique**. -/
theorem ExecutesAll.unique {clock : Nat → Float} {stmts : List Stmt} {s s₁ s₂ : State}
    {o₁ o₂ : Outcome} (h₁ : ExecutesAll clock stmts s o₁ s₁)
    (h₂ : ExecutesAll clock stmts s o₂ s₂) : o₁ = o₂ ∧ s₁ = s₂ := by
  obtain ⟨N₁, hN₁⟩ := h₁.reaches []
  obtain ⟨N₂, hN₂⟩ := h₂.reaches []
  have hrun₁ := hN₁ (max N₁ N₂) (max N₁ N₂) (by omega) (by omega)
  have hrun₂ := hN₂ (max N₁ N₂) (max N₁ N₂) (by omega) (by omega)
  obtain ⟨houtcome, hmemory⟩ := Prod.mk.inj (hrun₁.symm.trans hrun₂)
  exact ⟨Outcome.toExcept_injective houtcome, State.memory_injective hmemory⟩

end Semantics

open Eval Semantics

/-- A parsed program is aborted by a **bound** only. -/
theorem isBound_of_executeAll (host : Host) (n : Nat) (tokens : List Token) {m : Memory}
    (hm : m.Reachable) {reason : Abort}
    (h : ((executeAll host n (Parse.ofTokens tokens).statements).run m).1 =
      .error (.abort reason)) : reason.IsBound := by
  have hwf : ((State.ofMemory m).memory m.scopes.callers).WellFormed := hm.every_wellFormed
  have hfollows :=
    (execute_follows host.clock host.rounds n).all (parse_wellFormed tokens) hwf
  rcases hfollows with ⟨reason', hbound, hcut⟩ | ⟨outcome, s', hrun, -⟩
  · cases h.symm.trans hcut
    exact hbound
  · have hfirst := h.symm.trans (congrArg Prod.fst hrun)
    cases outcome <;> cases hfirst

/-- **Execution refines its semantics**. A parsed program that is run in a reachable memory, and not
cut off by the bound on nesting or by that on rounds, ends with an outcome and in a state that the
rules derive. Conversely, when the rules derive an outcome and a state, every run with large enough
bounds ends with them. The states say what is printed and what all frames are, and the outcome of a
failed run is the error with its token. -/
theorem execution_refines_semantics (clock : Nat → Float) (tokens : List Token) {m : Memory}
    (hm : m.Reachable) :
    (∀ rounds n,
      ¬ CutOff ((executeAll ⟨clock, rounds⟩ n (Parse.ofTokens tokens).statements).run m).1 →
        ∃ outcome s',
          ExecutesAll clock (Parse.ofTokens tokens).statements (.ofMemory m) outcome s' ∧
          (executeAll ⟨clock, rounds⟩ n (Parse.ofTokens tokens).statements).run m =
            (outcome.toExcept, s'.memory m.scopes.callers)) ∧
      ∀ outcome s',
        ExecutesAll clock (Parse.ofTokens tokens).statements (.ofMemory m) outcome s' →
          ∃ N, ∀ rounds n, N ≤ rounds → N ≤ n →
            (executeAll ⟨clock, rounds⟩ n (Parse.ofTokens tokens).statements).run m =
              (outcome.toExcept, s'.memory m.scopes.callers) := by
  refine ⟨fun rounds n hcut => ?_, fun outcome s' h => h.reaches m.scopes.callers⟩
  have hwf : ((State.ofMemory m).memory m.scopes.callers).WellFormed := hm.every_wellFormed
  have hfollows := (execute_follows clock rounds n).all (parse_wellFormed tokens) hwf
  obtain ⟨outcome, s', hrun, hall⟩ := hfollows.resolve_left hcut
  exact ⟨outcome, s', hall, hrun⟩

/-- The program `print "hi"; -nil;` in the memory that programs start from. -/
theorem execution_refines_semantics_of_failure :
    let token (kind : TokenKind) (lexeme : String) (literal : Literal) : Token :=
      ⟨kind, lexeme, literal, 1⟩
    let minus := token .minus "-" .nil
    let semicolon := token .semicolon ";" .nil
    let tokens := [token (.keyword .print_) "print" .nil, token .string "\"hi\"" (.string "hi"),
      semicolon, minus, token (.keyword .nil_) "nil" .nil, semicolon, token .eof "" .nil]
    let program := (Parse.ofTokens tokens).statements
    ∃ outcome s', ExecutesAll (fun _ => 0) program (.ofMemory .fresh) outcome s' ∧
      (executeAll ⟨fun _ => 0, 1⟩ 3 program).run .fresh = (outcome.toExcept, s'.memory []) ∧
      s'.printed = #["hi"] ∧ outcome = .error ⟨minus, .operandNotNumber⟩ := by
  intro token minus semicolon tokens program
  have hreads : Rule.program (Parse.body tokens) = ⟨[], .ok ([.print (.literal (.string "hi")),
      .expression (.unary minus (.literal .nil))], [])⟩ := rfl
  have hprogram := congrArg Parse.statements (Parse.ofTokens_eq hreads)
  have hrun : ((executeAll ⟨fun _ => 0, 1⟩ 3 program).run .fresh).1 =
      .error (.failure ⟨minus, .operandNotNumber⟩) := by
    rw [show program = _ from hprogram]
    rfl
  have hprinted : ((executeAll ⟨fun _ => 0, 1⟩ 3 program).run .fresh).2.printed = #["hi"] := by
    rw [show program = _ from hprogram]
    rfl
  obtain ⟨outcome, s', hall, hends⟩ :=
    (execution_refines_semantics (fun _ => 0) tokens .fresh).1 1 3 fun ⟨reason, _, h⟩ => by
      cases hrun.symm.trans h
  refine ⟨outcome, s', hall, hends, ?_, ?_⟩
  · rw [← hprinted, hends]
    rfl
  · exact Outcome.toExcept_injective ((congrArg Prod.fst hends).symm.trans hrun)

end LoxLang
