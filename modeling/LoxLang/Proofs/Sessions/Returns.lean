import LoxLang.Proofs.Evaluation.Returns
import LoxLang.Proofs.Sessions.Records

/-!
# Sessions and returns

A session warns of a `return` that returns from nothing. A program with all its `return`s inside of
functions gives no reason to: what a session records of it is a runtime error, if it fails, and
nothing else (`Session.interpret_of_returnsInFunctions`). Together with what a `return` does in a
call, this is `returns_stay_in_calls`.
-/

namespace LoxLang

open Eval Step

/-- Of a program with all its `return`s inside of functions, a session records **at most a runtime
error**, and it answers that the program was stopped if it does. -/
theorem Session.interpret_of_returnsInFunctions (machine : Machine) (session : Session)
    {program : List Stmt} (h : ReturnsInFunctions program) :
    let after := session.interpret machine program
    ∃ registered : Option Diagnostic,
      after.2.console.records = session.console.records ++ registered.toArray ∧
        (∀ d ∈ registered, d.severity = .runtime) ∧
        (after.1 = .ok false ↔ registered.isSome) := by
  have hreturn := h.neverReturns_executeAll machine.toHost machine.nesting
  rw [interpret_eq]
  dsimp only
  rcases hrun : (executeAll machine.toHost machine.nesting program).run session.memory with
    ⟨(e | ⟨keyword, v⟩ | reason) | _, m⟩
  · exact ⟨some (.atToken .runtime e.token e.message), rfl, by simp [Diagnostic.atToken],
      ⟨fun _ => rfl, fun _ => rfl⟩⟩
  · exact absurd (congrArg Prod.fst hrun) (hreturn keyword v session.memory)
  · exact ⟨none, rfl, nofun, nofun, nofun⟩
  · exact ⟨none, rfl, nofun, nofun, nofun⟩

/-- **Returns stay in calls.**

- No expression ends with a `return`, whatever it calls and in whatever memory.
- A statement ends with a `return` only if that stands within it, outside of the functions that it
  declares.
- If all `return`s of a program are inside of functions, a session that runs it records no warning.
  It records one runtime error if it answers that the program was stopped, and nothing if it does
  not.
- A call of a function has a value in two cases. Its body runs to the end, and the value is `nil`;
  or its body itself runs a `return`, and the value is what that gives. No body runs two `return`s,
  and one that runs to its end runs none. -/
theorem returns_stay_in_calls (host : Host) :
    (∀ n e m keyword v, ((evaluate host n e).run m).1 ≠ .error (.returning keyword v)) ∧
    (∀ n s m keyword v, ((execute host n s).run m).1 = .error (.returning keyword v) →
      ∃ value, (Stmt.returnValue keyword value).Within s) ∧
    (∀ nesting (session : Session) (program : List Stmt), ReturnsInFunctions program →
      let after := session.interpret ⟨host, nesting⟩ program
      ∃ registered : Option Diagnostic,
        after.2.console.records = session.console.records ++ registered.toArray ∧
          (∀ d ∈ registered, d.severity = .runtime) ∧
          (after.1 = .ok false ↔ registered.isSome)) ∧
    ∀ n callee paren arguments f identity vs m m₁ m₂,
      (evaluate host n callee).run m = (.ok (.function f identity), m₁) →
      (arguments.mapM (evaluate host n)).run m₁ = (.ok vs, m₂) →
      vs.length = f.parameters.length →
      let start := entered f.parameters vs m₂
      let completes := ((executeAll host n f.body).run start).1 = .ok ()
      let Returns := fun k keyword value m' =>
        RunsAmong host n f.body start k (.returnValue keyword value) m'
      (∀ v, ((evaluate host (n + 1) (.call callee paren arguments)).run m).1 = .ok v ↔
        (completes ∧ v = .nil) ∨
        ∃ k keyword value m' m'', Returns (k + 1) keyword value m' ∧
          (returnedValue host k value).run m' = (.ok v, m'')) ∧
      (∀ k keyword value m' k' keyword' value' m'', Returns k keyword value m' →
        Returns k' keyword' value' m'' →
          k = k' ∧ keyword = keyword' ∧ value = value' ∧ m' = m'') ∧
      ∀ k keyword value m', Returns k keyword value m' → ¬ completes := by
  refine ⟨fun n e m keyword v => neverReturns_evaluate host n e keyword v m,
    fun n s m keyword v => exists_within_of_returning,
    fun nesting session program => session.interpret_of_returnsInFunctions ⟨host, nesting⟩, ?_⟩
  intro n callee paren arguments f identity vs m m₁ m₂ hcallee harguments harity
  refine ⟨fun v => ?_, fun _ _ _ _ _ _ _ _ => RunsAmong.return_unique, fun k keyword value m' => ?_⟩
  · rw [fst_run_evaluate_call hcallee harguments harity, callResult_eq_ok_iff]
    refine or_congr_right ⟨?_, ?_⟩
    · rintro ⟨keyword, h⟩
      obtain ⟨k, value, m', m'', hruns⟩ := executeAll_returning_iff.mp h
      exact ⟨k, keyword, value, m', m'', hruns⟩
    · rintro ⟨k, keyword, value, m', m'', hruns⟩
      exact ⟨keyword, executeAll_returning_iff.mpr ⟨k, value, m', m'', hruns⟩⟩
  · intro hruns hcompletes
    obtain ⟨e, he⟩ := exists_returnValue_interruptedBy keyword value m'
    cases hcompletes.symm.trans (hruns.interruptedBy he)

/-- `{ return; }` ends with its `return`, which stands within it. A program that declares
`fun f() { { return true; } print nil; }` and goes on with `-f();` fails, and nothing but that is
recorded. The call has the value of the `return` in the inner block. -/
theorem returns_stay_in_calls_of_block :
    let host : Host := ⟨fun _ => 0, 0⟩
    let keyword := Token.of (.keyword .return_) "return"
    let early := Stmt.block [.returnValue keyword none]
    let f : Function := ⟨.of .identifier "f", [],
      [.block [.returnValue keyword (some (.literal (.bool true)))], .print (.literal .nil)]⟩
    let called := Expr.call (.name f.name) (.of .rightParen ")") []
    let program := [Stmt.function f.name [] f.body, .expression (.unary (.of .minus "-") called)]
    let session : Session := ⟨.new false false false, Session.noFile, false, .fresh⟩
    let m : Memory := ⟨Scopes.empty.define "f" (.function f 0), #[], 1, 0⟩
    (((execute host 3 early).run m).1 = .error (.returning keyword .nil) ∧
        ∃ value, (Stmt.returnValue keyword value).Within early) ∧
      (ReturnsInFunctions program ∧ (session.interpret host program).1 = .ok false ∧
        ∃ d, (session.interpret host program).2.console.records = #[d] ∧ d.severity = .runtime) ∧
      ((evaluate host 5 called).run m).1 = .ok (.bool true) ∧
        ∃ k keyword' value m' m'',
          RunsAmong host 4 f.body (entered [] [] m) (k + 1) (.returnValue keyword' value) m' ∧
          (returnedValue host k value).run m' = (.ok (.bool true), m'') := by
  intro host keyword early f called program session m
  obtain ⟨-, hwithin, hsession, hcall⟩ := returns_stay_in_calls host
  have hearly : ((execute host 3 early).run m).1 = .error (.returning keyword .nil) := rfl
  have hprogram : ReturnsInFunctions program := by
    intro s hs _ _ hwithin
    rcases List.mem_pair.mp hs with rfl | rfl <;> cases hwithin
  have hanswer : (session.interpret host program).1 = .ok false := rfl
  have hvalue : ((evaluate host 5 called).run m).1 = .ok (.bool true) := rfl
  obtain ⟨registered, hrecords, hseverity, hfalse⟩ := hsession maxNesting session program hprogram
  obtain ⟨d, rfl⟩ := Option.isSome_iff_exists.mp (hfalse.mp hanswer)
  obtain ⟨hcases, -, -⟩ :=
    hcall 4 (.name f.name) (.of .rightParen ")") [] f 0 [] m m m rfl rfl rfl
  obtain ⟨-, ⟨⟩⟩ | ⟨k, keyword', value, m', m'', hruns⟩ := (hcases (.bool true)).mp hvalue
  exact ⟨⟨hearly, hwithin 3 early m keyword .nil hearly⟩,
    ⟨hprogram, hanswer, d, hrecords, hseverity d rfl⟩, hvalue, k, keyword', value, m', m'', hruns⟩

end LoxLang
