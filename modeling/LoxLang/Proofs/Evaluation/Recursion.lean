import LoxLang.Evaluation

/-!
# Endless recursion

A function whose body begins with a call of itself runs out of nesting, whatever the bound is.
-/

namespace LoxLang

open Eval

/-- Behind an interrupt, nothing is run. -/
theorem Eval.fst_run_bind_of_error {α β : Type} {p : Eval α} {f : α → Eval β} {m : Memory}
    {e : Interrupt} (h : (p.run m).1 = .error e) : ((p >>= f).run m).1 = .error e := by
  rw [run_bind]
  rcases hp : p.run m with ⟨_ | _, m'⟩
  · rw [hp] at h
    cases h
    rfl
  · rw [hp] at h
    cases h

/-- The statement that calls a name without arguments. -/
def callOf (name paren : Token) : Stmt := .expression (.call (.name name) paren [])

/-- **Endless recursion overflows**: whatever the bound, a call of a function that begins with the
same call, with that function behind the name in the globals. -/
theorem execute_of_endless (host : Host) {name paren : Token} {f : Function} {identity : Nat}
    {others : List Stmt} (hparameters : f.parameters = [])
    (hbody : f.body = callOf name paren :: others) (n : Nat) (m : Memory)
    (hglobal : m.scopes.globals.get? name.lexeme = some (.function f identity))
    (hvisible : m.scopes.get? name.lexeme = some (.function f identity)) :
    ((execute host n (callOf name paren)).run m).1 = .error (.abort .overflow) := by
  induction n using Nat.strongRecOn generalizing m with
  | ind n ih =>
    match n with
    | 0 | 1 | 2 => rfl
    | n + 3 =>
      let entered : Memory := { m with scopes := m.scopes.enterCall.enterBlock }
      have hnested := ih (n + 1) (by omega)
        { entered with scopes := entered.scopes.enterBlock } hglobal
        (by simp only [entered, Scopes.get?_enterBlock, Scopes.get?_enterCall, hglobal])
      have hblock : ((inBlock (f.body.forM (execute host (n + 1)))).run entered).1 =
          .error (.abort .overflow) := by
        rw [run_inBlock, hbody]
        exact fst_run_bind_of_error hnested
      have hcall : ((call f.parameters [] (f.body.forM (execute host (n + 1)))).run m).1 =
          .error (.abort .overflow) := by
        rw [run_call, hparameters]
        change ((returned (inBlock (f.body.forM (execute host (n + 1))))).run entered).1 = _
        rw [run_returned, hblock]
        rfl
      have happly : ((evaluate host (n + 2) (.call (.name name) paren [])).run m).1 =
          .error (.abort .overflow) := by
        have harity : ([] : List Value).length = f.parameters.length := by
          rw [hparameters]
          rfl
        rw [evaluate, run_bind, evaluate, run_lookup, hvisible]
        simp only [List.mapM_nil, run_bind, run_pure, apply_function]
        rw [if_pos harity]
        exact hcall
      exact fst_run_bind_of_error happly

end LoxLang
