import LoxLang.Proofs.Evaluation.Values
import LoxLang.Proofs.Scopes.Restoration
import LoxLang.Proofs.Syntax.WellFormed

/-!
# Reachable memories

A memory is **reachable** if it is what parsed programs leave behind, run one after another from the
memory that programs start from, each with bounds and readings of the clock of its own. Some of them
may have failed, or may have been cut off.

Every function in sight of a reachable memory has a body that a parser made
(`Memory.Reachable.every_wellFormed`). No call is in progress there and no block is open
(`Memory.Reachable.top`).
-/

namespace LoxLang

/-- A **well-formed** value: the body of a function is. -/
def Value.WellFormed (v : Value) : Prop := ∀ f i, v = .function f i → ∀ s ∈ f.body, s.WellFormed

/-- A **well-formed** function: its declaration is. -/
def Function.WellFormed (f : Function) : Prop :=
  (Stmt.function f.name f.parameters f.body).WellFormed

theorem Function.WellFormed.body {f : Function} (h : f.WellFormed) :
    ∀ s ∈ f.body, s.WellFormed := by
  cases h with
  | function _ _ _ hbody => exact hbody

/-- A well-formed statement declares well-formed functions. -/
theorem Stmt.WellFormed.declared {s : Stmt} {f : Function} (hs : s.WellFormed)
    (hf : s.Declares f) : f.WellFormed := by
  induction hf with
  | function => exact hs
  | block hmem _ ih =>
    cases hs with
    | block hbody => exact ih (hbody _ hmem)
  | yes _ ih =>
    cases hs with
    | branch _ hyes _ _ _ => exact ih hyes
  | no _ ih =>
    cases hs with
    | branch _ _ _ hno _ => exact ih (hno _ rfl)
  | loop _ ih =>
    cases hs with
    | loop _ hbody _ => exact ih hbody

theorem Stmt.WellFormed.of_declares {s : Stmt} {f : Function} (hs : s.WellFormed)
    (hf : s.Declares f) : ∀ t ∈ f.body, t.WellFormed := (hs.declared hf).body

/-- That all values are well-formed lasts, where only such functions are declared. -/
theorem Value.lasting_wellFormed :
    Value.Lasting (fun f => ∀ s ∈ f.body, s.WellFormed) (fun _ v => v.WellFormed) :=
  Value.lasting_functions fun hf hs hg => (hf _ hs).of_declares hg

/-- That all functions are well-formed lasts. -/
theorem Value.lasting_function :
    Value.Lasting Function.WellFormed (fun _ v => ∀ f i, v = .function f i → f.WellFormed) :=
  Value.lasting_functions fun hf hs hg => (hf.body _ hs).declared hg

namespace Memory

/-- All values that a memory binds are **well-formed**. -/
def WellFormed (m : Memory) : Prop := m.Every fun _ v => v.WellFormed

/-- The memories that are **reachable** by parsed programs. -/
inductive Reachable : Memory → Prop
  | fresh : Reachable Memory.fresh
  | executed {m : Memory} (host : Host) (n : Nat) (tokens : List Token) : Reachable m →
    Reachable ((executeAll host n (Parse.ofTokens tokens).statements).run m).2
  /-- What is printed is taken from the memory from time to time. -/
  | taken {m : Memory} : Reachable m → Reachable { m with printed := #[] }

namespace Reachable

variable {m : Memory}

/-- A session that runs a parsed program goes on to a reachable memory. -/
theorem interpret {session : Session} (h : session.memory.Reachable)
    (machine : Machine) (tokens : List Token) :
    (session.interpret machine (Parse.ofTokens tokens).statements).2.memory.Reachable := by
  rw [Session.memory_interpret]
  exact (h.executed machine.toHost machine.nesting tokens).taken

/-- What a session **runs**, it runs in a reachable memory, and it goes on to one. -/
theorem run {session : Session} (h : session.memory.Reachable) (machine : Machine)
    (source : String) : (session.run machine source).2.memory.Reachable := by
  have hstart : (if session.interactive then .fresh else session.memory : Memory).Reachable := by
    split
    · exact .fresh
    · exact h
  rw [Session.memory_run]
  exact (hstart.executed machine.toHost machine.nesting (scan source).tokens).taken

/-- All values of a reachable memory have a **lasting** property of values, if well-formed functions
have it when they are declared. -/
theorem every {A : Function → Prop} {P : Nat → Value → Prop} (hP : Value.Lasting A P)
    (hA : ∀ f : Function, f.WellFormed → A f) (h : m.Reachable) : m.Every P := by
  induction h with
  | fresh => exact hP.fresh
  | executed host n tokens _ ih =>
    have hdeclared : ∀ s ∈ (Parse.ofTokens tokens).statements, ∀ f, s.Declares f → A f :=
      fun s hs f hf => hA f ((parse_wellFormed tokens s hs).declared hf)
    exact (hP.executeAll host n hdeclared 0 _ (Nat.zero_le _) ih).2.1
  | taken _ ih => exact ih

/-- The functions in sight have well-formed bodies. -/
theorem every_wellFormed (h : m.Reachable) : m.WellFormed :=
  h.every Value.lasting_wellFormed fun _ hf => hf.body

/-- Between programs no block is open and no call in progress. -/
theorem top (h : m.Reachable) : m.scopes.locals = [] ∧ m.scopes.callers = [] := by
  induction h with
  | fresh => exact ⟨rfl, rfl⟩
  | @executed m host n tokens _ ih =>
    have hrestored := stable_restored.executeAll host n (Parse.ofTokens tokens).statements m
    have hdepth := Scopes.Restored.depth_eq hrestored
    rw [Scopes.depth, Scopes.depth, ih.1] at hdepth
    refine ⟨List.length_eq_zero_iff.mp (Nat.succ.inj hdepth), ?_⟩
    rw [hrestored.callers, ih.2]
  | taken _ ih => exact ih

end Reachable

end Memory

end LoxLang
