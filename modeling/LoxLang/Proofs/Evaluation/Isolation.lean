import LoxLang.Proofs.Evaluation.Bounds
import LoxLang.Proofs.Evaluation.Lockstep
import LoxLang.Proofs.Evaluation.Reachability

/-!
# Calls are isolated from their caller

A function holds no scope and its body runs in a chain of its own, on top of the globals. Here it is
shown that this is all a call depends on: two calls of the same function on the same arguments, from
memories with the same globals, do the same, whatever the local frames of the callers are.

The statement is `call_independent_of_caller`. What the two calls do is the same up to the
identities of the functions they make; the functions there were before, which a memory can tell
from all new ones (`Value.MadeBefore`), keep theirs. All functions in sight of a reachable memory
were made before (`Memory.Reachable.every_madeBefore`).
-/

namespace LoxLang

open Eval

/-! ### Functions made before -/

/-- The value is no function, or one of the first `c` that were **made**. -/
def Value.MadeBefore (c : Nat) (v : Value) : Prop := ∀ f i, v = .function f i → i < c

namespace Value

variable {c c₁ c₂ : Nat} {v : Value}

theorem MadeBefore.mono (h : v.MadeBefore c₁) (hc : c₁ ≤ c₂) : v.MadeBefore c₂ :=
  fun f i hv => Nat.lt_of_lt_of_le (h f i hv) hc

/-- A value made before two runs is alike itself. -/
theorem MadeBefore.alike (h : v.MadeBefore (min c₁ c₂)) : v.Alike c₁ c₂ v := by
  cases v with
  | nil => exact .nil
  | bool b => exact .bool b
  | number x => exact .number x
  | string s => exact .string s
  | native f i => exact .native f i
  | function f i =>
    have hlt : i < min c₁ c₂ := h f i rfl
    refine .function f (.inl ⟨rfl, ?_, ?_⟩)
    · exact Nat.lt_of_lt_of_le hlt (Nat.min_le_left _ _)
    · exact Nat.lt_of_lt_of_le hlt (Nat.min_le_right _ _)

/-- That all functions in sight were made before is never lost. -/
theorem lasting_madeBefore : Value.Lasting (fun _ => True) MadeBefore where
  mono hc h := h.mono hc
  plain hv f i h := absurd h (hv f i)
  made _ f i h := by
    cases h
    exact Nat.lt_succ_self _
  body _ _ _ := trivial

end Value

/-- In a **reachable** memory, all functions in sight were made before. -/
theorem Memory.Reachable.every_madeBefore {m : Memory} (h : m.Reachable) :
    m.Every Value.MadeBefore := h.every Value.lasting_madeBefore fun _ _ => trivial

/-! ### The law -/

/-- The calls that led from `m₁` to `call₁` and from `m₂` to `call₂` have done **the same**: neither
looked at the local frames of its caller, and neither changed them. -/
structure Memory.SameCall (m₁ m₂ : Memory) (call₁ call₂ : Except Interrupt Value × Memory) :
    Prop where
  /-- They give the same value, or fail with the same error, or both do not come to an end. -/
  result : ResultAlike m₁.created m₂.created (Value.Alike m₁.created m₂.created) call₁.1 call₂.1
  /-- They print the same lines. -/
  printed : ∃ lines : Array String,
    call₁.2.printed = m₁.printed ++ lines ∧ call₂.2.printed = m₂.printed ++ lines
  /-- They leave the same globals. -/
  globals : Frame.Alike m₁.created m₂.created call₁.2.scopes.globals call₂.2.scopes.globals
  /-- They bind no new name in the globals. -/
  names : call₁.2.scopes.globals.names = m₁.scopes.globals.names ∧
    call₂.2.scopes.globals.names = m₂.scopes.globals.names
  /-- They leave the local frames of their callers as they were. -/
  locals : call₁.2.scopes.locals = m₁.scopes.locals ∧ call₂.2.scopes.locals = m₂.scopes.locals
  /-- They leave the frames put aside by the calls in progress as they were. -/
  callers : call₁.2.scopes.callers = m₁.scopes.callers ∧
    call₂.2.scopes.callers = m₂.scopes.callers

/-- Calls with the same bounds do the same. -/
private theorem sameCall (f : Function) {arguments : List Value} {m₁ m₂ : Memory}
    {clock₁ clock₂ : Nat → Float} (rounds n : Nat)
    (hglobals : m₁.scopes.globals = m₂.scopes.globals)
    (hold : m₁.scopes.globals.Every (Value.MadeBefore (min m₁.created m₂.created)))
    (harguments : ∀ v ∈ arguments, v.MadeBefore (min m₁.created m₂.created))
    (hclock : ∀ k, clock₁ (m₁.readings + k) = clock₂ (m₂.readings + k)) :
    Memory.SameCall m₁ m₂
      ((call f.parameters arguments (executeAll ⟨clock₁, rounds⟩ n f.body)).run m₁)
      ((call f.parameters arguments (executeAll ⟨clock₂, rounds⟩ n f.body)).run m₂) := by
  have hframe : Frame.Alike m₁.created m₂.created m₁.scopes.globals m₂.scopes.globals := by
    rw [← hglobals]
    exact .refl_of_every fun entry hentry => (hold entry hentry).alike
  have hvalues : List.Forall₂ (Value.Alike m₁.created m₂.created) arguments arguments :=
    List.forall₂_same.mpr fun v hv => (harguments v hv).alike
  obtain ⟨hresult, hmemory⟩ := (executeAll_alike hclock rounds n f.body).call_globally f.parameters
    hvalues ⟨hframe, ⟨#[], by simp⟩, ⟨0, rfl, rfl⟩, ⟨0, rfl, rfl⟩⟩
  obtain ⟨globals₁, hnames₁, hscopes₁⟩ := scopes_call
    (Memory.stable_restored.executeAll ⟨clock₁, rounds⟩ n f.body) f.parameters arguments m₁
  obtain ⟨globals₂, hnames₂, hscopes₂⟩ := scopes_call
    (Memory.stable_restored.executeAll ⟨clock₂, rounds⟩ n f.body) f.parameters arguments m₂
  refine ⟨hresult, hmemory.printed, hmemory.globals, ?_, ?_, ?_⟩
  · rw [hscopes₁, hscopes₂]
    exact ⟨hnames₁, hnames₂⟩
  · rw [hscopes₁, hscopes₂]
    exact ⟨rfl, rfl⟩
  · rw [hscopes₁, hscopes₂]
    exact ⟨rfl, rfl⟩

/-- With a larger bound on its nesting, a call that was not cut off does what it did. -/
private theorem run_call_of_le {f : Function} {arguments : List Value} {clock : Nat → Float}
    {rounds n n' : Nat} (hn : n ≤ n') {m : Memory}
    (h : ((call f.parameters arguments (executeAll ⟨clock, rounds⟩ n f.body)).run m).1 ≠
      .error (.abort .overflow)) :
    (call f.parameters arguments (executeAll ⟨clock, rounds⟩ n' f.body)).run m =
      (call f.parameters arguments (executeAll ⟨clock, rounds⟩ n f.body)).run m := by
  have hbody := executeAll_deeper ⟨clock, rounds⟩ hn f.body
  exact (hbody.call f.parameters arguments).run_eq_of_ne_overflow h

/-- **Calls are isolated**: to call `f` on the same arguments from memories with the same globals
does the same, whatever the local frames of the callers are and however deep each call may nest.
Functions bound in the globals or passed as arguments were made before, the clock gives both calls
the same readings, and a call that nests too deeply is set aside. -/
theorem call_independent_of_caller (f : Function) (arguments : List Value) (m₁ m₂ : Memory)
    (clock₁ clock₂ : Nat → Float) (rounds n₁ n₂ : Nat)
    (hglobals : m₁.scopes.globals = m₂.scopes.globals)
    (hold : m₁.scopes.globals.Every (Value.MadeBefore (min m₁.created m₂.created)))
    (harguments : ∀ v ∈ arguments, v.MadeBefore (min m₁.created m₂.created))
    (hclock : ∀ k, clock₁ (m₁.readings + k) = clock₂ (m₂.readings + k))
    (h₁ : ((call f.parameters arguments (executeAll ⟨clock₁, rounds⟩ n₁ f.body)).run m₁).1 ≠
      .error (.abort .overflow))
    (h₂ : ((call f.parameters arguments (executeAll ⟨clock₂, rounds⟩ n₂ f.body)).run m₂).1 ≠
      .error (.abort .overflow)) :
    Memory.SameCall m₁ m₂
      ((call f.parameters arguments (executeAll ⟨clock₁, rounds⟩ n₁ f.body)).run m₁)
      ((call f.parameters arguments (executeAll ⟨clock₂, rounds⟩ n₂ f.body)).run m₂) := by
  -- Neither call is cut off, so both are what they are with the larger bound.
  rw [← run_call_of_le (Nat.le_max_left n₁ n₂) h₁, ← run_call_of_le (Nat.le_max_right n₁ n₂) h₂]
  exact sameCall f rounds (max n₁ n₂) hglobals hold harguments hclock

/-- The two calls of `fun f(a) { x = a; fun g() {} print x; return g; }`, one of them from inside a
block of another call that has an `x` of its own. -/
theorem call_independent_of_caller_of_locals :
    let token (kind : TokenKind) (lexeme : String) : Token := ⟨kind, lexeme, .nil, 1⟩
    let f : Function := ⟨token .identifier "f", [token .identifier "a"],
      [.expression (.assign (token .identifier "x") (.name (token .identifier "a"))),
        .function (token .identifier "g") [] [],
        .print (.name (token .identifier "x")),
        .returnValue (token (.keyword .return_) "return") (some (.name (token .identifier "g")))]⟩
    let m₁ : Memory := ⟨⟨[("x", .nil)], [], []⟩, #[], 0, 0⟩
    let m₂ : Memory := ⟨⟨[("x", .nil)], [[("x", .string "mine")], []], [[]]⟩, #["before"], 3, 1⟩
    let host : Host := ⟨fun _ => 0, 10⟩
    Memory.SameCall m₁ m₂
      ((call f.parameters [.string "given"] (executeAll host 5 f.body)).run m₁)
      ((call f.parameters [.string "given"] (executeAll host 7 f.body)).run m₂) := by
  intro token f m₁ m₂ host
  refine call_independent_of_caller f [.string "given"] m₁ m₂ host.clock host.clock 10 5 7 rfl ?_ ?_
    (fun _ => rfl) ?_ ?_
  · intro entry hentry
    rw [List.mem_singleton.mp hentry]
    exact fun f i h => by cases h
  · intro v hv
    rw [List.mem_singleton.mp hv]
    exact fun f i h => by cases h
  · exact fun h => by cases h
  · exact fun h => by cases h

end LoxLang
