import LoxLang.Evaluation
import LoxLang.Proofs.Semantics.Rules
import LoxLang.Proofs.Syntax.WellFormed

/-!
# The operations of the reference semantics

What the rules say of names, operators and frames is what evaluation does with them. For each kind
of operation there are two facts. The rules leave no case out: a name is bound or it is not, and an
operator has some result on any operands. And where a rule applies, evaluation does as it says.

The states of the rules are memories without the frames put aside by the calls in progress
(`State.memory`).
-/

namespace LoxLang

namespace Semantics

open Eval

/-- The **memory** of a state, in calls that have put aside frames. -/
def State.memory (callers : List (List Frame)) (s : State) : Memory :=
  ⟨⟨s.globals, s.locals, callers⟩, s.printed, s.created, s.readings⟩

/-- The **state** of a memory. -/
def State.ofMemory (m : Memory) : State :=
  ⟨m.scopes.locals, m.scopes.globals, m.printed, m.created, m.readings⟩

/-- A result as evaluation has it. -/
def Result.toExcept {α : Type} (r : Result α) : Except Interrupt α := r.mapError .failure

/-- An outcome as execution has it. -/
def Outcome.toExcept : Outcome → Except Interrupt Unit
  | normal => .ok ()
  | returning keyword v => .error (.returning keyword v)
  | error e => .error (.failure e)

@[simp]
theorem callResult_toExcept (o : Outcome) : callResult o.toExcept = o.toResult.toExcept := by
  cases o <;> rfl

variable {x : String} {v w : Value} {frames frames' : List Frame} {op : Token} {s : State}
  {callers : List (List Frame)}

/-! ### Names -/

/-- A name is **bound** in some frame or in none. -/
theorem binds_or_unbound (x : String) (frames : List Frame) :
    (∃ v, Binds x v frames) ∨ Unbound x frames := by
  induction frames with
  | nil => exact .inr fun frame hframe => absurd hframe List.not_mem_nil
  | cons frame frames ih =>
    rcases hx : frame.get? x with _ | v
    · refine ih.imp (fun ⟨v, hv⟩ => ⟨v, .further hx hv⟩) fun hnone => ?_
      exact List.forall_mem_cons.mpr ⟨hx, hnone⟩
    · exact .inl ⟨v, .here hx⟩

/-- A name can be **rebound** or it is in no frame. -/
theorem rebinds_or_unbound (x : String) (v : Value) (frames : List Frame) :
    (∃ frames', Rebinds x v frames frames') ∨ Unbound x frames := by
  induction frames with
  | nil => exact .inr fun frame hframe => absurd hframe List.not_mem_nil
  | cons frame frames ih =>
    rcases hx : frame.get? x with _ | w
    · refine ih.imp (fun ⟨frames', h⟩ => ⟨frame :: frames', .further hx h⟩) fun hnone => ?_
      exact List.forall_mem_cons.mpr ⟨hx, hnone⟩
    · exact .inl ⟨_, .here hx⟩

theorem Binds.nearest? (h : Binds x v frames) : Scopes.nearest? x frames = some v := by
  induction h with
  | here hx => rw [Scopes.nearest?, hx]
  | further hx _ ih => rw [Scopes.nearest?, hx, ih]

theorem Rebinds.replace? (h : Rebinds x v frames frames') :
    Scopes.replace? x v frames = some frames' := by
  induction h with
  | here hx => rw [Scopes.replace?, hx]
  | further hx _ ih => rw [Scopes.replace?, hx, ih]; rfl

theorem Unbound.nearest? (h : Unbound x frames) : Scopes.nearest? x frames = none := by
  induction frames with
  | nil => rfl
  | cons frame frames ih =>
    obtain ⟨hx, hframes⟩ := List.forall_mem_cons.mp h
    rw [Scopes.nearest?, hx, ih hframes]

theorem Unbound.replace? (h : Unbound x frames) (v : Value) :
    Scopes.replace? x v frames = none := by
  induction frames with
  | nil => rfl
  | cons frame frames ih =>
    obtain ⟨hx, hframes⟩ := List.forall_mem_cons.mp h
    rw [Scopes.replace?, hx, ih hframes]
    rfl

theorem Binds.run_lookup {token : Token} (h : Binds token.lexeme v s.frames) :
    (lookup token).run (s.memory callers) = (.ok v, s.memory callers) := by
  have hget : (s.memory callers).scopes.get? token.lexeme = some v := h.nearest?
  rw [Eval.run_lookup, hget]

theorem Unbound.run_lookup {token : Token} (h : Unbound token.lexeme s.frames) :
    (lookup token).run (s.memory callers) =
      (.error (.failure ⟨token, .undefinedVariable⟩), s.memory callers) := by
  have hget : (s.memory callers).scopes.get? token.lexeme = none := h.nearest?
  rw [Eval.run_lookup, hget]

theorem Rebinds.run_assign {target : Token} {s' : State}
    (h : Rebinds target.lexeme v s.frames s'.frames)
    (hs : s' = { s with locals := s'.locals, globals := s'.globals }) :
    (assign target v).run (s.memory callers) = (.ok (), s'.memory callers) := by
  have hassign : (s.memory callers).scopes.assign? target.lexeme v =
      some (s'.memory callers).scopes := Scopes.assign?_eq_some_iff.mpr ⟨h.replace?, rfl⟩
  rw [Eval.run_assign, hassign, hs]
  rfl

theorem Unbound.run_assign {target : Token} (h : Unbound target.lexeme s.frames) (v : Value) :
    (assign target v).run (s.memory callers) =
      (.error (.failure ⟨target, .undefinedVariable⟩), s.memory callers) := by
  have hassign : (s.memory callers).scopes.assign? target.lexeme v = none := by
    refine Option.eq_none_iff_forall_ne_some.mpr fun scopes hscopes => ?_
    have hreplace := (Scopes.assign?_eq_some_iff.mp hscopes).1
    rw [show (s.memory callers).scopes.chain = s.frames from rfl, h.replace? v] at hreplace
    cases hreplace
  rw [Eval.run_assign, hassign]

/-- After a name is rebound, the frames are those of a state that differs in nothing else. -/
theorem Rebinds.exists_state (h : Rebinds x v s.frames frames') :
    ∃ s' : State, s'.frames = frames' ∧
      s' = { s with locals := s'.locals, globals := s'.globals } := by
  have hne : frames' ≠ [] := by
    generalize s.frames = frames at h
    cases h <;> exact List.cons_ne_nil _ _
  -- The globals are the last frame.
  refine ⟨{ s with locals := frames'.dropLast, globals := frames'.getLast hne }, ?_, rfl⟩
  exact List.dropLast_concat_getLast hne

theorem run_define (x : String) (v : Value) (s : State) (callers : List (List Frame)) :
    (Eval.define x v).run (s.memory callers) = (.ok (), (s.define x v).memory callers) := by
  obtain ⟨_ | ⟨frame, frames⟩, globals, printed, created, readings⟩ := s <;> rfl

/-! ### Operators -/

theorem falsy_iff : Falsy v ↔ v.isTruthy = false := by
  cases v <;> simp [Falsy, Value.isTruthy]

theorem truthy_of_not_falsy (h : ¬ Falsy v) : v.isTruthy = true :=
  (Bool.not_eq_false _).mp (mt falsy_iff.mpr h)

theorem equal_iff : Equal v w ↔ v.equals w = true := by
  constructor
  · intro h
    cases h with
    | nil => rfl
    | bool b => exact beq_self_eq_true b
    | number h => exact h
    | string s => exact beq_self_eq_true s
    | native f g i => exact beq_self_eq_true i
    | function f g i => exact beq_self_eq_true i
  · intro h
    unfold Value.equals at h
    split at h
    · exact .nil
    · exact beq_iff_eq.mp h ▸ .bool _
    · exact .number h
    · exact beq_iff_eq.mp h ▸ .string _
    · exact beq_iff_eq.mp h ▸ .native _ _ _
    · exact beq_iff_eq.mp h ▸ .function _ _ _
    · cases h

/-- A unary operator has a result on any operand. -/
theorem unary_total (hop : op.kind = .bang ∨ op.kind = .minus) (v : Value) :
    ∃ r, Unary op v r := by
  rcases hop with hop | hop
  · by_cases hv : Falsy v
    · exact ⟨_, .notFalsy hop hv⟩
    · exact ⟨_, .notTruthy hop hv⟩
  · by_cases hv : v.isNumber
    · obtain ⟨x, rfl⟩ := Value.isNumber_iff.mp hv
      exact ⟨_, .negative x hop⟩
    · exact ⟨_, .notNumber hop hv⟩

theorem Unary.applyUnary {r : Result Value} (h : Unary op v r) :
    LoxLang.applyUnary op v = r.toExcept := by
  unfold LoxLang.applyUnary
  cases h with
  | negative x hop =>
    rw [if_pos hop]
    rfl
  | notNumber hop hv =>
    rw [if_pos hop]
    cases v with
    | number x => exact absurd rfl hv
    | _ => rfl
  | notFalsy hop hv =>
    rw [hop, if_neg nofun, falsy_iff.mp hv]
    rfl
  | notTruthy hop hv =>
    rw [hop, if_neg nofun, truthy_of_not_falsy hv]
    rfl

/-- An operator on two numbers has a value. -/
theorem numeric_total (x y : Float) (hop : op.kind ∈ .plus :: numericOperators) :
    ∃ v, Numeric x y op.kind v := by
  generalize op.kind = kind at hop ⊢
  simp only [numericOperators, List.mem_cons, List.not_mem_nil, or_false] at hop
  rcases hop with rfl | rfl | rfl | rfl | rfl | rfl | rfl | rfl
  · exact ⟨_, .plus⟩
  · exact ⟨_, .minus⟩
  · exact ⟨_, .star⟩
  · exact ⟨_, .slash⟩
  · exact ⟨_, .greater⟩
  · exact ⟨_, .greaterEqual⟩
  · exact ⟨_, .less⟩
  · exact ⟨_, .lessEqual⟩

theorem Numeric.applyBinary {x y : Float} (h : Numeric x y op.kind v) :
    LoxLang.applyBinary op (.number x) (.number y) = .ok v := by
  unfold LoxLang.applyBinary applyNumbers
  generalize op.kind = kind at h ⊢
  cases h <;> rfl

/-- A binary operator has a result on any two operands. -/
theorem binary_total (hop : op.kind ∈ binaryOperators) (v w : Value) : ∃ r, Binary op v w r := by
  have hnumbers : v.isNumber ∧ w.isNumber → op.kind ∈ .plus :: numericOperators →
      ∃ r, Binary op v w r := by
    rintro ⟨hv, hw⟩ hkind
    obtain ⟨x, rfl⟩ := Value.isNumber_iff.mp hv
    obtain ⟨y, rfl⟩ := Value.isNumber_iff.mp hw
    obtain ⟨z, hz⟩ := numeric_total x y hkind
    exact ⟨_, .numbers hz⟩
  have hkinds : ∀ kind ∈ binaryOperators, kind = .plus ∨ kind = .equalEqual ∨
      kind = .bangEqual ∨ kind ∈ numericOperators := by decide
  rcases hkinds op.kind hop with hkind | hkind | hkind | hkind
  · by_cases hboth : v.isNumber ∧ w.isNumber
    · exact hnumbers hboth (List.mem_cons.mpr (.inl hkind))
    · by_cases hstrings : v.isString ∧ w.isString
      · obtain ⟨s, rfl⟩ := Value.isString_iff.mp hstrings.1
        obtain ⟨t, rfl⟩ := Value.isString_iff.mp hstrings.2
        exact ⟨_, .strings s t hkind⟩
      · exact ⟨_, .notAddable hkind hboth hstrings⟩
  · by_cases hequal : Equal v w
    · exact ⟨_, .equal hkind hequal⟩
    · exact ⟨_, .notEqual hkind hequal⟩
  · by_cases hequal : Equal v w
    · exact ⟨_, .notDifferent hkind hequal⟩
    · exact ⟨_, .different hkind hequal⟩
  · by_cases hboth : v.isNumber ∧ w.isNumber
    · exact hnumbers hboth (List.mem_cons_of_mem _ hkind)
    · exact ⟨_, .notNumbers hkind hboth⟩

theorem Binary.applyBinary {r : Result Value} (h : Binary op v w r) :
    LoxLang.applyBinary op v w = r.toExcept := by
  have hequals : ¬ Equal v w → v.equals w = false := fun hne =>
    Bool.eq_false_iff.mpr (mt equal_iff.mpr hne)
  cases h with
  | numbers hnumeric => exact hnumeric.applyBinary
  | strings s t hop => simp only [LoxLang.applyBinary, hop]; rfl
  | notAddable hop hnumbers hstrings =>
    simp only [LoxLang.applyBinary, hop]
    split
    · exact absurd ⟨rfl, rfl⟩ hnumbers
    · exact absurd ⟨rfl, rfl⟩ hstrings
    · rfl
  | notNumbers hop hnumbers =>
    have hkinds : ∀ kind ∈ numericOperators, kind ≠ .plus ∧ kind ≠ .equalEqual ∧
        kind ≠ .bangEqual := by decide
    -- No numeric operator is one of the three with a case of its own.
    obtain ⟨hplus, hequal, hdifferent⟩ := hkinds op.kind hop
    unfold LoxLang.applyBinary
    split
    · next hkind => exact absurd hkind hplus
    · next hkind => exact absurd hkind hequal
    · next hkind => exact absurd hkind hdifferent
    · split
      · exact absurd ⟨rfl, rfl⟩ hnumbers
      · rfl
  | equal hop hvalues => simp only [LoxLang.applyBinary, hop, equal_iff.mp hvalues]; rfl
  | notEqual hop hvalues => simp only [LoxLang.applyBinary, hop, hequals hvalues]; rfl
  | different hop hvalues => simp only [LoxLang.applyBinary, hop, hequals hvalues]; rfl
  | notDifferent hop hvalues => simp only [LoxLang.applyBinary, hop, equal_iff.mp hvalues]; rfl

/-- The value on the left decides, or the result is that of the right. -/
theorem decides_or_defers (hop : op.kind = .keyword .and_ ∨ op.kind = .keyword .or_) (v : Value) :
    Decides op v ∨ Defers op v := by
  by_cases hv : Falsy v
  · exact hop.imp (fun hop => .inl ⟨hop, hv⟩) fun hop => .inr ⟨hop, hv⟩
  · exact hop.symm.imp (fun hop => .inr ⟨hop, hv⟩) fun hop => .inl ⟨hop, hv⟩

theorem Decides.isTruthy_eq (h : Decides op v) :
    v.isTruthy = (op.kind = .keyword .or_ : Bool) := by
  rcases h with ⟨hop, hv⟩ | ⟨hop, hv⟩
  · rw [hop, falsy_iff.mp hv]
    rfl
  · rw [hop, truthy_of_not_falsy hv]
    rfl

theorem Defers.isTruthy_ne (h : Defers op v) :
    v.isTruthy ≠ (op.kind = .keyword .or_ : Bool) := by
  rcases h with ⟨hop, hv⟩ | ⟨hop, hv⟩
  · rw [hop, truthy_of_not_falsy hv]
    decide
  · rw [hop, falsy_iff.mp hv]
    decide

/-! ### Frames of blocks and calls -/

/-- Parameters are bound in a frame one after another. -/
private theorem run_forM_define (entries : List (Token × Value)) (frame : Frame) (s : State)
    (callers : List (List Frame)) :
    (entries.forM fun entry : Token × Value => Eval.define entry.1.lexeme entry.2).run
        ({ s with locals := [frame] }.memory callers) =
      (.ok (), { s with locals := [entries.foldl
        (fun (frame : Frame) (entry : Token × Value) => frame.bind entry.1.lexeme entry.2)
        frame] }.memory callers) := by
  induction entries generalizing frame with
  | nil => rfl
  | cons entry entries ih => exact ih (frame.bind entry.1.lexeme entry.2)

theorem run_bindParameters (parameters : List Token) (arguments : List Value) (s : State)
    (callers : List (List Frame)) :
    (bindParameters parameters arguments).run ({ s with locals := [[]] }.memory callers) =
      (.ok (), { s with locals := [parameterFrame parameters arguments] }.memory callers) :=
  run_forM_define (parameters.zip arguments) [] s callers

/-- A block runs with one empty frame more, and drops a frame behind it. -/
theorem run_inBlock (body : Eval Unit) (s : State) (callers : List (List Frame)) :
    (inBlock body).run (s.memory callers) =
      let entered := body.run ({ s with locals := [] :: s.locals }.memory callers)
      (entered.1, { entered.2 with scopes := entered.2.scopes.exitBlock }) := rfl

/-- The body of a function runs over a frame for its block and a frame of parameters. -/
theorem run_call (parameters : List Token) (arguments : List Value) (body : Eval Unit) (s : State)
    (callers : List (List Frame)) :
    (call parameters arguments body).run (s.memory callers) =
      let entered := body.run ({ s with locals := [[], parameterFrame parameters arguments] }.memory
        (s.locals :: callers))
      (callResult entered.1, { entered.2 with scopes := entered.2.scopes.exitBlock.exitCall }) := by
  have hbind := run_bindParameters parameters arguments s (s.locals :: callers)
  -- Binding the parameters is never interrupted.
  have hinner : (do bindParameters parameters arguments; inBlock body).run
      ({ s with locals := [[]] }.memory (s.locals :: callers)) = (inBlock body).run
        ({ s with locals := [parameterFrame parameters arguments] }.memory
          (s.locals :: callers)) := by
    rw [run_bind, hbind]
  have hcall := Eval.run_call parameters arguments body (s.memory callers)
  rw [hcall, run_returned]
  have henter : { s.memory callers with scopes := (s.memory callers).scopes.enterCall.enterBlock } =
    { s with locals := [[]] }.memory (s.locals :: callers) := rfl
  rw [henter, hinner]
  rfl

end Semantics

end LoxLang
