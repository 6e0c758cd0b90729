import LoxLang.Proofs.Evaluation.Lockstep
import LoxLang.Proofs.Syntax.WellFormed

/-!
# Frames without names

A frame without names hides nothing, and nothing is ever bound in a frame but the innermost one. So
an empty frame more on the active chain makes no difference to an expression, wherever it lies; and
if it is the innermost one, none to a statement that is no declaration. Both leave it as it is
(`ignoresEmptyFrame_evaluate`, `ignoresEmptyFrame_execute`).

A block around such a computation is therefore the same as no block (`Eval.inBlock_eq`).
-/

namespace LoxLang

/-! ### Equal values -/

/-- In runs with as many functions made, values that are alike are **equal**. -/
theorem Value.Alike.eq {c : Nat} {v w : Value} (h : v.Alike c c w) : v = w := by
  cases h with
  | function f hi =>
    obtain ⟨rfl, -⟩ | ⟨k, rfl, rfl⟩ := hi
    · rfl
    · rfl
  | _ => rfl

theorem Value.Alike.refl (c : Nat) (v : Value) : v.Alike c c v := by
  cases v with
  | nil => exact .nil
  | bool b => exact .bool b
  | number x => exact .number x
  | string s => exact .string s
  | native f i => exact .native f i
  | function f i =>
    refine .function f ?_
    by_cases hi : i < c
    · exact .inl ⟨rfl, hi, hi⟩
    · exact .inr ⟨i - c, by omega, by omega⟩

theorem Frame.Alike.eq {c : Nat} {f g : Frame} (h : f.Alike c c g) : f = g := by
  induction h with
  | nil => rfl
  | cons hab _ ih => rw [ih, Prod.ext hab.1 hab.2.eq]

theorem ResultAlike.eq {c : Nat} {r r' : Except Interrupt Value}
    (h : ResultAlike c c (Value.Alike c c) r r') : r = r' := by
  cases h with
  | ok h => rw [h.eq]
  | error h =>
    cases h with
    | returning keyword h => rw [h.eq]
    | _ => rfl

namespace Scopes

/-! ### Scopes -/

/-- The scopes `s'` are the scopes `s` with an **empty frame** more, behind the `k` innermost
frames. -/
structure Padded (k : Nat) (s s' : Scopes) : Prop where
  globals : s'.globals = s.globals
  callers : s'.callers = s.callers
  locals : ∃ inner outer, inner.length = k ∧ s.locals = inner ++ outer ∧
    s'.locals = inner ++ [] :: outer

variable {k : Nat} {s s' : Scopes}

/-- An empty frame hides nothing. -/
theorem nearest?_append_nil (x : String) (inner outer : List Frame) :
    nearest? x (inner ++ [] :: outer) = nearest? x (inner ++ outer) := by
  induction inner with
  | nil => rfl
  | cons frame inner ih =>
    rw [List.cons_append, List.cons_append, nearest?, nearest?, ih]

namespace Padded

theorem get?_eq (h : Padded k s s') (x : String) : s'.get? x = s.get? x := by
  obtain ⟨inner, outer, -, hs, hs'⟩ := h.locals
  rw [get?, get?, chain, chain, hs, hs', h.globals, List.append_assoc, List.append_assoc,
    List.cons_append, nearest?_append_nil]

/-- An assignment finds the same binding, and no binding in the empty frame. -/
theorem assign? (h : Padded k s s') (x : String) (v : Value) :
    Option.Rel (Padded k) (s.assign? x v) (s'.assign? x v) := by
  obtain ⟨inner, outer, hk, hs, hs'⟩ := h.locals
  have hnil : replace? x v ([] :: outer) = (replace? x v outer).map ([] :: ·) := rfl
  rw [Scopes.assign?, Scopes.assign?, hs, hs', h.globals, replace?_append, replace?_append, hnil]
  cases hinner : replace? x v inner with
  | some inner' =>
    have hlength : inner'.length = k := by
      rw [← hk, ← List.length_map Frame.names, map_names_replace? hinner, List.length_map]
    exact .some ⟨rfl, h.callers, inner', outer, hlength, rfl, rfl⟩
  | none =>
    cases replace? x v outer with
    | some outer' => exact .some ⟨rfl, h.callers, inner, outer', hk, rfl, rfl⟩
    | none =>
      cases s.globals.get? x with
      | none => exact .none
      | some _ => exact .some ⟨rfl, h.callers, inner, outer, hk, rfl, rfl⟩

/-- A name is bound in the same frame, unless the empty frame is the innermost one. -/
theorem define (h : Padded (k + 1) s s') (x : String) (v : Value) :
    Padded (k + 1) (s.define x v) (s'.define x v) := by
  obtain ⟨_ | ⟨frame, inner⟩, outer, hk, hs, hs'⟩ := h.locals
  · cases hk
  · rw [Scopes.define, Scopes.define, hs, hs']
    exact ⟨h.globals, h.callers, frame.bind x v :: inner, outer, hk, rfl, rfl⟩

theorem enterBlock (h : Padded k s s') : Padded (k + 1) s.enterBlock s'.enterBlock := by
  obtain ⟨inner, outer, hk, hs, hs'⟩ := h.locals
  refine ⟨h.globals, h.callers, [] :: inner, outer, congrArg Nat.succ hk, ?_, ?_⟩
  · exact congrArg (List.cons []) hs
  · exact congrArg (List.cons []) hs'

theorem exitBlock (h : Padded (k + 1) s s') : Padded k s.exitBlock s'.exitBlock := by
  obtain ⟨_ | ⟨frame, inner⟩, outer, hk, hs, hs'⟩ := h.locals
  · cases hk
  · refine ⟨h.globals, h.callers, inner, outer, Nat.succ.inj hk, ?_, ?_⟩
    · exact congrArg List.tail hs
    · exact congrArg List.tail hs'

/-- An empty frame that is the innermost one is one that a block has. -/
theorem of_enterBlock (s : Scopes) : Padded 0 s s.enterBlock :=
  ⟨rfl, rfl, [], s.locals, rfl, rfl, rfl⟩

theorem exitBlock_eq (h : Padded 0 s s') : s'.exitBlock = s := by
  obtain ⟨inner, outer, hk, hs, hs'⟩ := h.locals
  obtain rfl := List.length_eq_zero_iff.mp hk
  obtain ⟨globals, locals, callers⟩ := s
  obtain ⟨globals', locals', callers'⟩ := s'
  obtain rfl : globals' = globals := h.globals
  obtain rfl : callers' = callers := h.callers
  obtain rfl : locals = outer := hs
  obtain rfl : locals' = [] :: locals := hs'
  rfl

end Padded

end Scopes

/-- The memory `m'` is the memory `m` with an **empty frame** more on its active chain. -/
structure Memory.Padded (k : Nat) (m m' : Memory) : Prop where
  scopes : Scopes.Padded k m.scopes m'.scopes
  printed : m'.printed = m.printed
  created : m'.created = m.created
  readings : m'.readings = m.readings

/-- Without its innermost frame, the memory is the same. -/
theorem Memory.Padded.exitBlock_eq {m m' : Memory} (h : Padded 0 m m') :
    { m' with scopes := m'.scopes.exitBlock } = m := by
  rw [h.scopes.exitBlock_eq, h.printed, h.created, h.readings]

namespace Eval

variable {k : Nat} {α β : Type}

/-- The computation **ignores** an empty frame behind the `k` innermost ones: it does the same
without it. -/
def IgnoresEmptyFrame (k : Nat) (p : Eval α) : Prop :=
  ∀ ⦃m m'⦄, Memory.Padded k m m' →
    (p.run m').1 = (p.run m).1 ∧ Memory.Padded k (p.run m).2 (p.run m').2

/-- A block around a computation that ignores the frame of the block is the same as no block. -/
theorem inBlock_eq {p : Eval α} (h : p.IgnoresEmptyFrame 0) : inBlock p = p := by
  funext m
  have hentered : Memory.Padded 0 m { m with scopes := m.scopes.enterBlock } :=
    ⟨.of_enterBlock m.scopes, rfl, rfl, rfl⟩
  obtain ⟨hresult, hmemory⟩ := h hentered
  exact Prod.ext hresult hmemory.exitBlock_eq

namespace IgnoresEmptyFrame

theorem ofResult (r : Except Interrupt α) : IgnoresEmptyFrame k (Eval.ofResult r) := by
  intro m m' h
  rw [run_ofResult, run_ofResult]
  exact ⟨rfl, h⟩

theorem bind {p : Eval α} {f : α → Eval β} (hp : p.IgnoresEmptyFrame k)
    (hf : ∀ a, (f a).IgnoresEmptyFrame k) : (p >>= f).IgnoresEmptyFrame k := by
  intro m m' h
  obtain ⟨hresult, hmemory⟩ := hp h
  rw [run_bind, run_bind]
  rcases hrun : p.run m with ⟨r, n⟩
  rcases hrun' : p.run m' with ⟨r', n'⟩
  rw [hrun, hrun'] at hresult hmemory
  obtain rfl : r' = r := hresult
  cases r' with
  | ok a => exact hf a hmemory
  | error e => exact ⟨rfl, hmemory⟩

theorem map {p : Eval α} (f : α → β) (hp : p.IgnoresEmptyFrame k) :
    (f <$> p).IgnoresEmptyFrame k := by
  rw [← bind_pure_comp]
  exact hp.bind fun a => ofResult (.ok (f a))

theorem forM {f : α → Eval Unit} (hf : ∀ a, (f a).IgnoresEmptyFrame k) (as : List α) :
    (as.forM f).IgnoresEmptyFrame k := by
  induction as with
  | nil => exact ofResult (.ok ())
  | cons a as ih => exact (hf a).bind fun _ => ih

theorem mapM {f : α → Eval β} (hf : ∀ a, (f a).IgnoresEmptyFrame k) (as : List α) :
    (as.mapM f).IgnoresEmptyFrame k := by
  induction as with
  | nil => exact ofResult (.ok [])
  | cons a as ih =>
    rw [List.mapM_cons]
    exact (hf a).bind fun b => ih.bind fun bs => ofResult (.ok (b :: bs))

theorem repeatWhile {condition : Eval Bool} {body : Eval Unit}
    (hc : condition.IgnoresEmptyFrame k) (hb : body.IgnoresEmptyFrame k) (n : Nat) :
    (Eval.repeatWhile condition body n).IgnoresEmptyFrame k := by
  induction n with
  | zero => exact ofResult (.error _)
  | succ n ih =>
    refine hc.bind fun holds => ?_
    cases holds with
    | true => exact hb.bind fun _ => ih
    | false => exact ofResult (.ok ())

theorem inBlock {body : Eval α} (hb : body.IgnoresEmptyFrame (k + 1)) :
    (Eval.inBlock body).IgnoresEmptyFrame k := by
  intro m m' h
  have hentered : Memory.Padded (k + 1) { m with scopes := m.scopes.enterBlock }
      { m' with scopes := m'.scopes.enterBlock } :=
    ⟨h.scopes.enterBlock, h.printed, h.created, h.readings⟩
  obtain ⟨hresult, hmemory⟩ := hb hentered
  exact ⟨hresult, hmemory.scopes.exitBlock, hmemory.printed, hmemory.created, hmemory.readings⟩

/-! ### Variables and calls -/

theorem define (x : String) (v : Value) : IgnoresEmptyFrame (k + 1) (Eval.define x v) :=
  fun _ _ h => ⟨rfl, h.scopes.define x v, h.printed, h.created, h.readings⟩

theorem lookup (name : Token) : IgnoresEmptyFrame k (Eval.lookup name) := by
  intro m m' h
  rw [run_lookup, run_lookup, h.scopes.get?_eq]
  exact ⟨rfl, h⟩

theorem assign (name : Token) (v : Value) : IgnoresEmptyFrame k (Eval.assign name v) := by
  intro m m' h
  have hassign := h.scopes.assign? name.lexeme v
  rw [run_assign, run_assign]
  generalize m.scopes.assign? name.lexeme v = s at hassign ⊢
  generalize m'.scopes.assign? name.lexeme v = s' at hassign ⊢
  cases hassign with
  | none => exact ⟨rfl, h⟩
  | some hscopes => exact ⟨rfl, hscopes, h.printed, h.created, h.readings⟩

theorem print (line : String) : IgnoresEmptyFrame k (Eval.print line) :=
  fun _ _ h => ⟨rfl, h.scopes, congrArg (Array.push · line) h.printed, h.created, h.readings⟩

theorem newFunction (f : Function) : IgnoresEmptyFrame k (Eval.newFunction f) := by
  intro m m' h
  rw [run_newFunction, run_newFunction, h.created]
  exact ⟨rfl, h.scopes, h.printed, rfl, h.readings⟩

theorem readClock (host : Host) : IgnoresEmptyFrame k (Eval.readClock host) := by
  intro m m' h
  rw [run_readClock, run_readClock, h.readings]
  exact ⟨rfl, h.scopes, h.printed, h.created, rfl⟩

/-- A **call** sees nothing of the chain of its caller but the globals. -/
theorem call (host : Host) (n : Nat) (parameters : List Token) (arguments : List Value)
    (body : List Stmt) :
    IgnoresEmptyFrame k (Eval.call parameters arguments (executeAll host n body)) := by
  intro m m' h
  have hglobals : m'.scopes.globals = m.scopes.globals := h.scopes.globals
  have halike : Memory.GloballyAlike m m' m m' := by
    refine ⟨?_, ⟨#[], by simp⟩, ⟨0, rfl, rfl⟩, ⟨0, rfl, rfl⟩⟩
    rw [hglobals, h.created]
    exact .refl_of_every fun entry _ => .refl _ entry.2
  have hbody : Eval.Alike m m' (fun _ _ => True) (executeAll host n body)
      (executeAll host n body) :=
    executeAll_alike (fun j => by rw [h.readings]) host.rounds n body
  have harguments : List.Forall₂ (Value.Alike m.created m'.created) arguments arguments :=
    List.forall₂_same.mpr fun v _ => h.created ▸ .refl _ v
  obtain ⟨hresult, hafter⟩ := hbody.call_globally parameters harguments halike
  -- Both callers have their local frames back, so that the empty frame is where it was.
  have hrestored := Memory.stable_restored.executeAll host n body
  obtain ⟨globals, -, hscopes⟩ := scopes_call hrestored parameters arguments m
  obtain ⟨globals', -, hscopes'⟩ := scopes_call hrestored parameters arguments m'
  obtain ⟨hglobals, ⟨lines, hprinted, hprinted'⟩, ⟨j, hcreated, hcreated'⟩,
    ⟨i, hreadings, hreadings'⟩⟩ := hafter
  rw [h.created] at hresult hglobals
  refine ⟨hresult.eq.symm, ⟨?_, ?_, ?_⟩, ?_, ?_, ?_⟩
  · exact hglobals.eq.symm
  · rw [hscopes, hscopes']
    exact h.scopes.callers
  · rw [hscopes, hscopes']
    exact h.scopes.locals
  · rw [hprinted, hprinted', h.printed]
  · rw [hcreated, hcreated', h.created]
  · rw [hreadings, hreadings', h.readings]

theorem apply (host : Host) (n : Nat) (paren : Token) (callee : Value) (arguments : List Value) :
    IgnoresEmptyFrame k (Eval.apply host (executeAll host n) paren callee arguments) := by
  cases callee with
  | function f identity =>
    rw [apply_function]
    split
    · exact call host n f.parameters arguments f.body
    · exact ofResult _
  | native f identity =>
    rw [apply_native]
    split
    · exact readClock host
    · exact ofResult _
  | _ =>
    rw [apply_of_arity?_eq_none host (executeAll host n) paren rfl]
    exact ofResult _

end IgnoresEmptyFrame

end Eval

/-! ### Expressions and statements -/

section

open Eval.IgnoresEmptyFrame

variable (host : Host)

/-- An **expression** ignores empty frames, wherever they lie. -/
theorem ignoresEmptyFrame_evaluate (n : Nat) (e : Expr) (k : Nat) :
    (evaluate host n e).IgnoresEmptyFrame k := by
  induction n generalizing e with
  | zero => rw [evaluate]; exact ofResult (.error _)
  | succ n ih =>
    cases e with
    | literal value => rw [evaluate]; exact ofResult (.ok _)
    | grouping inner => rw [evaluate]; exact ih inner
    | unary op operand => rw [evaluate]; exact (ih operand).bind fun _ => ofResult _
    | binary left op right =>
      rw [evaluate]
      exact (ih left).bind fun _ => (ih right).bind fun _ => ofResult _
    | logical left op right =>
      rw [evaluate]
      refine (ih left).bind fun v => ?_
      split
      · exact ofResult (.ok v)
      · exact ih right
    | name token => rw [evaluate]; exact lookup token
    | assign target value =>
      rw [evaluate]
      exact (ih value).bind fun v => (assign target v).bind fun _ => ofResult (.ok v)
    | call callee paren arguments =>
      rw [evaluate]
      exact (ih callee).bind fun f => (mapM ih arguments).bind fun vs => apply host n paren f vs

/-- A **statement** ignores empty frames, but for a declaration the innermost frame, which gains its
name. Neither a branch nor the body of a loop is a declaration. -/
theorem ignoresEmptyFrame_execute (n : Nat) {s : Stmt} {k : Nat}
    (h : k = 0 → s.WellFormed ∧ ¬ s.IsDeclaration) : (execute host n s).IgnoresEmptyFrame k := by
  have he := ignoresEmptyFrame_evaluate host
  induction n generalizing s k with
  | zero => rw [execute]; exact ofResult (.error _)
  | succ n ih =>
    -- In the frame that a declaration binds in, there is a frame in front of the empty one.
    have hdefine : s.IsDeclaration → ∀ x v, (Eval.define x v).IgnoresEmptyFrame k := by
      intro hs x v
      cases k with
      | zero => exact absurd hs (h rfl).2
      | succ k => exact .define x v
    cases s with
    | expression value =>
      rw [execute]
      exact (he n value k).bind fun _ => ofResult (.ok ())
    | print value =>
      rw [execute]
      exact (he n value k).bind fun v => .print v.display
    | declare target value =>
      cases value with
      | none => rw [execute]; exact hdefine trivial target.lexeme .nil
      | some value =>
        rw [execute]
        exact (he n value k).bind fun v => hdefine trivial target.lexeme v
    | block body =>
      rw [execute]
      exact .inBlock (.forM (fun s => ih fun hk => absurd hk (Nat.succ_ne_zero k)) body)
    | branch condition yes no =>
      have hyes : (execute host n yes).IgnoresEmptyFrame k := by
        refine ih fun hk => ?_
        obtain ⟨_ | _ | _ | _ | ⟨-, hyes, hplain, -, -⟩, -⟩ := h hk
        exact ⟨hyes, hplain⟩
      cases no with
      | none =>
        rw [execute]
        refine (he n condition k).bind fun v => ?_
        split
        · exact hyes
        · exact ofResult (.ok ())
      | some no =>
        have hno : (execute host n no).IgnoresEmptyFrame k := by
          refine ih fun hk => ?_
          obtain ⟨_ | _ | _ | _ | ⟨-, -, -, hno, hplain⟩, -⟩ := h hk
          exact ⟨hno no rfl, hplain no rfl⟩
        rw [execute]
        refine (he n condition k).bind fun v => ?_
        split
        · exact hyes
        · exact hno
    | loop condition body =>
      have hbody : (execute host n body).IgnoresEmptyFrame k := by
        refine ih fun hk => ?_
        obtain ⟨_ | _ | _ | _ | _ | ⟨-, hbody, hplain⟩, -⟩ := h hk
        exact ⟨hbody, hplain⟩
      rw [execute]
      exact .repeatWhile (.map Value.isTruthy (he n condition k)) hbody host.rounds
    | function target parameters body =>
      rw [execute]
      exact (newFunction _).bind fun f => hdefine trivial target.lexeme f
    | returnValue keyword value =>
      cases value with
      | none => rw [execute]; exact ofResult (.error _)
      | some value => rw [execute]; exact (he n value k).bind fun v => ofResult (.error _)

end

end LoxLang
