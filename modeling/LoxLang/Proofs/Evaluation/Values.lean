import LoxLang.Evaluation
import LoxLang.Proofs.Scopes.Bindings

/-!
# What all values satisfy

A property of values is **lasting** if values that are not functions have it, if a function has it
when its declaration is executed, and if more functions being made does not take it away. Such a
property may speak of the number of functions made so far. The main statements are
`Value.Lasting.evaluate` and `Value.Lasting.execute`: when every value that a memory binds has a
lasting property, so has every value that evaluation binds in it, evaluates to or returns.

Which declarations are executed is known from the program: those that its statements declare, and
those in the bodies of functions that are values already.
-/

namespace LoxLang

/-- The statement **declares** `f`: to execute it may execute this declaration, outside of any
call. -/
inductive Stmt.Declares (f : Function) : Stmt → Prop
  | function : Declares f (.function f.name f.parameters f.body)
  | block {body : List Stmt} {s : Stmt} : s ∈ body → Declares f s → Declares f (.block body)
  | yes {condition : Expr} {yes : Stmt} {no : Option Stmt} :
    Declares f yes → Declares f (.branch condition yes no)
  | no {condition : Expr} {yes no : Stmt} :
    Declares f no → Declares f (.branch condition yes (some no))
  | loop {condition : Expr} {body : Stmt} : Declares f body → Declares f (.loop condition body)

/-- The property `P` of values, given the number of functions made so far, is **lasting** where only
declarations with `A` are executed. -/
structure Value.Lasting (A : Function → Prop) (P : Nat → Value → Prop) : Prop where
  mono : ∀ {c c' v}, c ≤ c' → P c v → P c' v
  plain : ∀ {c v}, (∀ f i, v ≠ .function f i) → P c v
  made : ∀ {c f}, A f → P (c + 1) (.function f c)
  body : ∀ {c f i s g}, P c (.function f i) → s ∈ f.body → s.Declares g → A g

/-- What functions pass on to those declared in their bodies is a **lasting** property of values
that are functions. -/
theorem Value.lasting_functions {A : Function → Prop}
    (hA : ∀ {f g : Function} {s : Stmt}, A f → s ∈ f.body → s.Declares g → A g) :
    Value.Lasting A fun _ v => ∀ f i, v = .function f i → A f where
  mono _ h := h
  plain hv f i h := absurd h (hv f i)
  made hf f i h := by
    cases h
    exact hf
  body hv hs hg := hA (hv _ _ rfl) hs hg

/-- **Every** value that a memory binds satisfies `P`. -/
def Memory.Every (P : Nat → Value → Prop) (m : Memory) : Prop := m.scopes.Every (P m.created)

namespace Eval

variable {α : Type}

/-- A value on its way to a call satisfies `P`. -/
def InterruptHas (P : Nat → Value → Prop) (c : Nat) : Interrupt → Prop
  | .returning _ v => P c v
  | _ => True

/-- A result is a value with `Q`, or an interrupt by a value with `P`. -/
def ResultHas (P : Nat → Value → Prop) (Q : Nat → α → Prop) (c : Nat) : Except Interrupt α → Prop
  | .ok a => Q c a
  | .error e => InterruptHas P c e

/-- From a memory in which at least `c` functions were made and all values satisfy `P`, the
computation **gives** a value with `Q`, and all values still satisfy `P`. -/
def Gives (P : Nat → Value → Prop) (c : Nat) (Q : Nat → α → Prop) (p : Eval α) : Prop :=
  ∀ m : Memory, c ≤ m.created → m.Every P →
    m.created ≤ (p.run m).2.created ∧ (p.run m).2.Every P ∧
      ResultHas P Q (p.run m).2.created (p.run m).1

end Eval

namespace Value.Lasting

open Eval

variable {A : Function → Prop} {P : Nat → Value → Prop} {α β : Type} {c : Nat}

/-! ### Computations built from others -/

theorem ofResult {Q : Nat → α → Prop} {r : Except Interrupt α}
    (hr : ∀ c', c ≤ c' → ResultHas P Q c' r) : (Eval.ofResult r).Gives P c Q := by
  intro m hc hm
  rw [run_ofResult]
  exact ⟨Nat.le_refl _, hm, hr m.created hc⟩

theorem pure {Q : Nat → α → Prop} {a : α} (ha : ∀ c', c ≤ c' → Q c' a) :
    (Pure.pure a : Eval α).Gives P c Q :=
  ofResult (r := .ok a) ha

theorem bind {Q : Nat → α → Prop} {Q' : Nat → β → Prop} {p : Eval α} {f : α → Eval β}
    (hp : p.Gives P c Q) (hf : ∀ a c', c ≤ c' → Q c' a → (f a).Gives P c' Q') :
    (p >>= f).Gives P c Q' := by
  intro m hc hm
  obtain ⟨hle, hevery, hresult⟩ := hp m hc hm
  rw [run_bind]
  rcases h : p.run m with ⟨e | a, m'⟩ <;> rw [h] at hle hevery hresult
  · exact ⟨hle, hevery, hresult⟩
  · obtain ⟨hle', hevery', hresult'⟩ :=
      hf a m'.created (Nat.le_trans hc hle) hresult m' (Nat.le_refl _) hevery
    exact ⟨Nat.le_trans hle hle', hevery', hresult'⟩

theorem map {Q : Nat → α → Prop} {Q' : Nat → β → Prop} {p : Eval α} {f : α → β}
    (hp : p.Gives P c Q) (hf : ∀ a c', Q c' a → Q' c' (f a)) : (f <$> p).Gives P c Q' := by
  intro m hc hm
  obtain ⟨hle, hevery, hresult⟩ := hp m hc hm
  rw [run_map]
  refine ⟨hle, hevery, ?_⟩
  cases hr : (p.run m).1 with
  | error e => rw [hr] at hresult; exact hresult
  | ok a => rw [hr] at hresult; exact hf a _ hresult

/-- A computation that changes no value and makes none gives anything. -/
theorem modify {f : Memory → Memory} (hcreated : ∀ m, (f m).created = m.created)
    (hscopes : ∀ m, c ≤ m.created → m.Every P → (f m).Every P) :
    (MonadState.modifyGet fun m => ((), f m) : Eval Unit).Gives P c fun _ _ => True := by
  intro m hc hm
  exact ⟨Nat.le_of_eq (hcreated m).symm, hscopes m hc hm, trivial⟩

theorem forM {f : α → Eval Unit} {as : List α}
    (hf : ∀ a ∈ as, ∀ c', c ≤ c' → (f a).Gives P c' fun _ _ => True) :
    (as.forM f).Gives P c fun _ _ => True := by
  induction as generalizing c with
  | nil => exact pure fun _ _ => trivial
  | cons a as ih =>
    obtain ⟨ha, has⟩ := List.forall_mem_cons.mp hf
    refine bind (ha c (Nat.le_refl _)) fun _ c' hc _ => ih fun b hb c'' hc' => ?_
    exact has b hb c'' (Nat.le_trans hc hc')

theorem repeatWhile {condition : Eval Bool} {body : Eval Unit}
    (hcondition : ∀ c', c ≤ c' → condition.Gives P c' fun _ _ => True)
    (hbody : ∀ c', c ≤ c' → body.Gives P c' fun _ _ => True) (n : Nat) :
    (Eval.repeatWhile condition body n).Gives P c fun _ _ => True := by
  induction n generalizing c with
  | zero => exact ofResult (r := .error _) fun _ _ => trivial
  | succ n ih =>
    refine bind (hcondition c (Nat.le_refl _)) fun holds c' hc _ => ?_
    cases holds with
    | false => exact pure fun _ _ => trivial
    | true =>
      refine bind (hbody c' hc) fun _ c'' hc' _ => ih (fun d hd => ?_) fun d hd => ?_
      · exact hcondition d (Nat.le_trans hc (Nat.le_trans hc' hd))
      · exact hbody d (Nat.le_trans hc (Nat.le_trans hc' hd))

theorem inBlock {Q : Nat → α → Prop} {body : Eval α} (hbody : body.Gives P c Q) :
    (Eval.inBlock body).Gives P c Q := by
  intro m hc hm
  obtain ⟨hle, hevery, hresult⟩ := hbody { m with scopes := m.scopes.enterBlock } hc hm.enterBlock
  exact ⟨hle, hevery.exitBlock, hresult⟩

variable (hP : Value.Lasting A P)
include hP

theorem number (x : Float) : P c (.number x) := hP.plain fun _ _ hf => Value.noConfusion hf

theorem bool (b : Bool) : P c (.bool b) := hP.plain fun _ _ hf => Value.noConfusion hf

theorem nil : P c .nil := hP.plain fun _ _ hf => Value.noConfusion hf

theorem ofLiteral (l : Literal) : P c (.ofLiteral l) :=
  hP.plain fun _ _ hf => by cases l <;> cases hf

theorem mapM {f : α → Eval Value} {as : List α}
    (hf : ∀ a ∈ as, ∀ c', c ≤ c' → (f a).Gives P c' P) :
    (as.mapM f).Gives P c fun c' vs => ∀ v ∈ vs, P c' v := by
  induction as generalizing c with
  | nil => exact pure fun _ _ v hv => absurd hv List.not_mem_nil
  | cons a as ih =>
    obtain ⟨ha, has⟩ := List.forall_mem_cons.mp hf
    rw [List.mapM_cons]
    refine bind (ha c (Nat.le_refl _)) fun v c' hc hv => ?_
    refine bind (ih fun b hb d hd => has b hb d (Nat.le_trans hc hd)) fun vs c'' hc' hvs => ?_
    refine pure fun d hd => List.forall_mem_cons.mpr ⟨?_, fun w hw => ?_⟩
    · exact hP.mono (Nat.le_trans hc' hd) hv
    · exact hP.mono hd (hvs w hw)

theorem returned {body : Eval Unit} (hbody : body.Gives P c fun _ _ => True) :
    (Eval.returned body).Gives P c P := by
  intro m hc hm
  obtain ⟨hle, hevery, hresult⟩ := hbody m hc hm
  rw [run_returned]
  refine ⟨hle, hevery, ?_⟩
  rcases h : (body.run m).1 with (_ | _ | _) | _ <;> rw [h] at hresult
  · trivial
  · exact hresult
  · trivial
  · exact hP.nil

/-! ### Variables, operators and calls -/

theorem define {x : String} {v : Value} (hv : P c v) :
    (Eval.define x v).Gives P c fun _ _ => True :=
  modify (f := fun m => { m with scopes := m.scopes.define x v }) (fun _ => rfl)
    fun _ hc hm => Scopes.Every.define hm (hP.mono hc hv)

omit hP in
theorem lookup (name : Token) : (Eval.lookup name).Gives P c P := by
  intro m hc hm
  rw [run_lookup]
  refine ⟨Nat.le_refl _, hm, ?_⟩
  cases h : m.scopes.get? name.lexeme with
  | none => trivial
  | some v => exact Scopes.Every.get? hm h

theorem assign {name : Token} {v : Value} (hv : P c v) :
    (Eval.assign name v).Gives P c fun _ _ => True := by
  intro m hc hm
  rw [run_assign]
  cases h : m.scopes.assign? name.lexeme v with
  | none => exact ⟨Nat.le_refl _, hm, trivial⟩
  | some scopes =>
    exact ⟨Nat.le_refl _, Scopes.Every.assign? hm (hP.mono hc hv) h, trivial⟩

theorem newFunction {f : Function} (hf : A f) : (Eval.newFunction f).Gives P c P := by
  intro m hc hm
  refine ⟨Nat.le_succ _, Scopes.Every.mono hm fun v hv => ?_, hP.made hf⟩
  exact hP.mono (Nat.le_succ _) hv

theorem applyUnary (op : Token) (v : Value) : ResultHas P P c (LoxLang.applyUnary op v) := by
  unfold LoxLang.applyUnary
  split
  · split
    · exact hP.number _
    · trivial
  · exact hP.bool _

theorem applyNumbers (op : Token) (x y : Float) :
    ResultHas P P c (LoxLang.applyNumbers op x y) := by
  unfold LoxLang.applyNumbers
  split
  · exact hP.number _
  · exact hP.number _
  · exact hP.number _
  · exact hP.bool _
  · exact hP.bool _
  · exact hP.bool _
  · exact hP.bool _
  · trivial

theorem applyBinary (op : Token) (v w : Value) : ResultHas P P c (LoxLang.applyBinary op v w) := by
  unfold LoxLang.applyBinary
  split
  · split
    · exact hP.number _
    · exact hP.plain fun _ _ hf => Value.noConfusion hf
    · trivial
  · exact hP.bool _
  · exact hP.bool _
  · split
    · exact hP.applyNumbers op _ _
    · trivial

theorem bindParameters (parameters : List Token) {arguments : List Value}
    (hv : ∀ v ∈ arguments, P c v) :
    (Eval.bindParameters parameters arguments).Gives P c fun _ _ => True := by
  refine forM fun entry hentry c' hc => ?_
  exact hP.define (hP.mono hc (hv entry.2 (List.of_mem_zip hentry).2))

theorem call (parameters : List Token) {arguments : List Value} {body : Eval Unit}
    (hv : ∀ v ∈ arguments, P c v) (hbody : ∀ c', c ≤ c' → body.Gives P c' fun _ _ => True) :
    (Eval.call parameters arguments body).Gives P c P := by
  intro m hc hm
  rw [run_call]
  have hinner := hP.returned
    (bind (hP.bindParameters parameters hv) fun _ c' hc' _ => inBlock (hbody c' hc'))
  obtain ⟨hle, hevery, hresult⟩ := hinner { m with scopes := m.scopes.enterCall.enterBlock } hc
    (Scopes.Every.enterBlock (Scopes.Every.enterCall hm))
  exact ⟨hle, Scopes.Every.exitCall hevery, hresult⟩

theorem apply {host : Host} {run : List Stmt → Eval Unit} {paren : Token} {callee : Value}
    {arguments : List Value} (hcallee : P c callee) (hv : ∀ v ∈ arguments, P c v)
    (hrun : ∀ body, (∀ s ∈ body, ∀ f, s.Declares f → A f) → ∀ c', c ≤ c' →
      (run body).Gives P c' fun _ _ => True) :
    (Eval.apply host run paren callee arguments).Gives P c P := by
  cases callee with
  | function f identity =>
    rw [apply_function]
    split
    · exact hP.call f.parameters hv (hrun f.body fun s hs g hg => hP.body hcallee hs hg)
    · exact ofResult (r := .error _) fun _ _ => trivial
  | native f identity =>
    rw [apply_native]
    split
    · intro m hc hm
      exact ⟨Nat.le_refl _, hm, hP.number _⟩
    · exact ofResult (r := .error _) fun _ _ => trivial
  | _ =>
    rw [apply_of_arity?_eq_none host run paren rfl]
    exact ofResult (r := .error _) fun _ _ => trivial

/-! ### Expressions and statements -/

/-- One more level of nesting: both kinds of steps are built from steps that nest less. -/
private theorem gives_succ (host : Host) {n : Nat}
    (he : ∀ e c, (LoxLang.evaluate host n e).Gives P c P)
    (hs : ∀ s c, (∀ f, s.Declares f → A f) → (LoxLang.execute host n s).Gives P c fun _ _ => True) :
    (∀ e c, (LoxLang.evaluate host (n + 1) e).Gives P c P) ∧
      ∀ s c, (∀ f, s.Declares f → A f) →
        (LoxLang.execute host (n + 1) s).Gives P c fun _ _ => True := by
  refine ⟨fun e c => ?_, fun s c hA => ?_⟩
  · cases e with
    | literal value => rw [LoxLang.evaluate]; exact pure fun c' _ => hP.ofLiteral value
    | grouping inner => rw [LoxLang.evaluate]; exact he inner c
    | unary op operand =>
      rw [LoxLang.evaluate]
      exact bind (he operand c) fun v c' _ _ => ofResult fun _ _ => hP.applyUnary op v
    | binary left op right =>
      rw [LoxLang.evaluate]
      refine bind (he left c) fun v c' _ _ => ?_
      exact bind (he right c') fun w c'' _ _ => ofResult fun _ _ => hP.applyBinary op v w
    | logical left op right =>
      rw [LoxLang.evaluate]
      refine bind (he left c) fun v c' _ hv => ?_
      split
      · exact pure fun d hd => hP.mono hd hv
      · exact he right c'
    | name token => rw [LoxLang.evaluate]; exact lookup token
    | assign target value =>
      rw [LoxLang.evaluate]
      refine bind (he value c) fun v c' _ hv => ?_
      exact bind (hP.assign hv) fun _ c'' hc _ => pure fun d hd =>
        hP.mono (Nat.le_trans hc hd) hv
    | call callee paren arguments =>
      rw [LoxLang.evaluate]
      refine bind (he callee c) fun f c' _ hf => ?_
      refine bind (hP.mapM fun e _ d _ => he e d) fun vs c'' hc hvs => ?_
      -- The body that runs is that of a function in sight, so it declares what `hP.body` says.
      refine hP.apply (hP.mono hc hf) hvs fun body hbody d _ => ?_
      exact forM fun s hmem d' _ => hs s d' (hbody s hmem)
  · cases s with
    | expression value =>
      rw [LoxLang.execute]
      exact bind (he value c) fun _ _ _ _ => pure fun _ _ => trivial
    | print value =>
      rw [LoxLang.execute]
      refine bind (he value c) fun v c' _ _ => ?_
      exact modify (fun _ => rfl) fun _ _ hm => hm
    | declare target value =>
      cases value with
      | none => rw [LoxLang.execute]; exact hP.define hP.nil
      | some value =>
        rw [LoxLang.execute]
        exact bind (he value c) fun v c' _ hv => hP.define hv
    | block body =>
      rw [LoxLang.execute]
      refine inBlock (forM fun s hmem c' _ => hs s c' fun f hf => ?_)
      exact hA f (.block hmem hf)
    | branch condition yes no =>
      cases no with
      | none =>
        rw [LoxLang.execute]
        refine bind (he condition c) fun v c' _ _ => ?_
        split
        · exact hs yes c' fun f hf => hA f (.yes hf)
        · exact pure fun _ _ => trivial
      | some no =>
        rw [LoxLang.execute]
        refine bind (he condition c) fun v c' _ _ => ?_
        split
        · exact hs yes c' fun f hf => hA f (.yes hf)
        · exact hs no c' fun f hf => hA f (.no hf)
    | loop condition body =>
      rw [LoxLang.execute]
      refine repeatWhile (fun c' _ => map (he condition c') fun _ _ _ => trivial) (fun c' _ => ?_) _
      exact hs body c' fun f hf => hA f (.loop hf)
    | function target parameters body =>
      rw [LoxLang.execute]
      refine bind (hP.newFunction (hA ⟨target, parameters, body⟩ .function)) fun f c' _ hf => ?_
      exact hP.define hf
    | returnValue keyword value =>
      cases value with
      | none => rw [LoxLang.execute]; exact ofResult (r := .error _) fun _ _ => hP.nil
      | some value =>
        rw [LoxLang.execute]
        exact bind (he value c) fun v c' _ hv => ofResult (r := .error _) fun d hd => hP.mono hd hv

private theorem gives (host : Host) (n : Nat) :
    (∀ e c, (LoxLang.evaluate host n e).Gives P c P) ∧
      ∀ s c, (∀ f, s.Declares f → A f) →
        (LoxLang.execute host n s).Gives P c fun _ _ => True := by
  induction n with
  | zero =>
    refine ⟨fun e c => ?_, fun s c _ => ?_⟩
    · rw [LoxLang.evaluate]; exact ofResult (r := .error _) fun _ _ => trivial
    · rw [LoxLang.execute]; exact ofResult (r := .error _) fun _ _ => trivial
  | succ n ih => exact hP.gives_succ host ih.1 ih.2

/-- An **expression** gives a value with a lasting property, and so are all values it binds. -/
theorem evaluate (host : Host) (n : Nat) (e : Expr) (c : Nat) :
    (LoxLang.evaluate host n e).Gives P c P := (hP.gives host n).1 e c

/-- The values that a **statement** binds or returns have a lasting property. -/
theorem execute (host : Host) (n : Nat) {s : Stmt} (hA : ∀ f, s.Declares f → A f) (c : Nat) :
    (LoxLang.execute host n s).Gives P c fun _ _ => True := (hP.gives host n).2 s c hA

/-- The values that a **list of statements** binds or returns have a lasting property. -/
theorem executeAll (host : Host) (n : Nat) {statements : List Stmt}
    (hA : ∀ s ∈ statements, ∀ f, s.Declares f → A f) (c : Nat) :
    (LoxLang.executeAll host n statements).Gives P c fun _ _ => True :=
  forM fun s hs c' _ => hP.execute host n (hA s hs) c'

/-- The memory that programs start from holds no functions but `clock`. -/
theorem fresh : Memory.fresh.Every P := by
  refine Scopes.Every.define (fun frame hframe => ?_) (hP.plain nofun)
  rw [List.mem_singleton.mp hframe]
  exact fun entry hentry => absurd hentry List.not_mem_nil

end Value.Lasting

end LoxLang
