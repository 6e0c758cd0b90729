import LoxLang.Proofs.Evaluation.Values
import LoxLang.Proofs.Syntax.Tokens

/-!
# What interrupts blame

A runtime error blames the token it arose at, and a `return` its keyword. Where a statement is
executed, this is a token of the statement itself or of the body of a function in sight, however the
function got there: it may have been declared by another program, bound to another name, passed to a
call or returned from one.

`Eval.Blames` is about one computation, and its main instances are `Eval.blames_evaluate` and
`Eval.blames_execute`. A program that is run in a fresh memory finds no functions there, so its
interrupts blame its own tokens (`blamed_by_program`).
-/

namespace LoxLang

/-- The token that an interrupt **blames**. Nothing is to blame where a run is aborted. -/
def Interrupt.token? : Interrupt → Option Token
  | failure e => some e.token
  | returning keyword _ => some keyword
  | abort _ => none

variable (K : Token → Prop)

/-- All tokens in the body of a function satisfy `K`. -/
def Function.Within (f : Function) : Prop := ∀ s ∈ f.body, ∀ t ∈ s.tokens, K t

/-- All tokens in the bodies of functions that a memory binds satisfy `K`. -/
def Memory.FunctionsWithin (m : Memory) : Prop :=
  m.Every fun _ v => ∀ f i, v = .function f i → f.Within K

variable {K}

/-- A statement has all tokens of the functions it declares. -/
theorem Stmt.within_of_declares {s : Stmt} {f : Function} (hs : ∀ t ∈ s.tokens, K t)
    (hf : s.Declares f) : f.Within K := by
  induction hf with
  | function =>
    rw [tokens] at hs
    exact List.forall_mem_flatMap.mp (List.forall_mem_append.mp hs).2
  | block hmem _ ih =>
    rw [tokens] at hs
    exact ih (List.forall_mem_flatMap.mp hs _ hmem)
  | @yes condition yes no _ ih =>
    cases no with
    | none =>
      rw [tokens] at hs
      exact ih (List.forall_mem_append.mp hs).2
    | some no =>
      rw [tokens] at hs
      exact ih (List.forall_mem_append.mp (List.forall_mem_append.mp hs).1).2
  | no _ ih =>
    rw [tokens] at hs
    exact ih (List.forall_mem_append.mp hs).2
  | loop _ ih =>
    rw [tokens] at hs
    exact ih (List.forall_mem_append.mp hs).2

/-- That all functions have tokens with `K` lasts. -/
theorem Value.lasting_within :
    Value.Lasting (Function.Within K) (fun _ v => ∀ f i, v = .function f i → f.Within K) :=
  Value.lasting_functions fun hf hs hg => Stmt.within_of_declares (hf _ hs) hg

namespace Eval

variable {α β : Type}

/-- If a computation on functions with tokens in `K` is interrupted, then it **blames** a token
with `K`. -/
def Blames (K : Token → Prop) (p : Eval α) : Prop :=
  ∀ m : Memory, m.FunctionsWithin K → ∀ i, (p.run m).1 = .error i → ∀ t ∈ i.token?, K t

/-- The computation keeps functions with tokens in `K`, and gives a value with `Q`. -/
abbrev GivesWithin (K : Token → Prop) (Q : α → Prop) (p : Eval α) : Prop :=
  p.Gives (fun _ v => ∀ f i, v = .function f i → f.Within K) 0 fun _ => Q

/-! ### Computations built from others -/

namespace Blames

theorem ofResult {r : Except Interrupt α} (h : ∀ i, r = .error i → ∀ t ∈ i.token?, K t) :
    (Eval.ofResult r).Blames K := by
  intro m _
  rw [run_ofResult]
  exact h

/-- A runtime error **blames** the token it arises at. -/
theorem fail {t : Token} (ht : K t) (cause : RuntimeCause) :
    (Eval.ofResult (fail t cause : Except Interrupt α)).Blames K := by
  refine ofResult fun i hi => ?_
  cases hi
  rintro _ ⟨⟩
  exact ht

/-- A `return` **blames** its keyword. -/
theorem returning {keyword : Token} (hkeyword : K keyword) (v : Value) :
    (throw (.returning keyword v) : Eval α).Blames K := by
  refine ofResult (r := .error _) fun i hi => ?_
  cases hi
  rintro _ ⟨⟩
  exact hkeyword

theorem pure (a : α) : (Pure.pure a : Eval α).Blames K :=
  ofResult (r := .ok a) fun i hi => by cases hi

/-- What is never interrupted blames nobody. -/
theorem of_ok {p : Eval α} (h : ∀ m, ∃ a, (p.run m).1 = .ok a) : p.Blames K := by
  intro m _ i hi
  obtain ⟨a, ha⟩ := h m
  cases hi.symm.trans ha

theorem abort (reason : Abort) : (Eval.abort reason : Eval α).Blames K :=
  ofResult (r := .error (.abort reason)) fun i hi => by
    cases hi
    exact nofun

theorem bind {Q : α → Prop} {p : Eval α} {f : α → Eval β} (hp : p.Blames K)
    (hgives : GivesWithin K Q p) (hf : ∀ a, Q a → (f a).Blames K) : (p >>= f).Blames K := by
  intro m hm i hi
  obtain ⟨-, hevery, hresult⟩ := hgives m (Nat.zero_le _) hm
  rw [run_bind] at hi
  rcases h : p.run m with ⟨e | a, m'⟩
  · rw [h] at hi
    cases hi
    exact hp m hm i (congrArg Prod.fst h)
  · rw [h] at hevery hresult hi
    exact hf a hresult m' hevery i hi

/-- What comes second blames nobody if it is not interrupted. -/
theorem map (f : α → β) {p : Eval α} (hp : p.Blames K) : (f <$> p).Blames K := by
  intro m hm i hi
  rw [run_map] at hi
  rcases h : (p.run m).1 with e | a
  · rw [h] at hi
    cases hi
    exact hp m hm i h
  · rw [h] at hi
    cases hi

theorem forM {f : α → Eval Unit} {as : List α} (hf : ∀ a ∈ as, (f a).Blames K)
    (hgives : ∀ a ∈ as, GivesWithin K (fun _ => True) (f a)) : (as.forM f).Blames K := by
  induction as with
  | nil => exact pure _
  | cons a as ih =>
    obtain ⟨ha, has⟩ := List.forall_mem_cons.mp hf
    obtain ⟨hgive, hgives⟩ := List.forall_mem_cons.mp hgives
    exact ha.bind hgive fun _ _ => ih has hgives

theorem mapM {Q : β → Prop} {f : α → Eval β} {as : List α} (hf : ∀ a ∈ as, (f a).Blames K)
    (hgives : ∀ a ∈ as, GivesWithin K Q (f a)) : (as.mapM f).Blames K := by
  induction as with
  | nil => exact pure _
  | cons a as ih =>
    obtain ⟨ha, has⟩ := List.forall_mem_cons.mp hf
    obtain ⟨hgive, hgives⟩ := List.forall_mem_cons.mp hgives
    rw [List.mapM_cons]
    exact ha.bind hgive fun b _ => by
      simpa only [bind_pure_comp] using (ih has hgives).map (b :: ·)

theorem repeatWhile {condition : Eval Bool} {body : Eval Unit} (hcondition : condition.Blames K)
    (hgives : GivesWithin K (fun _ => True) condition) (hbody : body.Blames K)
    (hgives' : GivesWithin K (fun _ => True) body) (k : Nat) :
    (Eval.repeatWhile condition body k).Blames K := by
  induction k with
  | zero => exact abort _
  | succ k ih =>
    refine hcondition.bind hgives fun holds _ => ?_
    cases holds with
    | false => exact pure _
    | true => exact hbody.bind hgives' fun _ _ => ih

theorem inBlock {body : Eval α} (hbody : body.Blames K) : (Eval.inBlock body).Blames K := by
  intro m hm i hi
  have hentered : Memory.FunctionsWithin K { m with scopes := m.scopes.enterBlock } :=
    hm.enterBlock
  rw [run_inBlock] at hi
  exact hbody _ hentered i hi

/-- What is **called** blames what its body blames, except for the `return` that ends it. -/
theorem call (parameters : List Token) {arguments : List Value} {body : Eval Unit}
    (hbody : body.Blames K)
    (hv : ∀ v ∈ arguments, ∀ f i, v = .function f i → f.Within K) :
    (Eval.call parameters arguments body).Blames K := by
  intro m hm i hi
  have hentered : Memory.FunctionsWithin K { m with scopes := m.scopes.enterCall.enterBlock } :=
    Scopes.Every.enterBlock (Scopes.Every.enterCall hm)
  have hgives : ∀ entry ∈ parameters.zip arguments, GivesWithin K (fun _ => True)
      (define entry.1.lexeme entry.2) := fun entry hentry =>
    Value.lasting_within.define (hv entry.2 (List.of_mem_zip hentry).2)
  have hbound : (bindParameters parameters arguments).Blames K :=
    forM (fun entry _ => of_ok fun _ => ⟨(), rfl⟩) hgives
  have hinner := hbound.bind (Value.lasting_within.bindParameters parameters hv)
    (fun _ _ => hbody.inBlock) _ hentered
  rw [run_call, run_returned] at hi
  dsimp only at hi
  -- A call turns a `return` into its value, and passes on all else.
  rcases hend : ((do bindParameters parameters arguments; Eval.inBlock body : Eval Unit).run
    { m with scopes := m.scopes.enterCall.enterBlock }).1 with (e | _ | _) | _
  · rw [hend] at hi
    cases hi
    exact hinner _ hend
  · rw [hend] at hi
    cases hi
  · rw [hend] at hi
    cases hi
    exact nofun
  · rw [hend] at hi
    cases hi

theorem apply {host : Host} {run : List Stmt → Eval Unit} {paren : Token} (hparen : K paren)
    {callee : Value} {arguments : List Value}
    (hcallee : ∀ f i, callee = .function f i → f.Within K)
    (hv : ∀ v ∈ arguments, ∀ f i, v = .function f i → f.Within K)
    (hrun : ∀ body : List Stmt, (∀ s ∈ body, ∀ t ∈ s.tokens, K t) → (run body).Blames K) :
    (Eval.apply host run paren callee arguments).Blames K := by
  cases callee with
  | function f identity =>
    rw [apply_function]
    split
    · exact (hrun f.body (hcallee f identity rfl)).call f.parameters hv
    · exact fail hparen _
  | native f identity =>
    rw [apply_native]
    split
    · exact of_ok fun _ => ⟨_, rfl⟩
    · exact fail hparen _
  | _ =>
    rw [apply_of_arity?_eq_none host run paren rfl]
    exact fail hparen _

/-! ### Operators and variables -/

theorem unary {op : Token} (hop : K op) (v : Value) :
    (Eval.ofResult (applyUnary op v)).Blames K := by
  refine ofResult fun i hi => ?_
  obtain ⟨cause, rfl⟩ := eq_failure_of_applyUnary hi
  rintro _ ⟨⟩
  exact hop

theorem binary {op : Token} (hop : K op) (v w : Value) :
    (Eval.ofResult (applyBinary op v w)).Blames K := by
  refine ofResult fun i hi => ?_
  obtain ⟨cause, rfl⟩ | rfl := eq_failure_of_applyBinary hi
  · rintro _ ⟨⟩
    exact hop
  · rintro _ ⟨⟩

theorem lookup {name : Token} (hname : K name) : (Eval.lookup name).Blames K := by
  intro m _ i hi
  rw [run_lookup] at hi
  split at hi
  · cases hi
  · cases hi
    rintro _ ⟨⟩
    exact hname

theorem assign {name : Token} (hname : K name) (v : Value) : (Eval.assign name v).Blames K := by
  intro m _ i hi
  rw [run_assign] at hi
  split at hi
  · cases hi
  · cases hi
    rintro _ ⟨⟩
    exact hname

end Blames

/-! ### Expressions and statements -/

section

variable (host : Host) {n : Nat}

/-- One more level of nesting, for **expressions**. -/
private theorem blames_evaluate_succ
    (he : ∀ e : Expr, (∀ t ∈ e.tokens, K t) → (evaluate host n e).Blames K)
    (hs : ∀ s : Stmt, (∀ t ∈ s.tokens, K t) → (execute host n s).Blames K)
    {e : Expr} (h : ∀ t ∈ e.tokens, K t) : (evaluate host (n + 1) e).Blames K := by
  have hgives : ∀ e, GivesWithin K (fun v => ∀ f i, v = .function f i → f.Within K)
      (evaluate host n e) := fun e => Value.lasting_within.evaluate host n e 0
  cases e with
  | literal value => rw [evaluate]; exact .pure _
  | grouping inner =>
    rw [Expr.tokens] at h
    rw [evaluate]
    exact he inner h
  | unary op operand =>
    rw [Expr.tokens] at h
    obtain ⟨hop, hoperand⟩ := List.forall_mem_cons.mp h
    rw [evaluate]
    exact (he operand hoperand).bind (hgives _) fun v _ => .unary hop v
  | binary left op right =>
    rw [Expr.tokens] at h
    obtain ⟨hleft, hrest⟩ := List.forall_mem_append.mp h
    obtain ⟨hop, hright⟩ := List.forall_mem_cons.mp hrest
    rw [evaluate]
    refine (he left hleft).bind (hgives _) fun v _ => ?_
    exact (he right hright).bind (hgives _) fun w _ => .binary hop v w
  | logical left op right =>
    rw [Expr.tokens] at h
    obtain ⟨hleft, hrest⟩ := List.forall_mem_append.mp h
    rw [evaluate]
    refine (he left hleft).bind (hgives _) fun v _ => ?_
    split
    · exact .pure _
    · exact he right (List.forall_mem_cons.mp hrest).2
  | name token =>
    rw [Expr.tokens] at h
    rw [evaluate]
    exact .lookup (List.forall_mem_singleton.mp h)
  | assign target value =>
    rw [Expr.tokens] at h
    obtain ⟨htarget, hvalue⟩ := List.forall_mem_cons.mp h
    rw [evaluate]
    refine (he value hvalue).bind (hgives _) fun v hv => ?_
    exact Blames.bind (.assign htarget v) (Value.lasting_within.assign hv) fun _ _ => .pure _
  | call callee paren arguments =>
    rw [Expr.tokens] at h
    obtain ⟨hfront, hparen⟩ := List.forall_mem_append.mp h
    obtain ⟨hcallee, harguments⟩ := List.forall_mem_append.mp hfront
    rw [evaluate]
    refine (he callee hcallee).bind (hgives _) fun f hf => ?_
    refine Blames.bind (Q := fun vs => ∀ v ∈ vs, ∀ f i, v = .function f i → f.Within K)
      (.mapM (fun e hmem => he e (List.forall_mem_flatMap.mp harguments e hmem))
        fun e _ => hgives e) ?_ fun vs hvs => ?_
    · exact Value.lasting_within.mapM fun e _ c _ => Value.lasting_within.evaluate host n e c
    · refine .apply (List.forall_mem_singleton.mp hparen) hf hvs fun body hbody => ?_
      refine .forM (fun s hmem => hs s (hbody s hmem)) fun s hmem => ?_
      exact Value.lasting_within.execute host n
        (fun _ hg => Stmt.within_of_declares (hbody s hmem) hg) 0

/-- One more level of nesting, for **statements**. -/
private theorem blames_execute_succ
    (he : ∀ e : Expr, (∀ t ∈ e.tokens, K t) → (evaluate host n e).Blames K)
    (hs : ∀ s : Stmt, (∀ t ∈ s.tokens, K t) → (execute host n s).Blames K)
    {s : Stmt} (h : ∀ t ∈ s.tokens, K t) : (execute host (n + 1) s).Blames K := by
  have hgives : ∀ e, GivesWithin K (fun v => ∀ f i, v = .function f i → f.Within K)
      (evaluate host n e) := fun e => Value.lasting_within.evaluate host n e 0
  have hgives' : ∀ {s : Stmt}, (∀ t ∈ s.tokens, K t) →
      GivesWithin K (fun _ => True) (execute host n s) :=
    fun h => Value.lasting_within.execute host n (fun _ hf => Stmt.within_of_declares h hf) 0
  cases s with
  | expression value =>
    rw [Stmt.tokens] at h
    rw [execute]
    exact (he value h).bind (hgives _) fun _ _ => .pure _
  | print value =>
    rw [Stmt.tokens] at h
    rw [execute]
    exact (he value h).bind (hgives _) fun v _ => .of_ok fun _ => ⟨(), rfl⟩
  | declare target value =>
    cases value with
    | none => rw [execute]; exact .of_ok fun _ => ⟨(), rfl⟩
    | some value =>
      rw [Stmt.tokens, Option.toList_some, List.flatMap_singleton] at h
      rw [execute]
      refine (he value (List.forall_mem_cons.mp h).2).bind (hgives _) fun v _ => ?_
      exact .of_ok fun _ => ⟨(), rfl⟩
  | block body =>
    rw [Stmt.tokens] at h
    have hbody := List.forall_mem_flatMap.mp h
    rw [execute]
    exact .inBlock (.forM (fun s hmem => hs s (hbody s hmem)) fun s hmem => hgives' (hbody s hmem))
  | branch condition yes no =>
    cases no with
    | none =>
      rw [Stmt.tokens] at h
      obtain ⟨hcondition, hyes⟩ := List.forall_mem_append.mp h
      rw [execute]
      refine (he condition hcondition).bind (hgives _) fun v _ => ?_
      split
      · exact hs yes hyes
      · exact .pure _
    | some no =>
      rw [Stmt.tokens] at h
      obtain ⟨hfront, hno⟩ := List.forall_mem_append.mp h
      obtain ⟨hcondition, hyes⟩ := List.forall_mem_append.mp hfront
      rw [execute]
      refine (he condition hcondition).bind (hgives _) fun v _ => ?_
      split
      · exact hs yes hyes
      · exact hs no hno
  | loop condition body =>
    rw [Stmt.tokens] at h
    obtain ⟨hcondition, hbody⟩ := List.forall_mem_append.mp h
    rw [execute]
    refine .repeatWhile ((he condition hcondition).map _) ?_ (hs body hbody) (hgives' hbody) _
    exact Value.Lasting.map (hgives condition) fun _ _ _ => trivial
  | function target parameters body => rw [execute]; exact .of_ok fun _ => ⟨(), rfl⟩
  | returnValue keyword value =>
    rw [Stmt.tokens] at h
    obtain ⟨hkeyword, hvalue⟩ := List.forall_mem_cons.mp h
    cases value with
    | none => rw [execute]; exact .returning hkeyword _
    | some value =>
      rw [Option.toList_some, List.flatMap_singleton] at hvalue
      rw [execute]
      exact (he value hvalue).bind (hgives _) fun v _ => .returning hkeyword v

private theorem blames (n : Nat) :
    (∀ e : Expr, (∀ t ∈ e.tokens, K t) → (evaluate host n e).Blames K) ∧
      ∀ s : Stmt, (∀ t ∈ s.tokens, K t) → (execute host n s).Blames K := by
  induction n with
  | zero =>
    refine ⟨fun e _ => ?_, fun s _ => ?_⟩
    · rw [evaluate]; exact .abort _
    · rw [execute]; exact .abort _
  | succ n ih => exact ⟨fun _ => blames_evaluate_succ host ih.1 ih.2,
      fun _ => blames_execute_succ host ih.1 ih.2⟩

/-- An **expression** blames its own tokens and those of the functions in sight. -/
theorem blames_evaluate (n : Nat) {e : Expr} (h : ∀ t ∈ e.tokens, K t) :
    (evaluate host n e).Blames K := (blames host n).1 e h

/-- A **statement** blames its own tokens and those of the functions in sight. -/
theorem blames_execute (n : Nat) {s : Stmt} (h : ∀ t ∈ s.tokens, K t) :
    (execute host n s).Blames K := (blames host n).2 s h

/-- A **list of statements** blames their own tokens and those of the functions in sight. -/
theorem blames_executeAll (n : Nat) {statements : List Stmt}
    (h : ∀ s ∈ statements, ∀ t ∈ s.tokens, K t) :
    (executeAll host n statements).Blames K :=
  .forM (fun s hs => blames_execute host n (h s hs)) fun s hs =>
    Value.lasting_within.execute host n (fun _ hf => Stmt.within_of_declares (h s hs) hf) 0

end

end Eval

/-- A program that is run where no other was run before blames **its own tokens**. -/
theorem blamed_by_program (host : Host) (n : Nat) (statements : List Stmt) {i : Interrupt}
    (h : ((executeAll host n statements).run .fresh).1 = .error i) :
    ∀ t ∈ i.token?, ∃ s ∈ statements, t ∈ s.tokens :=
  Eval.blames_executeAll host n (fun s hs _ ht => ⟨s, hs, ht⟩) _ Value.lasting_within.fresh i h

end LoxLang
