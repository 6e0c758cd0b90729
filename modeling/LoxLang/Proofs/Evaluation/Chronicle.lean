import LoxLang.Proofs.Evaluation.Moments
import LoxLang.Proofs.Evaluation.Values

/-!
# A chronicle of declarations

The functions whose declarations a run has executed, in order, are its **log**. A function value is
logged if the log has its function at its identity. Here it is shown that at every moment of a run
from a fresh memory all values are logged: those bound in a frame, be it one that a call has put
aside, those held by steps in progress, and the one that a `return` has on its way. The log has as
many functions as were made, so that the next one gets an identity that no value has.

`Chronicle` says so of a list of moments. Moments are built like computations, and so are
chronicles: `Tracks` says that a computation takes a log that accounts for what it finds to one that
accounts for what it leaves, through the moments of all that it starts. All steps do (`stepsTrack`),
and so do programs run one after the other (`Job.exists_chronicle_history`).
-/

namespace LoxLang

open Eval

/-! ### Declarations at moments -/

/-- The memory behind an execution of a function declaration. -/
def Memory.declare (f : Function) (m : Memory) : Memory :=
  { m with
    scopes := m.scopes.define f.name.lexeme (.function f m.created)
    created := m.created + 1 }

namespace Moment

/-- The function whose declaration is **executed** where it begins. -/
def declared? (t : Moment) : Option Function :=
  match t.begins with
  | some (_ + 1, .statement (.function target parameters body)) => some ⟨target, parameters, body⟩
  | _ => none

/-- The value **exists** at the moment: it is bound in some frame, of the active chain or of one put
aside, or a step in progress holds it. -/
def Has (t : Moment) (v : Value) : Prop :=
  (∃ frame ∈ t.memory.scopes.frames, ∃ entry ∈ frame, entry.2 = v) ∨ v ∈ t.held

end Moment

theorem Step.declared?_ending (t : Step) (host : Host) (n : Nat) (m : Memory) (held : List Value) :
    (t.ending host n m held).declared? = none := by
  cases t <;> rfl

/-- The functions whose declarations are executed at moments, **in order**. -/
def declarations (ms : List Moment) : List Function := ms.filterMap Moment.declared?

/-! ### The log of declarations -/

/-- A function value is **logged** if its identity is the number of declarations that were executed
in front of its own. -/
def Value.Logged (log : List Function) (v : Value) : Prop :=
  ∀ f i, v = .function f i → log[i]? = some f

namespace Value

variable {log log' : List Function} {v : Value}

theorem Logged.mono (h : v.Logged log) (hlog : log <+: log') : v.Logged log' := by
  obtain ⟨rest, rfl⟩ := hlog
  intro f i hv
  have hget := h f i hv
  have hlt : i < log.length := (List.getElem?_eq_some_iff.mp hget).1
  rw [List.getElem?_append_left hlt, hget]

theorem logged_of_ne (h : ∀ f i, v ≠ .function f i) : v.Logged log :=
  fun f i hv => absurd hv (h f i)

theorem logged_nil : Value.nil.Logged log := logged_of_ne fun _ _ hf => Value.noConfusion hf

/-- The next function is logged **behind** all others. -/
theorem logged_function (log : List Function) (f : Function) :
    (Value.function f log.length).Logged (log ++ [f]) := by
  rintro _ _ ⟨⟩
  exact List.getElem?_concat_length

end Value

/-- The log **accounts for** a memory and values: it has all declarations executed so far, and all
of the values are logged. -/
structure AccountsFor (log : List Function) (m : Memory) (vs : List Value) : Prop where
  created : m.created = log.length
  bound : m.scopes.Every (Value.Logged log)
  held : ∀ v ∈ vs, v.Logged log

namespace AccountsFor

variable {log log' : List Function} {m m' : Memory} {vs ws : List Value}

theorem of_subset (h : AccountsFor log m vs) (hsub : ws ⊆ vs) : AccountsFor log m ws :=
  { h with held := fun v hv => h.held v (hsub hv) }

theorem append (h : AccountsFor log m vs) (h' : ∀ v ∈ ws, v.Logged log) :
    AccountsFor log m (ws ++ vs) :=
  { h with held := List.forall_mem_append.mpr ⟨h', h.held⟩ }

/-- What is logged stays logged. -/
theorem append_of_isPrefix (h : AccountsFor log m vs) (h' : AccountsFor log' m' ws)
    (hlog : log <+: log') : AccountsFor log' m' (ws ++ vs) :=
  { h' with held := List.forall_mem_append.mpr ⟨h'.held, fun v hv => (h.held v hv).mono hlog⟩ }

/-- Scopes may change, as long as no value is **made up**. -/
theorem of_scopes {scopes : Scopes} (h : AccountsFor log m vs)
    (hscopes : scopes.Every (Value.Logged log)) : AccountsFor log { m with scopes } vs :=
  ⟨h.created, hscopes, h.held⟩

theorem declare (h : AccountsFor log m vs) (f : Function) :
    AccountsFor (log ++ [f]) (m.declare f) vs where
  created := by rw [Memory.declare, h.created, List.length_append, List.length_singleton]
  bound := by
    refine Scopes.Every.define (h.bound.mono fun v hv => hv.mono (List.prefix_append log [f])) ?_
    rw [h.created]
    exact Value.logged_function log f
  held v hv := (h.held v hv).mono (List.prefix_append log [f])

end AccountsFor

/-- A **chronicle** of moments, from one log to another: at each of them the log accounts for all
values there are, and each execution of a declaration is logged, and comes before a moment of the
memory behind it. -/
inductive Chronicle : List Function → List Moment → List Function → Prop
  | nil (log : List Function) : Chronicle log [] log
  | plain {log log' : List Function} {t : Moment} {ms : List Moment} :
    AccountsFor log t.memory t.held → t.declared? = none → Chronicle log ms log' →
      Chronicle log (t :: ms) log'
  | declared {log log' : List Function} {f : Function} {t t' : Moment} {ms : List Moment} :
    AccountsFor log t.memory t.held → t.declared? = some f → t'.memory = t.memory.declare f →
      Chronicle (log ++ [f]) (t' :: ms) log' → Chronicle log (t :: t' :: ms) log'

namespace Chronicle

variable {log log' log'' : List Function} {ms ms' : List Moment}

theorem append (h : Chronicle log ms log') (h' : Chronicle log' ms' log'') :
    Chronicle log (ms ++ ms') log'' := by
  induction h with
  | nil => exact h'
  | plain haccounts hnone _ ih => exact .plain haccounts hnone (ih h')
  | declared haccounts hsome hmemory _ ih => exact .declared haccounts hsome hmemory (ih h')

/-- A chronicle adds to the log what is **declared**, and nothing else. -/
theorem eq_append (h : Chronicle log ms log') : log' = log ++ declarations ms := by
  induction h with
  | nil => exact (List.append_nil _).symm
  | plain _ hnone _ ih => rw [ih, declarations, declarations, List.filterMap_cons_none hnone]
  | declared _ hsome _ _ ih =>
    rw [ih, declarations, declarations, List.filterMap_cons_some hsome, List.append_assoc]
    rfl

theorem isPrefix (h : Chronicle log ms log') : log <+: log' := by
  rw [h.eq_append]
  exact List.prefix_append _ _

/-- What a chronicle says **of a moment**. -/
theorem of_append_cons {a b : List Moment} {t : Moment} (h : Chronicle log (a ++ t :: b) log') :
    AccountsFor (log ++ declarations a) t.memory t.held ∧
      ∀ f, t.declared? = some f → ∃ t' b', b = t' :: b' ∧ t'.memory = t.memory.declare f := by
  generalize hms : a ++ t :: b = ms at h
  induction h generalizing a with
  | nil => exact absurd hms (List.append_ne_nil_of_right_ne_nil _ (List.cons_ne_nil _ _))
  | plain haccounts hnone _ ih =>
    cases a with
    | nil =>
      cases hms
      refine ⟨by rwa [declarations, List.filterMap_nil, List.append_nil], fun f hf => ?_⟩
      cases hnone.symm.trans hf
    | cons t₀ a =>
      cases hms
      rw [declarations, List.filterMap_cons_none hnone]
      exact ih rfl
  | @declared log _ f _ t' ms haccounts hsome hmemory _ ih =>
    cases a with
    | nil =>
      cases hms
      refine ⟨by rwa [declarations, List.filterMap_nil, List.append_nil], fun g hg => ?_⟩
      cases hsome.symm.trans hg
      exact ⟨t', ms, rfl, hmemory⟩
    | cons t₀ a =>
      obtain ⟨rfl, hrest⟩ := List.cons.inj hms
      rw [declarations, List.filterMap_cons_some hsome, List.append_cons]
      exact ih hrest

end Chronicle

/-- Nothing but a declaration makes a function. -/
theorem Value.lasting_plain :
    Value.Lasting (fun _ => False) fun _ v => ∀ f i, v ≠ .function f i where
  mono _ h := h
  plain h := h
  made h := h.elim
  body h _ _ := absurd rfl (h _ _)

/-! ### Computations and what they start -/

/-- A computation **tracks** its substeps, where the values `held` are held outside of it and the
values `vs` are at hand: from a log that accounts for these, the moments of the substeps are a
chronicle to a log that accounts for the result as well. -/
def Tracks (host : Host) (n : Nat) (held : List Value) {α : Type} (kept : α → List Value)
    (vs : List Value) (p : Eval α) (m : Memory) (ss : List Substep) : Prop :=
  ∀ log, AccountsFor log m vs → ∃ log',
    Chronicle log (ss.flatMap (Substep.moments host n held)) log' ∧
      AccountsFor log' (p.run m).2 (resultValues kept (p.run m).1 ++ vs)

namespace Tracks

open Substep

variable {host : Host} {n : Nat} {held vs : List Value} {α β : Type} {kept : α → List Value}
  {kept' : β → List Value} {m : Memory} {ss : List Substep}

/-- What starts nothing has to leave values that are logged. -/
theorem plain {p : Eval α} (h : ∀ log, AccountsFor log m vs →
    AccountsFor log (p.run m).2 (resultValues kept (p.run m).1 ++ vs)) :
    Tracks host n held kept vs p m [] := fun log hm => ⟨log, .nil log, h log hm⟩

/-- In a row, what is kept of the first computation is **at hand** in the second. -/
theorem bind {p : Eval α} {f : α → Eval β} {next : α → Memory → List Substep}
    (hp : Tracks host n held kept vs p m ss)
    (hf : ∀ a m', p.run m = (.ok a, m') →
      Tracks host n held kept' (kept a ++ vs) (f a) m' (next a m')) :
    Tracks host n held kept' vs (p >>= f) m (ss ++ behind (p.run m) next) := by
  intro log hm
  obtain ⟨log', hchronicle, hm'⟩ := hp log hm
  rw [run_bind, List.flatMap_append]
  rcases hrun : p.run m with ⟨e | a, m'⟩ <;> rw [hrun] at hm'
  · refine ⟨log', hchronicle.append (.nil log'), ?_⟩
    cases e <;> exact hm'
  · obtain ⟨log'', hchronicle', hm''⟩ := hf a m' hrun log' hm'
    refine ⟨log'', hchronicle.append hchronicle', hm''.of_subset ?_⟩
    exact List.append_subset.mpr ⟨List.subset_append_left _ _,
      List.subset_append_of_subset_right _ (List.subset_append_right _ _)⟩

/-- In a row with something that starts nothing more. -/
theorem bind_plain {p : Eval α} {f : α → Eval β} (hp : Tracks host n held kept vs p m ss)
    (hf : ∀ a m', p.run m = (.ok a, m') → Tracks host n held kept' (kept a ++ vs) (f a) m' []) :
    Tracks host n held kept' vs (p >>= f) m ss := by
  have hnone : behind (p.run m) (fun _ _ => []) = [] := by
    rcases p.run m with ⟨_ | _, _⟩ <;> rfl
  have hbind : Tracks host n held kept' vs (p >>= f) m (ss ++ behind (p.run m) fun _ _ => []) :=
    hp.bind hf
  rwa [hnone, List.append_nil] at hbind

/-- A result that is there already has to be **logged**. -/
theorem ofResult {r : Except Interrupt α}
    (h : ∀ log, AccountsFor log m vs → ∀ v ∈ resultValues kept r, v.Logged log) :
    Tracks host n held kept vs (Eval.ofResult r) m [] := plain fun log hm => by
  rw [run_ofResult]
  exact hm.append (h log hm)

theorem pure {a : α} (h : kept a ⊆ vs) : Tracks host n held kept vs (Pure.pure a) m [] :=
  ofResult (r := .ok a) fun _ hm v hv => hm.held v (h hv)

theorem fail (token : Token) (cause : RuntimeCause) :
    Tracks host n held kept vs (Eval.ofResult (LoxLang.fail token cause)) m [] :=
  ofResult fun _ _ _ hv => absurd hv List.not_mem_nil

theorem abort (reason : Abort) : Tracks host n held kept vs (Eval.abort reason) m [] :=
  ofResult (r := .error _) fun _ _ _ hv => absurd hv List.not_mem_nil

/-- A `return` keeps its value on the way. -/
theorem returning (keyword : Token) {v : Value}
    (h : ∀ log, AccountsFor log m vs → v.Logged log) :
    Tracks host n held kept vs (throw (.returning keyword v) : Eval α) m [] :=
  ofResult (r := .error _) fun log hm => List.forall_mem_singleton.mpr (h log hm)

theorem map {p : Eval α} {f : α → β} (hp : Tracks host n held kept vs p m ss)
    (hf : ∀ a, kept' (f a) ⊆ kept a) : Tracks host n held kept' vs (f <$> p) m ss := by
  rw [← bind_pure_comp]
  exact hp.bind_plain fun a _ _ => pure (List.Subset.trans (hf a) (List.subset_append_left _ _))

/-! ### Variables, operators and calls -/

/-- What operators come to is no function. -/
theorem ofOperator {r : Except Interrupt Value} (h : ResultHas (fun _ v => ∀ f i, v ≠ .function f i)
    (fun _ v => ∀ f i, v ≠ .function f i) 0 r) :
    Tracks host n held (fun v => [v]) vs (Eval.ofResult r) m [] := by
  refine ofResult fun log _ v hv => Value.logged_of_ne ?_
  rcases r with (_ | _ | _) | w
  · cases hv
  · cases List.mem_singleton.mp hv
    exact h
  · cases hv
  · cases List.mem_singleton.mp hv
    exact h

theorem define {x : String} {v : Value} (h : ∀ log, AccountsFor log m vs → v.Logged log) :
    Tracks host n held (fun _ => []) vs (Eval.define x v) m [] :=
  plain fun log hm => hm.of_scopes (hm.bound.define (h log hm))

theorem lookup (name : Token) : Tracks host n held (fun v => [v]) vs (Eval.lookup name) m [] := by
  refine plain fun log hm => ?_
  rw [run_lookup]
  cases hget : m.scopes.get? name.lexeme with
  | none => exact hm
  | some v => exact hm.append (List.forall_mem_singleton.mpr (hm.bound.get? hget))

theorem assign (name : Token) {v : Value} (hv : v ∈ vs) :
    Tracks host n held (fun _ => []) vs (Eval.assign name v) m [] := by
  refine plain fun log hm => ?_
  rw [run_assign]
  cases hassign : m.scopes.assign? name.lexeme v with
  | none => exact hm
  | some scopes => exact hm.of_scopes (hm.bound.assign? (hm.held v hv) hassign)

theorem readClock : Tracks host n held (fun v => [v]) vs (Eval.readClock host) m [] :=
  plain fun _ hm => AccountsFor.append ⟨hm.created, hm.bound, hm.held⟩
    (List.forall_mem_singleton.mpr (Value.logged_of_ne fun _ _ hf => Value.noConfusion hf))

theorem inBlock {p : Eval α}
    (hp : Tracks host n held kept vs p { m with scopes := m.scopes.enterBlock } ss) :
    Tracks host n held kept vs (Eval.inBlock p) m ss := by
  intro log hm
  obtain ⟨log', hchronicle, hm'⟩ := hp log (hm.of_scopes hm.bound.enterBlock)
  exact ⟨log', hchronicle, hm'.of_scopes hm'.bound.exitBlock⟩

/-- A call is **entered** with its arguments and nothing else that is new. -/
theorem accountsFor_entered {log : List Function} (parameters : List Token) {arguments : List Value}
    (hm : AccountsFor log m vs) (harguments : ∀ v ∈ arguments, v.Logged log) :
    AccountsFor log (entered parameters arguments m) vs := by
  have hbound : ∀ (entries : List (Token × Value)) (m : Memory), AccountsFor log m vs →
      (∀ entry ∈ entries, entry.2.Logged log) →
      AccountsFor log
        ((entries.forM fun entry => Eval.define entry.1.lexeme entry.2).run m).2 vs := by
    intro entries
    induction entries with
    | nil => exact fun _ hm _ => hm
    | cons entry entries ih =>
      intro m hm hentries
      obtain ⟨hentry, hentries⟩ := List.forall_mem_cons.mp hentries
      rw [run_forM_cons]
      exact ih _ (hm.of_scopes (hm.bound.define hentry)) hentries
  have hm' := hbound (parameters.zip arguments) _
    (hm.of_scopes hm.bound.enterCall.enterBlock)
    fun entry hentry => harguments entry.2 (List.of_mem_zip hentry).2
  exact hm'.of_scopes hm'.bound.enterBlock

/-- To turn a `return` into a value makes up no value but `nil`. -/
theorem accountsFor_callResult {log : List Function} {r : Except Interrupt Unit}
    (h : AccountsFor log m (resultValues (fun _ => []) r ++ vs)) :
    AccountsFor log m (resultValues (fun v => [v]) (callResult r) ++ vs) := by
  rcases r with (_ | _ | _) | _
  · exact h
  · exact h
  · exact h
  · exact h.append (List.forall_mem_singleton.mpr Value.logged_nil)

theorem call (parameters : List Token) {arguments : List Value} {body : Eval Unit}
    (harguments : arguments ⊆ vs)
    (hbody : Tracks host n held (fun _ => []) vs body (entered parameters arguments m) ss) :
    Tracks host n held (fun v => [v]) vs (Eval.call parameters arguments body) m ss := by
  intro log hm
  have hentered := accountsFor_entered parameters hm fun v hv => hm.held v (harguments hv)
  obtain ⟨log', hchronicle, hm'⟩ := hbody log hentered
  rw [run_call_eq]
  have hscopes := hm'.of_scopes hm'.bound.exitBlock.exitCall
  exact ⟨log', hchronicle, accountsFor_callResult hscopes⟩

end Tracks

/-! ### Steps -/

/-- The steps with at most `n` nested steps are **tracked**: from a log that accounts for where a
step begins, its moments are a chronicle to a log that accounts for where it ends. -/
def StepsTrack (host : Host) (n : Nat) : Prop :=
  ∀ (t : Step) (m : Memory) (held : List Value) (log : List Function), AccountsFor log m held →
    ∃ log', Chronicle log (t.moments host n m held) log' ∧
      AccountsFor log' (t.ending host n m held).memory (t.ending host n m held).held

namespace StepsTrack

open Substep

variable {host : Host} {n : Nat} {held vs ws : List Value} {m : Memory}

/-- A computation that is a step tracks **this** step. -/
theorem tracks {α : Type} {kept : α → List Value} {p : Eval α} (h : StepsTrack host n) {t : Step}
    (hend : ∀ held, t.ending host n m held =
      ⟨none, (p.run m).2, resultValues kept (p.run m).1 ++ held⟩)
    (hsub : ws ++ held ⊆ vs) : Tracks host n held kept vs p m [⟨t, m, ws⟩] := by
  intro log hm
  obtain ⟨log', hchronicle, hm'⟩ := h t m (ws ++ held) log (hm.of_subset hsub)
  rw [hend] at hm'
  rw [List.flatMap_singleton]
  have hresult := hm'.of_subset (List.subset_append_left _ _)
  exact ⟨log', hchronicle, hm.append_of_isPrefix hresult hchronicle.isPrefix⟩

theorem expression (h : StepsTrack host n) (e : Expr) (hsub : ws ++ held ⊆ vs) :
    Tracks host n held (fun v => [v]) vs (evaluate host n e) m [⟨.expression e, m, ws⟩] :=
  h.tracks (fun _ => rfl) hsub

theorem statement (h : StepsTrack host n) (s : Stmt) (hsub : ws ++ held ⊆ vs) :
    Tracks host n held (fun _ => []) vs (execute host n s) m [⟨.statement s, m, ws⟩] :=
  h.tracks (fun _ => rfl) hsub

/-- Arguments are **at hand** once they are evaluated. -/
theorem arguments (h : StepsTrack host n) (es : List Expr) (hsub : ws ++ held ⊆ vs) :
    Tracks host n held (fun bs => bs) vs (es.mapM (evaluate host n)) m
      (Substep.arguments host n ws es m) := by
  induction es generalizing ws vs m with
  | nil => exact .pure (List.nil_subset vs)
  | cons e es ih =>
    rw [List.mapM_cons]
    refine (h.expression e hsub).bind fun v m' _ => ?_
    refine (ih (List.cons_subset_cons v hsub)).bind_plain fun bs m'' _ => .pure ?_
    exact List.cons_subset.mpr ⟨List.mem_append_right _ List.mem_cons_self,
      List.subset_append_left _ _⟩

theorem statements (h : StepsTrack host n) (ss : List Stmt) (hsub : ws ++ held ⊆ vs) :
    Tracks host n held (fun _ => []) vs (ss.forM (execute host n)) m
      (Substep.statements host n ws ss m) := by
  induction ss generalizing m with
  | nil => exact .pure (List.nil_subset vs)
  | cons s ss ih => exact (h.statement s hsub).bind fun _ m' _ => ih

theorem apply (h : StepsTrack host n) (paren : Token) {f : Value} {arguments : List Value}
    (hsub : f :: arguments ++ held ⊆ vs) :
    Tracks host n held (fun v => [v]) vs
      (Eval.apply host (fun body => body.forM (execute host n)) paren f arguments) m
      (called host n arguments m f) := by
  cases f with
  | function f identity =>
    rw [apply_function, called]
    split
    · refine .call f.parameters ?_ (h.statements f.body hsub)
      exact fun v hv => hsub (List.mem_append_left _ (List.mem_cons_of_mem _ hv))
    · exact .fail paren _
  | native f identity =>
    rw [apply_native]
    split
    · exact .readClock
    · exact .fail paren _
  | _ =>
    rw [apply_of_arity?_eq_none host _ paren rfl]
    exact .fail paren _

theorem behind_map {α β : Type} (f : α → β) (p : Eval α) (m : Memory)
    (next : β → Memory → List Substep) :
    behind ((f <$> p).run m) next = behind (p.run m) fun a m' => next (f a) m' := by
  rw [run_map]
  rcases p.run m with ⟨_ | _, _⟩ <;> rfl

theorem rounds (h : StepsTrack host n) (condition : Expr) (body : Stmt) (hsub : held ⊆ vs)
    (k : Nat) :
    Tracks host n held (fun _ => []) vs
      (repeatWhile (Value.isTruthy <$> evaluate host n condition) (execute host n body) k) m
      (Substep.rounds host n condition body k m) := by
  induction k generalizing m with
  | zero => exact .abort _
  | succ k ih =>
    have hcondition : Tracks host n held (fun _ => []) vs
        (Value.isTruthy <$> evaluate host n condition) m [⟨.expression condition, m, []⟩] :=
      (h.expression condition hsub).map fun _ => List.nil_subset _
    have hrounds : Substep.rounds host n condition body (k + 1) m =
        [⟨.expression condition, m, []⟩] ++
          behind ((Value.isTruthy <$> evaluate host n condition).run m) fun holds m₁ =>
            if holds then
              [⟨.statement body, m₁, []⟩] ++
                behind ((execute host n body).run m₁) fun _ m₂ =>
                  Substep.rounds host n condition body k m₂
            else [] := by
      rw [behind_map]
      rfl
    rw [repeatWhile, hrounds]
    refine hcondition.bind fun holds m₁ _ => ?_
    cases holds with
    | true => exact (h.statement body hsub).bind fun _ m₂ _ => ih
    | false => exact .pure (List.nil_subset _)

/-- An expression **tracks** what it starts. -/
theorem tracks_evaluate (h : StepsTrack host n) (e : Expr) :
    Tracks host n held (fun v => [v]) held (evaluate host (n + 1) e) m
      ((Step.expression e).substeps host n m) := by
  have hsub : [] ++ held ⊆ held := List.Subset.refl held
  cases e with
  | literal value =>
    rw [evaluate]
    refine .ofResult (r := .ok _) fun _ _ => List.forall_mem_singleton.mpr ?_
    exact Value.logged_of_ne (Value.lasting_plain.ofLiteral (c := 0) value)
  | grouping inner =>
    rw [evaluate]
    exact h.expression inner hsub
  | unary op operand =>
    rw [evaluate]
    refine (h.expression operand hsub).bind_plain fun v m' _ => .ofOperator ?_
    exact Value.lasting_plain.applyUnary op v
  | binary left op right =>
    rw [evaluate]
    refine (h.expression left hsub).bind fun v m' _ => ?_
    refine (h.expression right (List.Subset.refl _)).bind_plain fun w m'' _ => .ofOperator ?_
    exact Value.lasting_plain.applyBinary op v w
  | logical left op right =>
    rw [evaluate]
    refine (h.expression left hsub).bind fun v m' _ => ?_
    split
    · exact .pure (List.subset_append_left _ _)
    · exact h.expression right (List.Subset.refl _)
  | name token =>
    rw [evaluate]
    exact .lookup token
  | assign target value =>
    rw [evaluate]
    refine (h.expression value hsub).bind_plain fun v m' _ => ?_
    exact (Tracks.assign target List.mem_cons_self).bind_plain fun _ m'' _ =>
      .pure (List.subset_append_left _ _)
  | call callee paren arguments =>
    rw [evaluate]
    refine (h.expression callee hsub).bind fun f m₁ _ => ?_
    refine (h.arguments arguments (List.Subset.refl _)).bind fun vs m₂ _ => h.apply paren ?_
    exact List.perm_middle.symm.subset

/-- A statement **tracks** what it starts, if it does not declare a function. -/
theorem tracks_execute (h : StepsTrack host n) {s : Stmt}
    (hnone : Moment.declared? ⟨some (n + 1, .statement s), m, held⟩ = none) :
    Tracks host n held (fun _ => []) held (execute host (n + 1) s) m
      ((Step.statement s).substeps host n m) := by
  have hsub : [] ++ held ⊆ held := List.Subset.refl held
  cases s with
  | expression value =>
    rw [execute]
    exact (h.expression value hsub).bind_plain fun _ _ _ => .pure (List.nil_subset _)
  | print value =>
    rw [execute]
    refine (h.expression value hsub).bind_plain fun v m' _ => .plain fun log hm => ?_
    exact ⟨hm.created, hm.bound, hm.held⟩
  | declare target value =>
    cases value with
    | none =>
      rw [execute]
      exact .define fun _ _ => Value.logged_nil
    | some value =>
      rw [execute]
      refine (h.expression value hsub).bind_plain fun v m' _ => .define fun log hm => ?_
      exact hm.held v List.mem_cons_self
  | block body =>
    rw [execute]
    exact .inBlock (h.statements body hsub)
  | branch condition yes no =>
    have hcondition := h.expression condition hsub (m := m)
    cases no with
    | none =>
      rw [execute]
      refine hcondition.bind fun v m' _ => ?_
      split
      · exact h.statement yes (List.subset_append_right _ _)
      · exact .pure (List.nil_subset _)
    | some no =>
      rw [execute]
      refine hcondition.bind fun v m' _ => ?_
      split
      · exact h.statement yes (List.subset_append_right _ _)
      · exact h.statement no (List.subset_append_right _ _)
  | loop condition body =>
    rw [execute]
    exact h.rounds condition body hsub host.rounds
  | function target parameters body => cases hnone
  | returnValue keyword value =>
    cases value with
    | none =>
      rw [execute]
      exact .returning keyword fun _ _ => Value.logged_nil
    | some value =>
      rw [execute]
      refine (h.expression value hsub).bind_plain fun v m' _ => .returning keyword fun log hm => ?_
      exact hm.held v List.mem_cons_self

theorem zero (host : Host) : StepsTrack host 0 := by
  intro t m held log hm
  have hend : AccountsFor log (t.ending host 0 m held).memory (t.ending host 0 m held).held := by
    cases t with
    | expression e =>
      rw [Step.ending, evaluate]
      exact hm
    | statement s =>
      rw [Step.ending, execute]
      exact hm
  exact ⟨log, .plain hm rfl (.plain hend (t.declared?_ending host 0 m held) (.nil log)), hend⟩

/-- The moments of a step are those of its substeps, between where it begins and where it ends. -/
theorem exists_chronicle_of_substeps {t : Step} {log log' : List Function}
    (hm : AccountsFor log m held) (hnone : Moment.declared? ⟨some (n + 1, t), m, held⟩ = none)
    (hsubsteps : Chronicle log ((t.substeps host n m).flatMap (Substep.moments host n held)) log')
    (hend : AccountsFor log' (t.ending host (n + 1) m held).memory
      (t.ending host (n + 1) m held).held) :
    ∃ log', Chronicle log (t.moments host (n + 1) m held) log' ∧
      AccountsFor log' (t.ending host (n + 1) m held).memory
        (t.ending host (n + 1) m held).held :=
  ⟨log', .plain hm hnone (hsubsteps.append
    (.plain hend (t.declared?_ending host (n + 1) m held) (.nil log'))), hend⟩

/-- An execution of a declaration is **logged**. -/
theorem exists_chronicle_of_declaration {log : List Function} (hm : AccountsFor log m held)
    (target : Token) (parameters : List Token) (body : List Stmt) :
    let t := Step.statement (.function target parameters body)
    ∃ log', Chronicle log (t.moments host (n + 1) m held) log' ∧
      AccountsFor log' (t.ending host (n + 1) m held).memory
        (t.ending host (n + 1) m held).held := by
  intro t
  have hending : t.ending host (n + 1) m held =
      ⟨none, m.declare ⟨target, parameters, body⟩, held⟩ := by
    rw [Step.ending, execute]
    rfl
  have hend := hm.declare ⟨target, parameters, body⟩
  rw [Step.moments, hending]
  exact ⟨_, .declared hm rfl rfl (.plain hend rfl (.nil _)), hend⟩

theorem succ (h : StepsTrack host n) : StepsTrack host (n + 1) := by
  intro t m held log hm
  cases t with
  | expression e =>
    obtain ⟨log', hsubsteps, hend⟩ := h.tracks_evaluate e log hm
    exact exists_chronicle_of_substeps hm rfl hsubsteps hend
  | statement s =>
    have hplain : Moment.declared? ⟨some (n + 1, .statement s), m, held⟩ = none →
        ∃ log', Chronicle log ((Step.statement s).moments host (n + 1) m held) log' ∧
          AccountsFor log' ((Step.statement s).ending host (n + 1) m held).memory
            ((Step.statement s).ending host (n + 1) m held).held := by
      intro hnone
      obtain ⟨log', hsubsteps, hend⟩ := h.tracks_execute hnone log hm
      exact exists_chronicle_of_substeps hm hnone hsubsteps hend
    cases s with
    | function target parameters body =>
      exact exists_chronicle_of_declaration hm target parameters body
    | _ => exact hplain rfl

end StepsTrack

/-- **All steps** are tracked. -/
theorem stepsTrack (host : Host) (n : Nat) : StepsTrack host n := by
  induction n with
  | zero => exact .zero host
  | succ n ih => exact ih.succ

/-! ### Histories -/

theorem accountsFor_fresh : AccountsFor [] Memory.fresh [] where
  created := rfl
  bound := Scopes.Every.mono Value.lasting_plain.fresh fun _ => Value.logged_of_ne
  held _ hv := absurd hv List.not_mem_nil

theorem Job.exists_chronicle (j : Job) {m : Memory} {log : List Function}
    (hm : AccountsFor log m []) : ∃ log', Chronicle log (j.moments m) log' ∧
      AccountsFor log' (Job.next m j) [] := by
  obtain ⟨log', hchronicle, hend⟩ := (stepsTrack j.host j.bound).statements j.statements
    (List.Subset.refl ([] ++ [])) log hm
  have hnext : AccountsFor log' (Job.next m j) [] :=
    ⟨hend.created, hend.bound, fun _ hv => absurd hv List.not_mem_nil⟩
  have hresult := hend.of_subset (List.subset_append_left _ _)
  exact ⟨log', hchronicle.append (.plain hresult rfl (.nil log')), hnext⟩

/-- The history of a fresh interpreter is a **chronicle**. -/
theorem Job.exists_chronicle_history (jobs : List Job) {m : Memory} {log : List Function}
    (hm : AccountsFor log m []) : ∃ log', Chronicle log (history jobs m) log' := by
  induction jobs generalizing m log with
  | nil => exact ⟨log, .nil log⟩
  | cons j jobs ih =>
    obtain ⟨log', hfirst, hm'⟩ := j.exists_chronicle hm
    obtain ⟨log'', hrest⟩ := ih hm'
    exact ⟨log'', hfirst.append hrest⟩

end LoxLang
