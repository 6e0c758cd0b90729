import LoxLang.Proofs.Evaluation.Steps
import LoxLang.Proofs.Evaluation.Reachability
import LoxLang.Proofs.Semantics.Soundness

/-!
# Names enter the frame of their own scope

Behind every expression the frames have the names they had, and so they have behind a statement, but
for a declaration that runs to its end: the innermost frame then has the name that is declared,
behind all others if it is new there (`Scopes.Gained`). This is where the parser comes in. The
branches and loop bodies of a **well-formed** statement are no declarations, so that nothing inside
a statement declares a name in the scope around it.

The law is stated of every step that a parsed program takes in a reachable memory
(`names_enter_own_scope`). For a program as a whole it says which names are global behind it: those
of the declarations at the top level that have run to their ends, in their order.
-/

namespace LoxLang

open Eval

/-- The name that a statement **declares**, if it is a declaration. -/
def Stmt.declared? : Stmt → Option String
  | .declare target _ | .function target _ _ => some target.lexeme
  | _ => none

theorem Stmt.declared?_eq_none_iff {s : Stmt} : s.declared? = none ↔ ¬ s.IsDeclaration := by
  cases s <;> simp [declared?, IsDeclaration]

/-- The name that a statement **has declared**, given how it ended. -/
def Stmt.gained? (s : Stmt) : Except Interrupt Unit → Option String
  | .ok () => s.declared?
  | .error _ => none

/-- The names of a frame that has **gained** one, behind the others if it is new. -/
def Frame.namesWith (frame : Frame) : Option String → List String
  | none => frame.names
  | some x => if x ∈ frame.names then frame.names else frame.names ++ [x]

theorem Frame.names_bind (x : String) (v : Value) (frame : Frame) :
    (frame.bind x v).names = frame.namesWith (some x) := by
  rw [namesWith]
  split
  · next h => exact names_bind_of_mem h v
  · next h => exact names_bind_of_not_mem h v

/-! ### Scopes -/

namespace Scopes

/-- The scopes `after` have the frames of `before` with the names they had, in their order, but for
a name that the innermost frame has **gained**. -/
structure Gained (x? : Option String) (before after : Scopes) : Prop where
  /-- The local frames of the calls in progress are what they were. -/
  callers : after.callers = before.callers
  outer : after.chain.tail.map Frame.names = before.chain.tail.map Frame.names
  current : after.current.names = before.current.namesWith x?

namespace Gained

variable {x? : Option String} {s s' s'' : Scopes}

@[refl]
theorem refl (s : Scopes) : Gained none s s := ⟨rfl, rfl, rfl⟩

theorem behind (h : Gained none s s') (h' : Gained x? s' s'') : Gained x? s s'' := by
  refine ⟨h'.callers.trans h.callers, h'.outer.trans h.outer, ?_⟩
  have hnames : s'.current.names = s.current.names := h.current
  rw [h'.current]
  cases x? with
  | none => exact hnames
  | some x => rw [Frame.namesWith, Frame.namesWith, hnames]

theorem of_map_names (hcallers : s'.callers = s.callers)
    (hnames : s'.chain.map Frame.names = s.chain.map Frame.names) : Gained none s s' where
  callers := hcallers
  outer := by rw [List.map_tail, List.map_tail, hnames]
  current := by
    have hhead := congrArg List.head? hnames
    rw [List.head?_map, List.head?_map, head?_chain, head?_chain] at hhead
    exact Option.some.inj hhead

theorem define (x : String) (v : Value) (s : Scopes) : Gained (some x) s (s.define x v) := by
  obtain ⟨globals, _ | ⟨frame, frames⟩, callers⟩ := s
  · exact ⟨rfl, rfl, Frame.names_bind x v globals⟩
  · exact ⟨rfl, rfl, Frame.names_bind x v frame⟩

/-- An assignment **never** makes a binding. -/
theorem assign {x : String} {v : Value} (h : s.assign? x v = some s') : Gained none s s' := by
  obtain ⟨hchain, hcallers⟩ := assign?_eq_some_iff.mp h
  exact of_map_names hcallers (map_names_replace? hchain)

/-- Outside of any block and call, the name is gained by the **globals**. -/
theorem globals (h : Gained x? s s') (htop : s.locals = []) :
    s'.locals = [] ∧ s'.globals.names = s.globals.namesWith x? := by
  have hcurrent : s.current = s.globals := by rw [Scopes.current, htop, List.headD_nil]
  have hlength := congrArg List.length h.outer
  rw [List.length_map, List.length_map, List.length_tail, List.length_tail, length_chain,
    length_chain, depth, depth, htop] at hlength
  have hlocals : s'.locals = [] := List.length_eq_zero_iff.mp (by simpa using hlength)
  have hcurrent' : s'.current = s'.globals := by rw [Scopes.current, hlocals, List.headD_nil]
  exact ⟨hlocals, by rw [← hcurrent', h.current, hcurrent]⟩

end Gained

end Scopes

/-! ### Computations that declare nothing -/

/-- No frame has gained a name. -/
def Memory.SameNames (m m' : Memory) : Prop := Scopes.Gained none m.scopes m'.scopes

namespace Memory.SameNames

variable {α β : Type}

theorem ofResult (r : Except Interrupt α) : (Eval.ofResult r).Within SameNames := by
  intro m
  rw [run_ofResult]
  exact .refl m.scopes

theorem bind {p : Eval α} {f : α → Eval β} (hp : p.Within SameNames)
    (hf : ∀ a, (f a).Within SameNames) : (p >>= f).Within SameNames := by
  intro m
  have hfirst := hp m
  rw [run_bind]
  rcases h : p.run m with ⟨e | a, m'⟩ <;> rw [h] at hfirst
  · exact hfirst
  · exact hfirst.behind (hf a m')

theorem map {p : Eval α} (f : α → β) (hp : p.Within SameNames) : (f <$> p).Within SameNames := by
  rw [← bind_pure_comp]
  exact bind hp fun a => ofResult (.ok (f a))

theorem mapM {f : α → Eval β} (hf : ∀ a, (f a).Within SameNames) (as : List α) :
    (as.mapM f).Within SameNames := by
  induction as with
  | nil => exact ofResult (.ok [])
  | cons a as ih =>
    rw [List.mapM_cons]
    exact bind (hf a) fun b => bind ih fun bs => ofResult (.ok (b :: bs))

theorem repeatWhile {condition : Eval Bool} {body : Eval Unit}
    (hc : condition.Within SameNames) (hb : body.Within SameNames) (n : Nat) :
    (Eval.repeatWhile condition body n).Within SameNames := by
  induction n with
  | zero => exact ofResult (.error _)
  | succ n ih =>
    refine bind hc fun holds => ?_
    cases holds with
    | true => exact bind hb fun _ => ih
    | false => exact ofResult (.ok ())

theorem lookup (name : Token) : (Eval.lookup name).Within SameNames := by
  intro m
  rw [run_lookup]
  exact .refl m.scopes

theorem assignTo (name : Token) (v : Value) : (Eval.assign name v).Within SameNames := by
  intro m
  rw [run_assign]
  split
  · next h => exact .assign h
  · exact .refl m.scopes

/-- What a block declares is gone behind it. -/
theorem inBlock {body : Eval α} (hbody : body.Within Memory.Restored) :
    (Eval.inBlock body).Within SameNames := by
  intro m
  have hinner := hbody { m with scopes := m.scopes.enterBlock }
  rw [run_inBlock]
  exact .of_map_names hinner.callers hinner.map_names_exitBlock

/-- So is what a call declares, its parameters included. -/
theorem apply (host : Host) {run : List Stmt → Eval Unit}
    (hrun : ∀ body, (run body).Within Memory.Restored) (paren : Token) (callee : Value)
    (arguments : List Value) :
    (Eval.apply host run paren callee arguments).Within SameNames := by
  cases callee with
  | function f identity =>
    rw [apply_function]
    split
    · intro m
      obtain ⟨globals, hglobals, hscopes⟩ := scopes_call (hrun f.body) f.parameters arguments m
      rw [SameNames, hscopes]
      refine .of_map_names rfl ?_
      simp [Scopes.chain, hglobals]
    · exact ofResult _
  | native f identity =>
    rw [apply_native]
    split
    · exact fun m => .refl m.scopes
    · exact ofResult _
  | _ =>
    rw [apply_of_arity?_eq_none host run paren rfl]
    exact ofResult _

end Memory.SameNames

/-! ### Expressions and statements -/

section

variable (host : Host)

open Memory.SameNames

/-- No **expression** declares a name. -/
theorem sameNames_evaluate (n : Nat) (e : Expr) : (evaluate host n e).Within Memory.SameNames := by
  induction n generalizing e with
  | zero => rw [evaluate]; exact ofResult (.error _)
  | succ n ih =>
    cases e with
    | literal value => rw [evaluate]; exact ofResult (.ok _)
    | grouping inner => rw [evaluate]; exact ih inner
    | unary op operand => rw [evaluate]; exact bind (ih operand) fun _ => ofResult _
    | binary left op right =>
      rw [evaluate]
      exact bind (ih left) fun _ => bind (ih right) fun _ => ofResult _
    | logical left op right =>
      rw [evaluate]
      refine bind (ih left) fun v => ?_
      split
      · exact ofResult (.ok v)
      · exact ih right
    | name token => rw [evaluate]; exact lookup token
    | assign target value =>
      rw [evaluate]
      exact bind (ih value) fun v => bind (assignTo target v) fun _ => ofResult (.ok v)
    | call callee paren arguments =>
      rw [evaluate]
      exact bind (ih callee) fun f => bind (mapM ih arguments) fun vs =>
        apply host (Memory.stable_restored.executeAll host n) paren f vs

/-- No **statement** but a declaration declares a name, since neither its branches nor its body are
declarations. -/
theorem sameNames_execute (n : Nat) {s : Stmt} (h : s.WellFormed) (hplain : ¬ s.IsDeclaration) :
    (execute host n s).Within Memory.SameNames := by
  have he := sameNames_evaluate host
  induction n generalizing s with
  | zero => rw [execute]; exact ofResult (.error _)
  | succ n ih =>
    cases h with
    | expression => rw [execute]; exact bind (he n _) fun _ => ofResult (.ok ())
    | print => rw [execute]; exact bind (he n _) fun v m => .refl m.scopes
    | declare | function => exact absurd trivial hplain
    | @block body =>
      rw [execute]
      exact inBlock (Memory.stable_restored.executeAll host n body)
    | @branch _ yes no _ hyes hyesPlain hno hnoPlain =>
      cases no with
      | none =>
        rw [execute]
        refine bind (he n _) fun v => ?_
        split
        · exact ih hyes hyesPlain
        · exact ofResult (.ok ())
      | some no =>
        rw [execute]
        refine bind (he n _) fun v => ?_
        split
        · exact ih hyes hyesPlain
        · exact ih (hno no rfl) (hnoPlain no rfl)
    | loop _ hbody hbodyPlain =>
      rw [execute]
      exact repeatWhile (map _ (he n _)) (ih hbody hbodyPlain) _
    | @returnValue keyword value =>
      cases value with
      | none => rw [execute]; exact ofResult (.error _)
      | some value => rw [execute]; exact bind (he n value) fun v => ofResult (.error _)

/-- A **statement** declares its name in the innermost frame, when it runs to its end, and no other
name in any frame. -/
theorem gained_execute (n : Nat) {s : Stmt} (h : s.WellFormed) (m : Memory) :
    Scopes.Gained (s.gained? ((execute host n s).run m).1) m.scopes
      ((execute host n s).run m).2.scopes := by
  by_cases hplain : s.IsDeclaration
  · cases n with
    | zero => rw [execute]; exact .refl m.scopes
    | succ n =>
      cases s with
      | declare target value =>
        cases value with
        | none => rw [execute]; exact .define target.lexeme .nil m.scopes
        | some value =>
          have hvalue := sameNames_evaluate host n value m
          rw [execute, run_bind]
          rcases hrun : (evaluate host n value).run m with ⟨e | v, m'⟩ <;> rw [hrun] at hvalue
          · exact hvalue
          · exact hvalue.behind (.define target.lexeme v m'.scopes)
      | function target parameters body => rw [execute]; exact .define target.lexeme _ m.scopes
      | _ => cases hplain
  · have hgained : s.gained? ((execute host n s).run m).1 = none := by
      rcases ((execute host n s).run m).1 with _ | _
      · rfl
      · exact Stmt.declared?_eq_none_iff.mpr hplain
    rw [hgained]
    exact sameNames_execute host n h hplain m

end

/-! ### The steps of parsed programs -/

namespace Step

open Semantics

variable {host : Host} {n n' : Nat} {t t' : Step} {m m' : Memory}

/-- The statement of a step is **well-formed**, if the step executes one. -/
def WellFormed : Step → Prop
  | expression _ => True
  | statement s => s.WellFormed

theorem wellFormed_of_run {α : Type} {Q : α → Prop} {p : Eval α} {result : Except Interrupt α}
    (hgives : GivesWellFormed Q p) (hm : m.WellFormed) (h : p.run m = (result, m')) :
    m'.WellFormed := by
  have hafter := (hgives m (Nat.zero_le _) hm).2.1
  rwa [h] at hafter

theorem gives_executeAll (host : Host) (n : Nat) {statements : List Stmt}
    (h : ∀ s ∈ statements, s.WellFormed) :
    GivesWellFormed (fun _ => True) (executeAll host n statements) :=
  Value.lasting_wellFormed.executeAll host n (fun s hs _ hf => (h s hs).of_declares hf) 0

theorem wellFormed_entered {parameters : List Token} {arguments : List Value}
    (hv : ∀ v ∈ arguments, v.WellFormed) (hm : m.WellFormed) :
    (entered parameters arguments m).WellFormed := by
  have henter : Memory.WellFormed { m with scopes := m.scopes.enterCall.enterBlock } :=
    Scopes.Every.enterBlock (Scopes.Every.enterCall hm)
  have hbound := Value.lasting_wellFormed.bindParameters (c := 0) parameters hv _
    (Nat.zero_le _) henter
  exact Scopes.Every.enterBlock hbound.2.1

/-- All **rounds** of a loop find values that are well-formed. -/
theorem wellFormed_of_rounds {condition : Eval Bool} {body : Eval Unit} {k : Nat}
    (hc : GivesWellFormed (fun _ => True) condition) (hb : GivesWellFormed (fun _ => True) body)
    (h : Rounds condition body k m m') (hm : m.WellFormed) : m'.WellFormed := by
  induction h with
  | start => exact hm
  | next hcondition hbody _ ih =>
    exact ih (wellFormed_of_run hb (wellFormed_of_run hc hm hcondition) hbody)

/-- The step that a **well-formed** one starts is well-formed, and the values it finds are. -/
theorem Starts.wellFormed (h : Starts host n t m t' m') (ht : t.WellFormed) (hm : m.WellFormed) :
    t'.WellFormed ∧ m'.WellFormed := by
  have hcondition : ∀ e, GivesWellFormed (fun _ => True) (Value.isTruthy <$> evaluate host n e) :=
    fun e => Value.Lasting.map (gives_evaluate host n e) fun _ _ _ => trivial
  cases h with
  | first => exact ⟨trivial, hm⟩
  | right hleft => exact ⟨trivial, wellFormed_of_run (gives_evaluate host n _) hm hleft⟩
  | second hleft => exact ⟨trivial, wellFormed_of_run (gives_evaluate host n _) hm hleft⟩
  | argument hcallee hfront =>
    have hm₁ := wellFormed_of_run (gives_evaluate host n _) hm hcallee
    exact ⟨trivial, wellFormed_of_run (gives_mapM host n _) hm₁ hfront⟩
  | @called callee _ arguments f identity vs front behind s _ m₁ m₂ _ hcallee harguments _ hbody
      hfront =>
    have hm₁ := wellFormed_of_run (gives_evaluate host n callee) hm hcallee
    have hm₂ := wellFormed_of_run (gives_mapM host n arguments) hm₁ harguments
    have hf : (Value.function f identity).WellFormed := by
      have hresult := (gives_evaluate host n callee m (Nat.zero_le _) hm).2.2
      rwa [hcallee] at hresult
    have hvs : ∀ v ∈ vs, v.WellFormed := by
      have hresult := (gives_mapM host n arguments m₁ (Nat.zero_le _) hm₁).2.2
      rwa [harguments] at hresult
    have hstatements := hf f identity rfl
    rw [hbody] at hstatements
    obtain ⟨hfrontWell, hrest⟩ := List.forall_mem_append.mp hstatements
    exact ⟨hrest s (List.mem_cons_self ..),
      wellFormed_of_run (gives_executeAll host n hfrontWell) (wellFormed_entered hvs hm₂) hfront⟩
  | @inside front behind s _ _ hfront =>
    cases ht with
    | block hbody =>
      obtain ⟨hfrontWell, hrest⟩ := List.forall_mem_append.mp hbody
      have henter : Memory.WellFormed { m with scopes := m.scopes.enterBlock } :=
        Scopes.Every.enterBlock hm
      exact ⟨hrest s (List.mem_cons_self ..),
        wellFormed_of_run (gives_executeAll host n hfrontWell) henter hfront⟩
  | yes hrun =>
    cases ht with
    | branch _ hyes => exact ⟨hyes, wellFormed_of_run (gives_evaluate host n _) hm hrun⟩
  | no hrun =>
    cases ht with
    | branch _ _ _ hno => exact ⟨hno _ rfl, wellFormed_of_run (gives_evaluate host n _) hm hrun⟩
  | condition _ hrounds =>
    cases ht with
    | loop _ hbody =>
      exact ⟨trivial, wellFormed_of_rounds (hcondition _) (gives_execute host n hbody) hrounds hm⟩
  | body _ hrounds hrun =>
    cases ht with
    | loop _ hbody =>
      have hm₁ := wellFormed_of_rounds (hcondition _) (gives_execute host n hbody) hrounds hm
      exact ⟨hbody, wellFormed_of_run (hcondition _) hm₁ hrun⟩

/-- So is every step that a well-formed one **takes**. -/
theorem Takes.wellFormed (h : Takes host n t m n' t' m') (ht : t.WellFormed)
    (hm : m.WellFormed) : t'.WellFormed ∧ m'.WellFormed := by
  induction h with
  | self => exact ⟨ht, hm⟩
  | inside hstarts _ ih =>
    obtain ⟨ht₁, hm₁⟩ := hstarts.wellFormed ht hm
    exact ih ht₁ hm₁

end Step

/-! ### Programs -/

/-- A name that is **gained** comes last among the names without repetition, if it is new. -/
theorem Frame.namesWith_eraseDups {frame : Frame} {names : List String}
    (h : frame.names = names.eraseDups) (x? : Option String) :
    frame.namesWith x? = (names ++ x?.toList).eraseDups := by
  cases x? with
  | none => rw [namesWith, Option.toList_none, List.append_nil, h]
  | some x =>
    rw [Option.toList_some, List.eraseDups_append]
    simp only [namesWith, h, List.mem_eraseDups]
    split
    · next hmem => simp [List.removeAll, hmem]
    · next hmem => simp [List.removeAll, hmem, List.eraseDups_cons]

/-- Statements at the top level that have **all** run to their ends have added the names that they
declare to the globals. -/
theorem names_globals_executeAll (host : Host) (n : Nat) {statements : List Stmt}
    (h : ∀ s ∈ statements, s.WellFormed) {m m' : Memory}
    (hrun : (executeAll host n statements).run m = (.ok (), m')) (htop : m.scopes.locals = [])
    {names : List String} (hnames : m.scopes.globals.names = names.eraseDups) :
    m'.scopes.locals = [] ∧
      m'.scopes.globals.names = (names ++ statements.filterMap Stmt.declared?).eraseDups := by
  induction statements generalizing m names with
  | nil =>
    cases hrun
    rw [List.filterMap_nil, List.append_nil]
    exact ⟨htop, hnames⟩
  | cons s statements ih =>
    obtain ⟨hs, hstatements⟩ := List.forall_mem_cons.mp h
    have hgained := (gained_execute host n hs m).globals htop
    rw [executeAll, run_forM_cons] at hrun
    rcases hstep : (execute host n s).run m with ⟨e | ⟨⟩, m₁⟩ <;> rw [hstep] at hrun hgained
    · cases hrun
    · obtain ⟨htop₁, hnames₁⟩ := hgained
      rw [Frame.namesWith_eraseDups hnames] at hnames₁
      obtain ⟨htop', hnames'⟩ := ih hstatements hrun htop₁ hnames₁
      refine ⟨htop', hnames'.trans ?_⟩
      rw [Stmt.gained?, List.append_assoc, List.filterMap_cons]
      cases s.declared? <;> rfl

/-! ### The law -/

/-- **Names enter the frame of their own scope only.** Whenever a parsed program that is run in a
reachable memory evaluates an expression, all frames keep the names they have; whenever it executes
a statement, the innermost frame may gain one, and this is the name of the statement, which is a
declaration and runs to its end. So the global names behind a program in a fresh script session are
`clock` and those of the declarations at the top level that have run to their ends, in the order in
which they came first. -/
theorem names_enter_own_scope (host : Host) :
    (∀ (n : Nat) (tokens : List Token) (front behind : List Stmt) (s : Stmt) (m m₀ : Memory),
      m.Reachable → (Parse.ofTokens tokens).statements = front ++ s :: behind →
      (executeAll host n front).run m = (.ok (), m₀) →
      (∀ k e m', Step.Takes host n (.statement s) m₀ k (.expression e) m' →
        Scopes.Gained none m'.scopes ((evaluate host k e).run m').2.scopes) ∧
      ∀ k t m', Step.Takes host n (.statement s) m₀ k (.statement t) m' →
        Scopes.Gained (t.gained? ((execute host k t).run m').1) m'.scopes
          ((execute host k t).run m').2.scopes) ∧
    ∀ n console path source,
      ∃ done rest m',
        (Parse.ofSource source).statements = done ++ rest ∧
        (executeAll host n done).run .fresh = (.ok (), m') ∧
        (∀ s ∈ rest.head?, ((execute host n s).run m').1 ≠ .ok ()) ∧
        ((Session.new console path false).run ⟨host, n⟩ source).2.memory.scopes.globals.names =
          ("clock" :: done.filterMap Stmt.declared?).eraseDups := by
  constructor
  · intro n tokens front behind s m m₀ hm hstatements hfront
    have hwell := parse_wellFormed tokens
    rw [hstatements] at hwell
    obtain ⟨hfrontWell, hrest⟩ := List.forall_mem_append.mp hwell
    have hs : s.WellFormed := hrest s (List.mem_cons_self ..)
    have hm₀ : m₀.WellFormed :=
      Step.wellFormed_of_run (Step.gives_executeAll host n hfrontWell) hm.every_wellFormed hfront
    refine ⟨fun k e m' _ => sameNames_evaluate host k e m', fun k t m' htakes => ?_⟩
    exact gained_execute host k (htakes.wellFormed hs hm₀).1 m'
  · intro n console path source
    obtain ⟨done, rest, m', hsplit, hdone, hstop, hrun⟩ :=
      exists_run_forM (execute host n) (Parse.ofSource source).statements .fresh
    have hwell := parse_wellFormed (scan source).tokens
    rw [show (Parse.ofTokens (scan source).tokens).statements = done ++ rest from hsplit] at hwell
    obtain ⟨hdoneWell, hrestWell⟩ := List.forall_mem_append.mp hwell
    have hclock : Memory.fresh.scopes.globals.names = ["clock"].eraseDups := rfl
    obtain ⟨htop, hnames⟩ := names_globals_executeAll host n hdoneWell hdone rfl hclock
    refine ⟨done, rest, m', hsplit, hdone, hstop, Eq.trans ?_ hnames⟩
    have hmemory : ((Session.new console path false).run ⟨host, n⟩ source).2.memory.scopes =
        (rest.head?.elim (.ok (), m') fun s => (execute host n s).run m').2.scopes := by
      rw [Session.memory_run, ← hrun]
      rfl
    rw [hmemory]
    -- The statement that has stopped the program declares nothing.
    rcases rest with _ | ⟨s, rest⟩
    · rfl
    · have hgained := gained_execute host n (hrestWell s (List.mem_cons_self ..)) m'
      have hstopped : s.gained? ((execute host n s).run m').1 = none := by
        rcases h : ((execute host n s).run m').1 with _ | ⟨⟩
        · rfl
        · exact absurd h (hstop s rfl)
      rw [hstopped] at hgained
      exact (hgained.globals htop).2

end LoxLang
