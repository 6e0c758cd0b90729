import LoxLang.Proofs.Scopes.Linked

/-!
# Calls that are entered and exited

The operations on scopes can come in any order. A block can be left open or be left once too often,
and a call can be exited where none was entered. Whatever comes between the entry of a call and the
exit that **matches** it, the exit brings back the chain of the caller: the very same frames, and in
all of them but the globals the same bindings. The globals keep the names they had, in their order.

`Scopes.Balanced` says which operations can come between an entry and its exit, and
`scopes_isolate_calls` is the law, for `Scopes` and for frames with links.
-/

namespace LoxLang

namespace Scopes

/-- Whether an operation enters or exits a call. -/
def Operation.IsCall : Operation → Prop
  | .enterCall | .exitCall => True
  | _ => False

/-- Operations are **balanced** if each entry of a call among them has an exit, and each exit an
entry. Blocks may be entered and exited as it happens. -/
inductive Balanced : List Operation → Prop
  | nil : Balanced []
  | cons {op : Operation} {ops : List Operation} :
    ¬ op.IsCall → Balanced ops → Balanced (op :: ops)
  | call {inner ops : List Operation} :
    Balanced inner → Balanced ops → Balanced (.enterCall :: inner ++ .exitCall :: ops)

/-- The operations between an entry of a call and the exit that **matches** it are balanced. -/
def matched (between : List Operation) : List Operation := .enterCall :: between ++ [.exitCall]

theorem performAll_append (s : Scopes) (ops ops' : List Operation) :
    s.performAll (ops ++ ops') = (s.performAll ops).performAll ops' := List.foldl_append

/-! ### What operations keep -/

/-- Only entries and exits of calls change the **callers**. -/
theorem callers_perform {op : Operation} (h : ¬ op.IsCall) (s : Scopes) :
    (s.perform op).callers = s.callers := by
  cases op with
  | define x v =>
    rw [perform, define]
    split <;> rfl
  | assign x v =>
    rw [perform]
    cases hassign : s.assign? x v with
    | none => rfl
    | some s' => exact (assign?_eq_some_iff.mp hassign).2
  | get | enterBlock | exitBlock => rfl
  | enterCall | exitCall => exact absurd trivial h

/-- Every operation keeps the names of the **globals**, in front and in order. -/
theorem names_globals_perform (op : Operation) (s : Scopes) :
    s.globals.names <+: (s.perform op).globals.names := by
  cases op with
  | define x v =>
    rw [perform, define]
    split
    · exact Frame.names_prefix_names_bind x v s.globals
    · exact List.prefix_refl _
  | assign x v =>
    rw [perform, assign?]
    split
    · exact List.prefix_refl _
    · split
      · exact Frame.names_prefix_names_bind x v s.globals
      · exact List.prefix_refl _
  | get | enterBlock | exitBlock | enterCall => exact List.prefix_refl _
  | exitCall =>
    have hglobals : (s.perform .exitCall).globals = s.globals := globals_exitCall s
    exact hglobals ▸ List.prefix_refl _

theorem names_globals_performAll (ops : List Operation) (s : Scopes) :
    s.globals.names <+: (s.performAll ops).globals.names := by
  induction ops generalizing s with
  | nil => exact List.prefix_refl _
  | cons op ops ih => exact (names_globals_perform op s).trans (ih (s.perform op))

/-- Behind **balanced** operations, the callers are those there were. -/
theorem Balanced.callers_performAll {ops : List Operation} (h : Balanced ops) (s : Scopes) :
    (s.performAll ops).callers = s.callers := by
  induction h generalizing s with
  | nil => rfl
  | @cons op ops hop _ ih => exact (ih (s.perform op)).trans (callers_perform hop s)
  | @call inner ops _ _ ihinner ih =>
    have hinner : (s.enterCall.performAll inner).callers = s.locals :: s.callers :=
      ihinner s.enterCall
    have hexit : (s.enterCall.performAll inner).exitCall.callers = s.callers := by
      rw [exitCall, hinner]
    change (s.performAll ((.enterCall :: inner) ++ .exitCall :: ops)).callers = _
    rw [performAll_append]
    exact (ih _).trans hexit

/-- Behind a call that was entered and exited, the **caller's chain** is what it was, and so are the
chains of its callers. -/
theorem performAll_matched {between : List Operation} (h : Balanced between) (s : Scopes) :
    s.performAll (matched between) =
      { s with globals := (s.enterCall.performAll between).globals } := by
  have hcallers : (s.enterCall.performAll between).callers = s.locals :: s.callers :=
    h.callers_performAll s.enterCall
  change (s.performAll ((.enterCall :: between) ++ [.exitCall])) = _
  rw [performAll_append]
  change (s.enterCall.performAll between).exitCall = _
  rw [exitCall, hcallers]

end Scopes

open Scopes

/-! ### Frames with links -/

namespace LinkedScopes

variable {l l' : LinkedScopes} {active : LinkedFrame} {suspended : List LinkedFrame}

theorem performAll?_append (l : LinkedScopes) (ops ops' : List Operation) :
    l.performAll? (ops ++ ops') = (l.performAll? ops).bind (performAll? · ops') :=
  List.foldlM_append

theorem performAll?_cons_eq_some_iff {op : Operation} {ops : List Operation} :
    l.performAll? (op :: ops) = some l' ↔
      ∃ middle, l.perform? op = some middle ∧ middle.performAll? ops = some l' :=
  Option.bind_eq_some_iff

theorem performAll?_append_eq_some_iff {ops ops' : List Operation} :
    l.performAll? (ops ++ ops') = some l' ↔
      ∃ middle, l.performAll? ops = some middle ∧ middle.performAll? ops' = some l' := by
  rw [performAll?_append]
  exact Option.bind_eq_some_iff

/-- Only entries and exits of calls change the **suspended** chains. -/
theorem chains_perform? {op : Operation} (hop : ¬ op.IsCall) (h : l.chains = active :: suspended)
    (hperform : l.perform? op = some l') : ∃ active', l'.chains = active' :: suspended := by
  rw [perform?, h] at hperform
  cases op with
  | define | get =>
    cases hperform
    exact ⟨active, h⟩
  | assign =>
    cases hperform
    refine ⟨active, ?_⟩
    dsimp only
    split
    · exact h
    · exact h
  | enterBlock =>
    cases hperform
    exact ⟨_, rfl⟩
  | exitBlock =>
    cases hperform
    cases active with
    | root n => exact ⟨_, h⟩
    | inside n enclosing => exact ⟨enclosing, rfl⟩
  | enterCall | exitCall => exact absurd trivial hop

theorem chains_perform?_enterCall (h : l.chains = active :: suspended)
    (hperform : l.perform? .enterCall = some l') :
    l'.chains = l.globals :: active :: suspended := by
  rw [perform?, h] at hperform
  cases hperform
  rfl

theorem chains_perform?_exitCall {caller : LinkedFrame} {callers : List LinkedFrame}
    (h : l.chains = active :: caller :: callers) (hperform : l.perform? .exitCall = some l') :
    l'.chains = caller :: callers := by
  rw [perform?, h] at hperform
  cases hperform
  rfl

/-- Behind **balanced** operations, the suspended chains are those there were. -/
theorem chains_performAll? {ops : List Operation} (hops : Balanced ops)
    (h : l.chains = active :: suspended) (hperform : l.performAll? ops = some l') :
    ∃ active', l'.chains = active' :: suspended := by
  induction hops generalizing l l' active suspended with
  | nil =>
    cases hperform
    exact ⟨active, h⟩
  | cons hop _ ih =>
    obtain ⟨middle, hfirst, hrest⟩ := performAll?_cons_eq_some_iff.mp hperform
    obtain ⟨active', hmiddle⟩ := chains_perform? hop h hfirst
    exact ih hmiddle hrest
  | call _ _ ihinner ih =>
    obtain ⟨middle, hcall, hrest⟩ := performAll?_append_eq_some_iff.mp hperform
    obtain ⟨entered, henter, hinner⟩ := performAll?_cons_eq_some_iff.mp hcall
    obtain ⟨exited, hexit, hrest⟩ := performAll?_cons_eq_some_iff.mp hrest
    obtain ⟨_, hmiddle⟩ := ihinner (chains_perform?_enterCall h henter) hinner
    exact ih (chains_perform?_exitCall hmiddle hexit) hrest

/-- A call that was entered and exited brings back **the same chains**. -/
theorem chains_matched {between : List Operation} (hbetween : Balanced between)
    (h : l.chains ≠ []) (hperform : l.performAll? (matched between) = some l') :
    l'.chains = l.chains := by
  obtain ⟨active, suspended, hchains⟩ := List.exists_cons_of_ne_nil h
  obtain ⟨middle, hcall, hrest⟩ := performAll?_append_eq_some_iff.mp hperform
  obtain ⟨entered, henter, hinner⟩ := performAll?_cons_eq_some_iff.mp hcall
  obtain ⟨exited, hexit, hnil⟩ := performAll?_cons_eq_some_iff.mp hrest
  have hentered := chains_perform?_enterCall hchains henter
  obtain ⟨_, hmiddle⟩ := chains_performAll? hbetween hentered hinner
  cases hnil
  exact (chains_perform?_exitCall hmiddle hexit).trans hchains.symm

/-- Chains that are the same, and read the same up to the globals, read the same frame by frame. -/
theorem Represents.frames_eq_of_chains_eq {s : Scopes} {globals : Frame} (h : l.Represents s)
    (h' : l'.Represents { s with globals }) (hchains : l'.chains = l.chains) :
    ∀ chain ∈ l.chains, (l'.frames chain).dropLast = (l.frames chain).dropLast := by
  have hsame := congrArg (List.map List.dropLast) (h'.frames_eq.trans rfl)
  have hsame' := congrArg (List.map List.dropLast) h.frames_eq
  simp only [hchains, List.map_map, Function.comp_def, List.dropLast_concat] at hsame hsame'
  exact List.map_inj_left.mp (hsame.trans hsame'.symm)

end LinkedScopes

/-- **Scopes isolate calls**, in whatever order they are operated on.

- Frames with links never lack an active chain, all their chains end in the one global frame, and
  they read like the scopes behind the same operations.
- Behind a call that was entered and exited there are the chains that there were in front of it, of
  the same frames. Each frame but the global one binds what it bound, and the global one has the
  names it had, in their order. -/
theorem scopes_isolate_calls :
    (∀ ops, ∃ l, LinkedScopes.new.performAll? ops = some l ∧
        l.Represents (empty.performAll ops)) ∧
      ∀ before between, Balanced between →
        ∃ l l', LinkedScopes.new.performAll? before = some l ∧
          l.performAll? (matched between) = some l' ∧
          l'.Represents (empty.performAll (before ++ matched between)) ∧
          l'.chains = l.chains ∧
          (∀ chain ∈ l.chains, (l'.frames chain).dropLast = (l.frames chain).dropLast) ∧
          let s := empty.performAll before
          let s' := empty.performAll (before ++ matched between)
          s'.locals = s.locals ∧ s'.callers = s.callers ∧ s'.depth = s.depth ∧
            s.globals.names <+: s'.globals.names := by
  refine ⟨LinkedScopes.exists_performAll, fun before between hbetween => ?_⟩
  obtain ⟨l', hperform, h'⟩ := LinkedScopes.exists_performAll (before ++ matched between)
  obtain ⟨l, hbefore, hcall⟩ := LinkedScopes.performAll?_append_eq_some_iff.mp hperform
  obtain ⟨_, hbefore', h⟩ := LinkedScopes.exists_performAll before
  cases hbefore.symm.trans hbefore'
  have hchains := LinkedScopes.chains_matched hbetween h.chains_ne_nil hcall
  have hnames := names_globals_performAll (matched between) (empty.performAll before)
  have hreturned := performAll_matched hbetween (empty.performAll before)
  rw [hreturned] at hnames
  rw [performAll_append, hreturned] at h' ⊢
  exact ⟨l, l', hbefore, hcall, h', hchains, h.frames_eq_of_chains_eq h' hchains, rfl, rfl, rfl,
    hnames⟩

/-- A call from inside a block. It leaves a block open, exits another one once too often, makes a
call of its own, and binds names both in a frame of its own and in the globals. -/
theorem scopes_isolate_calls_of_unpaired_blocks :
    let x := Operation.define "x"
    let before := [x .nil, .exitCall, .enterBlock, x (.bool true)]
    let between := [.exitBlock, .define "y" .nil, .enterBlock, x (.bool false), .enterCall,
      .assign "x" (.string "seen"), .exitBlock, .exitCall, .enterBlock]
    let s := empty.performAll (before ++ matched between)
    Balanced between ∧ s.locals = [[("x", .bool true)]] ∧ s.callers = [] ∧
      s.globals = [("x", .string "seen"), ("y", .nil)] := by
  intro x before between s
  have hbalanced : Balanced between := by
    refine .cons id (.cons id (.cons id (.cons id ?_)))
    exact .call (.cons id (.cons id .nil)) (.cons id .nil)
  obtain ⟨_, _, -, -, -, -, -, hlocals, hcallers, -⟩ :=
    scopes_isolate_calls.2 before between hbalanced
  exact ⟨hbalanced, hlocals, hcallers, rfl⟩

end LoxLang
