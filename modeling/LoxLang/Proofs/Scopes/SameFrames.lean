import LoxLang.Proofs.Scopes.Linked
import LoxLang.Proofs.Scopes.Restoration

/-!
# The same frames

Evaluation knows of scopes nothing but their operations, so that it runs on linked frames as it runs
on `Scopes` (`LinkedScopes.scoping`). There each frame is known by its number and its links, and not
by what it binds. Here it is shown that the two runs go together: the one on linked frames has the
same result and does the same to the rest of the memory, and the linked frames it leaves are again
those of the scopes that the other run leaves (`Eval.RunsAlike`).

What the run does to linked frames is then the law that scopes are restored, of frames that can be
told apart: all chains consist of the frames they had, linked as they were, the active frame is the
same, and the frames that are not on the active chain bind what they did
(`LinkedScopes.SameFrames`). The law is `evaluation_restores_scopes`.
-/

namespace LoxLang

open LinkedFrame Scopes

namespace LinkedScopes

/-! ### Evaluation on linked frames -/

/-- The linked scopes behind an operation. What fails for want of a chain changes nothing. -/
def performed (l : LinkedScopes) (op : Operation) : LinkedScopes := (l.perform? op).getD l

/-- Linked scopes **as evaluation uses them**. An assignment looks for the frame that has the name
and binds the name there. -/
@[reducible]
def scoping : Scoping LinkedScopes where
  get? x l := (l.get? x).join
  assign? x v l :=
    (l.chains.head?.bind fun active => active.find? (l.binds x)).map fun n => l.bind n x v
  define x v l := l.performed (.define x v)
  enterBlock l := l.performed .enterBlock
  exitBlock l := l.performed .exitBlock
  enterCall l := l.performed .enterCall
  exitCall l := l.performed .exitCall

namespace Separate

variable {l : LinkedScopes} {ns : List Nat} {inner : List (List Nat)} {s : Scopes}

theorem performed_define (h : l.Separate (ns :: inner) s) (x : String) (v : Value) :
    l.performed (.define x v) = l.bind (chainOf ns).number x v := by
  rw [performed, perform?, h.chains_eq_cons]
  rfl

theorem performed_enterBlock (h : l.Separate (ns :: inner) s) :
    l.performed .enterBlock =
      { l with
        chains := inside l.made (chainOf ns) :: inner.map chainOf
        contents := Function.update l.contents l.made []
        made := l.made + 1 } := by
  rw [performed, perform?, h.chains_eq_cons]
  rfl

theorem performed_exitBlock {n : Nat} (h : l.Separate ((n :: ns) :: inner) s) :
    l.performed .exitBlock = { l with chains := (ns :: inner).map chainOf } := by
  rw [performed, perform?, h.chains_eq_cons]
  rfl

theorem performed_enterCall (h : l.Separate (ns :: inner) s) :
    l.performed .enterCall = { l with chains := l.globals :: l.chains } := by
  rw [performed, perform?, h.chains_eq_cons]
  rfl

theorem performed_exitCall {caller : List Nat} (h : l.Separate (ns :: caller :: inner) s) :
    l.performed .exitCall = { l with chains := (caller :: inner).map chainOf } := by
  rw [performed, perform?, h.chains_eq_cons]
  rfl

/-- The frames of the active chain, the globals among them, are made. -/
theorem lt_made_of_mem_active (h : l.Separate (ns :: inner) s) {n : Nat}
    (hn : n ∈ (chainOf ns).numbers) : n < l.made := by
  rw [numbers_chainOf, List.mem_append, List.mem_singleton] at hn
  refine h.lt_made n ?_
  rcases hn with hn | rfl
  · exact List.mem_cons_of_mem _ (List.mem_append_left _ hn)
  · exact List.mem_cons_self

end Separate

/-! ### Frames that stay -/

/-- The linked scopes `after` consist of the **same frames** as the linked scopes `before`. There
may be more frames behind them, of chains that were left again. -/
structure SameFrames (before after : LinkedScopes) : Prop where
  globals : after.globals = before.globals
  /-- There are the same chains, each of the same frames in the same order. In particular the active
  frame is the same. -/
  chains : after.chains = before.chains
  made : before.made ≤ after.made
  /-- The frames that are not on the active chain bind what they did. -/
  others : ∀ n < before.made, (∀ active ∈ before.chains.head?, n ∉ active.numbers) →
    after.contents n = before.contents n
  /-- All frames but the active one have the names they had. -/
  names : ∀ n < before.made, (∀ active ∈ before.chains.head?, n ≠ active.number) →
    (after.contents n).names = (before.contents n).names
  /-- The active frame has the names it had, and possibly new ones behind them. -/
  current : ∀ active ∈ before.chains.head?,
    (before.contents active.number).names <+: (after.contents active.number).names

namespace SameFrames

variable {l l' l'' : LinkedScopes} {active : LinkedFrame} {suspended : List LinkedFrame}

@[refl]
theorem refl (l : LinkedScopes) : l.SameFrames l where
  globals := rfl
  chains := rfl
  made := Nat.le_refl _
  others _ _ _ := rfl
  names _ _ _ := rfl
  current _ _ := List.prefix_refl _

theorem trans (h : l.SameFrames l') (h' : l'.SameFrames l'') : l.SameFrames l'' where
  globals := h'.globals.trans h.globals
  chains := h'.chains.trans h.chains
  made := Nat.le_trans h.made h'.made
  others n hn hactive :=
    (h'.others n (Nat.lt_of_lt_of_le hn h.made) (h.chains ▸ hactive)).trans (h.others n hn hactive)
  names n hn hactive :=
    (h'.names n (Nat.lt_of_lt_of_le hn h.made) (h.chains ▸ hactive)).trans (h.names n hn hactive)
  current active hactive :=
    (h.current active hactive).trans (h'.current active (h.chains ▸ hactive))

/-- A name is bound in place: in the active frame, or in a frame of the active chain that has it. -/
theorem bind {n : Nat} {x : String} (hchains : l.chains = active :: suspended)
    (hn : n ∈ active.numbers) (hnames : n = active.number ∨ x ∈ (l.contents n).names) (v : Value) :
    l.SameFrames (l.bind n x v) where
  globals := rfl
  chains := rfl
  made := Nat.le_refl _
  others m _ hactive := by
    have hm : m ∉ active.numbers := hactive active (by rw [hchains]; rfl)
    exact contents_bind_of_ne (Ne.symm (ne_of_mem_of_not_mem hn hm)) l x v
  names m _ hactive := by
    have hm : m ≠ active.number := hactive active (by rw [hchains]; rfl)
    by_cases heq : m = n
    · subst heq
      rw [contents_bind_self]
      exact Frame.names_bind_of_mem (hnames.resolve_left hm) v
    · rw [contents_bind_of_ne heq]
  current active' _ := by
    by_cases heq : active'.number = n
    · rw [heq, contents_bind_self]
      exact Frame.names_prefix_names_bind x v _
    · exact (contents_bind_of_ne heq l x v).symm ▸ List.prefix_rfl

/-- A frame that is **laid** on frames of the active chain is left again: with the chains as they
were, the frames are the same. -/
theorem of_laid {base : LinkedFrame} {frame : Frame} {rest : List LinkedFrame}
    (hchains : l.chains = active :: suspended) (hbase : base.numbers ⊆ active.numbers)
    (hmade : ∀ n ∈ active.numbers, n < l.made)
    (h : SameFrames { l with
      chains := inside l.made base :: rest
      contents := Function.update l.contents l.made frame
      made := l.made + 1 } l') : l.SameFrames { l' with chains := l.chains } where
  globals := h.globals
  chains := rfl
  made := Nat.le_of_succ_le h.made
  others n hn hactive := by
    have hne : n ≠ l.made := Nat.ne_of_lt hn
    refine (h.others n (Nat.lt_succ_of_lt hn) ?_).trans (Function.update_of_ne hne _ _)
    rintro _ ⟨⟩ hmem
    rcases List.mem_cons.mp hmem with hmem | hmem
    · exact hne hmem
    · exact hactive active (by rw [hchains]; rfl) (hbase hmem)
  names n hn _ := by
    have hne : n ≠ l.made := Nat.ne_of_lt hn
    refine (h.names n (Nat.lt_succ_of_lt hn) ?_).trans ?_
    · rintro _ ⟨⟩
      exact hne
    · exact congrArg Frame.names (Function.update_of_ne hne _ _)
  current active' hactive := by
    obtain rfl : active = active' := by simpa [hchains] using hactive
    have hlt : active.number < l.made := hmade _ active.number_mem_numbers
    have hne : active.number ≠ l.made := Nat.ne_of_lt hlt
    have hnames := h.names active.number (Nat.lt_succ_of_lt hlt) (by rintro _ ⟨⟩; exact hne)
    exact hnames.trans (congrArg Frame.names (Function.update_of_ne hne _ _)) ▸ List.prefix_rfl

end SameFrames

end LinkedScopes

open LinkedScopes

/-! ### Runs that go together -/

/-- The memory with linked frames in place of its scopes. -/
def Memory.linked (m : Memory) (l : LinkedScopes) : @Memory _ scoping :=
  @Memory.mk _ scoping l m.printed m.created m.readings

namespace Eval

/-- A computation on linked frames **runs like** one on scopes. If the frames are those of the
scopes at first, then both have the same result and do the same to the rest of the memory, the
frames are those of the scopes afterwards, and they are the same frames. -/
def RunsAlike {α : Type} (p : Eval α) (q : @Eval _ scoping α) : Prop :=
  ∀ m l inner, l.Separate inner m.scopes → ∃ l',
    q.run (m.linked l) = ((p.run m).1, (p.run m).2.linked l') ∧
      l'.Separate inner (p.run m).2.scopes ∧ l.SameFrames l'

namespace RunsAlike

variable {α β : Type}

/-! ### Computations built from others -/

theorem ofResult (r : Except Interrupt α) :
    RunsAlike (Eval.ofResult r) (@Eval.ofResult _ scoping _ r) := by
  intro m l inner h
  rw [run_ofResult]
  exact ⟨l, @run_ofResult _ scoping _ r _, h, .refl l⟩

theorem pure (a : α) : RunsAlike (Pure.pure a) (Pure.pure a) := ofResult (.ok a)

theorem throw (e : Interrupt) : RunsAlike (α := α) (MonadExcept.throw e) (MonadExcept.throw e) :=
  ofResult (.error e)

theorem bind {p : Eval α} {q : @Eval _ scoping α} {f : α → Eval β} {g : α → @Eval _ scoping β}
    (hp : RunsAlike p q) (hf : ∀ a, RunsAlike (f a) (g a)) : RunsAlike (p >>= f) (q >>= g) := by
  intro m l inner h
  obtain ⟨l₁, hrun, h₁, hsame⟩ := hp m l inner h
  rw [run_bind, @run_bind _ scoping, hrun]
  generalize p.run m = ran at h₁ ⊢
  obtain ⟨e | a, m₁⟩ := ran
  · exact ⟨l₁, rfl, h₁, hsame⟩
  · obtain ⟨l₂, hrun', h₂, hsame'⟩ := hf a m₁ l₁ inner h₁
    exact ⟨l₂, hrun', h₂, hsame.trans hsame'⟩

theorem map {p : Eval α} {q : @Eval _ scoping α} (f : α → β) (h : RunsAlike p q) :
    RunsAlike (f <$> p) (f <$> q) := by
  rw [← bind_pure_comp, ← bind_pure_comp]
  exact h.bind fun a => pure (f a)

theorem forM {f : α → Eval Unit} {g : α → @Eval _ scoping Unit} (h : ∀ a, RunsAlike (f a) (g a))
    (as : List α) : RunsAlike (as.forM f) (as.forM g) := by
  induction as with
  | nil => exact pure ()
  | cons a as ih => exact (h a).bind fun _ => ih

theorem mapM {f : α → Eval β} {g : α → @Eval _ scoping β} (h : ∀ a, RunsAlike (f a) (g a))
    (as : List α) : RunsAlike (as.mapM f) (as.mapM g) := by
  induction as with
  | nil => exact pure []
  | cons a as ih =>
    rw [List.mapM_cons, List.mapM_cons]
    exact (h a).bind fun b => ih.bind fun bs => pure (b :: bs)

theorem repeatWhile {c : Eval Bool} {d : @Eval _ scoping Bool} {p : Eval Unit}
    {q : @Eval _ scoping Unit} (hc : RunsAlike c d) (hp : RunsAlike p q) (n : Nat) :
    RunsAlike (Eval.repeatWhile c p n) (@Eval.repeatWhile _ scoping d q n) := by
  induction n with
  | zero => exact throw _
  | succ n ih =>
    refine hc.bind fun holds => ?_
    cases holds with
    | true => exact hp.bind fun _ => ih
    | false => exact pure ()

/-- To turn a `return` into a value changes no frames. -/
theorem returned {p : Eval Unit} {q : @Eval _ scoping Unit} (h : RunsAlike p q) :
    RunsAlike (Eval.returned p) (@Eval.returned _ scoping q) := by
  intro m l inner hl
  obtain ⟨l', hrun, h', hsame⟩ := h m l inner hl
  rw [run_returned, @run_returned _ scoping, hrun]
  exact ⟨l', rfl, h', hsame⟩

/-- A frame is laid on the active chain for a **block**, and taken off behind it. -/
theorem inBlock {p : Eval α} {q : @Eval _ scoping α} (h : RunsAlike p q) :
    RunsAlike (Eval.inBlock p) (@Eval.inBlock _ scoping _ q) := by
  intro m l inner hl
  obtain ⟨ns, inner, rfl, -⟩ := hl.exists_cons
  obtain ⟨l', hrun, h', hsame⟩ := h { m with scopes := m.scopes.enterBlock } _ _ (hl.lay [])
  have hexit : l'.performed .exitBlock = { l' with chains := l.chains } := by
    rw [h'.performed_exitBlock, hl.chains_eq]
  refine ⟨{ l' with chains := l.chains }, ?_, ?_, ?_⟩
  · rw [← hl.performed_enterBlock] at hrun
    rw [← hexit]
    exact @run_inBlock_of _ scoping _ _ (m.linked l) _ _ hrun
  · rw [hl.chains_eq]
    exact h'.exitBlock
  · exact .of_laid hl.chains_eq_cons (List.Subset.refl _)
      (fun n hn => hl.lt_made_of_mem_active hn) hsame

/-! ### Variables and calls -/

theorem define (x : String) (v : Value) :
    RunsAlike (Eval.define x v) (@Eval.define _ scoping x v) := by
  intro m l inner h
  obtain ⟨ns, inner, rfl, -⟩ := h.exists_cons
  refine ⟨l.bind (chainOf ns).number x v, ?_, h.define x v, ?_⟩
  · rw [← h.performed_define]
    rfl
  · exact .bind h.chains_eq_cons (chainOf ns).number_mem_numbers (.inl rfl) v

theorem lookup (name : Token) : RunsAlike (Eval.lookup name) (@Eval.lookup _ scoping name) := by
  intro m l inner h
  have hget : @Scoping.get? _ scoping name.lexeme l = m.scopes.get? name.lexeme := by
    change (l.get? name.lexeme).join = _
    rw [h.represents.get?_eq, Option.join_some]
  rw [run_lookup]
  refine ⟨l, (@run_lookup_of _ scoping name (m.linked l)).trans ?_, h, .refl l⟩
  rw [Memory.linked, hget]

/-- An assignment binds the name **in place**, in the nearest frame that has it. -/
theorem assign (name : Token) (v : Value) :
    RunsAlike (Eval.assign name v) (@Eval.assign _ scoping name v) := by
  intro m l inner h
  obtain ⟨ns, inner, rfl, -⟩ := h.exists_cons
  have hlinked : @Scoping.assign? _ scoping name.lexeme v l =
      ((chainOf ns).find? (l.binds name.lexeme)).map fun n => l.bind n name.lexeme v := by
    change (l.chains.head?.bind _).map _ = _
    rw [h.chains_eq_cons]
    rfl
  have hassign := h.assign name.lexeme v
  rw [run_assign, @run_assign_of _ scoping, Memory.linked, hlinked]
  cases hfind : (chainOf ns).find? (l.binds name.lexeme) with
  | none =>
    rw [hfind] at hassign
    rw [hassign]
    exact ⟨l, rfl, h, .refl l⟩
  | some n =>
    rw [hfind] at hassign
    obtain ⟨s', hs', h'⟩ := hassign
    rw [hs']
    refine ⟨l.bind n name.lexeme v, rfl, h', ?_⟩
    rw [find?_chainOf] at hfind
    refine .bind h.chains_eq_cons ?_ (.inr ?_) v
    · rw [numbers_chainOf]
      exact List.mem_of_find?_eq_some hfind
    · have hbinds : l.binds name.lexeme n = true := List.find?_some hfind
      exact Frame.isSome_get?_iff.mp hbinds

theorem print (line : String) : RunsAlike (Eval.print line) (@Eval.print _ scoping line) :=
  fun _ l _ h => ⟨l, rfl, h, .refl l⟩

theorem newFunction (f : Function) :
    RunsAlike (Eval.newFunction f) (@Eval.newFunction _ scoping f) :=
  fun _ l _ h => ⟨l, rfl, h, .refl l⟩

theorem readClock (host : Host) :
    RunsAlike (Eval.readClock host) (@Eval.readClock _ scoping host) :=
  fun _ l _ h => ⟨l, rfl, h, .refl l⟩

theorem bindParameters (parameters : List Token) (arguments : List Value) :
    RunsAlike (Eval.bindParameters parameters arguments)
      (@Eval.bindParameters _ scoping parameters arguments) := by
  refine forM (fun entry => ?_) _
  exact define entry.1.lexeme entry.2

/-- A **call** starts a chain of the globals and a frame for the parameters, and takes up the chain
of the caller behind it. -/
theorem call (parameters : List Token) (arguments : List Value) {p : Eval Unit}
    {q : @Eval _ scoping Unit} (h : RunsAlike p q) :
    RunsAlike (Eval.call parameters arguments p) (@Eval.call _ scoping parameters arguments q) := by
  intro m l inner hl
  obtain ⟨ns, inner, rfl, -⟩ := hl.exists_cons
  have hbody := returned ((bindParameters parameters arguments).bind fun _ => inBlock h)
  obtain ⟨l', hrun, h', hsame⟩ :=
    hbody { m with scopes := m.scopes.enterCall.enterBlock } _ _ (hl.enterCall.lay [])
  have hexit : l'.performed .exitCall = { l' with chains := l.chains } := by
    rw [h'.performed_exitCall, hl.chains_eq]
  refine ⟨{ l' with chains := l.chains }, ?_, ?_, ?_⟩
  · rw [← hl.enterCall.performed_enterBlock, ← hl.performed_enterCall] at hrun
    rw [run_call, ← hexit]
    exact @run_call_of _ scoping _ _ _ (m.linked l) _ _ hrun
  · rw [run_call, hl.chains_eq]
    exact h'.exitCall
  · -- The frames around the parameters are the globals, which are on the active chain as well.
    refine .of_laid hl.chains_eq_cons ?_ (fun n hn => hl.lt_made_of_mem_active hn) hsame
    rw [numbers_chainOf, numbers_chainOf]
    exact List.subset_append_right ns [0]

theorem apply (host : Host) {run : List Stmt → Eval Unit} {run' : List Stmt → @Eval _ scoping Unit}
    (hrun : ∀ body, RunsAlike (run body) (run' body)) (paren : Token) (callee : Value)
    (arguments : List Value) :
    RunsAlike (Eval.apply host run paren callee arguments)
      (@Eval.apply _ scoping host run' paren callee arguments) := by
  unfold Eval.apply
  split
  · exact ofResult _
  · split
    · split
      · exact call _ arguments (hrun _)
      · exact readClock host
    · exact ofResult _

/-! ### Expressions and statements -/

/-- One more level of nesting: on both sides, steps are built from steps that nest less. -/
private theorem runsAlike_succ (host : Host) {n : Nat}
    (he : ∀ e, RunsAlike (evaluate host n e) (@evaluate _ scoping host n e))
    (hs : ∀ s, RunsAlike (execute host n s) (@execute _ scoping host n s)) :
    (∀ e, RunsAlike (evaluate host (n + 1) e) (@evaluate _ scoping host (n + 1) e)) ∧
      ∀ s, RunsAlike (execute host (n + 1) s) (@execute _ scoping host (n + 1) s) := by
  refine ⟨fun e => ?_, fun s => ?_⟩
  · cases e with
    | literal value => unfold evaluate; exact pure _
    | grouping inner => unfold evaluate; exact he inner
    | unary op operand =>
      unfold evaluate
      exact (he operand).bind fun _ => ofResult _
    | binary left op right =>
      unfold evaluate
      exact (he left).bind fun _ => (he right).bind fun _ => ofResult _
    | logical left op right =>
      unfold evaluate
      refine (he left).bind fun v => ?_
      split
      · exact pure v
      · exact he right
    | name token => unfold evaluate; exact lookup token
    | assign target value =>
      unfold evaluate
      exact (he value).bind fun v => (assign target v).bind fun _ => pure v
    | call callee paren arguments =>
      unfold evaluate
      exact (he callee).bind fun f => (mapM he arguments).bind fun vs =>
        apply host (forM hs) paren f vs
  · cases s with
    | expression value => unfold execute; exact (he value).bind fun _ => pure ()
    | print value => unfold execute; exact (he value).bind fun v => print v.display
    | declare target value =>
      cases value with
      | none => unfold execute; exact define target.lexeme .nil
      | some value =>
        unfold execute
        exact (he value).bind fun v => define target.lexeme v
    | block body => unfold execute; exact inBlock (forM hs body)
    | branch condition yes no =>
      cases no with
      | none =>
        unfold execute
        refine (he condition).bind fun v => ?_
        split
        · exact hs yes
        · exact pure ()
      | some no =>
        unfold execute
        refine (he condition).bind fun v => ?_
        split
        · exact hs yes
        · exact hs no
    | loop condition body =>
      unfold execute
      exact (he condition).map Value.isTruthy |>.repeatWhile (hs body) _
    | function target parameters body =>
      unfold execute
      exact (newFunction _).bind fun f => define target.lexeme f
    | returnValue keyword value =>
      cases value with
      | none => unfold execute; exact throw _
      | some value => unfold execute; exact (he value).bind fun v => throw _

private theorem runsAlike (host : Host) (n : Nat) :
    (∀ e, RunsAlike (evaluate host n e) (@evaluate _ scoping host n e)) ∧
      ∀ s, RunsAlike (execute host n s) (@execute _ scoping host n s) := by
  induction n with
  | zero =>
    refine ⟨fun e => ?_, fun s => ?_⟩
    · unfold evaluate; exact throw _
    · unfold execute; exact throw _
  | succ n ih => exact runsAlike_succ host ih.1 ih.2

/-- An **expression** on linked frames runs like the same expression on scopes. -/
theorem evaluate (host : Host) (n : Nat) (e : Expr) :
    RunsAlike (LoxLang.evaluate host n e) (@LoxLang.evaluate _ scoping host n e) :=
  (runsAlike host n).1 e

/-- A **statement** on linked frames runs like the same statement on scopes. -/
theorem execute (host : Host) (n : Nat) (s : Stmt) :
    RunsAlike (LoxLang.execute host n s) (@LoxLang.execute _ scoping host n s) :=
  (runsAlike host n).2 s

theorem executeAll (host : Host) (n : Nat) (statements : List Stmt) :
    RunsAlike (LoxLang.executeAll host n statements)
      (@LoxLang.executeAll _ scoping host n statements) :=
  forM (execute host n) statements

end RunsAlike

end Eval

/-! ### The law -/

/-- **Scopes are restored** by every expression, every statement and every program, whatever memory
they start from and however they end: with a value or normally, with a runtime error, with a
`return` on its way, or because the run cannot go on.

- All scopes are those of linked frames. The same run on these has the same result, and the linked
  frames that it leaves are those of the scopes that are left. They are the same frames: there are
  the same chains of the same frames, the active frame is the same, and the frames that are not on
  the active chain bind what they did.
- In the scopes themselves, the frames put aside are what they were, and the frames of the active
  chain have the names they had, but for new names in the innermost one.
- In particular a program that starts at depth one outside of any call ends there. -/
theorem evaluation_restores_scopes (host : Host) :
    (∀ s, ∃ l inner, Separate l inner s) ∧
      (∀ n e, Eval.RunsAlike (evaluate host n e) (@evaluate _ scoping host n e)) ∧
      (∀ n s, Eval.RunsAlike (execute host n s) (@execute _ scoping host n s)) ∧
      (∀ n e m, Scopes.Restored m.scopes ((evaluate host n e).run m).2.scopes) ∧
      (∀ n s m, Scopes.Restored m.scopes ((execute host n s).run m).2.scopes) ∧
      ∀ n program (session : Session),
        let before := session.memory.scopes
        let after := (session.interpret ⟨host, n⟩ program).2.memory.scopes
        (∀ l inner, l.Separate inner before → ∃ l',
          @Memory.scopes _ scoping
              ((@executeAll _ scoping host n program).run (session.memory.linked l)).2 = l' ∧
            l'.Separate inner after ∧ l.SameFrames l') ∧
          Scopes.Restored before after ∧
          after.depth = before.depth ∧ after.callDepth = before.callDepth := by
  refine ⟨exists_separate, Eval.RunsAlike.evaluate host, Eval.RunsAlike.execute host,
    Memory.stable_restored.evaluate host, Memory.stable_restored.execute host, ?_⟩
  intro n program session before after
  have hafter : after = ((executeAll host n program).run session.memory).2.scopes := by
    rw [show after = _ from congrArg Memory.scopes (session.memory_interpret ⟨host, n⟩ program)]
  have hrestored : Scopes.Restored before after :=
    hafter ▸ Memory.stable_restored.executeAll host n program session.memory
  refine ⟨fun l inner h => ?_, hrestored, hrestored.depth_eq, hrestored.callDepth_eq⟩
  obtain ⟨l', hrun, h', hsame⟩ := Eval.RunsAlike.executeAll host n program session.memory l inner h
  exact ⟨l', by rw [hrun]; rfl, hafter ▸ h', hsame⟩

/-- `{ var x = y; { y = nil; x = nope; } }` in a block of a call, with a caller that has a frame of
its own: it fails two blocks deeper. The active frame is still the second one, that of the caller
binds what it did, and the blocks have left two frames that no chain has any more. -/
theorem evaluation_restores_scopes_of_failure :
    let host : Host := ⟨fun _ => 0, 0⟩
    let token := Token.of .identifier
    let s := Stmt.block [.declare (token "x") (some (.name (token "y"))), .block
      [.expression (.assign (token "y") (.literal .nil)),
        .expression (.assign (token "x") (.name (token "nope")))]]
    let m : Memory := ⟨⟨[], [[("y", .bool true)]], [[[("z", .bool false)]]]⟩, #[], 0, 0⟩
    let l : LinkedScopes := ⟨root 0, [inside 2 (root 0), inside 1 (root 0)], fun n =>
      if n = 1 then [("z", .bool false)] else if n = 2 then [("y", .bool true)] else [], 3⟩
    l.Separate [[2], [1]] m.scopes ∧
      ((execute host 6 s).run m).1 = .error (.failure ⟨token "nope", .undefinedVariable⟩) ∧
      ∃ l', ((@execute _ scoping host 6 s).run (m.linked l)).2 =
          ((execute host 6 s).run m).2.linked l' ∧
        l'.chains = [inside 2 (root 0), inside 1 (root 0)] ∧ l'.made = 5 ∧
        l'.contents 2 = [("y", .nil)] ∧ l'.contents 1 = [("z", .bool false)] := by
  intro host token s m l
  have hseparate : l.Separate [[2], [1]] m.scopes := by
    refine ⟨rfl, rfl, by decide, ?_, rfl, rfl⟩
    change ∀ n ∈ [0, 2, 1], n < 3
    decide
  have hresult : ((execute host 6 s).run m).1 =
      .error (.failure ⟨token "nope", .undefinedVariable⟩) := rfl
  obtain ⟨-, -, halike, -⟩ := evaluation_restores_scopes host
  obtain ⟨l', hrun, -, hsame⟩ := halike 6 s m l _ hseparate
  have hafter : ((@execute _ scoping host 6 s).run (m.linked l)).2 =
      ((execute host 6 s).run m).2.linked l' := congrArg Prod.snd hrun
  have hlinked : l' = @Memory.scopes _ scoping
      ((@execute _ scoping host 6 s).run (m.linked l)).2 := by rw [hafter]; rfl
  refine ⟨hseparate, hresult, l', hafter, hsame.chains, ?_, ?_, ?_⟩
  · rw [hlinked]; rfl
  · rw [hlinked]; rfl
  · exact hsame.others 1 (by decide) fun active hactive => by cases hactive; decide

end LoxLang
