import LoxLang.Evaluation

/-!
# Runs on other values

A function on values replaces every value that a memory binds. Here is what it takes for one
computation to do with the values replaced what another one does without: it **follows** the other
one, if it ends with its result and its memory, both with their values replaced, wherever the other
does not overflow (`Eval.Follows`). Each way to build a computation keeps this.
-/

namespace LoxLang

/-! ### Memories -/

/-- The frame with every value replaced. -/
def Frame.mapValues (f : Value → Value) (frame : Frame) : Frame := frame.map (Prod.map id f)

/-- The scopes with every value replaced. -/
def Scopes.mapValues (f : Value → Value) (s : Scopes) : Scopes where
  globals := s.globals.mapValues f
  locals := s.locals.map (Frame.mapValues f)
  callers := s.callers.map (List.map (Frame.mapValues f))

/-- The memory with every value replaced. -/
def Memory.mapValues (f : Value → Value) (m : Memory) : Memory :=
  { m with scopes := m.scopes.mapValues f }

variable {f : Value → Value}

namespace Frame

theorem get?_mapValues (x : String) (frame : Frame) :
    (mapValues f frame).get? x = (get? x frame).map f := by
  induction frame with
  | nil => rfl
  | cons entry frame ih =>
    obtain ⟨y, v⟩ := entry
    change get? x ((y, f v) :: mapValues f frame) = _
    rw [get?, get?]
    split
    · rfl
    · exact ih

theorem bind_mapValues (x : String) (v : Value) (frame : Frame) :
    bind x (f v) (mapValues f frame) = mapValues f (bind x v frame) := by
  induction frame with
  | nil => rfl
  | cons entry frame ih =>
    obtain ⟨y, w⟩ := entry
    change bind x (f v) ((y, f w) :: mapValues f frame) = _
    rw [bind, bind]
    split
    · rfl
    · exact congrArg (List.cons (y, f w)) ih

end Frame

namespace Scopes

theorem nearest?_mapValues (x : String) (frames : List Frame) :
    nearest? x (frames.map (Frame.mapValues f)) = (nearest? x frames).map f := by
  induction frames with
  | nil => rfl
  | cons frame frames ih =>
    rw [List.map_cons, nearest?, nearest?, Frame.get?_mapValues]
    cases frame.get? x with
    | none => exact ih
    | some v => rfl

theorem replace?_mapValues (x : String) (v : Value) (frames : List Frame) :
    replace? x (f v) (frames.map (Frame.mapValues f)) =
      (replace? x v frames).map (List.map (Frame.mapValues f)) := by
  induction frames with
  | nil => rfl
  | cons frame frames ih =>
    rw [List.map_cons, replace?, replace?, Frame.get?_mapValues, ih]
    cases frame.get? x with
    | none => cases replace? x v frames <;> rfl
    | some w =>
      rw [Option.map_some, Frame.bind_mapValues]
      rfl

theorem get?_mapValues (x : String) (s : Scopes) :
    (s.mapValues f).get? x = (s.get? x).map f := by
  rw [get?, get?, chain, chain, ← nearest?_mapValues, List.map_append]
  rfl

theorem assign?_mapValues (x : String) (v : Value) (s : Scopes) :
    (s.mapValues f).assign? x (f v) = (s.assign? x v).map (mapValues f) := by
  rw [assign?, assign?, mapValues]
  dsimp only
  rw [replace?_mapValues, Frame.get?_mapValues, Frame.bind_mapValues]
  cases replace? x v s.locals with
  | some locals => rfl
  | none => cases s.globals.get? x <;> rfl

theorem define_mapValues (x : String) (v : Value) (s : Scopes) :
    (s.mapValues f).define x (f v) = (s.define x v).mapValues f := by
  obtain ⟨globals, _ | ⟨frame, frames⟩, callers⟩ := s
  · simp only [mapValues, define, List.map_nil, Frame.bind_mapValues]
  · simp only [mapValues, define, List.map_cons, Frame.bind_mapValues]

theorem enterBlock_mapValues (s : Scopes) :
    (s.mapValues f).enterBlock = s.enterBlock.mapValues f := rfl

theorem exitBlock_mapValues (s : Scopes) :
    (s.mapValues f).exitBlock = s.exitBlock.mapValues f := by
  simp only [mapValues, exitBlock, List.map_tail]

theorem enterCall_mapValues (s : Scopes) :
    (s.mapValues f).enterCall = s.enterCall.mapValues f := rfl

theorem exitCall_mapValues (s : Scopes) :
    (s.mapValues f).exitCall = s.exitCall.mapValues f := by
  obtain ⟨globals, locals, _ | ⟨caller, callers⟩⟩ := s <;> rfl

end Scopes

/-! ### Results -/

/-- The interrupt with the value that is returned replaced. -/
def Interrupt.mapValue (f : Value → Value) : Interrupt → Interrupt
  | .failure error => .failure error
  | .returning keyword v => .returning keyword (f v)
  | .abort reason => .abort reason

namespace Eval

variable {α β γ δ : Type} {g : α → β} {h : γ → δ}

/-- The result with every value replaced: `g` replaces the values of a result that is none. -/
def mapResult (f : Value → Value) (g : α → β) : Except Interrupt α → Except Interrupt β
  | .ok a => .ok (g a)
  | .error e => .error (e.mapValue f)

/-- A runtime error holds no value. -/
theorem mapResult_eq_failure_iff {r : Except Interrupt α} {e : RuntimeError} :
    mapResult f g r = .error (.failure e) ↔ r = .error (.failure e) := by
  rcases r with (_ | _ | _) | _ <;> simp [mapResult, Interrupt.mapValue]

/-! ### Computations -/

/-- The computation `q` **follows** `p`: with the values replaced it does the same, unless `p`
overflows. -/
def Follows (f : Value → Value) (g : α → β) (p : Eval α) (q : Eval β) : Prop :=
  ∀ m, (p.run m).1 = .error (.abort .overflow) ∨
    q.run (m.mapValues f) = (mapResult f g (p.run m).1, (p.run m).2.mapValues f)

namespace Follows

/-- Whatever overflows at once is followed. -/
theorem overflow (q : Eval β) : Follows f g (abort .overflow) q := fun _ => .inl rfl

theorem pure {a : α} {b : β} (hab : g a = b) : Follows f g (Pure.pure a) (Pure.pure b) :=
  fun m => .inr (congrArg (fun c => (Except.ok c, m.mapValues f)) hab.symm)

theorem throw {e e' : Interrupt} (he : e.mapValue f = e') :
    Follows f g (MonadExcept.throw e) (MonadExcept.throw e') :=
  fun m => .inr (congrArg (fun e => (Except.error e, m.mapValues f)) he.symm)

theorem ofResult {r : Except Interrupt α} {r' : Except Interrupt β} (hr : mapResult f g r = r') :
    Follows f g (Eval.ofResult r) (Eval.ofResult r') := by
  intro m
  rw [run_ofResult, run_ofResult, hr]
  exact .inr rfl

theorem bind {p : Eval α} {q : Eval β} {k : α → Eval γ} {k' : β → Eval δ} (hp : Follows f g p q)
    (hk : ∀ a, Follows f h (k a) (k' (g a))) : Follows f h (p >>= k) (q >>= k') := by
  intro m
  rw [run_bind, run_bind]
  rcases hp m with hover | hrun
  · rcases hfirst : p.run m with ⟨_ | a, m'⟩ <;> rw [hfirst] at hover <;> cases hover
    exact .inl rfl
  · rw [hrun]
    rcases p.run m with ⟨e | a, m'⟩
    · exact .inr rfl
    · exact hk a m'

theorem map {p : Eval α} {q : Eval β} {k : α → γ} {k' : β → δ} (hp : Follows f g p q)
    (hk : ∀ a, h (k a) = k' (g a)) : Follows f h (k <$> p) (k' <$> q) := by
  rw [← bind_pure_comp, ← bind_pure_comp]
  exact hp.bind fun a => pure (hk a)

theorem forM {k : α → Eval Unit} {k' : β → Eval Unit} (hk : ∀ a, Follows f id (k a) (k' (g a)))
    (as : List α) : Follows f id (as.forM k) ((as.map g).forM k') := by
  induction as with
  | nil => exact pure rfl
  | cons a as ih => exact (hk a).bind fun _ => ih

theorem mapM {k : α → Eval γ} {k' : β → Eval δ} (hk : ∀ a, Follows f h (k a) (k' (g a)))
    (as : List α) : Follows f (List.map h) (as.mapM k) ((as.map g).mapM k') := by
  induction as with
  | nil => exact pure rfl
  | cons a as ih =>
    rw [List.map_cons, List.mapM_cons, List.mapM_cons]
    exact (hk a).bind fun _ => ih.bind fun _ => pure rfl

theorem repeatWhile {c d : Eval Bool} {p q : Eval Unit} (hc : Follows f id c d)
    (hp : Follows f id p q) (n : Nat) :
    Follows f id (Eval.repeatWhile c p n) (Eval.repeatWhile d q n) := by
  induction n with
  | zero => exact throw rfl
  | succ n ih =>
    refine hc.bind fun holds => ?_
    cases holds with
    | false => exact pure rfl
    | true => exact hp.bind fun _ => ih

/-- What runs between two changes of the scopes follows there. -/
private theorem between {p : Eval α} {q : Eval β} (hp : Follows f g p q)
    {enter leave : Scopes → Scopes}
    (henter : ∀ s, enter (s.mapValues f) = (enter s).mapValues f)
    (hleave : ∀ s, leave (s.mapValues f) = (leave s).mapValues f) :
    Follows f g (do onScopes enter; p.ensuring leave) (do onScopes enter; q.ensuring leave) := by
  intro m
  have hrun : ∀ {ε : Type} (r : Eval ε) (m : Memory),
      (do onScopes enter; r.ensuring leave : Eval ε).run m =
        ((r.run { m with scopes := enter m.scopes }).1,
          { (r.run { m with scopes := enter m.scopes }).2 with
            scopes := leave (r.run { m with scopes := enter m.scopes }).2.scopes }) :=
    fun _ _ => rfl
  have hentered : { m.mapValues f with scopes := enter (m.mapValues f).scopes } =
      Memory.mapValues f { m with scopes := enter m.scopes } :=
    congrArg (fun scopes => { m with scopes }) (henter m.scopes)
  rw [hrun, hrun, hentered]
  refine (hp { m with scopes := enter m.scopes }).imp id fun hrun => ?_
  rw [hrun]
  exact Prod.ext rfl (congrArg (fun scopes => { Memory.mapValues f _ with scopes }) (hleave _))

theorem inBlock {p : Eval α} {q : Eval β} (hp : Follows f g p q) :
    Follows f g (Eval.inBlock p) (Eval.inBlock q) :=
  hp.between Scopes.enterBlock_mapValues Scopes.exitBlock_mapValues

theorem inCall {p : Eval α} {q : Eval β} (hp : Follows f g p q) :
    Follows f g (Eval.inCall p) (Eval.inCall q) :=
  hp.between Scopes.enterCall_mapValues Scopes.exitCall_mapValues

theorem returned {p q : Eval Unit} (hp : Follows f id p q) (hnil : f .nil = .nil) :
    Follows f f (Eval.returned p) (Eval.returned q) := by
  intro m
  rw [run_returned, run_returned]
  rcases hp m with hover | hrun
  · rw [hover]
    exact .inl rfl
  · rw [hrun]
    refine .inr (Prod.ext ?_ rfl)
    rcases (p.run m).1 with (_ | _ | _) | _
    · rfl
    · rfl
    · rfl
    · exact congrArg Except.ok hnil.symm

/-! ### Variables and calls -/

theorem define (x : String) (v : Value) : Follows f id (Eval.define x v) (Eval.define x (f v)) := by
  intro m
  rw [run_define, run_define]
  exact .inr (Prod.ext rfl
    (congrArg (fun scopes => { m with scopes }) (m.scopes.define_mapValues x v)))

theorem lookup (name : Token) : Follows f f (Eval.lookup name) (Eval.lookup name) := by
  intro m
  rw [run_lookup, run_lookup]
  have hget : (m.mapValues f).scopes.get? name.lexeme = (m.scopes.get? name.lexeme).map f :=
    m.scopes.get?_mapValues name.lexeme
  rw [hget]
  cases m.scopes.get? name.lexeme <;> exact .inr rfl

theorem assign (name : Token) (v : Value) :
    Follows f id (Eval.assign name v) (Eval.assign name (f v)) := by
  intro m
  rw [run_assign, run_assign]
  have hassign : (m.mapValues f).scopes.assign? name.lexeme (f v) =
      (m.scopes.assign? name.lexeme v).map (Scopes.mapValues f) :=
    m.scopes.assign?_mapValues name.lexeme v
  rw [hassign]
  cases m.scopes.assign? name.lexeme v <;> exact .inr rfl

theorem print (line : String) : Follows f id (Eval.print line) (Eval.print line) :=
  fun _ => .inr rfl

theorem newFunction {F F' : Function} (hF : ∀ i, f (.function F i) = .function F' i) :
    Follows f f (Eval.newFunction F) (Eval.newFunction F') := by
  intro m
  rw [run_newFunction, run_newFunction, mapResult, hF]
  exact .inr rfl

theorem readClock (host : Host) (hnumber : ∀ x, f (.number x) = .number x) :
    Follows f f (Eval.readClock host) (Eval.readClock host) := by
  intro m
  rw [run_readClock, run_readClock, mapResult, hnumber]
  exact .inr rfl

theorem bindParameters (parameters : List Token) (arguments : List Value) :
    Follows f id (Eval.bindParameters parameters arguments)
      (Eval.bindParameters parameters (arguments.map f)) := by
  have hzip : parameters.zip (arguments.map f) =
      (parameters.zip arguments).map (Prod.map id f) := by
    rw [List.zip_map_right]
  rw [Eval.bindParameters, Eval.bindParameters, hzip]
  refine forM (g := Prod.map id f) (fun entry => ?_) _
  exact define entry.1.lexeme entry.2

theorem call (parameters : List Token) (arguments : List Value) {p q : Eval Unit}
    (hp : Follows f id p q) (hnil : f .nil = .nil) :
    Follows f f (Eval.call parameters arguments p)
      (Eval.call parameters (arguments.map f) q) := by
  have henter : Follows f id (onScopes Scopes.enterBlock) (onScopes Scopes.enterBlock) :=
    fun _ => .inr rfl
  refine (returned ?_ hnil).inCall
  exact henter.bind fun _ => (bindParameters parameters arguments).bind fun _ => hp.inBlock

end Follows

end Eval

end LoxLang
