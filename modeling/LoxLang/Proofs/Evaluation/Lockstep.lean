import LoxLang.Proofs.Evaluation.Stability
import LoxLang.Proofs.Scopes.Bindings
import LoxLang.Proofs.Scopes.Restoration
import Mathlib.Data.List.Forall2

/-!
# Two runs in lockstep

Two runs of the same program start from two memories `o₁` and `o₂` whose globals and active local
frames are the same. What they have printed before, how many functions they have made, how often
they have read the clock and which frames they have put aside may differ. Then they go on in
lockstep: values, frames and memories stay **alike**, that is, the same up to the identities of the
functions made since.

Functions made before keep their identity, and those made since correspond in the order in which
they are made. So the `k`-th new function of one run is alike the `k`-th new function of the other,
and equality of the language cannot tell the runs apart.

The main statements are `evaluate_alike`, `execute_alike` and `executeAll_alike`. A call needs less:
nothing but globals that are alike (`Eval.Alike.call_globally`).
-/

namespace LoxLang

/-! ### Identities and values -/

/-- The identities `i` and `j` **correspond** in runs that start with `c₁` and `c₂` functions made:
they are the same old one, or new ones made at the same time. -/
def SameIdentity (c₁ c₂ i j : Nat) : Prop :=
  (i = j ∧ i < c₁ ∧ i < c₂) ∨ ∃ k, i = c₁ + k ∧ j = c₂ + k

/-- Corresponding identities are equal or different alike. -/
theorem SameIdentity.eq_iff {c₁ c₂ i i' j j' : Nat} (h : SameIdentity c₁ c₂ i j)
    (h' : SameIdentity c₁ c₂ i' j') : i = i' ↔ j = j' := by
  -- Old identities are below all new ones, in both runs.
  obtain ⟨heq, hlt₁, hlt₂⟩ | ⟨k, hi, hj⟩ := h <;>
    obtain ⟨heq', hlt₁', hlt₂'⟩ | ⟨k', hi', hj'⟩ := h' <;> omega

/-- Values are **alike** when they are the same up to corresponding identities. -/
inductive Value.Alike (c₁ c₂ : Nat) : Value → Value → Prop
  | nil : Alike c₁ c₂ .nil .nil
  | bool (b : Bool) : Alike c₁ c₂ (.bool b) (.bool b)
  | number (x : Float) : Alike c₁ c₂ (.number x) (.number x)
  | string (s : String) : Alike c₁ c₂ (.string s) (.string s)
  | native (f : Native) (i : Nat) : Alike c₁ c₂ (.native f i) (.native f i)
  | function (f : Function) {i j : Nat} (h : SameIdentity c₁ c₂ i j) :
    Alike c₁ c₂ (.function f i) (.function f j)

namespace Value.Alike

variable {c₁ c₂ : Nat} {v v' w w' : Value}

theorem ofLiteral (l : Literal) : Alike c₁ c₂ (.ofLiteral l) (.ofLiteral l) := by
  cases l with
  | nil => exact nil
  | bool b => exact bool b
  | number x => exact number x
  | string s => exact string s

theorem isTruthy_eq (h : Alike c₁ c₂ v w) : v.isTruthy = w.isTruthy := by cases h <;> rfl

theorem display_eq (h : Alike c₁ c₂ v w) : v.display = w.display := by cases h <;> rfl

theorem equals_eq (h : Alike c₁ c₂ v w) (h' : Alike c₁ c₂ v' w') :
    v.equals v' = w.equals w' := by
  cases h with
  -- Functions are the values that are alike without being the same.
  | function f hi =>
    cases h' with
    | function f' hi' =>
      rw [equals, equals, Bool.eq_iff_iff, beq_iff_eq, beq_iff_eq]
      exact hi.eq_iff hi'
    | _ => rfl
  | _ => cases h' <;> rfl

end Value.Alike

/-! ### Results -/

/-- Interrupts are **alike** when they differ at most in a value that is returned. -/
inductive Interrupt.Alike (c₁ c₂ : Nat) : Interrupt → Interrupt → Prop
  | failure (e : RuntimeError) : Alike c₁ c₂ (.failure e) (.failure e)
  | returning (keyword : Token) {v w : Value} (h : v.Alike c₁ c₂ w) :
    Alike c₁ c₂ (.returning keyword v) (.returning keyword w)
  | abort (reason : Abort) : Alike c₁ c₂ (.abort reason) (.abort reason)

/-- Results are **alike** when both are values related by `Q`, or both are interrupts and alike. -/
inductive ResultAlike (c₁ c₂ : Nat) {α β : Type} (Q : α → β → Prop) :
    Except Interrupt α → Except Interrupt β → Prop
  | ok {a : α} {b : β} (h : Q a b) : ResultAlike c₁ c₂ Q (.ok a) (.ok b)
  | error {e e' : Interrupt} (h : e.Alike c₁ c₂ e') : ResultAlike c₁ c₂ Q (.error e) (.error e')

namespace Value.Alike

variable {c₁ c₂ : Nat} {v v' w w' : Value}

theorem applyUnary (op : Token) (h : v.Alike c₁ c₂ w) :
    ResultAlike c₁ c₂ (Value.Alike c₁ c₂) (LoxLang.applyUnary op v) (LoxLang.applyUnary op w) := by
  have hfail : ResultAlike c₁ c₂ (Value.Alike c₁ c₂) (fail op .operandNotNumber)
      (fail op .operandNotNumber) := .error (.failure _)
  unfold LoxLang.applyUnary
  split
  · cases h with
    | number x => exact .ok (.number _)
    | _ => exact hfail
  · rw [h.isTruthy_eq]
    exact .ok (.bool _)

theorem applyNumbers (op : Token) (x y : Float) :
    ResultAlike c₁ c₂ (Value.Alike c₁ c₂) (LoxLang.applyNumbers op x y)
      (LoxLang.applyNumbers op x y) := by
  unfold LoxLang.applyNumbers
  split
  · exact .ok (.number _)
  · exact .ok (.number _)
  · exact .ok (.number _)
  · exact .ok (.bool _)
  · exact .ok (.bool _)
  · exact .ok (.bool _)
  · exact .ok (.bool _)
  · exact .error (.abort _)

theorem applyBinary (op : Token) (h : v.Alike c₁ c₂ w) (h' : v'.Alike c₁ c₂ w') :
    ResultAlike c₁ c₂ (Value.Alike c₁ c₂) (LoxLang.applyBinary op v v')
      (LoxLang.applyBinary op w w') := by
  have hadd : ResultAlike c₁ c₂ (Value.Alike c₁ c₂) (fail op .operandsNotAddable)
      (fail op .operandsNotAddable) := .error (.failure _)
  have hnumbers : ResultAlike c₁ c₂ (Value.Alike c₁ c₂) (fail op .operandsNotNumbers)
      (fail op .operandsNotNumbers) := .error (.failure _)
  unfold LoxLang.applyBinary
  split
  · cases h with
    | number x =>
      cases h' with
      | number y => exact .ok (.number _)
      | _ => exact hadd
    | string s =>
      cases h' with
      | string t => exact .ok (.string _)
      | _ => exact hadd
    | _ => exact hadd
  · rw [h.equals_eq h']
    exact .ok (.bool _)
  · rw [h.equals_eq h']
    exact .ok (.bool _)
  · cases h with
    | number x =>
      cases h' with
      | number y => exact applyNumbers op x y
      | _ => exact hnumbers
    | _ => exact hnumbers

end Value.Alike

/-! ### Frames -/

/-- Frames are **alike** when they bind the same names in the same order to values that are. -/
def Frame.Alike (c₁ c₂ : Nat) : Frame → Frame → Prop :=
  List.Forall₂ fun a b => a.1 = b.1 ∧ a.2.Alike c₁ c₂ b.2

namespace Frame.Alike

variable {c₁ c₂ : Nat} {f g : Frame} {v w : Value}

theorem get? (h : f.Alike c₁ c₂ g) (x : String) :
    Option.Rel (Value.Alike c₁ c₂) (f.get? x) (g.get? x) := by
  induction h with
  | nil => exact .none
  | @cons a b f g hab _ ih =>
    obtain ⟨y, v⟩ := a
    obtain ⟨z, w⟩ := b
    obtain ⟨rfl, hvw⟩ : y = z ∧ v.Alike c₁ c₂ w := hab
    rw [Frame.get?, Frame.get?]
    split
    · exact .some hvw
    · exact ih

theorem bind (h : f.Alike c₁ c₂ g) (x : String) (hv : v.Alike c₁ c₂ w) :
    (f.bind x v).Alike c₁ c₂ (g.bind x w) := by
  induction h with
  | nil => exact .cons ⟨rfl, hv⟩ .nil
  | @cons a b f g hab hfg ih =>
    obtain ⟨y, u⟩ := a
    obtain ⟨z, t⟩ := b
    obtain ⟨rfl, hut⟩ : y = z ∧ u.Alike c₁ c₂ t := hab
    rw [Frame.bind, Frame.bind]
    split
    · exact .cons ⟨rfl, hv⟩ hfg
    · exact .cons ⟨rfl, hut⟩ ih

/-- A frame whose values are alike themselves is alike itself. -/
theorem refl_of_every (h : Frame.Every (fun v => v.Alike c₁ c₂ v) f) : f.Alike c₁ c₂ f := by
  induction f with
  | nil => exact .nil
  | cons entry f ih =>
    obtain ⟨hentry, hf⟩ := List.forall_mem_cons.mp h
    exact .cons ⟨rfl, hentry⟩ (ih hf)

end Frame.Alike

namespace Scopes

variable {c₁ c₂ : Nat} {fs gs : List Frame} {v w : Value}

theorem nearest?_alike (h : List.Forall₂ (Frame.Alike c₁ c₂) fs gs) (x : String) :
    Option.Rel (Value.Alike c₁ c₂) (nearest? x fs) (nearest? x gs) := by
  induction h with
  | nil => exact .none
  | @cons f g fs gs hfg _ ih =>
    have hget := hfg.get? x
    rw [nearest?, nearest?]
    cases hf : f.get? x with
    | none =>
      rw [hf] at hget
      cases hg : g.get? x with
      | none => exact ih
      | some w => rw [hg] at hget; cases hget
    | some v =>
      rw [hf] at hget
      cases hg : g.get? x with
      | none => rw [hg] at hget; cases hget
      | some w => rw [hg] at hget; exact hget

theorem replace?_alike (h : List.Forall₂ (Frame.Alike c₁ c₂) fs gs) (x : String)
    (hv : v.Alike c₁ c₂ w) :
    Option.Rel (List.Forall₂ (Frame.Alike c₁ c₂)) (replace? x v fs) (replace? x w gs) := by
  induction h with
  | nil => exact .none
  | @cons f g fs gs hfg hrest ih =>
    -- Frames that are alike have the same names, so both runs replace in the same frame.
    have hget := hfg.get? x
    rw [replace?, replace?]
    cases hf : f.get? x with
    | none =>
      rw [hf] at hget
      cases hg : g.get? x with
      | none =>
        generalize replace? x v fs = fs' at ih
        generalize replace? x w gs = gs' at ih
        cases ih with
        | none => exact .none
        | some hreplaced => exact .some (.cons hfg hreplaced)
      | some w => rw [hg] at hget; cases hget
    | some v =>
      rw [hf] at hget
      cases hg : g.get? x with
      | none => rw [hg] at hget; cases hget
      | some w => exact .some (.cons (hfg.bind x hv) hrest)

end Scopes

/-! ### Memories -/

/-- Memories that runs from `o₁` and `o₂` have come to are **globally alike**: so are their globals,
and the runs have printed the same lines, made as many functions and read the clock as often. -/
structure Memory.GloballyAlike (o₁ o₂ m₁ m₂ : Memory) : Prop where
  globals : Frame.Alike o₁.created o₂.created m₁.scopes.globals m₂.scopes.globals
  printed : ∃ lines : Array String,
    m₁.printed = o₁.printed ++ lines ∧ m₂.printed = o₂.printed ++ lines
  created : ∃ k, m₁.created = o₁.created + k ∧ m₂.created = o₂.created + k
  readings : ∃ k, m₁.readings = o₁.readings + k ∧ m₂.readings = o₂.readings + k

/-- Memories are **alike** when their active local frames are, too. -/
structure Memory.Alike (o₁ o₂ m₁ m₂ : Memory) : Prop extends Memory.GloballyAlike o₁ o₂ m₁ m₂ where
  locals : List.Forall₂ (Frame.Alike o₁.created o₂.created) m₁.scopes.locals m₂.scopes.locals

namespace Memory.Alike

variable {o₁ o₂ m₁ m₂ : Memory} {v w : Value}

theorem chain (h : Alike o₁ o₂ m₁ m₂) :
    List.Forall₂ (Frame.Alike o₁.created o₂.created) m₁.scopes.chain m₂.scopes.chain :=
  List.rel_append h.locals (.cons h.globals .nil)

theorem get? (h : Alike o₁ o₂ m₁ m₂) (x : String) :
    Option.Rel (Value.Alike o₁.created o₂.created) (m₁.scopes.get? x) (m₂.scopes.get? x) :=
  Scopes.nearest?_alike h.chain x

theorem define (h : Alike o₁ o₂ m₁ m₂) (x : String) (hv : v.Alike o₁.created o₂.created w) :
    Alike o₁ o₂ { m₁ with scopes := m₁.scopes.define x v }
      { m₂ with scopes := m₂.scopes.define x w } := by
  have hlocals := h.locals
  rw [Scopes.define, Scopes.define]
  cases hl₁ : m₁.scopes.locals <;> cases hl₂ : m₂.scopes.locals <;> rw [hl₁, hl₂] at hlocals
  · exact ⟨⟨h.globals.bind x hv, h.printed, h.created, h.readings⟩, .nil⟩
  · cases hlocals
  · cases hlocals
  · cases hlocals with
    | cons hf hfs => exact ⟨⟨h.globals, h.printed, h.created, h.readings⟩, .cons (hf.bind x hv) hfs⟩

theorem assign (h : Alike o₁ o₂ m₁ m₂) (x : String) (hv : v.Alike o₁.created o₂.created w) :
    Option.Rel (fun s₁ s₂ => Alike o₁ o₂ { m₁ with scopes := s₁ } { m₂ with scopes := s₂ })
      (m₁.scopes.assign? x v) (m₂.scopes.assign? x w) := by
  have hlocals := Scopes.replace?_alike h.locals x hv
  have hglobals := h.globals.get? x
  rw [Scopes.assign?, Scopes.assign?]
  generalize Scopes.replace? x v m₁.scopes.locals = l₁ at hlocals ⊢
  generalize Scopes.replace? x w m₂.scopes.locals = l₂ at hlocals ⊢
  cases hlocals with
  | some hreplaced => exact .some ⟨⟨h.globals, h.printed, h.created, h.readings⟩, hreplaced⟩
  | none =>
    generalize Frame.get? x m₁.scopes.globals = g₁ at hglobals ⊢
    generalize Frame.get? x m₂.scopes.globals = g₂ at hglobals ⊢
    cases hglobals with
    | none => exact .none
    | some _ =>
      exact .some ⟨⟨h.globals.bind x hv, h.printed, h.created, h.readings⟩, h.locals⟩

theorem enterBlock (h : Alike o₁ o₂ m₁ m₂) :
    Alike o₁ o₂ { m₁ with scopes := m₁.scopes.enterBlock }
      { m₂ with scopes := m₂.scopes.enterBlock } :=
  ⟨⟨h.globals, h.printed, h.created, h.readings⟩, .cons .nil h.locals⟩

theorem exitBlock (h : Alike o₁ o₂ m₁ m₂) :
    Alike o₁ o₂ { m₁ with scopes := m₁.scopes.exitBlock }
      { m₂ with scopes := m₂.scopes.exitBlock } := by
  refine ⟨⟨h.globals, h.printed, h.created, h.readings⟩, ?_⟩
  have hlocals := h.locals
  rw [Scopes.exitBlock, Scopes.exitBlock]
  cases hl₁ : m₁.scopes.locals <;> cases hl₂ : m₂.scopes.locals <;> rw [hl₁, hl₂] at hlocals
  · exact .nil
  · cases hlocals
  · cases hlocals
  · cases hlocals with
    | cons _ hfs => exact hfs

theorem print (h : Alike o₁ o₂ m₁ m₂) (line : String) :
    Alike o₁ o₂ { m₁ with printed := m₁.printed.push line }
      { m₂ with printed := m₂.printed.push line } := by
  obtain ⟨lines, h₁, h₂⟩ := h.printed
  refine ⟨⟨h.globals, ⟨lines.push line, ?_, ?_⟩, h.created, h.readings⟩, h.locals⟩
  · rw [Array.append_push, ← h₁]
  · rw [Array.append_push, ← h₂]

theorem newFunction (h : Alike o₁ o₂ m₁ m₂) :
    Alike o₁ o₂ { m₁ with created := m₁.created + 1 } { m₂ with created := m₂.created + 1 } := by
  obtain ⟨k, h₁, h₂⟩ := h.created
  refine ⟨⟨h.globals, h.printed, ⟨k + 1, ?_, ?_⟩, h.readings⟩, h.locals⟩
  · rw [h₁, Nat.add_assoc]
  · rw [h₂, Nat.add_assoc]

theorem readClock (h : Alike o₁ o₂ m₁ m₂) :
    Alike o₁ o₂ { m₁ with readings := m₁.readings + 1 }
      { m₂ with readings := m₂.readings + 1 } := by
  obtain ⟨k, h₁, h₂⟩ := h.readings
  refine ⟨⟨h.globals, h.printed, h.created, ⟨k + 1, ?_, ?_⟩⟩, h.locals⟩
  · rw [h₁, Nat.add_assoc]
  · rw [h₂, Nat.add_assoc]

end Memory.Alike

/-! ### Computations -/

namespace Eval

variable {o₁ o₂ : Memory} {α β γ δ : Type}

/-- Computations are **alike** when they take memories that are alike to results and memories that
are, with values related by `Q`. -/
def Alike (o₁ o₂ : Memory) (Q : α → β → Prop) (p : Eval α) (q : Eval β) : Prop :=
  ∀ m₁ m₂, Memory.Alike o₁ o₂ m₁ m₂ →
    ResultAlike o₁.created o₂.created Q (p.run m₁).1 (q.run m₂).1 ∧
      Memory.Alike o₁ o₂ (p.run m₁).2 (q.run m₂).2

namespace Alike

variable {Q : α → β → Prop} {Q' : γ → δ → Prop}

theorem ofResult {r : Except Interrupt α} {r' : Except Interrupt β}
    (h : ResultAlike o₁.created o₂.created Q r r') :
    Alike o₁ o₂ Q (Eval.ofResult r) (Eval.ofResult r') := by
  intro m₁ m₂ hm
  rw [run_ofResult, run_ofResult]
  exact ⟨h, hm⟩

theorem pure {a : α} {b : β} (h : Q a b) : Alike o₁ o₂ Q (Pure.pure a) (Pure.pure b) :=
  fun _ _ hm => ⟨.ok h, hm⟩

theorem throw {e e' : Interrupt} (h : e.Alike o₁.created o₂.created e') :
    Alike o₁ o₂ Q (MonadExcept.throw e) (MonadExcept.throw e') :=
  fun _ _ hm => ⟨.error h, hm⟩

theorem bind {p : Eval α} {q : Eval β} {f : α → Eval γ} {g : β → Eval δ}
    (hp : Alike o₁ o₂ Q p q) (hf : ∀ a b, Q a b → Alike o₁ o₂ Q' (f a) (g b)) :
    Alike o₁ o₂ Q' (p >>= f) (q >>= g) := by
  intro m₁ m₂ hm
  obtain ⟨hresult, hmemory⟩ := hp m₁ m₂ hm
  rw [run_bind, run_bind]
  rcases h₁ : p.run m₁ with ⟨r₁, m₁'⟩
  rcases h₂ : q.run m₂ with ⟨r₂, m₂'⟩
  rw [h₁, h₂] at hresult hmemory
  cases hresult with
  | ok h => exact hf _ _ h m₁' m₂' hmemory
  | error h => exact ⟨.error h, hmemory⟩

theorem map {p : Eval α} {q : Eval β} {f : α → γ} {g : β → δ} (hp : Alike o₁ o₂ Q p q)
    (hf : ∀ a b, Q a b → Q' (f a) (g b)) : Alike o₁ o₂ Q' (f <$> p) (g <$> q) := by
  rw [← bind_pure_comp, ← bind_pure_comp]
  exact hp.bind fun a b h => pure (hf a b h)

theorem forM {f g : γ → Eval Unit} (hf : ∀ c, Alike o₁ o₂ (fun _ _ => True) (f c) (g c))
    (cs : List γ) : Alike o₁ o₂ (fun _ _ => True) (cs.forM f) (cs.forM g) := by
  induction cs with
  | nil => exact pure trivial
  | cons c cs ih => exact (hf c).bind fun _ _ _ => ih

theorem mapM {f : γ → Eval α} {g : γ → Eval β} (hf : ∀ c, Alike o₁ o₂ Q (f c) (g c))
    (cs : List γ) : Alike o₁ o₂ (List.Forall₂ Q) (cs.mapM f) (cs.mapM g) := by
  induction cs with
  | nil => exact pure .nil
  | cons c cs ih =>
    rw [List.mapM_cons, List.mapM_cons]
    refine (hf c).bind fun a b hab => ih.bind fun as bs habs => ?_
    exact pure (.cons hab habs)

theorem repeatWhile {c d : Eval Bool} {p q : Eval Unit} (hc : Alike o₁ o₂ Eq c d)
    (hp : Alike o₁ o₂ (fun _ _ => True) p q) (n : Nat) :
    Alike o₁ o₂ (fun _ _ => True) (Eval.repeatWhile c p n) (Eval.repeatWhile d q n) := by
  induction n with
  | zero => exact throw (.abort _)
  | succ n ih =>
    refine hc.bind fun holds _ heq => ?_
    subst heq
    cases holds with
    | false => exact pure trivial
    | true => exact hp.bind fun _ _ _ => ih

theorem inBlock {p : Eval α} {q : Eval β} (h : Alike o₁ o₂ Q p q) :
    Alike o₁ o₂ Q (Eval.inBlock p) (Eval.inBlock q) := by
  intro m₁ m₂ hm
  obtain ⟨hresult, hmemory⟩ := h _ _ hm.enterBlock
  exact ⟨hresult, hmemory.exitBlock⟩

theorem returned {p q : Eval Unit} (h : Alike o₁ o₂ (fun _ _ => True) p q) :
    Alike o₁ o₂ (Value.Alike o₁.created o₂.created) (Eval.returned p) (Eval.returned q) := by
  intro m₁ m₂ hm
  obtain ⟨hresult, hmemory⟩ := h m₁ m₂ hm
  rw [run_returned, run_returned]
  refine ⟨?_, hmemory⟩
  generalize (p.run m₁).1 = r₁ at hresult
  generalize (q.run m₂).1 = r₂ at hresult
  cases hresult with
  | ok _ => exact .ok .nil
  | error he =>
    cases he with
    | failure e => exact .error (.failure e)
    | returning keyword hv => exact .ok hv
    | abort reason => exact .error (.abort reason)

/-! ### Variables and calls -/

theorem define (x : String) {v w : Value} (hv : v.Alike o₁.created o₂.created w) :
    Alike o₁ o₂ (fun _ _ => True) (Eval.define x v) (Eval.define x w) :=
  fun _ _ hm => ⟨.ok trivial, hm.define x hv⟩

theorem lookup (name : Token) :
    Alike o₁ o₂ (Value.Alike o₁.created o₂.created) (Eval.lookup name) (Eval.lookup name) := by
  intro m₁ m₂ hm
  have hget := hm.get? name.lexeme
  rw [run_lookup, run_lookup]
  refine ⟨?_, hm⟩
  generalize m₁.scopes.get? name.lexeme = v at hget
  generalize m₂.scopes.get? name.lexeme = w at hget
  cases hget with
  | none => exact .error (.failure _)
  | some hv => exact .ok hv

theorem assign (name : Token) {v w : Value} (hv : v.Alike o₁.created o₂.created w) :
    Alike o₁ o₂ (fun _ _ => True) (Eval.assign name v) (Eval.assign name w) := by
  intro m₁ m₂ hm
  have hassign := hm.assign name.lexeme hv
  rw [run_assign, run_assign]
  generalize m₁.scopes.assign? name.lexeme v = s₁ at hassign ⊢
  generalize m₂.scopes.assign? name.lexeme w = s₂ at hassign ⊢
  cases hassign with
  | none => exact ⟨.error (.failure _), hm⟩
  | some hscopes => exact ⟨.ok trivial, hscopes⟩

theorem print (line : String) :
    Alike o₁ o₂ (fun _ _ => True) (Eval.print line) (Eval.print line) :=
  fun _ _ hm => ⟨.ok trivial, hm.print line⟩

theorem newFunction (f : Function) :
    Alike o₁ o₂ (Value.Alike o₁.created o₂.created) (Eval.newFunction f) (Eval.newFunction f) :=
  fun _ _ hm => ⟨.ok (.function f (.inr hm.created)), hm.newFunction⟩

theorem readClock {host₁ host₂ : Host}
    (hclock : ∀ k, host₁.clock (o₁.readings + k) = host₂.clock (o₂.readings + k)) :
    Alike o₁ o₂ (Value.Alike o₁.created o₂.created) (Eval.readClock host₁)
      (Eval.readClock host₂) := by
  intro m₁ m₂ hm
  obtain ⟨k, h₁, h₂⟩ := hm.readings
  refine ⟨?_, hm.readClock⟩
  rw [run_readClock, run_readClock, h₁, h₂, hclock k]
  exact .ok (.number _)

theorem bindParameters (parameters : List Token) {vs ws : List Value}
    (h : List.Forall₂ (Value.Alike o₁.created o₂.created) vs ws) :
    Alike o₁ o₂ (fun _ _ => True) (Eval.bindParameters parameters vs)
      (Eval.bindParameters parameters ws) := by
  induction h generalizing parameters with
  | nil =>
    cases parameters with
    | nil => exact pure trivial
    | cons p parameters => exact pure trivial
  | cons hv _ ih =>
    cases parameters with
    | nil => exact pure trivial
    | cons p parameters => exact (define p.lexeme hv).bind fun _ _ _ => ih parameters

/-- A **call** needs no more than memories that are globally alike: it looks at no local frame of
its caller. -/
theorem call_globally {p q : Eval Unit} (h : Alike o₁ o₂ (fun _ _ => True) p q)
    (parameters : List Token) {vs ws : List Value}
    (hvs : List.Forall₂ (Value.Alike o₁.created o₂.created) vs ws) {m₁ m₂ : Memory}
    (hm : Memory.GloballyAlike o₁ o₂ m₁ m₂) :
    ResultAlike o₁.created o₂.created (Value.Alike o₁.created o₂.created)
        ((Eval.call parameters vs p).run m₁).1 ((Eval.call parameters ws q).run m₂).1 ∧
      Memory.GloballyAlike o₁ o₂ ((Eval.call parameters vs p).run m₁).2
        ((Eval.call parameters ws q).run m₂).2 := by
  have hbody := ((bindParameters parameters hvs).bind fun _ _ _ => h.inBlock).returned
  -- The body starts from frames without names, so only the globals have to be alike.
  obtain ⟨hresult, hmemory⟩ := hbody
    { m₁ with scopes := m₁.scopes.enterCall.enterBlock }
    { m₂ with scopes := m₂.scopes.enterCall.enterBlock }
    ⟨⟨hm.globals, hm.printed, hm.created, hm.readings⟩, .cons .nil .nil⟩
  rw [run_call, run_call]
  refine ⟨hresult, ⟨?_, hmemory.printed, hmemory.created, hmemory.readings⟩⟩
  dsimp only
  rw [Scopes.globals_exitCall, Scopes.globals_exitCall]
  exact hmemory.globals

/-- Since a call leaves the local frames of its caller as they are, memories stay alike. -/
theorem call {p q : Eval Unit} (h : Alike o₁ o₂ (fun _ _ => True) p q)
    (hp : p.Within Memory.Restored) (hq : q.Within Memory.Restored) (parameters : List Token)
    {vs ws : List Value} (hvs : List.Forall₂ (Value.Alike o₁.created o₂.created) vs ws) :
    Alike o₁ o₂ (Value.Alike o₁.created o₂.created) (Eval.call parameters vs p)
      (Eval.call parameters ws q) := by
  intro m₁ m₂ hm
  obtain ⟨hresult, hmemory⟩ := h.call_globally parameters hvs hm.toGloballyAlike
  -- Both callers have their local frames back as they were.
  obtain ⟨globals₁, -, hscopes₁⟩ := scopes_call hp parameters vs m₁
  obtain ⟨globals₂, -, hscopes₂⟩ := scopes_call hq parameters ws m₂
  refine ⟨hresult, hmemory, ?_⟩
  rw [hscopes₁, hscopes₂]
  exact hm.locals

theorem apply {host₁ host₂ : Host}
    (hclock : ∀ k, host₁.clock (o₁.readings + k) = host₂.clock (o₂.readings + k))
    {run₁ run₂ : List Stmt → Eval Unit}
    (hrun : ∀ body, Alike o₁ o₂ (fun _ _ => True) (run₁ body) (run₂ body))
    (h₁ : ∀ body, (run₁ body).Within Memory.Restored)
    (h₂ : ∀ body, (run₂ body).Within Memory.Restored) (paren : Token) {f g : Value}
    (hf : f.Alike o₁.created o₂.created g) {vs ws : List Value}
    (hvs : List.Forall₂ (Value.Alike o₁.created o₂.created) vs ws) :
    Alike o₁ o₂ (Value.Alike o₁.created o₂.created) (Eval.apply host₁ run₁ paren f vs)
      (Eval.apply host₂ run₂ paren g ws) := by
  have hlength : vs.length = ws.length := hvs.length_eq
  cases hf with
  | function f hi =>
    rw [apply_function, apply_function, hlength]
    split
    · exact (hrun f.body).call (h₁ f.body) (h₂ f.body) f.parameters hvs
    · exact ofResult (.error (.failure _))
  | native f i =>
    rw [apply_native, apply_native, hlength]
    split
    · exact readClock hclock
    · exact ofResult (.error (.failure _))
  | _ =>
    rw [apply_of_arity?_eq_none host₁ run₁ paren rfl, apply_of_arity?_eq_none host₂ run₂ paren rfl]
    exact ofResult (.error (.failure _))

end Alike

end Eval

/-! ### Expressions and statements -/

open Eval

variable {o₁ o₂ : Memory} {clock₁ clock₂ : Nat → Float}

/-- One more level of nesting in both runs. -/
private theorem alike_succ
    (hclock : ∀ k, clock₁ (o₁.readings + k) = clock₂ (o₂.readings + k)) {r n : Nat}
    (he : ∀ e, Eval.Alike o₁ o₂ (Value.Alike o₁.created o₂.created) (evaluate ⟨clock₁, r⟩ n e)
      (evaluate ⟨clock₂, r⟩ n e))
    (hs : ∀ s, Eval.Alike o₁ o₂ (fun _ _ => True) (execute ⟨clock₁, r⟩ n s)
      (execute ⟨clock₂, r⟩ n s)) :
    (∀ e, Eval.Alike o₁ o₂ (Value.Alike o₁.created o₂.created) (evaluate ⟨clock₁, r⟩ (n + 1) e)
        (evaluate ⟨clock₂, r⟩ (n + 1) e)) ∧
      ∀ s, Eval.Alike o₁ o₂ (fun _ _ => True) (execute ⟨clock₁, r⟩ (n + 1) s)
        (execute ⟨clock₂, r⟩ (n + 1) s) := by
  refine ⟨fun e => ?_, fun s => ?_⟩
  · cases e with
    | literal value => rw [evaluate, evaluate]; exact .pure (.ofLiteral value)
    | grouping inner => rw [evaluate, evaluate]; exact he inner
    | unary op operand =>
      rw [evaluate, evaluate]
      exact (he operand).bind fun v w hv => .ofResult (hv.applyUnary op)
    | binary left op right =>
      rw [evaluate, evaluate]
      refine (he left).bind fun v w hv => (he right).bind fun v' w' hv' => ?_
      exact .ofResult (hv.applyBinary op hv')
    | logical left op right =>
      rw [evaluate, evaluate]
      refine (he left).bind fun v w hv => ?_
      rw [hv.isTruthy_eq]
      split
      · exact .pure hv
      · exact he right
    | name token => rw [evaluate, evaluate]; exact .lookup token
    | assign target value =>
      rw [evaluate, evaluate]
      exact (he value).bind fun v w hv => (Alike.assign target hv).bind fun _ _ _ => .pure hv
    | call callee paren arguments =>
      rw [evaluate, evaluate]
      refine (he callee).bind fun f g hf => (Alike.mapM he arguments).bind fun vs ws hvs => ?_
      exact Alike.apply hclock (Alike.forM hs)
        (Memory.stable_restored.executeAll ⟨clock₁, r⟩ n)
        (Memory.stable_restored.executeAll ⟨clock₂, r⟩ n) paren hf hvs
  · cases s with
    | expression value =>
      rw [execute, execute]
      exact (he value).bind fun _ _ _ => .pure trivial
    | print value =>
      rw [execute, execute]
      refine (he value).bind fun v w hv => ?_
      rw [hv.display_eq]
      exact .print w.display
    | declare target value =>
      cases value with
      | none => rw [execute, execute]; exact .define target.lexeme .nil
      | some value =>
        rw [execute, execute]
        exact (he value).bind fun v w hv => .define target.lexeme hv
    | block body => rw [execute, execute]; exact (Alike.forM hs body).inBlock
    | branch condition yes no =>
      cases no with
      | none =>
        rw [execute, execute]
        refine (he condition).bind fun v w hv => ?_
        rw [hv.isTruthy_eq]
        split
        · exact hs yes
        · exact .pure trivial
      | some no =>
        rw [execute, execute]
        refine (he condition).bind fun v w hv => ?_
        rw [hv.isTruthy_eq]
        split
        · exact hs yes
        · exact hs no
    | loop condition body =>
      rw [execute, execute]
      exact ((he condition).map fun v w hv => hv.isTruthy_eq).repeatWhile (hs body) r
    | function target parameters body =>
      rw [execute, execute]
      exact (Alike.newFunction _).bind fun v w hv => .define target.lexeme hv
    | returnValue keyword value =>
      cases value with
      | none => rw [execute, execute]; exact .throw (.returning keyword .nil)
      | some value =>
        rw [execute, execute]
        exact (he value).bind fun v w hv => .throw (.returning keyword hv)

private theorem alike (hclock : ∀ k, clock₁ (o₁.readings + k) = clock₂ (o₂.readings + k))
    (r n : Nat) :
    (∀ e, Eval.Alike o₁ o₂ (Value.Alike o₁.created o₂.created) (evaluate ⟨clock₁, r⟩ n e)
        (evaluate ⟨clock₂, r⟩ n e)) ∧
      ∀ s, Eval.Alike o₁ o₂ (fun _ _ => True) (execute ⟨clock₁, r⟩ n s)
        (execute ⟨clock₂, r⟩ n s) := by
  induction n with
  | zero =>
    refine ⟨fun e => ?_, fun s => ?_⟩
    · rw [evaluate, evaluate]; exact .throw (.abort _)
    · rw [execute, execute]; exact .throw (.abort _)
  | succ n ih => exact alike_succ hclock ih.1 ih.2

/-- An **expression** evaluates alike in two runs whose clocks give the same readings. -/
theorem evaluate_alike (hclock : ∀ k, clock₁ (o₁.readings + k) = clock₂ (o₂.readings + k))
    (r n : Nat) (e : Expr) :
    Eval.Alike o₁ o₂ (Value.Alike o₁.created o₂.created) (evaluate ⟨clock₁, r⟩ n e)
      (evaluate ⟨clock₂, r⟩ n e) := (alike hclock r n).1 e

/-- A **statement** executes alike in two runs whose clocks give the same readings. -/
theorem execute_alike (hclock : ∀ k, clock₁ (o₁.readings + k) = clock₂ (o₂.readings + k))
    (r n : Nat) (s : Stmt) :
    Eval.Alike o₁ o₂ (fun _ _ => True) (execute ⟨clock₁, r⟩ n s) (execute ⟨clock₂, r⟩ n s) :=
  (alike hclock r n).2 s

/-- A **list of statements** executes alike in two runs whose clocks give the same readings. -/
theorem executeAll_alike (hclock : ∀ k, clock₁ (o₁.readings + k) = clock₂ (o₂.readings + k))
    (r n : Nat) (statements : List Stmt) :
    Eval.Alike o₁ o₂ (fun _ _ => True) (executeAll ⟨clock₁, r⟩ n statements)
      (executeAll ⟨clock₂, r⟩ n statements) :=
  .forM (execute_alike hclock r n) statements

end LoxLang
