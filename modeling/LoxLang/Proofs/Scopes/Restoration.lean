import LoxLang.Proofs.Evaluation.Stability
import LoxLang.Session

/-!
# Scopes are restored

Blocks and calls open scopes, and three kinds of endings unwind through them. Here it is shown that
none leaks: behind any expression or statement there are as many calls in progress as before it,
the frames put aside by them are untouched, and the active chain is as long as it was. A frame keeps
its names in their order, and only the innermost one can have new names behind them.

`Scopes.Restored` says so of the scopes before and after, and `Memory.stable_restored` that it is a
stable relation. Behind a call even the local frames of the caller are exactly what they were
(`Eval.scopes_call`). Frames are known by their places here; that the frame at a place is the one
that was there is a matter of linked frames, where frames can be told apart.
-/

namespace LoxLang

namespace Scopes

/-- The scopes `after` are the scopes `before` **restored**: chains of as many frames, of which each
has the names that the frame at its place had. -/
structure Restored (before after : Scopes) : Prop where
  /-- The local frames of the calls in progress are what they were. -/
  callers : after.callers = before.callers
  /-- The frames around the innermost one are there, with the names they had. -/
  outer : after.chain.tail.map Frame.names = before.chain.tail.map Frame.names
  /-- The innermost frame is there, with new names only behind the ones it had. -/
  current : before.current.names <+: after.current.names

/-! ### The active chain -/

theorem head?_chain (s : Scopes) : s.chain.head? = some s.current := by
  obtain ⟨globals, _ | ⟨frame, frames⟩, callers⟩ := s <;> rfl

theorem length_chain (s : Scopes) : s.chain.length = s.depth := by
  rw [chain, List.length_append, depth, List.length_singleton]

/-- Leaving a block takes the innermost frame off a chain of more than the globals. -/
theorem chain_exitBlock {s : Scopes} (h : s.chain.tail ≠ []) :
    s.exitBlock.chain = s.chain.tail := by
  obtain ⟨globals, _ | ⟨frame, frames⟩, callers⟩ := s
  · exact absurd rfl h
  · rfl

namespace Restored

variable {s s' s'' : Scopes}

@[refl]
theorem refl (s : Scopes) : Restored s s := ⟨rfl, rfl, List.prefix_refl _⟩

theorem trans (h : Restored s s') (h' : Restored s' s'') : Restored s s'' where
  callers := h'.callers.trans h.callers
  outer := h'.outer.trans h.outer
  current := h.current.trans h'.current

/-- The active chain is as long as before. -/
theorem depth_eq (h : Restored s s') : s'.depth = s.depth := by
  have hlength := congrArg List.length h.outer
  rw [List.length_map, List.length_map, List.length_tail, List.length_tail, length_chain,
    length_chain, depth, depth] at hlength
  rw [depth, depth]
  omega

/-- There are as many calls in progress as before. -/
theorem callDepth_eq (h : Restored s s') : s'.callDepth = s.callDepth :=
  congrArg List.length h.callers

/-- Scopes are restored when no frame of the active chain changes its names. -/
theorem of_map_names (hcallers : s'.callers = s.callers)
    (hnames : s'.chain.map Frame.names = s.chain.map Frame.names) : Restored s s' where
  callers := hcallers
  outer := by rw [List.map_tail, List.map_tail, hnames]
  current := by
    have hhead := congrArg List.head? hnames
    rw [List.head?_map, List.head?_map, head?_chain, head?_chain] at hhead
    exact Option.some.inj hhead ▸ List.prefix_refl _

/-! ### The operations -/

theorem define (x : String) (v : Value) (s : Scopes) : Restored s (s.define x v) := by
  obtain ⟨globals, _ | ⟨frame, frames⟩, callers⟩ := s
  · exact ⟨rfl, rfl, Frame.names_prefix_names_bind x v globals⟩
  · exact ⟨rfl, rfl, Frame.names_prefix_names_bind x v frame⟩

theorem assign {x : String} {v : Value} (h : s.assign? x v = some s') : Restored s s' := by
  obtain ⟨hchain, hcallers⟩ := assign?_eq_some_iff.mp h
  exact of_map_names hcallers (map_names_replace? hchain)

/-- Behind a block, the frames around it have the names they had. -/
theorem map_names_exitBlock (h : Restored s.enterBlock s') :
    s'.exitBlock.chain.map Frame.names = s.chain.map Frame.names := by
  have hnames : s'.chain.tail.map Frame.names = s.chain.map Frame.names := h.outer
  -- The frame of the block lies on top of at least the globals.
  have hne : s'.chain.tail ≠ [] := by
    intro hnil
    rw [hnil, chain, List.map_append] at hnames
    exact List.append_ne_nil_of_right_ne_nil _ (List.cons_ne_nil _ _) hnames.symm
  rw [chain_exitBlock hne, hnames]

theorem exitBlock (h : Restored s.enterBlock s') : Restored s s'.exitBlock :=
  of_map_names h.callers h.map_names_exitBlock

/-- Behind a call, the caller's frames are **exactly** what they were, and the globals have the
names they had. -/
theorem exitCall_eq (h : Restored s.enterCall.enterBlock s') :
    s'.exitCall = { s with globals := s'.globals } ∧ s'.globals.names = s.globals.names := by
  have hcallers : s'.callers = s.locals :: s.callers := h.callers
  have hnames : s'.chain.tail.map Frame.names = [s.globals.names] := h.outer
  refine ⟨by rw [exitCall, hcallers], ?_⟩
  obtain ⟨globals, _ | ⟨frame, frames⟩, callers⟩ := s'
  · cases hnames
  · have hlast := congrArg List.getLast? hnames
    simpa [chain] using hlast

theorem exitCall (h : Restored s.enterCall.enterBlock s') : Restored s s'.exitCall := by
  obtain ⟨heq, hglobals⟩ := h.exitCall_eq
  rw [heq]
  refine of_map_names rfl ?_
  simp [chain, hglobals]

end Restored

end Scopes

/-! ### Memories and calls -/

namespace Memory

/-- A memory is **restored** when its scopes are. -/
def Restored (m m' : Memory) : Prop := Scopes.Restored m.scopes m'.scopes

/-- To be restored is a **stable** relation. -/
theorem stable_restored : Stable Restored where
  refl m := .refl m.scopes
  trans := .trans
  define x v m := .define x v m.scopes
  assign := .assign
  print _ m := .refl m.scopes
  newFunction m := .refl m.scopes
  readClock m := .refl m.scopes
  block := .exitBlock
  call := .exitCall

end Memory

/-- Behind a **call**, nothing but values of globals has changed in the scopes. -/
theorem Eval.scopes_call {body : Eval Unit} (hbody : body.Within Memory.Restored)
    (parameters : List Token) (arguments : List Value) (m : Memory) :
    ∃ globals : Frame, globals.names = m.scopes.globals.names ∧
      ((Eval.call parameters arguments body).run m).2.scopes = { m.scopes with globals } := by
  have hbind := Memory.stable_restored.bindParameters parameters arguments
  have hinner := (Memory.stable_restored.bind hbind fun _ =>
    Memory.stable_restored.inBlock hbody).returned
      { m with scopes := m.scopes.enterCall.enterBlock }
  obtain ⟨hscopes, hnames⟩ := Scopes.Restored.exitCall_eq hinner
  exact ⟨_, hnames, hscopes⟩

end LoxLang
