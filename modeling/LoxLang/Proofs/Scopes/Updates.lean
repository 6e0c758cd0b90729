import LoxLang.Evaluation.Memory
import LoxLang.Proofs.Scopes.Bindings
import LoxLang.Proofs.Scopes.Matching

/-!
# Lookup and update

A lookup and an assignment search for the same binding, each in a search of its own. Here it is
shown that they find the same one in all scopes: an assignment fails where a lookup does, and else
it gives a new value to what the lookup reads, and to nothing else. `Scopes.Assigned` says what this
means for all frames and all names, and `LinkedScopes.Assigned` says it of frames with links, where
that a chain put aside sees an assignment to the globals is no matter of how the data is laid out.

`lookup_and_update_agree` collects the laws, with those of `define` and of blocks.
-/

namespace LoxLang

/-! ### One frame -/

namespace Frame

variable {x : String} {frame : Frame}

theorem get?_bind (x : String) (v : Value) (frame : Frame) (y : String) :
    (frame.bind x v).get? y = if y = x then some v else frame.get? y := by
  split
  · next h => rw [h, get?_bind_self]
  · next h => exact get?_bind_of_ne h v frame

theorem get?_eq_none_iff : frame.get? x = none ↔ x ∉ frame.names := by
  rw [← isSome_get?_iff, Option.not_isSome_iff_eq_none]

/-- A frame in which the binding of one name has **another value**, in its place, and all other
bindings are what they were. -/
inductive Rebound (x : String) (v : Value) : Frame → Frame → Prop
  | intro (front : Frame) (w : Value) (behind : Frame) (h : x ∉ front.names) :
    Rebound x v (front ++ (x, w) :: behind) (front ++ (x, v) :: behind)

theorem Rebound.cons {frame' : Frame} (h : frame.Rebound x v frame') {entry : String × Value}
    (hne : x ≠ entry.1) : Rebound x v (entry :: frame) (entry :: frame') := by
  obtain ⟨front, w, behind, hfront⟩ := h
  have hfront' : x ∉ names (entry :: front) := List.not_mem_cons_of_ne_of_not_mem hne hfront
  exact .intro (entry :: front) w behind hfront'

/-- To bind a name that the frame has is to rebind it. -/
theorem rebound_bind (h : x ∈ frame.names) (v : Value) : frame.Rebound x v (frame.bind x v) := by
  induction frame with
  | nil => cases h
  | cons entry frame ih =>
    obtain ⟨y, w⟩ := entry
    rw [bind]
    split
    · next hx =>
      rw [← hx]
      exact .intro [] w frame List.not_mem_nil
    · next hx => exact (ih ((List.mem_cons.mp h).resolve_left hx)).cons hx

end Frame

/-! ### The active chain -/

namespace Scopes

variable {x : String} {v : Value} {frames frames' : List Frame} {s s' : Scopes}

/-- No frame of a chain **shadows** the bindings of a name around it. -/
def Unshadowed (x : String) (frames : List Frame) : Prop := ∀ frame ∈ frames, x ∉ frame.names

theorem nearest?_cons (x : String) (frame : Frame) (frames : List Frame) :
    nearest? x (frame :: frames) = (frame.get? x).or (nearest? x frames) := by
  rw [nearest?]
  cases frame.get? x <;> rfl

theorem nearest?_append (x : String) (inner outer : List Frame) :
    nearest? x (inner ++ outer) = (nearest? x inner).or (nearest? x outer) := by
  induction inner with
  | nil => rfl
  | cons frame inner ih => rw [List.cons_append, nearest?_cons, nearest?_cons, ih, Option.or_assoc]

theorem nearest?_eq_none_iff : nearest? x frames = none ↔ Unshadowed x frames := by
  induction frames with
  | nil => exact ⟨fun _ _ hframe => absurd hframe List.not_mem_nil, fun _ => rfl⟩
  | cons frame frames ih =>
    rw [nearest?_cons, Option.or_eq_none_iff, Frame.get?_eq_none_iff, ih, Unshadowed, Unshadowed,
      List.forall_mem_cons]

theorem nearest?_singleton (x : String) (frame : Frame) : nearest? x [frame] = frame.get? x := by
  rw [nearest?_cons]
  exact Option.or_none

/-- Of frames none of which has a name, none can be **replaced**. -/
theorem replace?_eq_none_iff : replace? x v frames = none ↔ nearest? x frames = none := by
  induction frames with
  | nil => exact ⟨fun _ => rfl, fun _ => rfl⟩
  | cons frame frames ih =>
    rw [replace?, nearest?]
    cases frame.get? x with
    | some w => exact iff_of_false (Option.some_ne_none _) (Option.some_ne_none _)
    | none => exact Option.map_eq_none_iff.trans ih

/-- What is replaced is the binding in the innermost frame that has the name. -/
theorem exists_rebound_of_replace? (h : replace? x v frames = some frames') :
    ∃ inner frame frame' outer, frames = inner ++ frame :: outer ∧
      frames' = inner ++ frame' :: outer ∧ Unshadowed x inner ∧ frame.Rebound x v frame' := by
  induction frames generalizing frames' with
  | nil => cases h
  | cons frame frames ih =>
    rw [replace?] at h
    cases hget : frame.get? x with
    | some w =>
      have hmem : x ∈ frame.names := Frame.isSome_get?_iff.mp (Option.isSome_of_eq_some hget)
      rw [hget] at h
      cases h
      exact ⟨[], frame, _, frames, rfl, rfl, fun _ hframe => absurd hframe List.not_mem_nil,
        Frame.rebound_bind hmem v⟩
    | none =>
      rw [hget] at h
      obtain ⟨replaced, hreplaced, rfl⟩ := Option.map_eq_some_iff.mp h
      obtain ⟨inner, found, found', outer, rfl, rfl, hinner, hfound⟩ := ih hreplaced
      exact ⟨frame :: inner, found, found', outer, rfl, rfl,
        List.forall_mem_cons.mpr ⟨Frame.get?_eq_none_iff.mp hget, hinner⟩, hfound⟩

/-- What is replaced is **the binding that is read**. -/
theorem nearest?_of_replace? (h : replace? x v frames = some frames') (y : String) :
    nearest? y frames' = if y = x then some v else nearest? y frames := by
  induction frames generalizing frames' with
  | nil => cases h
  | cons frame frames ih =>
    rw [replace?] at h
    cases hget : frame.get? x with
    | some w =>
      rw [hget] at h
      cases h
      rw [nearest?_cons, nearest?_cons, Frame.get?_bind]
      split <;> rfl
    | none =>
      rw [hget] at h
      obtain ⟨replaced, hreplaced, rfl⟩ := Option.map_eq_some_iff.mp h
      rw [nearest?_cons, nearest?_cons, ih hreplaced]
      split
      · next heq => rw [heq, hget, Option.none_or]
      · rfl

/-- The scopes behind an **assignment** that does not fail. -/
structure Assigned (x : String) (v : Value) (s s' : Scopes) : Prop where
  /-- In the innermost frame of the active chain that has the name, the binding of the name has the
  value. All other bindings of the active chain are what they were. -/
  rebound : ∃ inner frame frame' outer, s.chain = inner ++ frame :: outer ∧
    s'.chain = inner ++ frame' :: outer ∧ Unshadowed x inner ∧ frame.Rebound x v frame'
  /-- So are all bindings in the local frames that calls have put aside. -/
  callers : s'.callers = s.callers
  /-- No frame has other names than before, or has them in another order. -/
  names : s'.frames.map Frame.names = s.frames.map Frame.names
  /-- The name has the value, and all others have the ones they had. -/
  get? : ∀ y, s'.get? y = if y = x then some v else s.get? y
  /-- If the binding is one of the globals, the chains put aside see the value as well, unless they
  shadow it. -/
  seen : Unshadowed x s.locals → ∀ caller ∈ s.callers, Unshadowed x caller →
    nearest? x (caller ++ [s'.globals]) = some v

/-- An assignment **fails** where a lookup does. -/
theorem assign?_eq_none_iff : s.assign? x v = none ↔ s.get? x = none := by
  rw [Scopes.get?, chain, nearest?_append, Option.or_eq_none_iff, nearest?_singleton,
    ← replace?_eq_none_iff (v := v), assign?]
  cases replace? x v s.locals with
  | some locals =>
    exact iff_of_false (Option.some_ne_none _) fun h => Option.some_ne_none _ h.1
  | none =>
    cases s.globals.get? x with
    | some w => exact iff_of_false (Option.some_ne_none _) fun h => Option.some_ne_none _ h.2
    | none => exact ⟨fun _ => ⟨rfl, rfl⟩, fun _ => rfl⟩

/-- An assignment leaves scopes that are **assigned**. -/
theorem assigned_of_assign? (h : s.assign? x v = some s') : s.Assigned x v s' := by
  obtain ⟨hchain, hcallers⟩ := assign?_eq_some_iff.mp h
  have hget : ∀ y, s'.get? y = if y = x then some v else s.get? y := nearest?_of_replace? hchain
  refine ⟨exists_rebound_of_replace? hchain, hcallers, ?_, hget, ?_⟩
  · rw [frames, frames, List.map_append, List.map_append, map_names_replace? hchain, hcallers]
  · intro hlocals caller _ hcaller
    -- The search of the assignment goes past the local frames.
    rw [assign?, replace?_eq_none_iff.mpr (nearest?_eq_none_iff.mpr hlocals)] at h
    dsimp only at h
    split at h
    · cases h
      rw [nearest?_append, nearest?_eq_none_iff.mpr hcaller, Option.none_or, nearest?_singleton,
        Frame.get?_bind_self]
    · cases h

/-- The scopes behind a **definition**. -/
structure Defined (x : String) (v : Value) (s s' : Scopes) : Prop where
  current : s'.current = s.current.bind x v
  /-- All other frames are what they were. -/
  outer : s'.chain.tail = s.chain.tail
  callers : s'.callers = s.callers
  /-- The name has the value, and all others have the ones they had. -/
  get? : ∀ y, s'.get? y = if y = x then some v else s.get? y

theorem nearest?_bind_cons (x : String) (v : Value) (frame : Frame) (frames : List Frame)
    (y : String) : nearest? y (frame.bind x v :: frames) =
      if y = x then some v else nearest? y (frame :: frames) := by
  rw [nearest?_cons, nearest?_cons, Frame.get?_bind]
  split <;> rfl

/-- A definition leaves scopes in which the name is **defined**. -/
theorem defined_define (x : String) (v : Value) (s : Scopes) : s.Defined x v (s.define x v) := by
  obtain ⟨globals, _ | ⟨frame, frames⟩, callers⟩ := s
  · exact ⟨rfl, rfl, rfl, nearest?_bind_cons x v globals []⟩
  · exact ⟨rfl, rfl, rfl, nearest?_bind_cons x v frame (frames ++ [globals])⟩

/-- Definitions in a block change its frame only. -/
theorem exists_performAll_define (bindings : List (String × Value)) {frame : Frame}
    {outer : List Frame} (h : s.locals = frame :: outer) :
    ∃ frame', s.performAll (bindings.map fun b => .define b.1 b.2) =
      { s with locals := frame' :: outer } := by
  induction bindings generalizing s frame with
  | nil => exact ⟨frame, h ▸ rfl⟩
  | cons binding bindings ih =>
    have hdefine : s.define binding.1 binding.2 =
        { s with locals := frame.bind binding.1 binding.2 :: outer } := by rw [define, h]
    obtain ⟨frame', hframe'⟩ := ih (congrArg locals hdefine)
    refine ⟨frame', hframe'.trans ?_⟩
    rw [hdefine]

/-- The operations of a **block** of definitions. -/
def blockOf (bindings : List (String × Value)) : List Operation :=
  .enterBlock :: (bindings.map fun b => .define b.1 b.2) ++ [.exitBlock]

/-- A block of definitions leaves **nothing** behind. -/
theorem performAll_blockOf (bindings : List (String × Value)) (s : Scopes) :
    s.performAll (blockOf bindings) = s := by
  obtain ⟨frame, hframe⟩ := exists_performAll_define bindings (s := s.enterBlock) rfl
  rw [blockOf, performAll, List.foldl_append]
  exact congrArg exitBlock hframe

end Scopes

open Scopes

/-! ### Frames with links -/

namespace LinkedScopes

open LinkedFrame

variable {x : String} {l : LinkedScopes} {n : Nat}

/-- What a name reads on **any** chain, also on one put aside. -/
def read (l : LinkedScopes) (chain : LinkedFrame) (x : String) : Option Value :=
  (chain.find? (l.binds x)).bind fun n => (l.contents n).get? x

/-- Linked scopes behind an **assignment** that finds a frame with the name. -/
structure Assigned (x : String) (v : Value) (n : Nat) (l l' : LinkedScopes) : Prop where
  rebound : (l.contents n).Rebound x v (l'.contents n)
  /-- All other frames, of whatever chain, bind what they bound. -/
  others : ∀ m, m ≠ n → l'.contents m = l.contents m
  chains : l'.chains = l.chains
  /-- The name reads the value on every chain on which this frame is the nearest that has it. On all
  other chains it reads what it did, and so does every other name on every chain. -/
  read : ∀ chain y, l'.read chain y =
    if y = x ∧ chain.find? (l.binds x) = some n then some v else l.read chain y

theorem eq_true_of_find? {has : Nat → Bool} {chain : LinkedFrame} (h : chain.find? has = some n) :
    has n = true := by
  induction chain with
  | root m =>
    rw [LinkedFrame.find?, Option.ite_none_right_eq_some] at h
    obtain ⟨hm, heq⟩ := h
    exact Option.some.inj heq ▸ hm
  | inside m enclosing ih =>
    rw [LinkedFrame.find?] at h
    split at h
    · next hm => exact Option.some.inj h ▸ hm
    · exact ih h

theorem get?_contents_bind (l : LinkedScopes) (n : Nat) (x : String) (v : Value) (m : Nat)
    (y : String) : ((l.bind n x v).contents m).get? y =
      if y = x ∧ m = n then some v else ((l.contents m).get? y) := by
  change (Function.update l.contents n ((l.contents n).bind x v) m).get? y = _
  rcases eq_or_ne m n with rfl | hm
  · rw [Function.update_self, Frame.get?_bind]
    simp only [and_true]
  · rw [Function.update_of_ne hm, if_neg fun h => hm h.2]

/-- A frame in which a name is bound **again** binds the names that it did. -/
theorem binds_bind (h : l.binds x n = true) (v : Value) : (l.bind n x v).binds = l.binds := by
  funext y m
  rw [binds, get?_contents_bind, binds]
  split
  · next heq =>
    obtain ⟨rfl, rfl⟩ := heq
    exact h.symm
  · rfl

/-- Where the nearest frame with a name is, the name is **read**. -/
theorem read_bind (h : l.binds x n = true) (v : Value) (chain : LinkedFrame) (y : String) :
    (l.bind n x v).read chain y =
      if y = x ∧ chain.find? (l.binds x) = some n then some v else l.read chain y := by
  rw [read, read, binds_bind h]
  cases hfind : chain.find? (l.binds y) with
  | none =>
    rw [if_neg]
    · rfl
    · rintro ⟨rfl, hn⟩
      cases hfind.symm.trans hn
  | some m =>
    have hiff : y = x ∧ m = n ↔ y = x ∧ chain.find? (l.binds x) = some n := by
      refine and_congr_right ?_
      rintro rfl
      rw [hfind, Option.some_inj]
    rw [Option.bind_some, get?_contents_bind, if_congr hiff rfl rfl]
    rfl

theorem assigned_bind (h : l.binds x n = true) (v : Value) : l.Assigned x v n (l.bind n x v) where
  rebound := by
    have hcontents : (l.bind n x v).contents n = (l.contents n).bind x v := Function.update_self ..
    rw [hcontents]
    exact Frame.rebound_bind (Frame.isSome_get?_iff.mp h) v
  others m hm := Function.update_of_ne hm _ _
  chains := rfl
  read := read_bind h v

/-- An assignment **fails** where a lookup does, and else there is a frame in which it is made. -/
theorem perform?_assign {active : LinkedFrame} {suspended : List LinkedFrame}
    (h : l.chains = active :: suspended) (x : String) (v : Value) :
    (l.get? x = some none ∧ l.perform? (.assign x v) = some l) ∨
      ∃ n w l', active.find? (l.binds x) = some n ∧ l.get? x = some (some w) ∧
        l.perform? (.assign x v) = some l' ∧ l.Assigned x v n l' := by
  rw [get?, perform?, h, List.head?_cons, Option.map_some]
  cases hfind : active.find? (l.binds x) with
  | none => exact .inl ⟨rfl, by dsimp only; rw [hfind]⟩
  | some n =>
    have hbinds : l.binds x n = true := eq_true_of_find? hfind
    obtain ⟨w, hw⟩ := Option.isSome_iff_exists.mp hbinds
    exact .inr ⟨n, w, l.bind n x v, rfl, congrArg some hw, by dsimp only; rw [hfind],
      assigned_bind hbinds v⟩

/-- Linked scopes behind a **definition** in a frame. -/
structure Defined (x : String) (v : Value) (n : Nat) (l l' : LinkedScopes) : Prop where
  contents : l'.contents n = (l.contents n).bind x v
  /-- All other frames, of whatever chain, bind what they bound. -/
  others : ∀ m, m ≠ n → l'.contents m = l.contents m
  chains : l'.chains = l.chains

theorem perform?_define {active : LinkedFrame} {suspended : List LinkedFrame}
    (h : l.chains = active :: suspended) (x : String) (v : Value) :
    ∃ l', l.perform? (.define x v) = some l' ∧ l.Defined x v active.number l' := by
  refine ⟨l.bind active.number x v, by rw [perform?, h], Function.update_self .., ?_, rfl⟩
  exact fun m hm => Function.update_of_ne hm _ _

/-- Linked scopes in front of operations and behind them. -/
theorem exists_performAll_append (before ops : List Operation) :
    ∃ l l', new.performAll? before = some l ∧ l.Represents (empty.performAll before) ∧
      l.performAll? ops = some l' ∧
      l'.Represents ((empty.performAll before).performAll ops) := by
  obtain ⟨l', hperform, h'⟩ := exists_performAll (before ++ ops)
  obtain ⟨l, hbefore, hops⟩ := performAll?_append_eq_some_iff.mp hperform
  obtain ⟨_, hbefore', h⟩ := exists_performAll before
  cases hbefore.symm.trans hbefore'
  rw [performAll_append] at h'
  exact ⟨l, l', hbefore, h, hops, h'⟩

end LinkedScopes

/-! ### The laws -/

/-- A lookup and an assignment of a variable **fail together**, with the same error at the variable
and without a change, or the assignment gives the value to what the lookup reads. -/
theorem Eval.run_lookup_and_assign (name : Token) (v : Value) (m : Memory) :
    ((lookup name).run m = (.error (.failure ⟨name, .undefinedVariable⟩), m) ∧
        (assign name v).run m = (.error (.failure ⟨name, .undefinedVariable⟩), m)) ∨
      ∃ w scopes, (lookup name).run m = (.ok w, m) ∧
        (assign name v).run m = (.ok (), { m with scopes }) ∧
        m.scopes.Assigned name.lexeme v scopes := by
  rw [run_lookup, run_assign]
  cases hget : m.scopes.get? name.lexeme with
  | none =>
    rw [assign?_eq_none_iff.mpr hget]
    exact .inl ⟨rfl, rfl⟩
  | some w =>
    cases hassign : m.scopes.assign? name.lexeme v with
    | none => cases hget.symm.trans (assign?_eq_none_iff.mp hassign)
    | some scopes => exact .inr ⟨w, scopes, rfl, rfl, assigned_of_assign? hassign⟩

/-- **Lookup and update agree** on the nearest binding, in all scopes.

- An assignment fails where a lookup does, with the error that the lookup gives, and then nothing
  has changed. Else the assignment goes to the binding that the lookup reads, and to no other.
- A definition changes the innermost frame only, and a block of definitions changes nothing.
- All of this is so of frames with links behind any operations, for every frame there is and on
  every chain, active or not. -/
theorem lookup_and_update_agree :
    (∀ (name : Token) (v : Value) (m : Memory),
        ((Eval.lookup name).run m = (.error (.failure ⟨name, .undefinedVariable⟩), m) ∧
            (Eval.assign name v).run m = (.error (.failure ⟨name, .undefinedVariable⟩), m)) ∨
          ∃ w scopes, (Eval.lookup name).run m = (.ok w, m) ∧
            (Eval.assign name v).run m = (.ok (), { m with scopes }) ∧
            m.scopes.Assigned name.lexeme v scopes) ∧
      (∀ x v s, Scopes.Defined x v s (s.define x v)) ∧
      (∀ bindings s, Scopes.performAll s (blockOf bindings) = s) ∧
      ∀ before, ∃ l active suspended, LinkedScopes.new.performAll? before = some l ∧
        l.Represents (empty.performAll before) ∧ l.chains = active :: suspended ∧
        (∀ x v, (l.get? x = some none ∧ l.perform? (.assign x v) = some l) ∨
          ∃ n w l', active.find? (l.binds x) = some n ∧ l.get? x = some (some w) ∧
            l.perform? (.assign x v) = some l' ∧ l.Assigned x v n l') ∧
        (∀ x v, ∃ l', l.perform? (.define x v) = some l' ∧ l.Defined x v active.number l' ∧
          ∀ y, l'.get? y = if y = x then some (some v) else l.get? y) ∧
        ∀ bindings, ∃ l', l.performAll? (blockOf bindings) = some l' ∧
          l'.chains.map l'.frames = l.chains.map l.frames ∧ ∀ y, l'.get? y = l.get? y := by
  refine ⟨Eval.run_lookup_and_assign, defined_define, performAll_blockOf, fun before => ?_⟩
  obtain ⟨l, hbefore, h⟩ := LinkedScopes.exists_performAll before
  obtain ⟨active, suspended, hchains⟩ := List.exists_cons_of_ne_nil h.chains_ne_nil
  -- What is performed behind `before` is performed on `l`.
  have hbehind : ∀ ops, ∃ l', l.performAll? ops = some l' ∧
      l'.Represents ((empty.performAll before).performAll ops) := by
    intro ops
    obtain ⟨_, l', hbefore', -, hops, h'⟩ := LinkedScopes.exists_performAll_append before ops
    cases hbefore.symm.trans hbefore'
    exact ⟨l', hops, h'⟩
  refine ⟨l, active, suspended, hbefore, h, hchains, LinkedScopes.perform?_assign hchains, ?_, ?_⟩
  · intro x v
    obtain ⟨l', hperform, hdefined⟩ := LinkedScopes.perform?_define hchains x v
    refine ⟨l', hperform, hdefined, fun y => ?_⟩
    obtain ⟨_, hperform', h'⟩ := hbehind [.define x v]
    obtain ⟨_, hfirst, hnil⟩ := LinkedScopes.performAll?_cons_eq_some_iff.mp hperform'
    cases hnil
    cases hperform.symm.trans hfirst
    have hget := (defined_define x v (empty.performAll before)).get? y
    rw [h'.get?_eq y, h.get?_eq y]
    exact (congrArg some hget).trans (apply_ite some _ _ _)
  · intro bindings
    obtain ⟨l', hperform, h'⟩ := hbehind (blockOf bindings)
    rw [performAll_blockOf] at h'
    exact ⟨l', hperform, h'.frames_eq.trans h.frames_eq.symm,
      fun y => (h'.get?_eq y).trans (h.get?_eq y).symm⟩

end LoxLang
