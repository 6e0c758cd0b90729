import LoxLang.Scopes
import Mathlib.Data.List.Nodup
import Mathlib.Logic.Function.Basic

/-!
# Frames with links

`Scopes` keeps the local frames of every chain in a list, and the globals apart from all of them. So
it is built into the data that all chains end in the same globals, and that no chain shares any
other frame. Here nothing of this is built in: a frame is a thing of its own, known by a number,
and has a **link** to the frame around it; a chain is known by its innermost frame; and there is a
list of chains, of which an operation takes the first and fails if there is none.

It is shown that the two say the same. Whatever operations are performed on frames with links, they
do not fail, all chains end in the globals, and the frames of the chains are those of `Scopes`
behind the same operations (`LinkedScopes.exists_performAll`).
-/

namespace LoxLang

namespace Scopes

/-- The **operations** on scopes. -/
inductive Operation
  | define (x : String) (v : Value)
  | get (x : String)
  | assign (x : String) (v : Value)
  | enterBlock
  | exitBlock
  | enterCall
  | exitCall

/-- The scopes behind an operation. Reading changes nothing, and neither does an assignment that
fails. -/
def perform (s : Scopes) : Operation → Scopes
  | .define x v => s.define x v
  | .get _ => s
  | .assign x v => (s.assign? x v).getD s
  | .enterBlock => s.enterBlock
  | .exitBlock => s.exitBlock
  | .enterCall => s.enterCall
  | .exitCall => s.exitCall

/-- The scopes behind operations, one after the other. -/
def performAll (s : Scopes) (ops : List Operation) : Scopes := ops.foldl perform s

end Scopes

open Scopes

/-! ### Links -/

/-- A frame that others refer to, by its number. Its **link** to the frame around it is made with
the frame and never changes. -/
inductive LinkedFrame
  | root (number : Nat)
  | inside (number : Nat) (enclosing : LinkedFrame)

namespace LinkedFrame

/-- The number of a frame. -/
def number : LinkedFrame → Nat
  | root n => n
  | inside n _ => n

/-- The frame that a chain **ends** in. -/
def last : LinkedFrame → LinkedFrame
  | root n => root n
  | inside _ enclosing => enclosing.last

/-- The numbers of the frames of a chain, innermost first. -/
def numbers : LinkedFrame → List Nat
  | root n => [n]
  | inside n enclosing => n :: enclosing.numbers

theorem number_mem_numbers (f : LinkedFrame) : f.number ∈ f.numbers := by
  cases f with
  | root n => exact List.mem_singleton_self n
  | inside n enclosing => exact List.mem_cons_self

/-- The number of the nearest frame that has something, along the links. -/
def find? (has : Nat → Bool) : LinkedFrame → Option Nat
  | root n => if has n then some n else none
  | inside n enclosing => if has n then some n else enclosing.find? has

/-- The chain of the frames with some numbers around the frame with number zero. -/
def chainOf (ns : List Nat) : LinkedFrame := ns.foldr inside (root 0)

section

variable (ns : List Nat)

theorem last_chainOf : (chainOf ns).last = root 0 := by
  induction ns with
  | nil => rfl
  | cons n ns ih => exact ih

theorem numbers_chainOf : (chainOf ns).numbers = ns ++ [0] := by
  induction ns with
  | nil => rfl
  | cons n ns ih => exact congrArg (List.cons n) ih

theorem find?_chainOf (has : Nat → Bool) : (chainOf ns).find? has = (ns ++ [0]).find? has := by
  induction ns with
  | nil =>
    change (if has 0 then some 0 else none) = [0].find? has
    rw [List.find?_singleton]
  | cons n ns ih =>
    change (if has n then some n else (chainOf ns).find? has) = _
    rw [List.cons_append, List.find?_cons, ih]
    cases has n <;> rfl

end

end LinkedFrame

/-- **Scopes of linked frames**. -/
structure LinkedScopes where
  globals : LinkedFrame
  /-- The innermost frame of every chain, that of the active one first. -/
  chains : List LinkedFrame
  /-- What each frame binds. -/
  contents : Nat → Frame
  /-- The number of frames made so far, which is the number of the next one. -/
  made : Nat

namespace LinkedScopes

open LinkedFrame

/-- One frame, the globals, and the chain that consists of it. -/
def new : LinkedScopes := ⟨root 0, [root 0], fun _ => [], 1⟩

/-- Whether a frame binds a name. -/
def binds (l : LinkedScopes) (x : String) (n : Nat) : Bool := ((l.contents n).get? x).isSome

/-- Binds a name in a frame. -/
def bind (l : LinkedScopes) (n : Nat) (x : String) (v : Value) : LinkedScopes :=
  { l with contents := Function.update l.contents n ((l.contents n).bind x v) }

@[simp]
theorem contents_bind_self (l : LinkedScopes) (n : Nat) (x : String) (v : Value) :
    (l.bind n x v).contents n = (l.contents n).bind x v := Function.update_self _ _ _

theorem contents_bind_of_ne {m n : Nat} (h : m ≠ n) (l : LinkedScopes) (x : String) (v : Value) :
    (l.bind n x v).contents m = l.contents m := Function.update_of_ne h _ _

/-- The value of a name, if it has one and there is an active chain at all. -/
def get? (l : LinkedScopes) (x : String) : Option (Option Value) :=
  l.chains.head?.map fun active => (active.find? (l.binds x)).bind fun n => (l.contents n).get? x

/-- The linked scopes behind an operation, if it does not **fail** for want of a chain. -/
def perform? (l : LinkedScopes) (op : Operation) : Option LinkedScopes :=
  match l.chains with
  | [] => none
  | active :: suspended =>
    some <| match op with
    | .define x v => l.bind active.number x v
    | .get _ => l
    | .assign x v =>
      match active.find? (l.binds x) with
      | some n => l.bind n x v
      | none => l
    | .enterBlock =>
      { l with
        chains := inside l.made active :: suspended
        contents := Function.update l.contents l.made []
        made := l.made + 1 }
    | .exitBlock =>
      match active with
      | root _ => l
      | inside _ enclosing => { l with chains := enclosing :: suspended }
    | .enterCall => { l with chains := l.globals :: l.chains }
    | .exitCall =>
      match suspended with
      | [] => l
      | caller :: callers => { l with chains := caller :: callers }

/-- The linked scopes behind operations, one after the other. -/
def performAll? (l : LinkedScopes) (ops : List Operation) : Option LinkedScopes :=
  ops.foldlM perform? l

/-- What the frames of a chain bind, innermost first. -/
def frames (l : LinkedScopes) (chain : LinkedFrame) : List Frame := chain.numbers.map l.contents

/-- Linked scopes **represent** scopes: there is an active chain, every chain ends in the globals,
and the chains are those of the scopes, and read like them. -/
structure Represents (l : LinkedScopes) (s : Scopes) : Prop where
  globals_eq : l.globals = root 0
  chains_ne_nil : l.chains ≠ []
  last_eq : ∀ chain ∈ l.chains, chain.last = l.globals
  frames_eq : l.chains.map l.frames = (s.locals :: s.callers).map (· ++ [s.globals])
  get?_eq : ∀ x, l.get? x = some (s.get? x)

/-! ### Frames are not shared -/

/-- The chains consist of the frames with these numbers inside of the globals. No two of them are
the same frame, and they bind what the local frames of the scopes bind. -/
structure Separate (l : LinkedScopes) (inner : List (List Nat)) (s : Scopes) : Prop where
  globals_eq : l.globals = root 0
  chains_eq : l.chains = inner.map chainOf
  nodup : (0 :: inner.flatten).Nodup
  lt_made : ∀ n ∈ 0 :: inner.flatten, n < l.made
  contents_zero : l.contents 0 = s.globals
  contents_inner : inner.map (List.map l.contents) = s.locals :: s.callers

theorem separate_new : new.Separate [[]] Scopes.empty where
  globals_eq := rfl
  chains_eq := rfl
  nodup := List.nodup_singleton 0
  lt_made := fun n hn => by
    rw [List.mem_singleton.mp hn]
    exact Nat.one_pos
  contents_zero := rfl
  contents_inner := rfl

/-- A frame that is not among them does not show what is bound in it. -/
theorem map_update_of_not_mem {α : Type} (f : Nat → α) {n : Nat} {ns : List Nat} (h : n ∉ ns)
    (a : α) : ns.map (Function.update f n a) = ns.map f :=
  List.map_congr_left fun _ hm => Function.update_of_ne (ne_of_mem_of_not_mem hm h) a f

theorem map_map_update_of_not_mem {α : Type} (f : Nat → α) {n : Nat} {inner : List (List Nat)}
    (h : n ∉ inner.flatten) (a : α) :
    inner.map (List.map (Function.update f n a)) = inner.map (List.map f) :=
  List.map_congr_left fun _ hns =>
    map_update_of_not_mem f (fun hn => h (List.mem_flatten.mpr ⟨_, hns, hn⟩)) a

/-- The nearest frame that binds a name is the one in which the binding is **replaced**. -/
theorem replace?_map (f : Nat → Frame) (x : String) (v : Value) {ns : List Nat} (h : ns.Nodup) :
    replace? x v (ns.map f) = (ns.find? fun n => ((f n).get? x).isSome).map fun n =>
      ns.map (Function.update f n ((f n).bind x v)) := by
  induction ns with
  | nil => rfl
  | cons n ns ih =>
    obtain ⟨hn, hns⟩ := List.nodup_cons.mp h
    rw [List.map_cons, replace?, List.find?_cons]
    cases hbound : (f n).get? x with
    | some w => simp [map_update_of_not_mem f hn]
    | none =>
      rw [ih hns]
      simp only [Option.isSome_none, Option.map_map]
      refine Option.map_congr fun m hm => ?_
      have hne : n ≠ m := fun h => hn (h ▸ List.mem_of_find?_eq_some hm)
      simp [Function.update_of_ne hne]

/-- The nearest frame that binds a name has the **nearest binding**. -/
theorem nearest?_map (f : Nat → Frame) (x : String) (ns : List Nat) :
    nearest? x (ns.map f) =
      (ns.find? fun n => ((f n).get? x).isSome).bind fun n => (f n).get? x := by
  induction ns with
  | nil => rfl
  | cons n ns ih =>
    rw [List.map_cons, nearest?, List.find?_cons]
    cases hbound : (f n).get? x with
    | some w => simp [hbound]
    | none => simpa using ih

namespace Separate

variable {l : LinkedScopes} {ns : List Nat} {inner : List (List Nat)} {s : Scopes}

/-- The inner frames of the active chain bind what the local frames bind. -/
theorem exists_cons (h : l.Separate inner s) : ∃ ns rest, inner = ns :: rest ∧
    ns.map l.contents = s.locals ∧ rest.map (List.map l.contents) = s.callers := by
  obtain ⟨ns, rest, hinner, hlocals, hcallers⟩ := List.map_eq_cons_iff.mp h.contents_inner
  exact ⟨ns, rest, hinner, hlocals, hcallers⟩

/-- What is bound in the globals is bound for all chains, and changes nothing else. -/
theorem bind_zero (h : l.Separate inner s) (x : String) (v : Value) :
    (l.bind 0 x v).Separate inner { s with globals := s.globals.bind x v } where
  globals_eq := h.globals_eq
  chains_eq := h.chains_eq
  nodup := h.nodup
  lt_made := h.lt_made
  contents_zero := by
    change Function.update l.contents 0 ((l.contents 0).bind x v) 0 = _
    rw [Function.update_self, h.contents_zero]
  contents_inner := by
    rw [LinkedScopes.bind, map_map_update_of_not_mem _ (List.nodup_cons.mp h.nodup).1,
      h.contents_inner]

/-- What is bound in an inner frame of the active chain is bound for this chain alone. -/
theorem bind_inner (h : l.Separate (ns :: inner) s) {n : Nat} (hn : n ∈ ns) (x : String)
    (v : Value) :
    (l.bind n x v).Separate (ns :: inner) { s with
      locals := ns.map (Function.update l.contents n ((l.contents n).bind x v)) } where
  globals_eq := h.globals_eq
  chains_eq := h.chains_eq
  nodup := h.nodup
  lt_made := h.lt_made
  contents_zero := by
    obtain ⟨hzero, -⟩ := List.nodup_cons.mp h.nodup
    have hne : 0 ≠ n := fun h => hzero (h ▸ List.mem_append_left _ hn)
    exact (Function.update_of_ne hne _ _).trans h.contents_zero
  contents_inner := by
    obtain ⟨-, hnodup⟩ := List.nodup_cons.mp h.nodup
    have hrest : n ∉ inner.flatten := List.disjoint_of_nodup_append hnodup hn
    rw [List.map_cons, LinkedScopes.bind, map_map_update_of_not_mem _ hrest,
      (List.cons.inj h.contents_inner).2]

/-- A new frame is none of those there are, whatever it binds. -/
theorem lay (h : l.Separate (ns :: inner) s) (frame : Frame) :
    Separate { l with
        chains := inside l.made (chainOf ns) :: inner.map chainOf
        contents := Function.update l.contents l.made frame
        made := l.made + 1 }
      ((l.made :: ns) :: inner) { s with locals := frame :: s.locals } where
  globals_eq := h.globals_eq
  chains_eq := rfl
  nodup := by
    obtain ⟨hzero, hnodup⟩ := List.nodup_cons.mp h.nodup
    have hnew : l.made ∉ 0 :: (ns :: inner).flatten :=
      fun hmem => Nat.lt_irrefl _ (h.lt_made _ hmem)
    have hne : 0 ≠ l.made := fun heq => hnew (heq ▸ List.mem_cons_self)
    refine List.nodup_cons.mpr ⟨?_, List.nodup_cons.mpr ⟨?_, hnodup⟩⟩
    · exact List.not_mem_cons_of_ne_of_not_mem hne hzero
    · exact fun hmem => hnew (List.mem_cons_of_mem _ hmem)
  lt_made := by
    intro n hn
    have hcases : n = l.made ∨ n ∈ 0 :: (ns :: inner).flatten := by
      simpa [or_left_comm] using hn
    rcases hcases with rfl | hn
    · exact Nat.lt_succ_self _
    · exact Nat.lt_succ_of_lt (h.lt_made n hn)
  contents_zero := by
    have hne : 0 ≠ l.made := Nat.ne_of_lt (h.lt_made 0 List.mem_cons_self)
    exact (Function.update_of_ne hne _ _).trans h.contents_zero
  contents_inner := by
    have hnew : l.made ∉ (ns :: inner).flatten :=
      fun hmem => Nat.lt_irrefl _ (h.lt_made _ (List.mem_cons_of_mem _ hmem))
    have hsame := map_map_update_of_not_mem l.contents hnew frame
    rw [h.contents_inner, List.map_cons] at hsame
    obtain ⟨hlocals, hcallers⟩ := List.cons.inj hsame
    change (Function.update l.contents l.made frame l.made :: ns.map _) :: inner.map _ = _
    rw [Function.update_self, hlocals, hcallers]

/-! ### Operations on separate frames -/

/-- The chains of separate frames, the **active** one first. -/
theorem chains_eq_cons (h : l.Separate (ns :: inner) s) :
    l.chains = chainOf ns :: inner.map chainOf := h.chains_eq

/-- A name is bound in the **innermost** frame. -/
theorem define (h : l.Separate (ns :: inner) s) (x : String) (v : Value) :
    (l.bind (chainOf ns).number x v).Separate (ns :: inner) (s.define x v) := by
  obtain ⟨hlocals, -⟩ := List.cons.inj h.contents_inner
  cases ns with
  | nil =>
    have hdefine : s.define x v = { s with globals := s.globals.bind x v } := by
      rw [Scopes.define, ← hlocals]
      rfl
    rw [hdefine]
    exact h.bind_zero x v
  | cons n ns =>
    have hnodup : (n :: ns).Nodup := ((List.nodup_cons.mp h.nodup).2).of_append_left
    obtain ⟨hn, -⟩ := List.nodup_cons.mp hnodup
    have hinner := h.bind_inner List.mem_cons_self x v
    rw [List.map_cons, Function.update_self, map_update_of_not_mem _ hn] at hinner
    rw [Scopes.define, ← hlocals]
    exact hinner

/-- An assignment binds the name in the nearest frame that has it, and fails if none does. -/
theorem assign (h : l.Separate (ns :: inner) s) (x : String) (v : Value) :
    match (chainOf ns).find? (l.binds x) with
    | some n => ∃ s', s.assign? x v = some s' ∧ (l.bind n x v).Separate (ns :: inner) s'
    | none => s.assign? x v = none := by
  obtain ⟨hlocals, -⟩ := List.cons.inj h.contents_inner
  have hnodup : ns.Nodup := ((List.nodup_cons.mp h.nodup).2).of_append_left
  have hreplace : replace? x v s.locals = (ns.find? (l.binds x)).map fun n =>
      ns.map (Function.update l.contents n ((l.contents n).bind x v)) :=
    hlocals ▸ replace?_map l.contents x v hnodup
  rw [Scopes.assign?, hreplace, find?_chainOf, List.find?_append]
  cases hfind : ns.find? (l.binds x) with
  | some n => exact ⟨_, rfl, h.bind_inner (List.mem_of_find?_eq_some hfind) x v⟩
  | none =>
    rw [List.find?_singleton, binds, h.contents_zero]
    cases s.globals.get? x with
    | none => rfl
    | some w => exact ⟨_, rfl, h.bind_zero x v⟩

theorem exitBlock {n : Nat} (h : l.Separate ((n :: ns) :: inner) s) :
    Separate { l with chains := (ns :: inner).map chainOf } (ns :: inner) s.exitBlock := by
  obtain ⟨hlocals, hcallers⟩ := List.cons.inj h.contents_inner
  have hsublist : (0 :: (ns :: inner).flatten).Sublist (0 :: ((n :: ns) :: inner).flatten) :=
    (List.sublist_cons_self _ _).cons_cons 0
  refine ⟨h.globals_eq, rfl, h.nodup.sublist hsublist, ?_, h.contents_zero, ?_⟩
  · exact fun m hm => h.lt_made m (hsublist.subset hm)
  · rw [Scopes.exitBlock, ← hlocals, ← hcallers]
    rfl

theorem enterCall (h : l.Separate (ns :: inner) s) :
    Separate { l with chains := l.globals :: l.chains } ([] :: ns :: inner) s.enterCall := by
  refine ⟨h.globals_eq, ?_, h.nodup, h.lt_made, h.contents_zero, ?_⟩
  · exact congrArg₂ List.cons h.globals_eq h.chains_eq
  · exact congrArg (List.cons []) h.contents_inner

theorem exitCall {caller : List Nat} (h : l.Separate (ns :: caller :: inner) s) :
    Separate { l with chains := (caller :: inner).map chainOf } (caller :: inner) s.exitCall := by
  obtain ⟨-, hcallers⟩ := List.cons.inj h.contents_inner
  have hsublist : (0 :: (caller :: inner).flatten).Sublist
      (0 :: (ns :: caller :: inner).flatten) := (List.sublist_append_right _ _).cons_cons 0
  rw [Scopes.exitCall, ← hcallers]
  refine ⟨h.globals_eq, rfl, h.nodup.sublist hsublist, ?_, h.contents_zero, rfl⟩
  exact fun m hm => h.lt_made m (hsublist.subset hm)

/-- **One operation** does not fail, and keeps the frames separate. -/
theorem exists_perform (h : l.Separate inner s) (op : Operation) :
    ∃ l' inner', l.perform? op = some l' ∧ l'.Separate inner' (s.perform op) := by
  obtain ⟨ns, inner, rfl, hlocals, hcallers⟩ := h.exists_cons
  rw [perform?, h.chains_eq_cons]
  cases op with
  | define x v => exact ⟨_, _, rfl, h.define x v⟩
  | get x => exact ⟨l, ns :: inner, rfl, h⟩
  | assign x v =>
    refine ⟨_, ns :: inner, rfl, ?_⟩
    have hassign := h.assign x v
    rw [Scopes.perform]
    dsimp only
    cases hfind : (chainOf ns).find? (l.binds x) with
    | some n =>
      rw [hfind] at hassign
      obtain ⟨s', heq, h'⟩ := hassign
      rw [heq]
      exact h'
    | none =>
      rw [hfind] at hassign
      rw [hassign]
      exact h
  | enterBlock => exact ⟨_, (l.made :: ns) :: inner, rfl, h.lay []⟩
  | exitBlock =>
    cases ns with
    | nil =>
      refine ⟨l, [] :: inner, rfl, ?_⟩
      rw [Scopes.perform, Scopes.exitBlock, ← hlocals]
      exact { h with contents_inner := congrArg _ hcallers }
    | cons n ns => exact ⟨_, ns :: inner, rfl, h.exitBlock⟩
  | enterCall => exact ⟨_, [] :: ns :: inner, congrArg some (by rw [h.chains_eq_cons]), h.enterCall⟩
  | exitCall =>
    cases inner with
    | nil =>
      refine ⟨l, [ns], rfl, ?_⟩
      rw [Scopes.perform, Scopes.exitCall, ← hcallers]
      exact h
    | cons caller callers => exact ⟨_, caller :: callers, rfl, h.exitCall⟩

/-! ### All scopes -/

/-- Local frames are laid on the globals, one after the other. -/
theorem exists_lay {globals : Frame} {callers : List (List Frame)}
    (h : l.Separate ([] :: inner) ⟨globals, [], callers⟩) (locals : List Frame) :
    ∃ l' ns', Separate l' (ns' :: inner) ⟨globals, locals, callers⟩ := by
  induction locals with
  | nil => exact ⟨l, [], h⟩
  | cons frame locals ih =>
    obtain ⟨l', ns', h'⟩ := ih
    exact ⟨_, _, h'.lay frame⟩

end Separate

/-- **All scopes** are those of some linked frames, of which no chains share any but the globals. -/
theorem exists_separate (s : Scopes) : ∃ l inner, Separate l inner s := by
  obtain ⟨globals, locals, callers⟩ := s
  suffices h : ∃ l ns inner, Separate l (ns :: inner) ⟨globals, locals, callers⟩ by
    obtain ⟨l, ns, inner, h⟩ := h
    exact ⟨l, _, h⟩
  -- The chains of the callers are made first, and a call is entered on each of them.
  induction callers generalizing locals with
  | nil =>
    have hroot : Separate ⟨root 0, [root 0], fun _ => globals, 1⟩ [[]] ⟨globals, [], []⟩ :=
      { separate_new with contents_zero := rfl, contents_inner := rfl }
    obtain ⟨l, ns, h⟩ := hroot.exists_lay locals
    exact ⟨l, ns, [], h⟩
  | cons caller callers ih =>
    obtain ⟨l, ns, inner, h⟩ := ih caller
    obtain ⟨l', ns', h'⟩ := h.enterCall.exists_lay locals
    exact ⟨l', ns', _, h'⟩

namespace Separate

variable {l : LinkedScopes} {inner : List (List Nat)} {s : Scopes}

/-- Frames that are separate **represent** the scopes. -/
theorem represents (h : l.Separate inner s) : l.Represents s := by
  have hframes : ∀ ns, l.frames (chainOf ns) = ns.map l.contents ++ [s.globals] := fun ns => by
    rw [frames, numbers_chainOf, List.map_append, List.map_singleton, h.contents_zero]
  refine ⟨h.globals_eq, ?_, ?_, ?_, fun x => ?_⟩
  · obtain ⟨ns, rest, rfl, -⟩ := h.exists_cons
    rw [h.chains_eq]
    exact List.cons_ne_nil _ _
  · rw [h.chains_eq, h.globals_eq]
    intro chain hchain
    obtain ⟨ns, -, rfl⟩ := List.mem_map.mp hchain
    exact last_chainOf ns
  · rw [h.chains_eq, ← h.contents_inner, List.map_map, List.map_map]
    exact List.map_congr_left fun ns _ => hframes ns
  · obtain ⟨ns, rest, rfl, hlocals, -⟩ := h.exists_cons
    have hnearest := nearest?_map l.contents x (ns ++ [0])
    rw [List.map_append, List.map_singleton, hlocals, h.contents_zero] at hnearest
    rw [LinkedScopes.get?, h.chains_eq, Scopes.get?, chain, hnearest]
    simp only [List.map_cons, List.head?_cons, Option.map_some, find?_chainOf]
    rfl

end Separate

/-- **All operations** on linked frames go through, and what they leave represents the scopes that
the same operations leave. -/
theorem exists_performAll (ops : List Operation) :
    ∃ l, new.performAll? ops = some l ∧ l.Represents (Scopes.empty.performAll ops) := by
  have hall : ∀ {l inner s}, Separate l inner s → ∃ l' inner', l.performAll? ops = some l' ∧
      l'.Separate inner' (s.performAll ops) := by
    induction ops with
    | nil => exact fun h => ⟨_, _, rfl, h⟩
    | cons op ops ih =>
      intro l inner s h
      obtain ⟨l', inner', hperform, h'⟩ := h.exists_perform op
      obtain ⟨l'', inner'', hperformAll, h''⟩ := ih h'
      refine ⟨l'', inner'', ?_, h''⟩
      rw [performAll?, List.foldlM_cons, hperform]
      exact hperformAll
  obtain ⟨l, inner, hperformAll, h⟩ := hall separate_new
  exact ⟨l, hperformAll, h.represents⟩

end LinkedScopes

end LoxLang
