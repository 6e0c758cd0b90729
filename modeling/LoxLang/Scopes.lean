import LoxLang.Value

/-!
# Scopes

A **frame** binds names to values, in the order in which the names were first bound. The frames a
running program can see form a chain: its local frames, innermost first, and then the globals.
Blocks lay a frame on the chain. A call does not: it puts the local frames of the caller aside and
starts with none, so a function sees the globals and its own locals only, and the frames put aside
come back when the call ends.
-/

namespace LoxLang

/-- Names with their values, in the order of first binding. -/
abbrev Frame := List (String × Value)

namespace Frame

/-- The value of a name. -/
def get? (x : String) : Frame → Option Value
  | [] => none
  | (y, v) :: frame => if x = y then some v else get? x frame

/-- Binds a name: in its place if the frame has it, and else behind the other names. -/
def bind (x : String) (v : Value) : Frame → Frame
  | [] => [(x, v)]
  | (y, w) :: frame => if x = y then (y, v) :: frame else (y, w) :: bind x v frame

/-- The names of a frame. -/
def names (frame : Frame) : List String := frame.map Prod.fst

/-- A name that was just bound has its value. -/
@[simp]
theorem get?_bind_self (x : String) (v : Value) (frame : Frame) :
    (frame.bind x v).get? x = some v := by
  induction frame with
  | nil => simp [bind, get?]
  | cons entry frame ih =>
    rw [bind]
    split
    · next h => rw [get?, if_pos h]
    · next h => rw [get?, if_neg h, ih]

/-- Binding a name changes no other name. -/
theorem get?_bind_of_ne {x y : String} (h : y ≠ x) (v : Value) (frame : Frame) :
    (frame.bind x v).get? y = frame.get? y := by
  induction frame with
  | nil => simp [bind, get?, h]
  | cons entry frame ih =>
    rw [bind]
    split
    · next hx => rw [get?, get?, if_neg (hx ▸ h), if_neg (hx ▸ h)]
    · rw [get?, get?, ih]

/-- A frame has a value for exactly its names. -/
theorem isSome_get?_iff {x : String} {frame : Frame} :
    (frame.get? x).isSome ↔ x ∈ frame.names := by
  induction frame with
  | nil => simp [get?, names]
  | cons entry frame ih =>
    rw [get?]
    split
    · next h => simp [names, h]
    · next h => simpa [names, h] using ih

/-- Binding a name of the frame keeps the names and their order. -/
theorem names_bind_of_mem {x : String} {frame : Frame} (h : x ∈ frame.names) (v : Value) :
    (frame.bind x v).names = frame.names := by
  induction frame with
  | nil => simp [names] at h
  | cons entry frame ih =>
    rw [bind]
    split
    · rfl
    · next hx =>
      have hmem : x ∈ names frame := by simpa [names, hx] using h
      exact congrArg (List.cons entry.1) (ih hmem)

/-- Binding a new name puts it behind the others. -/
theorem names_bind_of_not_mem {x : String} {frame : Frame} (h : x ∉ frame.names) (v : Value) :
    (frame.bind x v).names = frame.names ++ [x] := by
  induction frame with
  | nil => rfl
  | cons entry frame ih =>
    rw [bind]
    split
    · next hx => exact absurd (by simp [names, hx]) h
    · have hmem : x ∉ names frame := fun hm => h (List.mem_cons_of_mem _ hm)
      exact congrArg (List.cons entry.1) (ih hmem)

/-- Binding a name keeps the names there are, in front and in order. -/
theorem names_prefix_names_bind (x : String) (v : Value) (frame : Frame) :
    frame.names <+: (frame.bind x v).names := by
  by_cases h : x ∈ frame.names
  · exact (names_bind_of_mem h v).symm ▸ List.prefix_refl _
  · rw [names_bind_of_not_mem h]
    exact List.prefix_append _ _

end Frame

/-- The **scopes** of a running program. -/
structure Scopes where
  globals : Frame
  /-- The local frames of the active chain, innermost first. -/
  locals : List Frame
  /-- The local frames put aside by the calls in progress, the latest first. -/
  callers : List (List Frame)

namespace Scopes

/-- Nothing but empty globals. -/
def empty : Scopes := ⟨[], [], []⟩

/-- The active chain, innermost frame first. -/
def chain (s : Scopes) : List Frame := s.locals ++ [s.globals]

/-- The innermost frame of the active chain. -/
def current (s : Scopes) : Frame := s.locals.headD s.globals

/-- The number of frames in the active chain. -/
def depth (s : Scopes) : Nat := s.locals.length + 1

/-- The number of calls in progress. -/
def callDepth (s : Scopes) : Nat := s.callers.length

/-- The nearest binding of a name in a list of frames. -/
def nearest? (x : String) : List Frame → Option Value
  | [] => none
  | frame :: frames =>
    match frame.get? x with
    | some v => some v
    | none => nearest? x frames

/-- Replaces the nearest binding of a name in a list of frames. -/
def replace? (x : String) (v : Value) : List Frame → Option (List Frame)
  | [] => none
  | frame :: frames =>
    match frame.get? x with
    | some _ => some (frame.bind x v :: frames)
    | none => (replace? x v frames).map (frame :: ·)

/-- The value of a name: its **nearest binding** on the active chain. -/
def get? (x : String) (s : Scopes) : Option Value := nearest? x s.chain

/-- **Assigns** to the nearest binding of a name. Assignment never makes a binding. -/
def assign? (x : String) (v : Value) (s : Scopes) : Option Scopes :=
  match replace? x v s.locals with
  | some locals => some { s with locals }
  | none =>
    match s.globals.get? x with
    | some _ => some { s with globals := s.globals.bind x v }
    | none => none

/-- Binds a name in the innermost frame. -/
def define (x : String) (v : Value) (s : Scopes) : Scopes :=
  match s.locals with
  | [] => { s with globals := s.globals.bind x v }
  | frame :: frames => { s with locals := frame.bind x v :: frames }

/-- Lays an empty frame on the active chain. -/
def enterBlock (s : Scopes) : Scopes := { s with locals := [] :: s.locals }

/-- Takes the innermost frame off the active chain. The globals stay. -/
def exitBlock (s : Scopes) : Scopes := { s with locals := s.locals.tail }

/-- Starts a chain of the globals alone and puts the caller's local frames aside. -/
def enterCall (s : Scopes) : Scopes :=
  { s with locals := [], callers := s.locals :: s.callers }

/-- Drops the local frames of a call, also those of blocks still open in it, and takes up the
caller's. Outside of any call nothing happens. -/
def exitCall (s : Scopes) : Scopes :=
  match s.callers with
  | [] => s
  | caller :: callers => { s with locals := caller, callers }

/-- Leaving a block that was just entered changes nothing. -/
@[simp]
theorem exitBlock_enterBlock (s : Scopes) : s.enterBlock.exitBlock = s := rfl

/-- Ending a call that was just started changes nothing. -/
@[simp]
theorem exitCall_enterCall (s : Scopes) : s.enterCall.exitCall = s := rfl

/-- An empty frame hides nothing. -/
@[simp]
theorem get?_enterBlock (x : String) (s : Scopes) : s.enterBlock.get? x = s.get? x := rfl

/-- A call sees the globals. -/
@[simp]
theorem get?_enterCall (x : String) (s : Scopes) : s.enterCall.get? x = s.globals.get? x := by
  change nearest? x [s.globals] = _
  rw [nearest?]
  cases s.globals.get? x <;> rfl

/-- The end of a call keeps the globals. -/
@[simp]
theorem globals_exitCall (s : Scopes) : s.exitCall.globals = s.globals := by
  rw [exitCall]
  split <;> rfl

/-- Replacing a binding changes no names. -/
theorem map_names_replace? {x : String} {v : Value} {frames frames' : List Frame}
    (h : replace? x v frames = some frames') :
    frames'.map Frame.names = frames.map Frame.names := by
  induction frames generalizing frames' with
  | nil => cases h
  | cons frame frames ih =>
    rw [replace?] at h
    split at h
    · next w hw =>
      have hmem : x ∈ frame.names := Frame.isSome_get?_iff.mp (by rw [hw]; rfl)
      cases h
      rw [List.map_cons, List.map_cons, Frame.names_bind_of_mem hmem]
    · obtain ⟨replaced, hr, rfl⟩ := Option.map_eq_some_iff.mp h
      rw [List.map_cons, List.map_cons, ih hr]

/-- The nearest binding in a list of frames and more frames behind them. -/
theorem replace?_append (x : String) (v : Value) (inner outer : List Frame) :
    replace? x v (inner ++ outer) =
      ((replace? x v inner).map (· ++ outer)).or ((replace? x v outer).map (inner ++ ·)) := by
  induction inner with
  | nil => simp [replace?]
  | cons frame inner ih =>
    rw [List.cons_append, replace?, replace?]
    split
    · rfl
    · rw [ih]
      cases replace? x v inner <;> cases replace? x v outer <;> rfl

/-- An assignment replaces the nearest binding on the active chain, and changes nothing else. -/
theorem assign?_eq_some_iff {x : String} {v : Value} {s s' : Scopes} :
    s.assign? x v = some s' ↔
      replace? x v s.chain = some s'.chain ∧ s'.callers = s.callers := by
  obtain ⟨globals, locals, callers⟩ := s
  obtain ⟨globals', locals', callers'⟩ := s'
  have hchain : ∀ l g, l ++ [g] = locals' ++ [globals'] ↔ l = locals' ∧ g = globals' := by
    intro l g
    rw [← List.concat_eq_append, ← List.concat_eq_append]
    exact List.concat_inj
  rw [assign?, chain, chain, replace?_append]
  dsimp only
  cases replace? x v locals with
  | some replaced =>
    constructor
    · rintro ⟨⟩
      exact ⟨rfl, rfl⟩
    · rintro ⟨h, rfl⟩
      obtain ⟨rfl, rfl⟩ := (hchain _ _).mp (Option.some.inj h)
      rfl
  | none =>
    cases hg : globals.get? x with
    | none => simp [replace?, hg]
    | some w =>
      have hr : replace? x v [globals] = some [globals.bind x v] := by rw [replace?, hg]
      rw [hr]
      constructor
      · rintro ⟨⟩
        exact ⟨rfl, rfl⟩
      · rintro ⟨h, rfl⟩
        obtain ⟨rfl, rfl⟩ := (hchain _ _).mp (Option.some.inj h)
        rfl

/-- The description of the innermost frame, which no program sees. -/
def description (s : Scopes) : String :=
  "Environment([" ++ ", ".intercalate (s.current.names.map quoted) ++ "], depth=" ++
    toString s.depth ++ ")"

end Scopes

end LoxLang
