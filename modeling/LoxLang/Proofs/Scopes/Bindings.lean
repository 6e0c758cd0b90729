import LoxLang.Scopes

/-!
# What all bindings satisfy

`Scopes.Every P` says that every value bound in some frame, of the active chain or of a call in
progress, satisfies `P`. It is enough that new bindings do: no operation on scopes makes up a value.
-/

namespace LoxLang

namespace Frame

variable {P : Value → Prop} {x : String} {v : Value} {frame : Frame}

/-- **Every** value of a frame satisfies `P`. -/
def Every (P : Value → Prop) (frame : Frame) : Prop := ∀ entry ∈ frame, P entry.2

theorem Every.bind (h : frame.Every P) (hv : P v) : (frame.bind x v).Every P := by
  induction frame with
  | nil =>
    intro entry hentry
    rw [List.mem_singleton.mp hentry]
    exact hv
  | cons entry frame ih =>
    obtain ⟨hentry, hframe⟩ := List.forall_mem_cons.mp h
    rw [Frame.bind]
    split
    · exact List.forall_mem_cons.mpr ⟨hv, hframe⟩
    · exact List.forall_mem_cons.mpr ⟨hentry, ih hframe⟩

theorem Every.get? (h : frame.Every P) (hv : frame.get? x = some v) : P v := by
  induction frame with
  | nil => cases hv
  | cons entry frame ih =>
    obtain ⟨hentry, hframe⟩ := List.forall_mem_cons.mp h
    rw [Frame.get?] at hv
    split at hv
    · cases hv
      exact hentry
    · exact ih hframe hv

end Frame

namespace Scopes

variable {P : Value → Prop} {x : String} {v : Value} {s s' : Scopes}

/-- All **frames**: those of the active chain, and those put aside. -/
def frames (s : Scopes) : List Frame := s.chain ++ s.callers.flatten

/-- **Every** value of every frame satisfies `P`. -/
def Every (P : Value → Prop) (s : Scopes) : Prop := ∀ frame ∈ s.frames, frame.Every P

theorem every_iff :
    s.Every P ↔ s.globals.Every P ∧ (∀ frame ∈ s.locals, frame.Every P) ∧
      ∀ caller ∈ s.callers, ∀ frame ∈ caller, frame.Every P := by
  simp only [Every, frames, chain, List.mem_append, List.mem_singleton, List.mem_flatten]
  constructor
  · intro h
    exact ⟨h _ (.inl (.inr rfl)), fun frame hframe => h frame (.inl (.inl hframe)),
      fun caller hcaller frame hframe => h frame (.inr ⟨caller, hcaller, hframe⟩)⟩
  · rintro ⟨hglobals, hlocals, hcallers⟩ frame ((hframe | rfl) | ⟨caller, hcaller, hframe⟩)
    · exact hlocals frame hframe
    · exact hglobals
    · exact hcallers caller hcaller frame hframe

theorem Every.mono {Q : Value → Prop} (h : s.Every P) (hPQ : ∀ v, P v → Q v) : s.Every Q :=
  fun frame hframe entry hentry => hPQ _ (h frame hframe entry hentry)

theorem Every.define (h : s.Every P) (hv : P v) : (s.define x v).Every P := by
  obtain ⟨hglobals, hlocals, hcallers⟩ := every_iff.mp h
  obtain ⟨globals, _ | ⟨frame, frames⟩, callers⟩ := s
  · exact every_iff.mpr ⟨hglobals.bind hv, hlocals, hcallers⟩
  · obtain ⟨hframe, hframes⟩ := List.forall_mem_cons.mp hlocals
    exact every_iff.mpr ⟨hglobals, List.forall_mem_cons.mpr ⟨hframe.bind hv, hframes⟩, hcallers⟩

theorem every_of_nearest? {frames : List Frame} (h : ∀ frame ∈ frames, frame.Every P)
    (hv : nearest? x frames = some v) : P v := by
  induction frames with
  | nil => cases hv
  | cons frame frames ih =>
    obtain ⟨hframe, hframes⟩ := List.forall_mem_cons.mp h
    rw [nearest?] at hv
    split at hv
    · next hw =>
      cases hv
      exact hframe.get? hw
    · exact ih hframes hv

theorem every_replace? {frames frames' : List Frame} (h : ∀ frame ∈ frames, frame.Every P)
    (hv : P v) (hr : replace? x v frames = some frames') : ∀ frame ∈ frames', frame.Every P := by
  induction frames generalizing frames' with
  | nil => cases hr
  | cons frame frames ih =>
    obtain ⟨hframe, hframes⟩ := List.forall_mem_cons.mp h
    rw [replace?] at hr
    split at hr
    · cases hr
      exact List.forall_mem_cons.mpr ⟨hframe.bind hv, hframes⟩
    · obtain ⟨replaced, hreplaced, rfl⟩ := Option.map_eq_some_iff.mp hr
      exact List.forall_mem_cons.mpr ⟨hframe, ih hframes hreplaced⟩

theorem Every.get? (h : s.Every P) (hv : s.get? x = some v) : P v :=
  every_of_nearest? (fun frame hframe => h frame (List.mem_append_left _ hframe)) hv

theorem Every.assign? (h : s.Every P) (hv : P v) (hs : s.assign? x v = some s') : s'.Every P := by
  obtain ⟨hchain, hcallers⟩ := assign?_eq_some_iff.mp hs
  have hnew : ∀ frame ∈ s'.chain, frame.Every P :=
    every_replace? (fun frame hframe => h frame (List.mem_append_left _ hframe)) hv hchain
  intro frame hframe
  rcases List.mem_append.mp hframe with hmem | hmem
  · exact hnew frame hmem
  · rw [hcallers] at hmem
    exact h frame (List.mem_append_right _ hmem)

theorem Every.enterBlock (h : s.Every P) : s.enterBlock.Every P := by
  obtain ⟨hglobals, hlocals, hcallers⟩ := every_iff.mp h
  refine every_iff.mpr ⟨hglobals, List.forall_mem_cons.mpr ⟨?_, hlocals⟩, hcallers⟩
  exact fun entry hentry => absurd hentry (List.not_mem_nil)

theorem Every.exitBlock (h : s.Every P) : s.exitBlock.Every P := by
  obtain ⟨hglobals, hlocals, hcallers⟩ := every_iff.mp h
  exact every_iff.mpr
    ⟨hglobals, fun frame hframe => hlocals frame (List.mem_of_mem_tail hframe), hcallers⟩

theorem Every.enterCall (h : s.Every P) : s.enterCall.Every P := by
  obtain ⟨hglobals, hlocals, hcallers⟩ := every_iff.mp h
  refine every_iff.mpr ⟨hglobals, fun frame hframe => absurd hframe List.not_mem_nil, ?_⟩
  exact List.forall_mem_cons.mpr ⟨hlocals, hcallers⟩

theorem Every.exitCall (h : s.Every P) : s.exitCall.Every P := by
  obtain ⟨hglobals, hlocals, hcallers⟩ := every_iff.mp h
  obtain ⟨globals, locals, _ | ⟨caller, callers⟩⟩ := s
  · exact h
  · obtain ⟨hcaller, hcallers⟩ := List.forall_mem_cons.mp hcallers
    exact every_iff.mpr ⟨hglobals, hcaller, hcallers⟩

end Scopes

end LoxLang
