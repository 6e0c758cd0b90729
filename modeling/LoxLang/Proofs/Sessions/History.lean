import LoxLang.Proofs.Sessions.Records

/-!
# The history of a console

A console is asked for one operation after the other: to record diagnostics, to flush, to reset, to
stop, and to conclude watched work. Here it is told from the **history** alone what the console has
shown and what it remembers, whatever was asked for and in whatever order.

The record of an operation is displayed by one operation at most. On an immediate console this is
the operation itself, and on the others the first one from there on that **clears** the console, if
it flushes; if it is a reset, the record is never displayed (`Console.displays`). The flags tell
what happened since the last reset (`Console.Since`).

`Console.perform_eq` says all that one operation does, and `Console.Remembers` what is true of a
console behind its history.
-/

namespace LoxLang

/-- The diagnostic of a runtime error, on line zero if it has no token. -/
def Diagnostic.ofFailure (token : Option Token) (message : String) : Diagnostic :=
  ⟨(token.map Token.line).getD 0, locate token, message, .runtime⟩

/-- Whether a console **absorbs** an ending: all but completion, and a request to leave. -/
def Ending.absorbed : Ending → Bool
  | .completed | .exit _ => false
  | _ => true

namespace Console

/-! ### Operations -/

/-- What a console can be **asked for**. -/
inductive Operation
  /-- To record a static error that points at no token. -/
  | error (line : Int) (message : String)
  | report (line : Int) (place message : String)
  /-- To record a static error at a token. -/
  | reportAt (t : Token) (message : String)
  | runtimeError (token : Option Token) (message : String)
  | warn (t : Token) (message : String)
  | flush
  | reset
  | stop (message : String) (internal : Bool) (status : Option Int)
  | conclude (ending : Ending)

/-- The console does what it is asked for, and answers the request to leave if there is one. -/
def perform (c : Console) : Operation → Console × Option Exit
  | .error line message => (c.report line "" message, none)
  | .report line place message => (c.report line place message, none)
  | .reportAt t message => (c.report t.line (locate (some t)) message, none)
  | .runtimeError token message => (c.runtimeError token message, none)
  | .warn t message => (c.warn t message, none)
  | .flush => (c.flush, none)
  | .reset => (c.reset, none)
  | .stop message internal status => c.stop message internal status
  | .conclude ending => c.conclude ending

/-- The console behind its **history**, whatever requests to leave there were. -/
def behind (history : List Operation) (c : Console) : Console :=
  history.foldl (fun c op => (c.perform op).1) c

namespace Operation

/-- The diagnostic that an operation **records**, if it records one. -/
def diagnostic? : Operation → Option Diagnostic
  | error line message => some ⟨line, "", message, .static⟩
  | report line place message => some ⟨line, place, message, .static⟩
  | reportAt t message => some (.atToken .static t message)
  | runtimeError token message => some (.ofFailure token message)
  | warn t message => some (.atToken .warning t message)
  | conclude (.failure token message) => some (.ofFailure token message)
  | _ => none

/-- What the console says when it **stops**, and whether this is internal. -/
def message? : Operation → Option (String × Bool)
  | stop message internal _ => some (message, internal)
  | conclude .interrupted => some ("keyboard interrupt", false)
  | conclude .overflow => some ("maximum recursion depth exceeded", false)
  | conclude (.internal description) => some ("unknown error: '" ++ description ++ "'", true)
  | _ => none

/-- Whether the console shows what it has kept. -/
def flushes : Operation → Bool
  | flush => true
  | conclude ending => ending.absorbed
  | _ => false

/-- Whether the console starts over. -/
def resets : Operation → Bool
  | reset => true
  | _ => false

/-- Whether the console **keeps nothing** of what was recorded, be it shown or not. -/
def clears (op : Operation) : Bool := op.flushes || op.resets

/-- Whether a static error is recorded. -/
def static (op : Operation) : Bool := op.diagnostic?.any fun d => d.severity = .static

/-- Whether a runtime error is recorded, or the console stops. -/
def fatal (op : Operation) : Bool :=
  (op.diagnostic?.any fun d => d.severity = .runtime) || op.message?.isSome

/-- A flush resets nothing, and records no static error. -/
theorem resets_static_of_flushes {op : Operation} (h : op.flushes) :
    op.resets = false ∧ op.static = false := by
  cases op with
  | flush => exact ⟨rfl, rfl⟩
  | conclude ending =>
    cases ending with
    | failure => exact ⟨rfl, rfl⟩
    | _ => exact ⟨rfl, rfl⟩
  | _ => cases h

end Operation

/-! ### One operation -/

/-- Diagnostics displayed **at a time**: below a headline if more than one is an error. -/
def listing (styled : Bool) (ds : List Diagnostic) : List Entry :=
  let errors := ds.countP fun d => d.severity != .warning
  (if 1 < errors then [.shown (headline styled errors ++ "\n")] else []) ++ shownLines styled ds

/-- The line that says why a console stops, if it does. -/
def notice (styled : Bool) (op : Operation) : List Entry :=
  (op.message?.map fun (message, internal) => stopLine styled internal message).toList

theorem listing_nil (styled : Bool) : listing styled [] = [] := rfl

theorem listing_toList (styled : Bool) (d? : Option Diagnostic) :
    listing styled d?.toList = shownLines styled d?.toList := by
  rcases d? with _ | d
  · rfl
  · have hone : ¬ 1 < [d].countP fun d => d.severity != .warning :=
      Nat.not_lt.mpr List.countP_le_length
    rw [Option.toList_some, listing, if_neg hone]
    rfl

section

variable (c : Console)

/-- What the console **displays** when it is asked for an operation. -/
def displayedAt (op : Operation) : List Diagnostic :=
  if c.immediate then op.diagnostic?.toList
  else if op.flushes then c.records.toList ++ op.diagnostic?.toList
  else []

theorem flushed_eq :
    c.flushed = listing c.styled (if c.immediate then [] else c.records.toList) := by
  rw [flushed]
  split
  · rfl
  · rw [listing, Array.countP_toList]

/-- A diagnostic that is recorded alone is shown at once or not at all. -/
theorem shownAtOnce_singleton (d : Diagnostic) :
    c.shownAtOnce [d] = listing c.styled (if c.immediate then [d] else []) := by
  rw [shownAtOnce]
  split
  · exact (listing_toList c.styled (some d)).symm
  · rfl

theorem runtimeError_eq_record (token : Option Token) (message : String) :
    c.runtimeError token message =
      { c with hadRuntimeError := true }.record (.ofFailure token message) := rfl

/-- A **stop** shows its line, and leaves with the status of a runtime error or the one given. -/
theorem stop_eq (message : String) (internal : Bool) (status : Option Int) :
    c.stop message internal status =
      ({ c with
          hadRuntimeError := true
          transcript := c.transcript ++ [stopLine c.styled internal message].toArray },
        if c.fatal then some ⟨some (status.getD 70)⟩ else none) := by
  simp [stop, stopLine, writeLine, write, add, exitStatus, String.append_assoc]

/-- What is recorded and kept is **recorded** on top of the flags it sets. -/
theorem perform_of_diagnostic? {op : Operation} {d : Diagnostic} (h : op.diagnostic? = some d)
    (hkeeps : op.clears = false) :
    (c.perform op).1 =
      { c with
        hadError := c.hadError || op.static
        hadRuntimeError := c.hadRuntimeError || op.fatal }.record d := by
  cases op with
  | error | report | reportAt | runtimeError | warn =>
    cases h
    simp [perform, report, runtimeError_eq_record, warn, Operation.static, Operation.fatal,
      Operation.diagnostic?, Operation.message?, Diagnostic.atToken, Diagnostic.ofFailure]
  | conclude ending =>
    cases ending <;> cases h
    cases hkeeps
  | _ => cases h

/-- A **flush**, of records that were kept and possibly of one that is recorded first, displays
them and keeps none. -/
theorem perform_of_flushes {op : Operation} (h : op.flushes) :
    (c.perform op).1 =
      { c with
        records := #[]
        hadRuntimeError := c.hadRuntimeError || op.fatal
        transcript := c.transcript ++
          (listing c.styled (c.displayedAt op) ++ notice c.styled op).toArray } := by
  cases op with
  | flush =>
    simp [perform, flush_eq, flushed_eq, displayedAt, notice, Operation.flushes, Operation.fatal,
      Operation.diagnostic?, Operation.message?]
  | conclude ending =>
    cases ending with
    | completed | exit => cases h
    | interrupted | overflow | internal =>
      simp [perform, conclude, flush_eq, flushed_eq, stop_eq, displayedAt, notice,
        Operation.flushes, Operation.fatal, Operation.diagnostic?, Operation.message?,
        Ending.absorbed]
    | failure token message =>
      -- The record of the failure comes last: an immediate console has nothing else to display.
      rcases himmediate : c.immediate with _ | _ <;>
        simp [perform, conclude, runtimeError_eq_record, record_eq, flush_eq, flushed_eq,
          shownAtOnce_singleton, displayedAt, notice, Operation.flushes, Operation.fatal,
          Operation.diagnostic?, Operation.message?, Ending.absorbed, Diagnostic.ofFailure,
          himmediate, listing_nil]
  | _ => cases h

/-- **One operation**, by what it records, what it says and what it clears. -/
theorem perform_eq (op : Operation) :
    (c.perform op).1 =
      { c with
        records := if op.clears then #[] else c.records ++ op.diagnostic?.toArray
        hadError := !op.resets && (c.hadError || op.static)
        hadRuntimeError := !op.resets && (c.hadRuntimeError || op.fatal)
        transcript := c.transcript ++
          (listing c.styled (c.displayedAt op) ++ notice c.styled op).toArray } := by
  rcases hflushes : op.flushes with _ | _
  case true =>
    obtain ⟨hresets, hstatic⟩ := op.resets_static_of_flushes hflushes
    rw [c.perform_of_flushes hflushes, Operation.clears, hflushes, hresets, hstatic]
    simp
  cases op with
  | error | report | reportAt | runtimeError | warn =>
    rw [perform_of_diagnostic? c rfl rfl, record_eq, shownAtOnce_singleton]
    simp [displayedAt, notice, Operation.clears, Operation.flushes, Operation.resets,
      Operation.diagnostic?, Operation.message?]
  | flush => cases hflushes
  | reset =>
    simp [perform, reset, displayedAt, notice, listing_nil, Operation.clears, Operation.flushes,
      Operation.resets, Operation.diagnostic?, Operation.message?]
  | stop =>
    simp [perform, stop_eq, displayedAt, notice, listing_nil, Operation.clears, Operation.flushes,
      Operation.resets, Operation.static, Operation.fatal, Operation.diagnostic?,
      Operation.message?]
  | conclude ending =>
    cases ending with
    | completed | exit =>
      simp [perform, conclude, displayedAt, notice, listing_nil, Operation.clears,
        Operation.flushes, Operation.resets, Operation.static, Operation.fatal,
        Operation.diagnostic?, Operation.message?, Ending.absorbed]
    | _ => cases hflushes

end

/-! ### The history -/

/-- **Since** the last reset, there was an operation with `p`. -/
def Since (p : Operation → Bool) (history : List Operation) : Prop :=
  ∃ front op behind, history = front ++ op :: behind ∧ p op ∧ ∀ op' ∈ behind, ¬ op'.resets

theorem not_since_nil (p : Operation → Bool) : ¬ Since p [] := by
  rintro ⟨front, op, behind, h, -⟩
  exact List.append_ne_nil_of_right_ne_nil _ (List.cons_ne_nil _ _) h.symm

/-- What happened since the last reset is lost with the next one, and nothing else is. -/
theorem since_append_singleton {p : Operation → Bool} (history : List Operation) (op : Operation) :
    Since p (history ++ [op]) ↔ p op ∨ (¬ op.resets ∧ Since p history) := by
  constructor
  · rintro ⟨front, op', behind, h, hp, hbehind⟩
    rcases List.eq_nil_or_concat behind with rfl | ⟨behind, last, rfl⟩
    · obtain ⟨-, hlast⟩ := List.append_inj' h rfl
      cases hlast
      exact .inl hp
    · rw [List.concat_eq_append] at h hbehind
      rw [← List.cons_append, ← List.append_assoc] at h
      obtain ⟨hfront, hlast⟩ := List.append_inj' h rfl
      cases hlast
      obtain ⟨hkept, hlast⟩ := List.forall_mem_append.mp hbehind
      exact .inr ⟨hlast op (List.mem_singleton_self op), front, op', behind, hfront, hp, hkept⟩
  · rintro (hp | ⟨hresets, front, op', behind, rfl, hp, hbehind⟩)
    · exact ⟨history, op, [], rfl, hp, fun _ hmem => absurd hmem List.not_mem_nil⟩
    · refine ⟨front, op', behind ++ [op], by simp, hp, ?_⟩
      exact List.forall_mem_append.mpr ⟨hbehind, List.forall_mem_singleton.mpr hresets⟩

section

variable (history : List Operation)

/-- The record of the `i`-th operation, if it makes one. -/
def recordAt? (i : Nat) : Option Diagnostic := history[i]?.bind Operation.diagnostic?

/-- From the `i`-th operation on and before the `j`-th, none **clears** the console. -/
def quiet (i j : Nat) : Bool := ((history.take j).drop i).all fun op => !op.clears

/-- The `j`-th operation **displays** the record of the `i`-th: on an immediate console each
displays its own, and on the others the first one that clears the console displays it, if that is
a flush. -/
def displays (immediate : Bool) (i j : Nat) : Bool :=
  if immediate then i == j
  else decide (i ≤ j) && history[j]?.any Operation.flushes && quiet history i j

/-- The operations whose records the `j`-th operation displays, in order. -/
def displayedBy (immediate : Bool) (j : Nat) : List Nat :=
  (List.range (j + 1)).filter fun i => displays history immediate i j

/-- The operations whose records are **kept** in front of the `j`-th operation, in order. -/
def keptAt (j : Nat) : List Nat := (List.range j).filter fun i => quiet history i j

variable {history} {i j : Nat} {op : Operation}

theorem quiet_iff :
    quiet history i j = true ↔
      ∀ k op, i ≤ k → k < j → history[k]? = some op → op.clears = false := by
  simp only [quiet, List.all_eq_true, Bool.not_eq_true']
  constructor
  · intro h k op hi hj hop
    refine h op (List.mem_of_getElem? (i := k - i) ?_)
    rw [List.getElem?_drop, Nat.add_sub_cancel' hi, List.getElem?_take, if_pos hj, hop]
  · intro h op hmem
    obtain ⟨k, hk⟩ := List.getElem?_of_mem hmem
    rw [List.getElem?_drop, List.getElem?_take] at hk
    split at hk
    · next hj => exact h (i + k) op (Nat.le_add_right _ _) hj hk
    · cases hk

theorem quiet_self (i : Nat) : quiet history i i = true :=
  quiet_iff.mpr fun _ _ hi hj => absurd hi (Nat.not_le.mpr hj)

theorem quiet_succ (hop : history[j]? = some op) (hi : i ≤ j) :
    quiet history i (j + 1) = (quiet history i j && !op.clears) := by
  have hlength : i ≤ (history.take j).length := by
    obtain ⟨hlt, -⟩ := List.getElem?_eq_some_iff.mp hop
    rw [List.length_take]
    omega
  rw [quiet, List.take_add_one, hop, List.drop_append_of_le_length hlength, List.all_append]
  simp [quiet]

/-- The record of the next operation comes last. -/
theorem filterMap_recordAt? (p : Nat → Bool) (hop : history[j]? = some op) :
    ((List.range (j + 1)).filter p).filterMap (recordAt? history) =
      ((List.range j).filter p).filterMap (recordAt? history) ++
        if p j then op.diagnostic?.toList else [] := by
  have hrecord : [j].filterMap (recordAt? history) = op.diagnostic?.toList := by
    rw [List.filterMap_cons, recordAt?, hop, Option.bind_some]
    rcases op.diagnostic? with _ | _ <;> rfl
  rw [List.range_succ, List.filter_append, List.filterMap_append, List.filter_singleton]
  rcases p j with _ | _
  · rfl
  · exact congrArg _ hrecord

/-- Behind an operation its record is kept with the others, unless it **clears** the console. -/
theorem records_keptAt_succ (hop : history[j]? = some op) :
    (keptAt history (j + 1)).filterMap (recordAt? history) =
      if op.clears then []
      else (keptAt history j).filterMap (recordAt? history) ++ op.diagnostic?.toList := by
  have hquiet : ∀ i ∈ List.range (j + 1),
      quiet history i (j + 1) = (quiet history i j && !op.clears) := fun i hi =>
    quiet_succ hop (Nat.lt_succ_iff.mp (List.mem_range.mp hi))
  rw [keptAt, List.filter_congr hquiet]
  rcases op.clears with _ | _
  · simp only [Bool.not_false, Bool.and_true, filterMap_recordAt? _ hop, quiet_self]
    rfl
  · simp

/-- What an operation displays is its own record, if it displays any, behind those that were
kept. -/
theorem records_displayedBy (immediate : Bool) (hop : history[j]? = some op) :
    (displayedBy history immediate j).filterMap (recordAt? history) =
      if immediate then op.diagnostic?.toList
      else if op.flushes then
        (keptAt history j).filterMap (recordAt? history) ++ op.diagnostic?.toList
      else [] := by
  rw [displayedBy]
  rcases immediate with _ | _
  · have hdisplays : ∀ i ∈ List.range (j + 1),
        displays history false i j = (op.flushes && quiet history i j) := fun i hi => by
      have hle : i ≤ j := Nat.lt_succ_iff.mp (List.mem_range.mp hi)
      simp [displays, hop, hle]
    rw [List.filter_congr hdisplays]
    rcases op.flushes with _ | _
    · simp
    · simp only [Bool.true_and, filterMap_recordAt? _ hop, quiet_self]
      rfl
  · have hnone : (List.range j).filter (fun i => displays history true i j) = [] :=
      List.filter_eq_nil_iff.mpr fun i hi => by
        simp [displays, Nat.ne_of_lt (List.mem_range.mp hi)]
    rw [filterMap_recordAt? _ hop, hnone]
    simp [displays]

/-! ### Once and in order -/

theorem displays_iff {immediate : Bool} :
    displays history immediate i j = true ↔
      if immediate then i = j
      else i ≤ j ∧ (∃ op, history[j]? = some op ∧ op.flushes) ∧ quiet history i j := by
  rcases immediate with _ | _
  · simp [displays, Option.any_eq_true, and_assoc]
  · simp [displays]

/-- Behind the operation that displays a record, the next that displays one displays **later**
records only. -/
theorem lt_of_displays {immediate : Bool} {i' j' : Nat}
    (h : displays history immediate i j) (h' : displays history immediate i' j') (hlt : j < j') :
    i < i' := by
  rw [displays_iff] at h h'
  rcases immediate with _ | _
  · obtain ⟨hi, ⟨op, hop, hflushes⟩, -⟩ := h
    obtain ⟨-, -, hquiet⟩ := h'
    refine Nat.lt_of_le_of_lt hi (Nat.lt_of_not_le fun hle => ?_)
    have hclears := quiet_iff.mp hquiet j op hle hlt hop
    rw [Operation.clears, hflushes] at hclears
    cases hclears
  · exact h.trans_lt (hlt.trans_eq h'.symm)

/-- **Once and in order**: what the operations display, one after the other, are records of ever
later operations. -/
theorem pairwise_displayedBy (immediate : Bool) (n : Nat) :
    ((List.range n).flatMap (displayedBy history immediate)).Pairwise (· < ·) := by
  refine List.pairwise_flatMap.mpr ⟨fun j _ => ?_, ?_⟩
  · exact List.pairwise_lt_range.filter _
  · refine List.pairwise_lt_range.imp fun hlt i hi i' hi' => ?_
    exact lt_of_displays (List.mem_filter.mp hi).2 (List.mem_filter.mp hi').2 hlt

theorem mem_displayedBy {immediate : Bool} :
    i ∈ displayedBy history immediate j ↔ displays history immediate i j := by
  refine ⟨fun h => (List.mem_filter.mp h).2, fun h => List.mem_filter.mpr ⟨?_, h⟩⟩
  refine List.mem_range.mpr (Nat.lt_succ_of_le ?_)
  rw [displays_iff] at h
  split at h
  · exact h.le
  · exact h.1

/-- A record that is kept is displayed in the end **exactly if** a flush comes, from its operation
on, with no reset in front of it. -/
theorem exists_displays_iff :
    (∃ j, displays history false i j) ↔
      ∃ k op, history[k]? = some op ∧ op.flushes ∧ i ≤ k ∧
        ∀ j op', i ≤ j → j < k → history[j]? = some op' → ¬ op'.resets := by
  simp only [displays_iff, Bool.false_eq_true, if_false]
  constructor
  · rintro ⟨j, hi, ⟨op, hop, hflushes⟩, hquiet⟩
    refine ⟨j, op, hop, hflushes, hi, fun k op' hik hkj hop' hresets => ?_⟩
    have hclears := quiet_iff.mp hquiet k op' hik hkj hop'
    rw [Operation.clears, hresets, Bool.or_true] at hclears
    cases hclears
  · rintro ⟨k, op, hop, hflushes, hi, hresets⟩
    -- The first flush of those with no reset in front of them.
    induction k using Nat.strong_induction_on generalizing op with
    | _ k ih =>
      by_cases hquiet : quiet history i k
      · exact ⟨k, hi, ⟨op, hop, hflushes⟩, hquiet⟩
      · rw [quiet_iff] at hquiet
        push Not at hquiet
        obtain ⟨j, op', hij, hjk, hop', hclears⟩ := hquiet
        have hflushes' : op'.flushes := by
          have := hresets j op' hij hjk hop'
          revert hclears this
          unfold Operation.clears
          rcases op'.flushes with _ | _ <;> simp
        exact ih j hjk op' hop' hflushes' hij fun l op'' hil hlj =>
          hresets l op'' hil (hlj.trans hjk)

end

/-! ### Runs -/

/-- What a console **remembers** in front of the `n`-th operation of its history. -/
structure Remembers (immediate fatal styled : Bool) (history : List Operation) (n : Nat)
    (c : Console) : Prop where
  immediate_eq : c.immediate = immediate
  fatal_eq : c.fatal = fatal
  styled_eq : c.styled = styled
  records_eq : c.records.toList = (keptAt history n).filterMap (recordAt? history)
  hadError_iff : c.hadError ↔ Since Operation.static (history.take n)
  hadRuntimeError_iff : c.hadRuntimeError ↔ Since Operation.fatal (history.take n)

section

variable {immediate fatal styled : Bool} {history : List Operation} {n : Nat} {c : Console}
  {op : Operation}

theorem behind_take_succ (hop : history[n]? = some op) :
    c.behind (history.take (n + 1)) = ((c.behind (history.take n)).perform op).1 := by
  rw [List.take_add_one, hop, behind, Option.toList_some, List.foldl_append]
  rfl

/-- The **step**: an operation is remembered on top of those in front of it. -/
theorem Remembers.perform (h : c.Remembers immediate fatal styled history n)
    (hop : history[n]? = some op) :
    (c.perform op).1.Remembers immediate fatal styled history (n + 1) := by
  have htake : history.take (n + 1) = history.take n ++ [op] := by
    rw [List.take_add_one, hop, Option.toList_some]
  rw [perform_eq]
  refine ⟨h.immediate_eq, h.fatal_eq, h.styled_eq, ?_, ?_, ?_⟩
  · rw [records_keptAt_succ hop, ← h.records_eq]
    rcases op.clears with _ | _ <;> simp
  · rw [htake, since_append_singleton, ← h.hadError_iff]
    cases op <;> simp [Operation.resets, Operation.static, Operation.diagnostic?, or_comm]
  · rw [htake, since_append_singleton, ← h.hadRuntimeError_iff]
    cases op <;> simp [Operation.resets, Operation.fatal, Operation.diagnostic?,
      Operation.message?, or_comm]

/-- The **run**: a new console remembers all of its history. -/
theorem remembers_behind (immediate fatal styled : Bool) (hn : n ≤ history.length) :
    ((Console.new immediate fatal styled).behind (history.take n)).Remembers
      immediate fatal styled history n := by
  induction n with
  | zero =>
    exact ⟨rfl, rfl, rfl, rfl, by simp [behind, Console.new, not_since_nil],
      by simp [behind, Console.new, not_since_nil]⟩
  | succ n ih =>
    have hop : history[n]? = some history[n] := List.getElem?_eq_getElem hn
    rw [behind_take_succ hop]
    exact (ih (Nat.le_of_succ_le hn)).perform hop

/-- What an operation displays, by the history alone. -/
theorem Remembers.transcript_perform (h : c.Remembers immediate fatal styled history n)
    (hop : history[n]? = some op) :
    (c.perform op).1.transcript.toList =
      c.transcript.toList ++
        (listing styled ((displayedBy history immediate n).filterMap (recordAt? history)) ++
          notice styled op) := by
  rw [perform_eq, records_displayedBy immediate hop, displayedAt, h.immediate_eq, h.styled_eq,
    h.records_eq]
  simp

theorem Remembers.exitStatus_eq (h : c.Remembers immediate fatal styled history n) :
    (Since Operation.fatal (history.take n) → c.exitStatus = 70) ∧
      (¬ Since Operation.fatal (history.take n) → Since Operation.static (history.take n) →
        c.exitStatus = 65) ∧
      (¬ Since Operation.fatal (history.take n) → ¬ Since Operation.static (history.take n) →
        c.exitStatus = 0) := by
  rw [← h.hadRuntimeError_iff, ← h.hadError_iff, exitStatus]
  refine ⟨fun hfatal => if_pos hfatal, fun hfatal hstatic => ?_, fun hfatal hstatic => ?_⟩
  · rw [if_neg hfatal, if_pos hstatic]
  · rw [if_neg hfatal, if_neg hstatic]

end

/-! ### Watched work -/

section

variable (c : Console) {ending : Ending}

/-- The line that **reports** how absorbed work ended. -/
theorem exists_report (styled : Bool) (habsorbed : ending.absorbed) :
    ∃ line, shownLines styled (Operation.conclude ending).diagnostic?.toList ++
      notice styled (.conclude ending) = [line] := by
  cases ending with
  | completed | exit => cases habsorbed
  | _ => exact ⟨_, rfl⟩

/-- **Absorbed** work leaves no record, and shows those that were kept in front of the line that
reports how it ended. A fatal console then leaves with the status of a runtime error. -/
theorem conclude_of_absorbed (habsorbed : ending.absorbed) :
    (c.conclude ending).2 = (if c.fatal then some ⟨some 70⟩ else none) ∧
      (c.conclude ending).1.records = #[] ∧
      ∃ earlier line,
        (c.conclude ending).1.transcript.toList = c.transcript.toList ++ earlier ++ [line] ∧
        (c.immediate = false → shownLines c.styled c.records.toList <:+ earlier) ∧
        shownLines c.styled (Operation.conclude ending).diagnostic?.toList ++
          notice c.styled (.conclude ending) = [line] := by
  have hflushes : (Operation.conclude ending).flushes := habsorbed
  obtain ⟨line, hline⟩ := exists_report c.styled habsorbed
  have hperformed := c.perform_of_flushes hflushes
  have hlisting : ∃ earlier,
      listing c.styled (c.displayedAt (.conclude ending)) =
        earlier ++ shownLines c.styled (Operation.conclude ending).diagnostic?.toList ∧
      (c.immediate = false → shownLines c.styled c.records.toList <:+ earlier) := by
    rw [displayedAt, if_pos hflushes]
    split
    · next himmediate =>
      exact ⟨[], listing_toList _ _, fun h => absurd himmediate (by simp [h])⟩
    · rw [listing, shownLines, List.map_append, ← List.append_assoc]
      exact ⟨_, rfl, fun _ => List.suffix_append _ _⟩
  obtain ⟨earlier, hlisting, hearlier⟩ := hlisting
  refine ⟨?_, congrArg records hperformed, earlier, line, ?_, hearlier, hline⟩
  · cases ending with
    | completed | exit => cases habsorbed
    | failure => simp [conclude, flush_eq, runtimeError_eq_record, record_eq, exitStatus]
    | _ => simp [conclude, stop_eq, flush_eq]
  · refine (congrArg (·.transcript.toList) hperformed).trans ?_
    simp only [hlisting, Array.toList_append, List.append_assoc, hline]

end

end Console

/-- **A console displays every record once, and its flags tell the truth**, whatever it was asked
for since it was new. The flags say what happened since the last reset, and with them the exit
status, which neither a warning nor a flush changes. Each operation shows the records that it
displays and the line that says why the console stops, if it does; no record is displayed twice,
or in front of an earlier one; an immediate console displays each with its own operation, and the
others with the next that flushes, unless a reset comes first. Watched work that is absorbed is
reported behind the records that were kept, and makes exactly the fatal consoles leave. -/
theorem console_displays_records_once (immediate fatal styled : Bool)
    (history : List Console.Operation) :
    let after := fun n => (Console.new immediate fatal styled).behind (history.take n)
    let c := (Console.new immediate fatal styled).behind history
    let static := Console.Since Console.Operation.static history
    let stopped := Console.Since Console.Operation.fatal history
    -- flags
    ((c.hadError ↔ static) ∧ (c.hadRuntimeError ↔ stopped)) ∧
    ((stopped → c.exitStatus = 70) ∧ (¬ stopped → static → c.exitStatus = 65) ∧
      (¬ stopped → ¬ static → c.exitStatus = 0)) ∧
    ((∀ t message, (c.perform (.warn t message)).1.exitStatus = c.exitStatus) ∧
      (c.perform .flush).1.exitStatus = c.exitStatus) ∧
    -- records
    (∀ n op, history[n]? = some op →
      (after (n + 1)).transcript.toList = (after n).transcript.toList ++
        (Console.listing styled ((Console.displayedBy history immediate n).filterMap
          (Console.recordAt? history)) ++ Console.notice styled op)) ∧
    ((List.range history.length).flatMap (Console.displayedBy history immediate)).Pairwise
      (· < ·) ∧
    (∀ i j, i ∈ Console.displayedBy history true j ↔ i = j) ∧
    (∀ i j, i ∈ Console.displayedBy history false j ↔
      i ≤ j ∧ (∃ op, history[j]? = some op ∧ op.flushes) ∧
        ∀ k op, i ≤ k → k < j → history[k]? = some op → op.flushes = false ∧ op.resets = false) ∧
    (∀ i, (∃ j, i ∈ Console.displayedBy history false j) ↔
      ∃ k op, history[k]? = some op ∧ op.flushes ∧ i ≤ k ∧
        ∀ j op', i ≤ j → j < k → history[j]? = some op' → ¬ op'.resets) ∧
    -- watched work
    (c.conclude .completed = (c, none) ∧
      ∀ request, c.conclude (.exit request) = (c, some request)) ∧
    (∀ ending : Ending, ending.absorbed →
      (c.conclude ending).2 = (if fatal then some ⟨some 70⟩ else none) ∧
      (c.conclude ending).1.records = #[] ∧
      ∃ earlier line,
        (c.conclude ending).1.transcript.toList = c.transcript.toList ++ earlier ++ [line] ∧
        (immediate = false → shownLines styled c.records.toList <:+ earlier) ∧
        shownLines styled (Console.Operation.conclude ending).diagnostic?.toList ++
          Console.notice styled (.conclude ending) = [line]) := by
  intro after c static stopped
  have hremembers : c.Remembers immediate fatal styled history history.length := by
    have h := Console.remembers_behind immediate fatal styled (le_refl history.length)
    rwa [List.take_length] at h
  have hflags := hremembers.exitStatus_eq
  rw [List.take_length] at hflags
  refine ⟨⟨?_, ?_⟩, hflags, ⟨fun t message => ?_, ?_⟩, ?_, ?_, ?_, ?_, ?_, ⟨rfl, fun _ => rfl⟩, ?_⟩
  · rw [hremembers.hadError_iff, List.take_length]
  · rw [hremembers.hadRuntimeError_iff, List.take_length]
  · rw [Console.perform, Console.warn, Console.record_eq]
    rfl
  · rw [Console.perform, Console.flush_eq]
    rfl
  · intro n op hop
    obtain ⟨hn, -⟩ := List.getElem?_eq_some_iff.mp hop
    have hafter := Console.remembers_behind immediate fatal styled hn.le
    rw [← hafter.transcript_perform hop]
    exact congrArg (·.transcript.toList) (Console.behind_take_succ hop)
  · exact Console.pairwise_displayedBy immediate history.length
  · intro i j
    exact Console.mem_displayedBy.trans Console.displays_iff
  · intro i j
    rw [Console.mem_displayedBy, Console.displays_iff, if_neg Bool.false_ne_true,
      Console.quiet_iff]
    simp only [Console.Operation.clears, Bool.or_eq_false_iff]
  · intro i
    simp only [Console.mem_displayedBy]
    exact Console.exists_displays_iff
  · intro ending habsorbed
    have h := c.conclude_of_absorbed habsorbed
    rwa [hremembers.fatal_eq, hremembers.immediate_eq, hremembers.styled_eq] at h

end LoxLang
