import LoxLang.Proofs.Evaluation.Chronicle
import LoxLang.Proofs.Evaluation.Returns
import LoxLang.Proofs.Scopes.Updates

/-!
# The identity of functions

A function value **stems from** the execution of a declaration that has made it. An execution is a
moment of a run, known by its place in the history. It is not the declaration, which may be executed
again in the next round of a loop or in a call within a call, and it is not the identity of the
value, which is a number. It is shown that the one tells the other: whatever programs are run one
after the other, and however they end, two functions that exist at any moments are equal exactly if
they stem from the same execution (`FunctionsIdentified`). On its way through assignments,
declarations, calls and returns a value stays what it is (`PassesOn`).

`functions_identified_by_execution` is the law.
-/

namespace LoxLang

open Eval

/-! ### Executions of declarations -/

/-- The value **stems from** the execution of a declaration that begins at the moment with the
number `p`: it is the function value that is made there. -/
def StemsFrom (ms : List Moment) (p : Nat) (v : Value) : Prop :=
  ∃ a t b f, ms = a ++ t :: b ∧ a.length = p ∧ t.declared? = some f ∧
    v = .function f t.memory.created

/-- One execution makes **one** value. -/
theorem StemsFrom.eq {ms : List Moment} {p : Nat} {v w : Value} (hv : StemsFrom ms p v)
    (hw : StemsFrom ms p w) : v = w := by
  obtain ⟨a, t, b, f, hms, rfl, hf, rfl⟩ := hv
  obtain ⟨a', t', b', f', hms', hlength, hf', rfl⟩ := hw
  obtain ⟨rfl, hrest⟩ := List.append_inj (hms.symm.trans hms') hlength.symm
  cases hrest
  cases hf.symm.trans hf'
  rfl

theorem exists_append_of_getElem?_filterMap {α β : Type} {g : α → Option β} {l : List α} {i : Nat}
    {b : β} (h : (l.filterMap g)[i]? = some b) :
    ∃ front a behind, l = front ++ a :: behind ∧ g a = some b ∧ (front.filterMap g).length = i := by
  induction l generalizing i with
  | nil => cases h
  | cons x l ih =>
    cases hx : g x with
    | none =>
      rw [List.filterMap_cons_none hx] at h
      obtain ⟨front, a, rest, rfl, ha, hlength⟩ := ih h
      exact ⟨x :: front, a, rest, rfl, ha, by rwa [List.filterMap_cons_none hx]⟩
    | some c =>
      rw [List.filterMap_cons_some hx] at h
      cases i with
      | zero =>
        cases h
        exact ⟨[], x, l, rfl, hx, rfl⟩
      | succ i =>
        obtain ⟨front, a, rest, rfl, ha, hlength⟩ := ih h
        refine ⟨x :: front, a, rest, rfl, ha, ?_⟩
        rw [List.filterMap_cons_some hx, List.length_cons, hlength]

/-- Between an execution of a declaration and a later moment, one declaration more **was made**. -/
theorem length_declarations_lt {a b a' b' : List Moment} {t t' : Moment} {f : Function}
    (hsplit : a ++ t :: b = a' ++ t' :: b') (hf : t.declared? = some f)
    (hlt : a.length < a'.length) : (declarations a).length < (declarations a').length := by
  have hleft : a ++ [t] <+: a' ++ t' :: b' := hsplit ▸ ⟨b, (List.append_cons a t b).symm⟩
  have hinitial : a ++ [t] <+: a' := by
    refine List.prefix_of_prefix_length_le hleft (List.prefix_append _ _) ?_
    rwa [List.length_append, List.length_singleton]
  have hle := (hinitial.filterMap Moment.declared?).length_le
  rw [List.filterMap_append, List.length_append, List.filterMap_cons_some hf] at hle
  exact Nat.lt_of_succ_le hle

namespace Chronicle

variable {ms : List Moment} {log : List Function} {p q : Nat} {v w : Value}

/-- The identity of a function is the number of declarations that were executed before. -/
theorem created_eq {a b : List Moment} {t : Moment} (h : Chronicle [] (a ++ t :: b) log) :
    t.memory.created = (declarations a).length := h.of_append_cons.1.created

/-- Executions of declarations make values that are **equal** only if they are the same. -/
theorem equals_iff_of_stemsFrom (h : Chronicle [] ms log) (hv : StemsFrom ms p v)
    (hw : StemsFrom ms q w) : v.equals w = true ↔ p = q := by
  obtain ⟨a, t, b, f, hms, rfl, hf, rfl⟩ := hv
  obtain ⟨a', t', b', f', hms', rfl, hf', rfl⟩ := hw
  have hcreated : t.memory.created = (declarations a).length := (hms ▸ h).created_eq
  have hcreated' : t'.memory.created = (declarations a').length := (hms' ▸ h).created_eq
  rw [Value.equals, beq_iff_eq, hcreated, hcreated']
  have hsplit := hms.symm.trans hms'
  constructor
  · intro heq
    rcases Nat.lt_trichotomy a.length a'.length with hlt | hlength | hlt
    · exact absurd heq (Nat.ne_of_lt (length_declarations_lt hsplit hf hlt))
    · exact hlength
    · exact absurd heq.symm (Nat.ne_of_lt (length_declarations_lt hsplit.symm hf' hlt))
  · intro hlength
    rw [(List.append_inj hsplit hlength).1]

/-- A value **exists** only behind the execution that it stems from. -/
theorem exists_stemsFrom {a b : List Moment} {t : Moment} {f : Function} {i : Nat}
    (h : Chronicle [] (a ++ t :: b) log) (hhas : t.Has (.function f i)) :
    ∃ p < a.length, StemsFrom (a ++ t :: b) p (.function f i) := by
  obtain ⟨haccounts, -⟩ := h.of_append_cons
  rw [List.nil_append] at haccounts
  have hlogged : (Value.function f i).Logged (declarations a) := by
    rcases hhas with ⟨frame, hframe, entry, hentry, heq⟩ | hheld
    · exact heq ▸ haccounts.bound frame hframe entry hentry
    · exact haccounts.held _ hheld
  obtain ⟨front, t', rest, rfl, hf, hlength⟩ :=
    exists_append_of_getElem?_filterMap (hlogged f i rfl)
  have hsplit : front ++ t' :: rest ++ t :: b = front ++ t' :: (rest ++ t :: b) := by
    rw [List.append_assoc, List.cons_append]
  have hcreated : t'.memory.created = i := (hsplit ▸ h).created_eq.trans hlength
  refine ⟨front.length, ?_, front, t', rest ++ t :: b, f, hsplit, rfl, hf, ?_⟩
  · rw [List.length_append, List.length_cons]
    omega
  · rw [hcreated]

theorem exists_stemsFrom_of_mem {t : Moment} {f : Function} {i : Nat} (h : Chronicle [] ms log)
    (ht : t ∈ ms) (hhas : t.Has (.function f i)) : ∃ p, StemsFrom ms p (.function f i) := by
  obtain ⟨a, b, rfl⟩ := List.append_of_mem ht
  obtain ⟨p, -, hstems⟩ := h.exists_stemsFrom hhas
  exact ⟨p, hstems⟩

end Chronicle

/-! ### The laws -/

/-- Functions are **identified** by the executions of their declarations. -/
structure FunctionsIdentified (ms : List Moment) : Prop where
  /-- To execute a declaration binds a function, and no value that exists there or existed at any
  moment before equals it. -/
  fresh : ∀ a t b f, ms = a ++ t :: b → t.declared? = some f →
    let v := Value.function f t.memory.created
    (∃ t' b', b = t' :: b' ∧ t'.memory = t.memory.declare f ∧
      t'.memory.scopes.get? f.name.lexeme = some v) ∧
    ∀ s ∈ a ++ [t], ∀ w, s.Has w → v.equals w = false ∧ w.equals v = false
  /-- A function that exists stems from exactly one execution, and this comes before. -/
  stems : ∀ a t b f i, ms = a ++ t :: b → t.Has (.function f i) →
    ∃ p < a.length, StemsFrom ms p (.function f i) ∧
      ∀ q, StemsFrom ms q (.function f i) → q = p
  /-- Functions that exist, be it at one moment or at two, are equal exactly if they stem from the
  same execution, and then they are the same function. -/
  equals_iff : ∀ t ∈ ms, ∀ t' ∈ ms, ∀ f i g j, t.Has (.function f i) → t'.Has (.function g j) →
    ((Value.function f i).equals (.function g j) = true ↔
      ∃ p, StemsFrom ms p (.function f i) ∧ StemsFrom ms p (.function g j)) ∧
    ((Value.function f i).equals (.function g j) = true → f = g)
  /-- Two executions never make values that are equal. -/
  unequal : ∀ p q v w, StemsFrom ms p v → StemsFrom ms q w → p ≠ q → v.equals w = false

namespace Chronicle

variable {ms : List Moment} {log : List Function}

/-- The function that an execution makes equals **no value** that existed before. -/
theorem equals_eq_false {a b : List Moment} {t s : Moment} {v w : Value}
    (h : Chronicle [] (a ++ t :: b) log) (hv : StemsFrom (a ++ t :: b) a.length v)
    (hs : s ∈ a ++ [t]) (hw : s.Has w) : v.equals w = false ∧ w.equals v = false := by
  cases w with
  | function g j =>
    obtain ⟨front, rest, hsplit⟩ := List.append_of_mem hs
    have hms : a ++ t :: b = front ++ s :: (rest ++ b) := by
      rw [List.append_cons, hsplit, List.append_assoc, List.cons_append]
    have hle : front.length ≤ a.length := by
      have hlength := congrArg List.length hsplit
      simp only [List.length_append, List.length_cons, List.length_nil] at hlength
      omega
    obtain ⟨p, hp, hstems⟩ := (hms ▸ h).exists_stemsFrom hw
    rw [← hms] at hstems
    have hne : p ≠ a.length := by omega
    rw [← Bool.not_eq_true, ← Bool.not_eq_true, h.equals_iff_of_stemsFrom hv hstems,
      h.equals_iff_of_stemsFrom hstems hv]
    exact ⟨hne.symm, hne⟩
  | _ =>
    obtain ⟨_, _, _, _, -, -, -, rfl⟩ := hv
    exact ⟨rfl, rfl⟩

/-- A chronicle of all moments from the start **identifies** functions. -/
theorem identified (h : Chronicle [] ms log) : FunctionsIdentified ms where
  fresh := by
    rintro a t b f rfl hf
    obtain ⟨t', b', rfl, hmemory⟩ := h.of_append_cons.2 f hf
    refine ⟨⟨t', b', rfl, hmemory, ?_⟩, fun s hs w hw => ?_⟩
    · rw [hmemory]
      exact ((Scopes.defined_define _ _ _).get? _).trans (if_pos rfl)
    · exact h.equals_eq_false ⟨a, t, _, f, rfl, rfl, hf, rfl⟩ hs hw
  stems := by
    rintro a t b f i rfl hhas
    obtain ⟨p, hp, hstems⟩ := h.exists_stemsFrom hhas
    refine ⟨p, hp, hstems, fun q hq => ?_⟩
    exact (h.equals_iff_of_stemsFrom hq hstems).mp (beq_self_eq_true i)
  equals_iff := by
    intro t ht t' ht' f i g j hf hg
    obtain ⟨p, hp⟩ := h.exists_stemsFrom_of_mem ht hf
    obtain ⟨q, hq⟩ := h.exists_stemsFrom_of_mem ht' hg
    have hiff := h.equals_iff_of_stemsFrom hp hq
    refine ⟨⟨fun heq => ⟨p, hp, hiff.mp heq ▸ hq⟩, ?_⟩, fun heq => ?_⟩
    · rintro ⟨r, hr, hr'⟩
      exact (h.equals_iff_of_stemsFrom hr hr').mpr rfl
    · cases hp.eq (hiff.mp heq ▸ hq)
      rfl
  unequal p q v w hv hw hne := by
    rw [← Bool.not_eq_true, h.equals_iff_of_stemsFrom hv hw]
    exact hne

end Chronicle

/-! ### Values on their way -/

/-- Values are **passed on** as they are, by whatever gives them a name and by `return`. -/
structure PassesOn (host : Host) (n : Nat) : Prop where
  read : ∀ name m v m', (evaluate host (n + 1) (.name name)).run m = (.ok v, m') ↔
    m.scopes.get? name.lexeme = some v ∧ m' = m
  assigned : ∀ target value m v m',
    (evaluate host (n + 1) (.assign target value)).run m = (.ok v, m') →
      (∃ m₁, (evaluate host n value).run m = (.ok v, m₁)) ∧
        m'.scopes.get? target.lexeme = some v
  declared : ∀ target value m m',
    (execute host (n + 1) (.declare target (some value))).run m = (.ok (), m') →
      ∃ v m₁, (evaluate host n value).run m = (.ok v, m₁) ∧
        m'.scopes.get? target.lexeme = some v
  /-- A parameter is bound to its argument where the body of the function starts, unless a later
  parameter has the same name. -/
  passed : ∀ parameters arguments m front p v behind,
    parameters.zip arguments = front ++ (p, v) :: behind →
      (∀ entry ∈ behind, entry.1.lexeme ≠ p.lexeme) →
        (entered parameters arguments m).scopes.get? p.lexeme = some v
  returning : ∀ keyword value m v m', (evaluate host n value).run m = (.ok v, m') →
    (execute host (n + 1) (.returnValue keyword (some value))).run m =
      (.error (.returning keyword v), m')
  /-- A call has the value that its body returns. -/
  returned : ∀ callee paren arguments f i vs m m₁ m₂ keyword v,
    (evaluate host n callee).run m = (.ok (.function f i), m₁) →
      (arguments.mapM (evaluate host n)).run m₁ = (.ok vs, m₂) →
        vs.length = f.parameters.length →
          ((executeAll host n f.body).run (entered f.parameters vs m₂)).1 =
            .error (.returning keyword v) →
            ((evaluate host (n + 1) (.call callee paren arguments)).run m).1 = .ok v

section

variable {x : String} {entries : List (Token × Value)}

/-- Definitions of other names leave a name **as it is**. -/
theorem get?_run_forM_define_of_ne (h : ∀ entry ∈ entries, entry.1.lexeme ≠ x) (m : Memory) :
    ((entries.forM fun entry => Eval.define entry.1.lexeme entry.2).run m).2.scopes.get? x =
      m.scopes.get? x := by
  induction entries generalizing m with
  | nil => rfl
  | cons entry entries ih =>
    obtain ⟨hentry, hentries⟩ := List.forall_mem_cons.mp h
    rw [run_forM_cons]
    refine (ih hentries _).trans ?_
    exact ((Scopes.defined_define _ _ _).get? x).trans (if_neg hentry.symm)

/-- Of definitions of a name, the last one **counts**. -/
theorem get?_run_forM_define {front behind : List (Token × Value)} {p : Token} {v : Value}
    (h : ∀ entry ∈ behind, entry.1.lexeme ≠ p.lexeme) (m : Memory) :
    (((front ++ (p, v) :: behind).forM fun entry =>
      Eval.define entry.1.lexeme entry.2).run m).2.scopes.get? p.lexeme = some v := by
  induction front generalizing m with
  | nil =>
    rw [List.nil_append, run_forM_cons]
    refine (get?_run_forM_define_of_ne h _).trans ?_
    exact ((Scopes.defined_define _ _ _).get? _).trans (if_pos rfl)
  | cons entry front ih =>
    rw [List.cons_append, run_forM_cons]
    exact ih _

end

theorem passesOn (host : Host) (n : Nat) : PassesOn host n where
  read name m v m' := by
    rw [evaluate, run_lookup]
    cases m.scopes.get? name.lexeme with
    | none => exact ⟨nofun, fun h => nomatch h.1⟩
    | some w =>
      constructor
      · rintro ⟨⟩
        exact ⟨rfl, rfl⟩
      · rintro ⟨⟨⟩, rfl⟩
        rfl
  assigned target value m v m' h := by
    rw [evaluate, run_bind] at h
    rcases hvalue : (evaluate host n value).run m with ⟨e | w, m₁⟩ <;> rw [hvalue] at h
    · cases h
    · dsimp only at h
      rw [run_bind, run_assign] at h
      cases hassign : m₁.scopes.assign? target.lexeme w with
      | none =>
        rw [hassign] at h
        cases h
      | some scopes =>
        rw [hassign] at h
        cases h
        have hget := (Scopes.assigned_of_assign? hassign).get? target.lexeme
        exact ⟨⟨m₁, rfl⟩, hget.trans (if_pos rfl)⟩
  declared target value m m' h := by
    rw [execute, run_bind] at h
    rcases hvalue : (evaluate host n value).run m with ⟨e | v, m₁⟩ <;> rw [hvalue] at h
    · cases h
    · cases h
      exact ⟨v, m₁, rfl, ((Scopes.defined_define _ _ _).get? _).trans (if_pos rfl)⟩
  passed parameters arguments m front p v behind hzip hbehind := by
    rw [entered, bindParameters, hzip]
    exact get?_run_forM_define hbehind _
  returning keyword value m v m' h := by
    rw [execute, run_bind, h]
    rfl
  returned callee paren arguments f i vs m m₁ m₂ keyword v hcallee harguments harity hbody := by
    rw [fst_run_evaluate_call hcallee harguments harity, hbody]
    rfl

/-- **Functions are identified by the execution** of their declarations, in all programs that are
run one after the other from a fresh memory.

- The history of these programs has each step that they take, and no others, so each execution of a
  declaration is a moment of it.
- Each execution binds a function that equals nothing there is or was. Functions that exist are
  equal exactly if they stem from the same execution, and then they have the same name, parameters
  and body. No other execution makes a function that equals them, be it behind the end of a scope,
  in a call within a call, or behind an error.
- A function equals itself, and stays the same value when it is assigned, declared under another
  name, passed, read and returned. -/
theorem functions_identified_by_execution :
    (∀ jobs,
        (∀ n t m, Job.Takes jobs .fresh n t m ↔
          ∃ held, ⟨some (n, t), m, held⟩ ∈ Job.history jobs .fresh) ∧
        FunctionsIdentified (Job.history jobs .fresh)) ∧
      (∀ f i, (Value.function f i).equals (.function f i) = true) ∧
      ∀ host n, PassesOn host n := by
  refine ⟨fun jobs => ⟨fun n t m => Job.takes_iff_exists_history, ?_⟩,
    fun f i => beq_self_eq_true i, passesOn⟩
  obtain ⟨log, hchronicle⟩ := Job.exists_chronicle_history jobs accountsFor_fresh
  exact hchronicle.identified

/-- A declaration that is executed **twice** makes two functions. -/
example (host : Host) (f : Token) :
    let twice := [Stmt.function f [] [], .function f [] []]
    let ms := Job.history [⟨host, 1, twice⟩] .fresh
    declarations ms = [⟨f, [], []⟩, ⟨f, [], []⟩] ∧
      StemsFrom ms 0 (.function ⟨f, [], []⟩ 0) ∧ StemsFrom ms 2 (.function ⟨f, [], []⟩ 1) :=
  ⟨rfl, ⟨[], _, _, _, rfl, rfl, rfl, rfl⟩, ⟨[_, _], _, _, _, rfl, rfl, rfl, rfl⟩⟩

end LoxLang
