import LoxLang.Proofs.Syntax.Bounds

/-!
# Reading ends

The declarations of a program are read in rounds. Each round takes a token, also where a malformed
declaration is dropped, so with a bound on the rounds that is no less than the number of tokens the
reading ends because no token is left, and never because the rounds ran out
(`Rule.answers_program`).
-/

namespace LoxLang

namespace Rule

/-! ### Rules that do not reject -/

/-- A rule that recovers does not reject. -/
theorem answers_recover {α : Type} (r : Rule α) (ts : List Token) :
    ∃ faults o rest, Answers (recover r) ts faults o rest := by
  simp only [Answers, recover]
  split
  · exact ⟨_, _, _, rfl⟩
  · exact ⟨_, _, _, rfl⟩

theorem answers_declaration (n : Nat) (ts : List Token) :
    ∃ faults o rest, Answers (declaration n) ts faults o rest := by
  cases n with
  | zero => exact answers_recover _ ts
  | succ n => exact answers_recover _ ts

section

variable {declaration : Rule (Option Stmt)}

/-- A list of declarations is always read to an end, maybe with faults. -/
theorem answers_declarations (h : ∀ ts, ∃ faults o rest, Answers declaration ts faults o rest)
    (stop : List Token → Bool) (k : Nat) (ts : List Token) :
    ∃ faults ss rest, Answers (declarations declaration stop k) ts faults ss rest := by
  induction k generalizing ts with
  | zero => exact ⟨[], [], ts, rfl⟩
  | succ k ih =>
    simp only [Answers]
    by_cases hstop : stop ts
    · exact ⟨[], [], ts, declarations_of_stop _ hstop k⟩
    · obtain ⟨φ, o, middle, hfirst⟩ := h ts
      obtain ⟨φ', ss, rest, hothers⟩ := ih middle
      refine ⟨φ ++ φ', o.toList ++ ss, rest, ?_⟩
      rw [declarations_of_not_stop _ hstop]
      exact answers_bind_iff.mpr
        ⟨φ, o, middle, φ', hfirst, answers_map_iff.mpr ⟨ss, hothers, rfl⟩, rfl⟩

/-- With enough rounds, a list of declarations ends where nothing is left that could be another
one. -/
theorem stop_of_answers (hadvances : Advances declaration) {stop : List Token → Bool}
    (hnil : stop []) {k : Nat} {ts rest : List Token} {faults : List SyntaxFault} {ss : List Stmt}
    (hk : ts.length ≤ k) (hanswers : Answers (declarations declaration stop k) ts faults ss rest) :
    stop rest := by
  induction k generalizing ts faults ss with
  | zero =>
    obtain ⟨-, -, rfl⟩ := answers_pure_iff.mp hanswers
    rw [List.length_eq_zero_iff.mp (Nat.le_zero.mp hk)]
    exact hnil
  | succ k ih =>
    rw [Answers] at hanswers
    by_cases hstop : stop ts
    · rw [declarations_of_stop _ hstop] at hanswers
      cases hanswers
      exact hstop
    · rw [declarations_of_not_stop _ hstop] at hanswers
      obtain ⟨φ, o, middle, φ', hfirst, htail, rfl⟩ := answers_bind_iff.mp hanswers
      obtain ⟨others, hothers, rfl⟩ := answers_map_iff.mp htail
      have hne : ts ≠ [] := by
        rintro rfl
        exact hstop hnil
      exact ih (Nat.le_of_lt_succ (Nat.lt_of_lt_of_le (hadvances hfirst hne) hk)) hothers

end

/-! ### Programs -/

/-- The rule for **programs** does not depend on the bound that it chooses. -/
theorem program_eq {n : Nat} {ts : List Token} (h : ts.length ≤ n) :
    program ts = declarations (declaration n) List.isEmpty n ts :=
  declarations_agree (declaration_agree h) (declaration_advances ts.length) List.isEmpty rfl
    (Nat.le_refl _) h (Nat.le_refl _)

theorem forward_program : Forward program :=
  fun ts => forward_declarations (forward_declaration ts.length) List.isEmpty ts.length ts

/-- The rule for **programs** reads to the end of the tokens. -/
theorem answers_program (ts : List Token) : ∃ faults ss, Answers program ts faults ss [] := by
  obtain ⟨faults, ss, rest, hanswers⟩ :=
    answers_declarations (answers_declaration ts.length) List.isEmpty ts.length ts
  have hstop := stop_of_answers (declaration_advances ts.length) rfl (Nat.le_refl _) hanswers
  obtain rfl := List.isEmpty_iff.mp hstop
  exact ⟨faults, ss, hanswers⟩

end Rule

end LoxLang
