import LoxLang.Proofs.Syntax.Concatenation

/-!
# Brackets

In a program, braces and parentheses are **properly nested**: every rule of the grammar closes what
it opens, and in the opposite order (`Grammar.Program.bracketed`). So there are as many closing ones
as opening ones of both kinds, and at no place more (`Bracketed.balanced`), which is all that is
seen by counting them.
-/

namespace LoxLang

/-- The kinds of **brackets**, each with the one that closes it. -/
def bracketPairs : List (TokenKind × TokenKind) :=
  [(.leftBrace, .rightBrace), (.leftParen, .rightParen)]

/-- A kind of token that neither opens nor closes anything. -/
def Unpaired (kind : TokenKind) : Prop := ∀ pair ∈ bracketPairs, kind ≠ pair.1 ∧ kind ≠ pair.2

instance (kind : TokenKind) : Decidable (Unpaired kind) := List.decidableBAll _ _

/-- The brackets among tokens of these kinds are **properly nested**. -/
inductive Bracketed : List TokenKind → Prop
  | nil : Bracketed []
  | cons {kind : TokenKind} {kinds : List TokenKind} :
    Unpaired kind → Bracketed kinds → Bracketed (kind :: kinds)
  | enclosed {opening closing : TokenKind} {inner behind : List TokenKind} :
    (opening, closing) ∈ bracketPairs → Bracketed inner → Bracketed behind →
      Bracketed (opening :: (inner ++ closing :: behind))

namespace Bracketed

variable {kinds kinds' : List TokenKind}

theorem append (h : Bracketed kinds) (h' : Bracketed kinds') : Bracketed (kinds ++ kinds') := by
  induction h with
  | nil => exact h'
  | cons hkind _ ih => exact .cons hkind ih
  | enclosed hpair hinner _ _ ih =>
    rw [List.cons_append, List.append_assoc, List.cons_append]
    exact .enclosed hpair hinner ih

theorem singleton {kind : TokenKind} (h : Unpaired kind) : Bracketed [kind] := .cons h .nil

/-- Brackets around what is properly nested. -/
theorem around {opening closing : TokenKind} (hpair : (opening, closing) ∈ bracketPairs)
    (h : Bracketed kinds) : Bracketed (opening :: (kinds ++ [closing])) := .enclosed hpair h .nil

theorem flatMap {α : Type} {pieces : List α} {f : α → List TokenKind}
    (h : ∀ piece ∈ pieces, Bracketed (f piece)) : Bracketed (pieces.flatMap f) := by
  induction pieces with
  | nil => exact .nil
  | cons piece pieces ih =>
    obtain ⟨hpiece, hpieces⟩ := List.forall_mem_cons.mp h
    exact hpiece.append (ih hpieces)

end Bracketed

/-! ### The grammar -/

namespace Grammar

theorem Separated.bracketed {items : List (List Token)} {us : List Token}
    (h : Separated items us) (hitems : ∀ ts ∈ items, Bracketed (ts.map Token.kind)) :
    Bracketed (us.map Token.kind) := by
  induction h with
  | none => exact .nil
  | one => exact hitems _ List.mem_cons_self
  | cons hcomma _ ih =>
    obtain ⟨hfirst, hothers⟩ := List.forall_mem_cons.mp hitems
    rw [List.map_append, List.map_cons, hcomma]
    exact hfirst.append (.cons (by decide) (ih hothers))

/-- The brackets of an **expression** are properly nested: those of groupings and of arguments. -/
theorem Expression.bracketed {level : Level} {ts : List Token} {e : Expr}
    (h : Expression level ts e) : Bracketed (ts.map Token.kind) := by
  induction h with
  | tighter _ _ ih => exact ih
  | assign htarget hequals _ ih =>
    simp only [List.map_cons, htarget, hequals]
    exact .cons (by decide) (.cons (by decide) ih)
  | @operation level _ _ _ _ _ op _ _ hop _ ihleft ihright =>
    have hplain : ∀ kind ∈ level.operators, Unpaired kind := by cases level <;> decide
    rw [List.map_append, List.map_cons]
    exact ihleft.append (.cons (hplain _ hop) ihright)
  | prefixed hop _ ih =>
    rw [List.map_cons]
    rcases hop with hop | hop <;> exact .cons (by rw [hop]; decide) ih
  | call _ hopening _ hseparated _ hparen ih iharguments =>
    have harguments := hseparated.bracketed (List.forall_mem_map.mpr iharguments)
    simp only [List.map_append, List.map_cons, List.map_nil, List.append_assoc, List.cons_append,
      hopening, hparen]
    exact ih.append (.around (by decide) harguments)
  | grouping hopening _ hclosing ih =>
    simp only [List.map_append, List.map_cons, List.map_nil, List.cons_append, hopening, hclosing]
    exact .around (by decide) ih
  | true_ hkind | false_ hkind | nil_ hkind | number hkind | string hkind | name hkind =>
    rw [List.map_singleton, hkind]
    exact .singleton (by decide)

theorem Optional.bracketed {α : Type} {rule : List Token → α → Prop} {ts : List Token}
    {a : Option α} (h : Optional rule ts a)
    (hrule : ∀ {us a}, rule us a → Bracketed (us.map Token.kind)) :
    Bracketed (ts.map Token.kind) := by
  cases h with
  | none => exact .nil
  | some h => exact hrule h

theorem VariableDeclaration.bracketed {ts : List Token} {s : Stmt}
    (h : VariableDeclaration ts s) : Bracketed (ts.map Token.kind) := by
  obtain ⟨hvar, htarget, hvalue, hsemicolon⟩ := h
  have hinitializer : ∀ {us e}, Initializer us e → Bracketed (us.map Token.kind) := by
    rintro _ _ ⟨hequals, he⟩
    rw [List.map_cons, hequals]
    exact .cons (by decide) he.bracketed
  simp only [List.map_append, List.map_cons, List.map_nil, List.cons_append, hvar, htarget,
    hsemicolon]
  exact .cons (by decide) (.cons (by decide)
    ((hvalue.bracketed hinitializer).append (.singleton (by decide))))

theorem ExpressionStatement.bracketed {ts : List Token} {s : Stmt}
    (h : ExpressionStatement ts s) : Bracketed (ts.map Token.kind) := by
  obtain ⟨he, hsemicolon⟩ := h
  rw [List.map_append, List.map_singleton, hsemicolon]
  exact he.bracketed.append (.singleton (by decide))

theorem Start.bracketed {ts : List Token} {start : Option Stmt} (h : Start ts start) :
    Bracketed (ts.map Token.kind) := by
  cases h with
  | none hsemicolon =>
    rw [List.map_singleton, hsemicolon]
    exact .singleton (by decide)
  | declaration h => exact h.bracketed
  | expression h => exact h.bracketed

/-- The tokens of declarations, one behind the other. -/
theorem bracketed_flatMap {pieces : List (List Token × Stmt)}
    (h : ∀ piece ∈ pieces, Bracketed (piece.1.map Token.kind)) :
    Bracketed ((pieces.flatMap Prod.fst).map Token.kind) := by
  rw [List.map_flatMap]
  exact .flatMap h

/-- The brackets of a **statement** are properly nested: those of its header, of its blocks, and of
what is in them. -/
theorem Statement.bracketed {category : Category} {ts : List Token} {s : Stmt}
    (h : Statement category ts s) : Bracketed (ts.map Token.kind) := by
  induction h with
  | statement _ ih => exact ih
  | function hfun htarget hopening hparameters hseparated _ hclosing hleft _ hright ih =>
    have hnames := hseparated.bracketed (List.forall_mem_map.mpr fun t ht => by
      rw [List.map_singleton, hparameters t ht]
      exact .singleton (by decide))
    simp only [List.map_append, List.map_cons, List.map_nil, List.append_assoc, List.cons_append,
      hfun, htarget, hopening, hclosing, hleft, hright]
    exact .cons (by decide) (.cons (by decide)
      (.enclosed (by decide) hnames (.around (by decide) (bracketed_flatMap ih))))
  | variable_ h => exact h.bracketed
  | expression h => exact h.bracketed
  | print hkeyword he hsemicolon =>
    simp only [List.map_append, List.map_cons, List.map_nil, List.cons_append, hkeyword, hsemicolon]
    exact .cons (by decide) (he.bracketed.append (.singleton (by decide)))
  | returnValue hkeyword hvalue hsemicolon =>
    simp only [List.map_append, List.map_cons, List.map_nil, List.cons_append, hkeyword, hsemicolon]
    exact .cons (by decide)
      ((hvalue.bracketed Expression.bracketed).append (.singleton (by decide)))
  | block hleft _ hright ih =>
    simp only [List.map_append, List.map_cons, List.map_nil, List.cons_append, hleft, hright]
    exact .around (by decide) (bracketed_flatMap ih)
  | loop hkeyword hopening he hclosing _ ih =>
    simp only [List.map_append, List.map_cons, List.cons_append, hkeyword, hopening, hclosing]
    exact .cons (by decide) (.enclosed (by decide) he.bracketed ih)
  | forLoop hkeyword hopening hstart hcondition hsemicolon hstep hclosing _ ih =>
    have hconditions := hcondition.bracketed Expression.bracketed
    have hsteps := hstep.bracketed Expression.bracketed
    have hclauses :=
      hstart.bracketed.append (hconditions.append (.cons (by decide : Unpaired .semicolon) hsteps))
    simp only [List.map_append, List.map_cons, List.append_assoc, List.cons_append, hkeyword,
      hopening, hsemicolon, hclosing]
    have hwhole := Bracketed.cons (by decide : Unpaired (.keyword .for_))
      (.enclosed (by decide : (.leftParen, .rightParen) ∈ bracketPairs) hclauses ih)
    simpa only [List.append_assoc, List.cons_append] using hwhole
  | branch hkeyword hopening he hclosing _ ih =>
    simp only [List.map_append, List.map_cons, List.cons_append, hkeyword, hopening, hclosing]
    exact .cons (by decide) (.enclosed (by decide) he.bracketed ih)
  | branches hkeyword hopening he hclosing _ hotherwise _ ih ih' =>
    simp only [List.map_append, List.map_cons, List.append_assoc, List.cons_append, hkeyword,
      hopening, hclosing, hotherwise]
    exact .cons (by decide)
      (.enclosed (by decide) he.bracketed (ih.append (.cons (by decide) ih')))

/-- The brackets of a **program** are properly nested. -/
theorem Program.bracketed {ts : List Token} {ss : List Stmt} (h : Program ts ss) :
    Bracketed (ts.map Token.kind) := by
  obtain ⟨pieces, hpieces, rfl, -⟩ := h
  exact bracketed_flatMap fun piece hmem => (hpieces piece hmem).bracketed

end Grammar

/-! ### Counting -/

/-- Among tokens of these kinds there are as many closing as opening ones, and in no **front** of
them more. -/
structure Balanced (opening closing : TokenKind) (kinds : List TokenKind) : Prop where
  front : ∀ front, front <+: kinds → front.count closing ≤ front.count opening
  count : kinds.count closing = kinds.count opening

namespace Balanced

variable {opening closing : TokenKind} {kinds kinds' : List TokenKind}

theorem nil (opening closing : TokenKind) : Balanced opening closing [] := by
  refine ⟨fun front hfront => ?_, rfl⟩
  rw [List.prefix_nil.mp hfront]
  exact Nat.le_refl _

/-- A front of two lists is one of the first, or the first with one of the second. -/
theorem append (h : Balanced opening closing kinds) (h' : Balanced opening closing kinds') :
    Balanced opening closing (kinds ++ kinds') := by
  refine ⟨fun front hfront => ?_, by rw [List.count_append, List.count_append, h.count, h'.count]⟩
  rcases List.prefix_or_prefix_of_prefix hfront (List.prefix_append kinds kinds') with
    hshort | ⟨front', rfl⟩
  · exact h.front front hshort
  · have hfront' := h'.front front' ((List.prefix_append_right_inj kinds).mp hfront)
    rw [List.count_append, List.count_append, h.count]
    omega

/-- Behind a front in which nothing is open, the other tokens are balanced. -/
theorem of_append (h : Balanced opening closing (kinds ++ kinds'))
    (hclosed : kinds.count opening ≤ kinds.count closing) : Balanced opening closing kinds' := by
  have hkinds := h.front kinds (List.prefix_append kinds kinds')
  constructor
  · intro front hfront
    have hall := h.front (kinds ++ front) ((List.prefix_append_right_inj kinds).mpr hfront)
    rw [List.count_append, List.count_append] at hall
    omega
  · have hall := h.count
    rw [List.count_append, List.count_append] at hall
    omega

theorem singleton {kind : TokenKind} (h : kind ≠ opening) (h' : kind ≠ closing) :
    Balanced opening closing [kind] := by
  have hzero : ∀ front, front <+: [kind] → front.count closing = 0 ∧ front.count opening = 0 := by
    intro front hfront
    have hnot : ∀ other, kind ≠ other → other ∉ front := fun other hne hmem =>
      hne (List.mem_singleton.mp (hfront.subset hmem)).symm
    exact ⟨List.count_eq_zero.mpr (hnot _ h'), List.count_eq_zero.mpr (hnot _ h)⟩
  refine ⟨fun front hfront => ?_, ?_⟩
  · obtain ⟨hclosing, hopening⟩ := hzero front hfront
    omega
  · obtain ⟨hclosing, hopening⟩ := hzero [kind] (List.prefix_refl _)
    omega

/-- Brackets around balanced tokens, which are open all the time in between. -/
theorem around (h : Balanced opening closing kinds) (hne : opening ≠ closing) :
    Balanced opening closing (opening :: (kinds ++ [closing])) := by
  constructor
  · intro front hfront
    rcases List.prefix_cons_iff.mp hfront with rfl | ⟨front', rfl, hfront'⟩
    · exact Nat.le_refl _
    rw [List.count_cons_self, List.count_cons_of_ne hne]
    rcases List.prefix_concat_iff.mp hfront' with rfl | hinner
    · rw [List.count_append, List.count_append, List.count_singleton_self, h.count]
      omega
    · have hle := h.front front' hinner
      omega
  · rw [List.count_cons_self, List.count_cons_of_ne hne, List.count_append, List.count_append,
      List.count_singleton_self, List.count_singleton, h.count]
    simp [hne.symm]

end Balanced

/-- What is properly nested is **balanced** in each kind of brackets. -/
theorem Bracketed.balanced {kinds : List TokenKind} (h : Bracketed kinds)
    {pair : TokenKind × TokenKind} (hpair : pair ∈ bracketPairs) :
    Balanced pair.1 pair.2 kinds := by
  have hpairs : ∀ pair ∈ bracketPairs, ∀ pair' ∈ bracketPairs, pair.1 ≠ pair.2 ∧
      (pair' = pair ∨ pair'.1 ≠ pair.1 ∧ pair'.1 ≠ pair.2 ∧ pair'.2 ≠ pair.1 ∧
        pair'.2 ≠ pair.2) := by decide
  induction h with
  | nil => exact .nil _ _
  | cons hkind _ ih =>
    obtain ⟨hopening, hclosing⟩ := hkind pair hpair
    exact (Balanced.singleton hopening hclosing).append ih
  | @enclosed opening closing inner behind hpair' _ _ ihinner ihbehind =>
    obtain ⟨hne, rfl | ⟨hoo, hoc, hco, hcc⟩⟩ := hpairs pair hpair _ hpair'
    · simpa using (ihinner.around hne).append ihbehind
    · -- The other kind of brackets does not count.
      have hall := (Balanced.singleton hoo hoc).append
        (ihinner.append ((Balanced.singleton hco hcc).append ihbehind))
      exact hall

end LoxLang
