import LoxLang.Proofs.Outline.Atoms
import LoxLang.Proofs.Outline.Genuine
import LoxLang.Proofs.Syntax.Shift

/-!
# Outlines are read in one way

No two programs have the same outline (`statements_eq_of_outline_eq`). An outline spells a list of
forms, and no text spells two of them, whatever its strings hold; what is left is that the **form**
of a tree shows the tree. The first word of a form is a tag or an operator, and no operator is a
tag; a unary and a binary operator differ in the number of operands, and an `if` with an `else` in
the number of statements. A form that is an atom is a name or a literal, and no literal looks like a
name (`Expr.Genuine.shape_form`).

Lines are not in an outline, so trees are equal up to the lines of their tokens.
-/

namespace LoxLang

/-! ### Forms of trees -/

/-- An atom with a text. -/
def Form.ofText (s : String) : Form := .atom s.toList

@[simp]
theorem Form.ofText_inj {s s' : String} : ofText s = ofText s' ↔ s = s' := by
  rw [ofText, ofText, Form.atom.injEq, String.toList_inj]

/-- The **form** of an expression. -/
def Expr.form : Expr → Form
  | literal value => .ofText value.source
  | grouping inner => .node [.ofText "group", inner.form]
  | unary op operand => .node [.ofText op.lexeme, operand.form]
  | binary left op right | logical left op right =>
    .node [.ofText op.lexeme, left.form, right.form]
  | name token => .ofText token.lexeme
  | assign target value => .node [.ofText "=", .ofText target.lexeme, value.form]
  | call callee _ arguments => .node (.ofText "call" :: callee.form :: arguments.map form)

namespace Stmt

/-- The forms of the words of a heading. -/
def headingForms : Stmt → List Form
  | expression value => [.ofText ";", value.form]
  | print value => [.ofText "print", value.form]
  | declare target value => .ofText "var" :: .ofText target.lexeme :: value.toList.map Expr.form
  | block _ => [.ofText "block"]
  | branch condition _ _ => [.ofText "if", condition.form]
  | loop condition _ => [.ofText "while", condition.form]
  | function target parameters _ =>
    [.ofText "fun", .ofText target.lexeme, .node (parameters.map fun t => .ofText t.lexeme)]
  | returnValue _ value => .ofText "return" :: value.toList.map Expr.form

/-- The **form** of a statement. -/
def form (s : Stmt) : Form := .node (s.headingForms ++ s.parts.attach.map fun t => t.1.form)
termination_by sizeOf s
decreasing_by exact sizeOf_lt_of_mem_parts t.2

theorem form_eq (s : Stmt) : s.form = .node (s.headingForms ++ s.parts.map form) := by
  rw [form, List.map_attach_eq_pmap, List.pmap_eq_map]

end Stmt

/-! ### Outlines spell forms -/

/-- A text **reads** as a form. -/
def ReadsAs (text : String) (f : Form) : Prop := Spelled text.toList [f]

namespace ReadsAs

/-- A word reads as an atom. -/
theorem ofText {text : String} (h : IsWord text.toList) : ReadsAs text (.ofText text) := .word h

/-- A tag **reads** as an atom. -/
theorem tag {text : String} (h : text.toList ≠ [] ∧ text.toList.all isPlain) :
    ReadsAs text (.ofText text) := ofText ⟨h.1, List.all_eq_true.mp h.2⟩

end ReadsAs

/-- Words with spaces between them. -/
theorem Spelled.words {words : List String} {items : List Form}
    (h : List.Forall₂ ReadsAs words items) : Spelled (" ".intercalate words).toList items := by
  rw [String.toList_intercalate]
  exact .intercalate (by decide) (List.forall₂_map_left_iff.mpr h)

/-- What is between parentheses. -/
theorem Spelled.enclosed {text : String} {items : List Form} (h : Spelled text.toList items) :
    ReadsAs ("(" ++ text ++ ")") (.node items) := by
  rw [ReadsAs, String.toList_append, String.toList_append]
  exact .node h

theorem Literal.Written.readsAs {l : Literal} (h : l.Written) :
    ReadsAs l.source (.ofText l.source) := by
  cases l with
  | nil => exact .tag (by decide)
  | bool b => cases b <;> exact .tag (by decide)
  | number x => exact .ofText (isWord_number x)
  | string text =>
    rw [ReadsAs, Form.ofText, source, String.toList_append, String.toList_append]
    exact .quoted h

namespace Token.Genuine

variable {t : Token}

theorem readsAs_of_identifier (h : t.Genuine) (hkind : t.kind = .identifier) :
    ReadsAs t.lexeme (.ofText t.lexeme) :=
  .ofText (Lexeme.isWord_of_identifier (hkind ▸ h.lexeme))

theorem readsAs_of_operator (h : t.Genuine) (hkind : t.kind ∈ operators) :
    ReadsAs t.lexeme (.ofText t.lexeme) :=
  .ofText (h.lexeme.of_operator hkind).1

end Token.Genuine

theorem Expr.readsAs_of_words {e : Expr} {items : List Form} (hne : e.words ≠ [])
    (h : List.Forall₂ ReadsAs e.words items) : ReadsAs e.outline (.node items) := by
  rw [e.outline_eq hne]
  exact (Spelled.words h).enclosed

/-- The outline of an **expression** reads as its form. -/
theorem Expr.Genuine.readsAs {e : Expr} (h : e.Genuine Literal.Written) :
    ReadsAs e.outline e.form := by
  induction h with
  | literal hvalue =>
    rw [outline, form]
    exact hvalue.readsAs
  | grouping _ ih =>
    rw [form]
    exact readsAs_of_words (List.cons_ne_nil _ _) (.cons (.tag (by decide)) (.cons ih .nil))
  | unary hop hkind _ ih =>
    rw [form]
    exact readsAs_of_words (List.cons_ne_nil _ _)
      (.cons (hop.readsAs_of_operator (mem_operators_of_unary hkind)) (.cons ih .nil))
  | binary _ hop hkind _ ihleft ihright =>
    rw [form]
    exact readsAs_of_words (List.cons_ne_nil _ _)
      (.cons (hop.readsAs_of_operator (mem_operators_of_binary hkind))
        (.cons ihleft (.cons ihright .nil)))
  | logical _ hop hkind _ ihleft ihright =>
    rw [form]
    exact readsAs_of_words (List.cons_ne_nil _ _)
      (.cons (hop.readsAs_of_operator (mem_operators_of_logical hkind))
        (.cons ihleft (.cons ihright .nil)))
  | name ht hkind =>
    rw [outline, form]
    exact ht.readsAs_of_identifier hkind
  | assign htarget hkind _ ih =>
    rw [form]
    exact readsAs_of_words (List.cons_ne_nil _ _)
      (.cons (.tag (by decide)) (.cons (htarget.readsAs_of_identifier hkind) (.cons ih .nil)))
  | call _ _ _ _ ih iharguments =>
    rw [form]
    refine readsAs_of_words (List.cons_ne_nil _ _) (.cons (.tag (by decide)) (.cons ih ?_))
    rw [List.forall₂_map_left_iff, List.forall₂_map_right_iff, List.forall₂_same]
    exact iharguments

namespace Stmt

/-- The words of a heading read as its forms. -/
theorem Genuine.readsAs_words {s : Stmt} (h : s.Genuine Literal.Written) :
    List.Forall₂ ReadsAs s.words s.headingForms := by
  cases h with
  | expression hvalue | print hvalue => exact .cons (.tag (by decide)) (.cons hvalue.readsAs .nil)
  | @declare target value htarget hkind hvalue =>
    have hname := htarget.readsAs_of_identifier hkind
    cases value with
    | none => exact .cons (.tag (by decide)) (.cons hname .nil)
    | some e => exact .cons (.tag (by decide)) (.cons hname (.cons (hvalue e rfl).readsAs .nil))
  | block => exact .cons (.tag (by decide)) .nil
  | branch hcondition | loop hcondition =>
    exact .cons (.tag (by decide)) (.cons hcondition.readsAs .nil)
  | function htarget hkind hparameters =>
    refine .cons (.tag (by decide)) (.cons (htarget.readsAs_of_identifier hkind) (.cons ?_ .nil))
    refine (Spelled.words ?_).enclosed
    rw [List.forall₂_map_left_iff, List.forall₂_map_right_iff, List.forall₂_same]
    exact fun t ht => (hparameters t ht).1.readsAs_of_identifier (hparameters t ht).2
  | @returnValue _ value _ _ hvalue =>
    cases value with
    | none => exact .cons (.tag (by decide)) .nil
    | some e => exact .cons (.tag (by decide)) (.cons (hvalue e rfl).readsAs .nil)

theorem spelled_lines {level : Nat} {s : Stmt} (h : ReadsAs (s.outline level) s.form) :
    Spelled (s.lines level).toList [s.form] := by
  rw [lines, String.toList_append, toList_indent]
  induction 4 * level with
  | zero => exact h
  | succ n ih => exact .gap (by decide) ih

theorem spelled_nested {level : Nat} {ss : List Stmt}
    (h : ∀ s ∈ ss, ReadsAs (s.outline level) s.form) :
    Spelled (nested level ss).toList (ss.map form) ∧ WordEnds (nested level ss).toList := by
  induction ss with
  | nil =>
    rw [nested]
    exact ⟨.nil, fun _ hc => absurd hc (by simp)⟩
  | cons s ss ih =>
    obtain ⟨hs, hss⟩ := List.forall_mem_cons.mp h
    rw [toList_nested_cons]
    exact ⟨(Spelled.gap (by decide) (spelled_lines hs)).append (ih hss).2 (ih hss).1,
      Spelled.wordEnds_cons (by decide)⟩

/-- The outline of a **statement** reads as its form. -/
theorem Genuine.readsAs {s : Stmt} (h : s.Genuine Literal.Written) (level : Nat) :
    ReadsAs (s.outline level) s.form := by
  induction s using parts_induction generalizing level with
  | h s ih =>
    obtain ⟨hnested, hends⟩ := spelled_nested fun t ht => ih t ht (h.parts t ht) (level + 1)
    rw [outline_eq, form_eq]
    refine Spelled.enclosed ?_
    rw [String.toList_append]
    exact (Spelled.words h.readsAs_words).append hends hnested

end Stmt

/-- The outline of a **program** spells the forms of its statements. -/
theorem spells_outline {program : List Stmt} (h : ∀ s ∈ program, s.Genuine Literal.Written) :
    Spells (outline program).toList (program.map Stmt.form) := by
  rw [outline, String.toList_intercalate, List.map_map]
  refine (Spelled.intercalate (by decide) ?_).spells
  rw [List.forall₂_map_left_iff, List.forall₂_map_right_iff, List.forall₂_same]
  exact fun s hs => Stmt.spelled_lines ((h s hs).readsAs 0)

/-! ### Forms are trees -/

/-- What is known from one function of each member is known from it for **lists**. -/
theorem map_eq_map_of_forall {α β γ : Type} {f : α → β} {g : α → γ} {as bs : List α}
    (h : ∀ a ∈ as, ∀ b ∈ bs, f a = f b → g a = g b) (heq : as.map f = bs.map f) :
    as.map g = bs.map g := by
  induction as generalizing bs with
  | nil => rw [List.map_eq_nil_iff.mp heq.symm]
  | cons a as ih =>
    obtain ⟨b, bs, rfl, hfirst, hrest⟩ := List.map_eq_cons_iff.mp heq.symm
    simp only [List.forall_mem_cons] at h
    rw [List.map_cons, List.map_cons, h.1.1 hfirst.symm, ih (fun a ha => (h.2 a ha).2) hrest.symm]

/-- Symbols and reserved words are known from their **kinds**. -/
theorem Token.Genuine.lineless_eq_of_kind {t t' : Token} (h : t.Genuine) (h' : t'.Genuine)
    (heq : t.kind = t'.kind)
    (hkind : t.kind ∈ symbols.map Prod.snd ∨ ∃ word, t.kind = .keyword word) :
    t.lineless = t'.lineless :=
  h.lineless_eq h' (String.toList_inj.mp (h.lexeme.text_unique (heq ▸ h'.lexeme) hkind))

/-! ### Shapes -/

/-- What an expression **is**. -/
inductive Expr.Shape
  | literal | name | grouping | unary | binary | logical | assign | call

/-- The shape of an expression. -/
def Expr.shape : Expr → Shape
  | literal _ => .literal
  | name _ => .name
  | grouping _ => .grouping
  | unary _ _ => .unary
  | binary _ _ _ => .binary
  | logical _ _ _ => .logical
  | assign _ _ => .assign
  | call _ _ _ => .call

/-- The shape that a form shows, by its first word and by how many operands there are. -/
def Form.shape : Form → Expr.Shape
  | atom text => if looksLikeName text then .name else .literal
  | node (atom head :: operands) =>
    if head = "group".toList then .grouping
    else if head = "=".toList then .assign
    else if head = "call".toList then .call
    else if head = "and".toList ∨ head = "or".toList then .logical
    else if operands.length = 1 then .unary
    else .binary
  | node _ => .literal

/-- The shape of a form that begins with an **operator**. -/
theorem Token.Genuine.shape_node {t : Token} (h : t.Genuine) (hkind : t.kind ∈ operators)
    (operands : List Form) :
    (Form.node (.ofText t.lexeme :: operands)).shape =
      if t.kind = .keyword .and_ ∨ t.kind = .keyword .or_ then .logical
      else if operands.length = 1 then .unary
      else .binary := by
  have htag := (h.lexeme.of_operator hkind).2
  rw [Form.ofText, Form.shape, if_neg (htag _ (by decide)), if_neg (htag _ (by decide)),
    if_neg (htag _ (by decide))]
  have hword : ∀ word : Keyword, t.lexeme.toList = word.spelling.toList ↔ t.kind = .keyword word :=
    fun _ => h.lexeme.eq_keyword_iff.symm
  exact if_congr (or_congr (hword .and_) (hword .or_)) rfl rfl

/-- The form of an expression **shows** what it is. -/
theorem Expr.Genuine.shape_form {e : Expr} (h : e.Genuine Literal.Written) :
    e.form.shape = e.shape := by
  cases h with
  | literal hvalue =>
    rw [form, Form.ofText, Form.shape, if_neg hvalue.not_looksLikeName, shape]
  | name ht hkind =>
    have hlexeme : Lexeme .identifier _ := hkind ▸ ht.lexeme
    rw [form, Form.ofText, Form.shape, if_pos hlexeme.looksLikeName, shape]
  | grouping | assign | call =>
    rw [form, Form.ofText, Form.shape, shape]
    rfl
  | @unary op _ hop hkind =>
    have hnot : ¬ (op.kind = .keyword .and_ ∨ op.kind = .keyword .or_) := by
      rcases hkind with hkind | hkind <;> rw [hkind] <;> decide
    rw [form, hop.shape_node (mem_operators_of_unary hkind), if_neg hnot,
      if_pos (List.length_singleton), shape]
  | @binary _ _ op _ hop hkind =>
    have hnot : ¬ (op.kind = .keyword .and_ ∨ op.kind = .keyword .or_) := by
      rintro (hword | hword) <;> rw [hword] at hkind <;> exact absurd hkind (by decide)
    rw [form, hop.shape_node (mem_operators_of_binary hkind), if_neg hnot, if_neg (by simp), shape]
  | logical _ hop hkind =>
    rw [form, hop.shape_node (mem_operators_of_logical hkind), if_pos hkind, shape]

theorem Expr.Genuine.shape_eq {e e' : Expr} (h : e.Genuine Literal.Written)
    (h' : e'.Genuine Literal.Written) (heq : e.form = e'.form) : e.shape = e'.shape := by
  rw [← h.shape_form, ← h'.shape_form, heq]

/-- An **expression** is known from its form, up to the lines of its tokens. -/
theorem Expr.Genuine.eq_of_form_eq {e e' : Expr} (h : e.Genuine Literal.Written)
    (h' : e'.Genuine Literal.Written) (heq : e.form = e'.form) :
    e.mapTokens Token.lineless = e'.mapTokens Token.lineless := by
  induction h generalizing e' with
  | literal hvalue =>
    have hshape := (literal hvalue).shape_eq h' heq
    cases h' with
    | literal hvalue' =>
      simp only [form, Form.ofText_inj] at heq
      rw [Literal.source_injective hvalue hvalue' (congrArg _ heq)]
    | _ => cases hshape
  | name ht hkind =>
    have hshape := (name ht hkind).shape_eq h' heq
    cases h' with
    | name ht' =>
      simp only [form, Form.ofText_inj] at heq
      rw [mapTokens, mapTokens, ht.lineless_eq ht' heq]
    | _ => cases hshape
  | grouping hinner ih =>
    have hshape := (grouping hinner).shape_eq h' heq
    cases h' with
    | grouping hinner' =>
      simp only [form, Form.node.injEq, List.cons.injEq, true_and, and_true] at heq
      rw [mapTokens, mapTokens, ih hinner' heq]
    | _ => cases hshape
  | unary hop hkind hoperand ih =>
    have hshape := (unary hop hkind hoperand).shape_eq h' heq
    cases h' with
    | unary hop' _ hoperand' =>
      simp only [form, Form.node.injEq, List.cons.injEq, Form.ofText_inj, and_true] at heq
      rw [mapTokens, mapTokens, hop.lineless_eq hop' heq.1, ih hoperand' heq.2]
    | _ => cases hshape
  | binary hleft hop hkind hright ihleft ihright =>
    have hshape := (binary hleft hop hkind hright).shape_eq h' heq
    cases h' with
    | binary hleft' hop' _ hright' =>
      simp only [form, Form.node.injEq, List.cons.injEq, Form.ofText_inj, and_true] at heq
      rw [mapTokens, mapTokens, hop.lineless_eq hop' heq.1, ihleft hleft' heq.2.1,
        ihright hright' heq.2.2]
    | _ => cases hshape
  | logical hleft hop hkind hright ihleft ihright =>
    have hshape := (logical hleft hop hkind hright).shape_eq h' heq
    cases h' with
    | logical hleft' hop' _ hright' =>
      simp only [form, Form.node.injEq, List.cons.injEq, Form.ofText_inj, and_true] at heq
      rw [mapTokens, mapTokens, hop.lineless_eq hop' heq.1, ihleft hleft' heq.2.1,
        ihright hright' heq.2.2]
    | _ => cases hshape
  | assign htarget hkind hvalue ih =>
    have hshape := (assign htarget hkind hvalue).shape_eq h' heq
    cases h' with
    | assign htarget' _ hvalue' =>
      simp only [form, Form.node.injEq, List.cons.injEq, Form.ofText_inj, true_and, and_true] at heq
      rw [mapTokens, mapTokens, htarget.lineless_eq htarget' heq.1, ih hvalue' heq.2]
    | _ => cases hshape
  | call hcallee hparen hkind harguments ih iharguments =>
    have hshape := (call hcallee hparen hkind harguments).shape_eq h' heq
    cases h' with
    | call hcallee' hparen' hkind' harguments' =>
      simp only [form, Form.node.injEq, List.cons.injEq, true_and] at heq
      have hparens := hparen.lineless_eq_of_kind hparen' (hkind.trans hkind'.symm)
        (.inl (by rw [hkind]; decide))
      have hall := map_eq_map_of_forall
        (fun a ha b hb => iharguments a ha (harguments' b hb)) heq.2
      rw [mapTokens, mapTokens, hparens, ih hcallee' heq.1, hall]
    | _ => cases hshape

/-- The value that a statement may have is known from the forms of its heading. -/
theorem map_eq_map_of_genuine {value value' : Option Expr}
    (h : ∀ e ∈ value, e.Genuine Literal.Written) (h' : ∀ e ∈ value', e.Genuine Literal.Written)
    (heq : value.toList.map Expr.form = value'.toList.map Expr.form) :
    value.map (Expr.mapTokens Token.lineless) = value'.map (Expr.mapTokens Token.lineless) := by
  cases value <;> cases value'
  · rfl
  · cases heq
  · cases heq
  · next e e' =>
    rw [Option.map_some, Option.map_some, (h e rfl).eq_of_form_eq (h' e' rfl) (List.cons.inj heq).1]

theorem Stmt.parts_branch (condition : Expr) (yes : Stmt) (no : Option Stmt) :
    (branch condition yes no).parts = yes :: no.toList := by
  cases no <;> rfl

theorem Stmt.mapTokens_branch (f : Token → Token) (condition : Expr) (yes : Stmt)
    (no : Option Stmt) : (branch condition yes no).mapTokens f =
      branch (condition.mapTokens f) (yes.mapTokens f) (no.map (mapTokens f)) := by
  cases no <;> rw [mapTokens] <;> rfl

/-- A **statement** is known from its form, up to the lines of its tokens. -/
theorem Stmt.Genuine.eq_of_form_eq {s s' : Stmt} (h : s.Genuine Literal.Written)
    (h' : s'.Genuine Literal.Written) (heq : s.form = s'.form) :
    s.mapTokens Token.lineless = s'.mapTokens Token.lineless := by
  induction s using parts_induction generalizing s' with
  | h s ih =>
    rw [form_eq, form_eq, Form.node.injEq] at heq
    have hparts : s.parts.map form = s'.parts.map form →
        s.parts.map (mapTokens Token.lineless) = s'.parts.map (mapTokens Token.lineless) :=
      map_eq_map_of_forall fun t ht t' ht' => ih t ht (h.parts t ht) (h'.parts t' ht')
    -- The first word of the heading shows what the statement is.
    cases h with
    | expression hvalue =>
      cases h' with
      | expression hvalue' =>
        have hvalues := hvalue.eq_of_form_eq hvalue' (by simpa [headingForms, Stmt.parts] using heq)
        rw [mapTokens, mapTokens, hvalues]
      | _ => simp [headingForms] at heq
    | print hvalue =>
      cases h' with
      | print hvalue' =>
        have hvalues := hvalue.eq_of_form_eq hvalue' (by simpa [headingForms, Stmt.parts] using heq)
        rw [mapTokens, mapTokens, hvalues]
      | _ => simp [headingForms] at heq
    | declare htarget _ hvalue =>
      cases h' with
      | declare htarget' _ hvalue' =>
        obtain ⟨hname, hforms⟩ : _ ∧ _ := by simpa [headingForms, Stmt.parts] using heq
        rw [mapTokens, mapTokens, htarget.lineless_eq htarget' hname,
          map_eq_map_of_genuine hvalue hvalue' hforms]
      | _ => simp [headingForms] at heq
    | block =>
      cases h' with
      | block =>
        have hbody := hparts (by simpa [headingForms] using heq)
        rw [mapTokens, mapTokens]
        exact congrArg Stmt.block hbody
      | _ => simp [headingForms] at heq
    | branch hcondition =>
      cases h' with
      | branch hcondition' =>
        obtain ⟨hforms, hbranches⟩ : _ ∧ _ := by simpa [headingForms] using heq
        have hboth := hparts hbranches
        have hlists : ∀ {no no' : Option Stmt}, no.toList = no'.toList ↔ no = no' := by
          intro no no'
          cases no <;> cases no' <;> simp
        rw [parts_branch, parts_branch, List.map_cons, List.map_cons, List.cons.injEq,
          ← Option.toList_map, ← Option.toList_map, hlists] at hboth
        rw [mapTokens_branch, mapTokens_branch, hcondition.eq_of_form_eq hcondition' hforms,
          hboth.1, hboth.2]
      | _ => simp [headingForms] at heq
    | loop hcondition =>
      cases h' with
      | loop hcondition' =>
        obtain ⟨hforms, hbody⟩ : _ ∧ _ := by simpa [headingForms] using heq
        have hbodies := (List.cons.inj (hparts hbody)).1
        rw [mapTokens, mapTokens, hcondition.eq_of_form_eq hcondition' hforms, hbodies]
      | _ => simp [headingForms] at heq
    | function htarget _ hparameters =>
      cases h' with
      | function htarget' _ hparameters' =>
        obtain ⟨hname, hnames, hforms⟩ : _ ∧ _ ∧ _ := by simpa [headingForms] using heq
        have hbody := hparts hforms
        have hlexemes := map_eq_map_of_forall (fun t ht t' ht' heq =>
          (hparameters t ht).1.lineless_eq (hparameters' t' ht').1 (Form.ofText_inj.mp heq)) hnames
        rw [mapTokens, mapTokens, htarget.lineless_eq htarget' hname, hlexemes]
        exact congrArg (Stmt.function _ _) hbody
      | _ => simp [headingForms] at heq
    | returnValue hkeyword hkind hvalue =>
      cases h' with
      | returnValue hkeyword' hkind' hvalue' =>
        have hkeywords := hkeyword.lineless_eq_of_kind hkeyword' (hkind.trans hkind'.symm)
          (.inr ⟨_, hkind⟩)
        have hforms := map_eq_map_of_genuine hvalue hvalue'
          (by simpa [headingForms, Stmt.parts] using heq)
        rw [mapTokens, mapTokens, hkeywords, hforms]
      | _ => simp [headingForms] at heq

/-! ### Programs -/

/-- A number that is finite, or no number. -/
def Literal.isFinite : Literal → Bool
  | number x => Binary64.finite x
  | nil | bool _ | string _ => true

/-- What the tokens of a text denote can be **written**, if it is finite. -/
theorem written_of_mem_tokens {source : String} {t : Token} (ht : t ∈ (scan source).tokens)
    (hfinite : t.literal.isFinite) : t.literal.Written := by
  obtain ⟨ps, hps⟩ := exists_cutting source.toList
  rcases mem_tokens hps ht with rfl | ⟨text, htext, -, hliteral⟩
  · exact trivial
  rw [hliteral] at hfinite ⊢
  generalize t.kind = kind at *
  unfold literalOf at *
  split
  · obtain ⟨inner, hinner, rfl⟩ := htext.of_string
    simpa [Literal.Written] using hinner
  · exact ⟨Binary64.signed_ofRatio _ _, hfinite⟩
  · exact trivial
  · exact trivial
  · exact trivial

/-- **Outlines are read in one way.** If no number in two texts is too large to be finite, and the
statements that are read from them have the same outline, then these are the same statements: the
same trees, with the same names, operators and literals, up to the lines that their tokens stand on.
That also goes for what is left of texts with faults. -/
theorem statements_eq_of_outline_eq {a b : String}
    (ha : ∀ t ∈ (scan a).tokens, t.literal.isFinite)
    (hb : ∀ t ∈ (scan b).tokens, t.literal.isFinite)
    (h : outline (Parse.ofSource a).statements = outline (Parse.ofSource b).statements) :
    (Parse.ofSource a).statements.map (Stmt.mapTokens Token.lineless) =
      (Parse.ofSource b).statements.map (Stmt.mapTokens Token.lineless) := by
  have hconstants : ∀ l ∈ Literal.constants, l.Written := by
    simp [Literal.constants, Literal.Written]
  have hgenuine := parse_genuine hconstants fun t ht => written_of_mem_tokens ht (ha t ht)
  have hgenuine' := parse_genuine hconstants fun t ht => written_of_mem_tokens ht (hb t ht)
  have hforms := (spells_outline hgenuine).unique (h ▸ spells_outline hgenuine')
  exact map_eq_map_of_forall
    (fun s hs s' hs' => (hgenuine s hs).eq_of_form_eq (hgenuine' s' hs')) hforms

/-- The same statements on other **lines**, with a number that is written in another way. -/
theorem statements_eq_of_outline_eq_of_lines :
    let a := "if (call(1.5) - -x) \x7b print \") (block\"; \x7d"
    let b := "if (call(1.50)\n - -x)\n\x7b print \") (block\";\n\x7d"
    (outline (Parse.ofSource a).statements = outline (Parse.ofSource b).statements) ∧
      (Parse.ofSource a).statements.map (Stmt.mapTokens Token.lineless) =
        (Parse.ofSource b).statements.map (Stmt.mapTokens Token.lineless) := by
  intro a b
  have ha : ∀ t ∈ (scan a).tokens, t.literal.isFinite := by decide +kernel
  have hb : ∀ t ∈ (scan b).tokens, t.literal.isFinite := by decide +kernel
  have h : outline (Parse.ofSource a).statements = outline (Parse.ofSource b).statements := by
    decide +kernel
  exact ⟨h, statements_eq_of_outline_eq ha hb h⟩

end LoxLang
