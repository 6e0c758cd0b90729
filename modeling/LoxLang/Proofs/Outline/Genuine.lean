import LoxLang.Proofs.Outline.Parts
import LoxLang.Proofs.Syntax.WellFormed
import LoxLang.Proofs.Syntax.Tokens
import LoxLang.Proofs.Lexemes.Scanning

/-!
# Trees of scanned tokens

A token that was scanned is known from its lexeme, up to its line (`Token.Genuine.lineless_eq`). A
tree is **genuine** if its operators are such tokens and operators, its names are such tokens and
names, and so on for all tokens in it. What is read from the tokens of a text is genuine
(`parse_genuine`), and its literals are what its tokens denote.
-/

namespace LoxLang

open Grammar

/-! ### Tokens -/

/-- A token as it is **scanned**: its lexeme is one of its kind, and what it denotes is known from
that. -/
structure Token.Genuine (t : Token) : Prop where
  lexeme : Lexeme t.kind t.lexeme.toList
  literal : t.literal = literalOf t.kind t.lexeme.toList

/-- The token on no line. -/
def Token.lineless (t : Token) : Token := { t with line := 0 }

/-- A token is known from its **lexeme**, up to its line. -/
theorem Token.Genuine.lineless_eq {t t' : Token} (h : t.Genuine) (h' : t'.Genuine)
    (heq : t.lexeme = t'.lexeme) : t.lineless = t'.lineless := by
  have hkind : t.kind = t'.kind := h.lexeme.kind_unique (heq ▸ h'.lexeme)
  have hliteral : t.literal = t'.literal := by rw [h.literal, h'.literal, hkind, heq]
  rw [lineless, lineless, hkind, hliteral, heq]

/-- The tokens of a text are genuine, but for the end token. -/
theorem Token.genuine_of_mem_body {source : String} {t : Token}
    (ht : t ∈ Parse.body (scan source).tokens) : t.Genuine := by
  obtain ⟨ps, hps⟩ := exists_cutting source.toList
  have hmem : t ∈ (scan source).tokens := (List.takeWhile_prefix _).subset ht
  rcases mem_tokens hps hmem with rfl | ⟨text, htext, hlexeme, hliteral⟩
  · exact absurd rfl (Parse.kind_ne_eof_of_mem_body ht)
  · have htoList : t.lexeme.toList = text := by rw [hlexeme, String.toList_ofList]
    exact ⟨htoList ▸ htext, htoList ▸ hliteral⟩

/-! ### Trees -/

/-- The literals that are reserved words. -/
def Literal.constants : List Literal := [.nil, .bool true, .bool false]

section

variable (L : Literal → Prop)

/-- An expression of scanned tokens, with literals of a sort. -/
inductive Expr.Genuine : Expr → Prop
  | literal {value : Literal} : L value → Genuine (.literal value)
  | grouping {inner : Expr} : Genuine inner → Genuine (.grouping inner)
  | unary {op : Token} {operand : Expr} :
    op.Genuine → op.kind = .bang ∨ op.kind = .minus → Genuine operand → Genuine (.unary op operand)
  | binary {left right : Expr} {op : Token} :
    Genuine left → op.Genuine → op.kind ∈ binaryOperators → Genuine right →
      Genuine (.binary left op right)
  | logical {left right : Expr} {op : Token} :
    Genuine left → op.Genuine → op.kind = .keyword .and_ ∨ op.kind = .keyword .or_ →
      Genuine right → Genuine (.logical left op right)
  | name {t : Token} : t.Genuine → t.kind = .identifier → Genuine (.name t)
  | assign {target : Token} {value : Expr} :
    target.Genuine → target.kind = .identifier → Genuine value → Genuine (.assign target value)
  | call {callee : Expr} {paren : Token} {arguments : List Expr} :
    Genuine callee → paren.Genuine → paren.kind = .rightParen → (∀ e ∈ arguments, Genuine e) →
      Genuine (.call callee paren arguments)

/-- A statement of scanned tokens, with literals of a sort. -/
inductive Stmt.Genuine : Stmt → Prop
  | expression {value : Expr} : value.Genuine L → Genuine (.expression value)
  | print {value : Expr} : value.Genuine L → Genuine (.print value)
  | declare {target : Token} {value : Option Expr} :
    target.Genuine → target.kind = .identifier → (∀ e ∈ value, e.Genuine L) →
      Genuine (.declare target value)
  | block {body : List Stmt} : (∀ s ∈ body, Genuine s) → Genuine (.block body)
  | branch {condition : Expr} {yes : Stmt} {no : Option Stmt} :
    condition.Genuine L → Genuine yes → (∀ s ∈ no, Genuine s) → Genuine (.branch condition yes no)
  | loop {condition : Expr} {body : Stmt} :
    condition.Genuine L → Genuine body → Genuine (.loop condition body)
  | function {target : Token} {parameters : List Token} {body : List Stmt} :
    target.Genuine → target.kind = .identifier →
      (∀ t ∈ parameters, t.Genuine ∧ t.kind = .identifier) → (∀ s ∈ body, Genuine s) →
      Genuine (.function target parameters body)
  | returnValue {keyword : Token} {value : Option Expr} :
    keyword.Genuine → keyword.kind = .keyword .return_ → (∀ e ∈ value, e.Genuine L) →
      Genuine (.returnValue keyword value)

end

variable {L : Literal → Prop}

namespace Grammar

theorem Optional.genuine {rule : List Token → Expr → Prop} {ts : List Token} {value : Option Expr}
    (h : Optional rule ts value) (hts : ∀ t ∈ ts, t.Genuine ∧ L t.literal)
    (hrule : ∀ {us e}, rule us e → (∀ t ∈ us, t.Genuine ∧ L t.literal) → e.Genuine L) :
    ∀ e ∈ value, e.Genuine L := by
  intro e he
  cases h with
  | none => cases he
  | some h =>
    cases he
    exact hrule h hts

/-- The statements of a list of declarations are genuine if each of them is. -/
private theorem genuine_of_pieces {body : List (List Token × Stmt)}
    (hts : ∀ t ∈ body.flatMap Prod.fst, t.Genuine ∧ L t.literal)
    (ih : ∀ piece ∈ body, (∀ t ∈ piece.1, t.Genuine ∧ L t.literal) → piece.2.Genuine L) :
    ∀ s ∈ body.map Prod.snd, s.Genuine L :=
  List.forall_mem_map.mpr fun piece hpiece =>
    ih piece hpiece (List.forall_mem_flatMap.mp hts piece hpiece)

variable (hconstants : ∀ l ∈ Literal.constants, L l)

include hconstants

/-- The tree of an **expression** of scanned tokens is genuine. -/
theorem Expression.genuine {level : Level} {ts : List Token} {e : Expr}
    (h : Expression level ts e) (hts : ∀ t ∈ ts, t.Genuine ∧ L t.literal) : e.Genuine L := by
  induction h with
  | tighter _ _ ih => exact ih hts
  | assign htarget _ _ ih =>
    simp only [List.forall_mem_cons] at hts
    exact .assign hts.1.1 htarget (ih hts.2.2)
  | @operation level _ _ _ left right op _ _ hop _ ihleft ihright =>
    simp only [List.forall_mem_append, List.forall_mem_cons] at hts
    obtain ⟨hleft, hgenuine, hright⟩ := hts
    have hbinary : ∀ {kinds : List TokenKind}, kinds ⊆ binaryOperators → op.kind ∈ kinds →
        (Expr.binary left op right).Genuine L :=
      fun hsubset hop => .binary (ihleft hleft) hgenuine.1 (hsubset hop) (ihright hright)
    cases level with
    | disjunction =>
      exact .logical (ihleft hleft) hgenuine.1 (.inr (List.mem_singleton.mp hop)) (ihright hright)
    | conjunction =>
      exact .logical (ihleft hleft) hgenuine.1 (.inl (List.mem_singleton.mp hop)) (ihright hright)
    | _ => exact hbinary (by decide) hop
  | prefixed hop _ ih =>
    simp only [List.forall_mem_cons] at hts
    exact .unary hts.1.1 hop (ih hts.2)
  | call _ _ _ hseparated _ hparen ih iharguments =>
    simp only [List.forall_mem_append, List.forall_mem_cons] at hts
    have hitems := hseparated.forall_mem hts.1.2.2
    refine .call (ih hts.1.1) hts.2.1.1 hparen (List.forall_mem_map.mpr fun argument hmem => ?_)
    exact iharguments argument hmem (hitems argument.1 (List.mem_map_of_mem hmem))
  | true_ | false_ | nil_ => exact .literal (hconstants _ (by simp [Literal.constants]))
  | number | string => exact .literal (List.forall_mem_singleton.mp hts).2
  | name hkind => exact .name (List.forall_mem_singleton.mp hts).1 hkind
  | grouping _ _ _ ih =>
    simp only [List.forall_mem_append, List.forall_mem_cons] at hts
    exact .grouping (ih hts.1.2)

theorem VariableDeclaration.genuine {ts : List Token} {s : Stmt} (h : VariableDeclaration ts s)
    (hts : ∀ t ∈ ts, t.Genuine ∧ L t.literal) : s.Genuine L := by
  cases h with
  | mk _ htarget hvalue _ =>
    simp only [List.forall_mem_append, List.forall_mem_cons] at hts
    obtain ⟨⟨-, hgenuine, hvalues⟩, -⟩ := hts
    refine .declare hgenuine.1 htarget (hvalue.genuine hvalues ?_)
    rintro _ _ ⟨-, he⟩ hus
    exact he.genuine hconstants (List.forall_mem_cons.mp hus).2

theorem ExpressionStatement.genuine {ts : List Token} {s : Stmt} (h : ExpressionStatement ts s)
    (hts : ∀ t ∈ ts, t.Genuine ∧ L t.literal) : s.Genuine L := by
  cases h with
  | mk he _ => exact .expression (he.genuine hconstants (List.forall_mem_append.mp hts).1)

theorem Start.genuine {ts : List Token} {start : Option Stmt} (h : Start ts start)
    (hts : ∀ t ∈ ts, t.Genuine ∧ L t.literal) : ∀ s ∈ start, s.Genuine L := by
  rintro s hs
  cases h with
  | none => cases hs
  | declaration h =>
    cases hs
    exact h.genuine hconstants hts
  | expression h =>
    cases hs
    exact h.genuine hconstants hts

/-- The tree of a `for` loop is genuine if its clauses and its body are. -/
theorem genuine_forLoop {start : Option Stmt} {condition step : Option Expr} {body : Stmt}
    (hstart : ∀ s ∈ start, s.Genuine L) (hcondition : ∀ e ∈ condition, e.Genuine L)
    (hstep : ∀ e ∈ step, e.Genuine L) (hbody : body.Genuine L) :
    (Stmt.forLoop start condition step body).Genuine L := by
  have hholds : (condition.getD (.literal (.bool true))).Genuine L := by
    cases condition with
    | none => exact .literal (hconstants _ (by simp [Literal.constants]))
    | some e => exact hcondition e rfl
  have hblock : ∀ {s s' : Stmt}, s.Genuine L → s'.Genuine L → (Stmt.block [s, s']).Genuine L :=
    fun hs hs' => .block (List.forall_mem_cons.mpr ⟨hs, List.forall_mem_singleton.mpr hs'⟩)
  unfold Stmt.forLoop
  cases step with
  | none =>
    cases start with
    | none => exact .loop hholds hbody
    | some s => exact hblock (hstart s rfl) (.loop hholds hbody)
  | some e =>
    have hround := hblock hbody (.expression (hstep e rfl))
    cases start with
    | none => exact .loop hholds hround
    | some s => exact hblock (hstart s rfl) (.loop hholds hround)

/-- The tree of a **statement** of scanned tokens is genuine. -/
theorem Statement.genuine {category : Category} {ts : List Token} {s : Stmt}
    (h : Statement category ts s) (hts : ∀ t ∈ ts, t.Genuine ∧ L t.literal) : s.Genuine L := by
  have hoptional : ∀ {us : List Token} {value : Option Expr},
      Optional (Expression .assignment) us value → (∀ t ∈ us, t.Genuine ∧ L t.literal) →
        ∀ e ∈ value, e.Genuine L :=
    fun h hus => h.genuine hus (Expression.genuine hconstants)
  induction h with
  | statement _ ih => exact ih hts
  | function _ htarget _ hparameters hseparated _ _ _ _ _ ih =>
    simp only [List.forall_mem_append, List.forall_mem_cons] at hts
    obtain ⟨⟨⟨-, hgenuine, -, hnames⟩, -, -, hbody⟩, -⟩ := hts
    have hitems := List.forall_mem_map.mp (hseparated.forall_mem hnames)
    refine .function hgenuine.1 htarget (fun t ht => ?_) (genuine_of_pieces hbody ih)
    exact ⟨(hitems t ht t (List.mem_singleton_self t)).1, hparameters t ht⟩
  | variable_ h => exact h.genuine hconstants hts
  | expression h => exact h.genuine hconstants hts
  | print _ he _ =>
    simp only [List.forall_mem_append, List.forall_mem_cons] at hts
    exact .print (he.genuine hconstants hts.1.2)
  | returnValue hkeyword hvalue _ =>
    simp only [List.forall_mem_append, List.forall_mem_cons] at hts
    exact .returnValue hts.1.1.1 hkeyword (hoptional hvalue hts.1.2)
  | block _ _ _ ih =>
    simp only [List.forall_mem_append, List.forall_mem_cons] at hts
    exact .block (genuine_of_pieces hts.1.2 ih)
  | loop _ _ he _ _ ih =>
    simp only [List.forall_mem_append, List.forall_mem_cons] at hts
    exact .loop (he.genuine hconstants hts.1.2.2) (ih hts.2.2)
  | forLoop _ _ hstart hcondition _ hstep _ _ ih =>
    simp only [List.forall_mem_append, List.forall_mem_cons] at hts
    obtain ⟨⟨⟨⟨-, -, hstarts⟩, hconditions⟩, -, hsteps⟩, -, hbody⟩ := hts
    exact genuine_forLoop hconstants (hstart.genuine hconstants hstarts)
      (hoptional hcondition hconditions) (hoptional hstep hsteps) (ih hbody)
  | branch _ _ he _ _ ih =>
    simp only [List.forall_mem_append, List.forall_mem_cons] at hts
    refine .branch (he.genuine hconstants hts.1.2.2) (ih hts.2.2) fun s hs => ?_
    cases hs
  | branches _ _ he _ _ _ _ ihyes ihno =>
    simp only [List.forall_mem_append, List.forall_mem_cons] at hts
    obtain ⟨⟨⟨-, -, hcondition⟩, -, hyes⟩, -, hno⟩ := hts
    refine .branch (he.genuine hconstants hcondition) (ihyes hyes) fun s hs => ?_
    cases hs
    exact ihno hno

end Grammar

/-- The statements **in** a genuine statement are genuine. -/
theorem Stmt.Genuine.parts {s : Stmt} (h : s.Genuine L) : ∀ t ∈ s.parts, t.Genuine L := by
  cases h with
  | expression | print | declare | returnValue => exact List.forall_mem_nil _
  | block hbody | function _ _ _ hbody => exact hbody
  | loop _ hbody => exact List.forall_mem_singleton.mpr hbody
  | @branch _ yes no _ hyes hno =>
    cases no with
    | none => exact List.forall_mem_singleton.mpr hyes
    | some no =>
      exact List.forall_mem_cons.mpr ⟨hyes, List.forall_mem_singleton.mpr (hno no rfl)⟩

/-- **What is read from a text is genuine**, also what is left of a text with faults, and its
literals are of a sort if those of the tokens are. -/
theorem parse_genuine {source : String} (hconstants : ∀ l ∈ Literal.constants, L l)
    (hL : ∀ t ∈ (scan source).tokens, L t.literal) :
    ∀ s ∈ (Parse.ofTokens (scan source).tokens).statements, s.Genuine L := by
  obtain ⟨kept, hkept, ⟨pieces, hpieces, rfl, hstatements⟩, -⟩ :=
    parse_survivors_parse (scan source).tokens
  rw [← hstatements]
  refine List.forall_mem_map.mpr fun piece hpiece => ?_
  refine (hpieces piece hpiece).genuine hconstants fun t ht => ?_
  have hbody : t ∈ Parse.body (scan source).tokens :=
    hkept.subset (List.mem_flatMap_of_mem hpiece ht)
  exact ⟨Token.genuine_of_mem_body hbody, hL t ((List.takeWhile_prefix _).subset hbody)⟩

end LoxLang
