import LoxLang.Proofs.Syntax.Recognition

/-!
# Trees with other tokens

The grammar looks at the kind of a token and at what a literal denotes, and puts tokens into the
tree as they are. So a program stays one when its tokens are **replaced** by others with the same
kinds and values, such as the tokens of other lines, and its tree changes only in its tokens
(`Grammar.Program.mapTokens`).
-/

namespace LoxLang

/-! ### Replacing tokens -/

/-- The expression with every token replaced. -/
def Expr.mapTokens (f : Token → Token) : Expr → Expr
  | literal value => literal value
  | grouping inner => grouping (inner.mapTokens f)
  | unary op operand => unary (f op) (operand.mapTokens f)
  | binary left op right => binary (left.mapTokens f) (f op) (right.mapTokens f)
  | logical left op right => logical (left.mapTokens f) (f op) (right.mapTokens f)
  | name token => name (f token)
  | assign target value => assign (f target) (value.mapTokens f)
  | call callee paren arguments => call (callee.mapTokens f) (f paren) (arguments.map (mapTokens f))

/-- The statement with every token replaced. -/
def Stmt.mapTokens (f : Token → Token) : Stmt → Stmt
  | expression value => expression (value.mapTokens f)
  | print value => print (value.mapTokens f)
  | declare target value => declare (f target) (value.map (Expr.mapTokens f))
  | block body => block (body.map (mapTokens f))
  | branch condition yes none => branch (condition.mapTokens f) (yes.mapTokens f) none
  | branch condition yes (some no) =>
    branch (condition.mapTokens f) (yes.mapTokens f) (some (no.mapTokens f))
  | loop condition body => loop (condition.mapTokens f) (body.mapTokens f)
  | function target parameters body =>
    function (f target) (parameters.map f) (body.map (mapTokens f))
  | returnValue keyword value => returnValue (f keyword) (value.map (Expr.mapTokens f))

theorem Stmt.mapTokens_forLoop (f : Token → Token) (start : Option Stmt)
    (condition step : Option Expr) (body : Stmt) :
    (forLoop start condition step body).mapTokens f =
      forLoop (start.map (mapTokens f)) (condition.map (Expr.mapTokens f))
        (step.map (Expr.mapTokens f)) (body.mapTokens f) := by
  cases start <;> cases condition <;> cases step <;>
    simp only [forLoop, mapTokens, Expr.mapTokens, Option.map_some, Option.map_none,
      Option.getD_some, Option.getD_none, List.map_cons, List.map_nil]

namespace Grammar

variable {f : Token → Token}

theorem Level.mapTokens_combine (level : Level) (left : Expr) (op : Token) (right : Expr) :
    (level.combine left op right).mapTokens f =
      level.combine (left.mapTokens f) (f op) (right.mapTokens f) := by
  cases level <;> simp [combine, Expr.mapTokens]

/-! ### Derivations -/

theorem Separated.map {items : List (List Token)} {us : List Token} (h : Separated items us)
    (hkind : ∀ t, (f t).kind = t.kind) : Separated (items.map (List.map f)) (us.map f) := by
  induction h with
  | none => exact .none
  | one => exact .one
  | cons hcomma _ ih =>
    rw [List.map_append]
    exact .cons ((hkind _).trans hcomma) ih

/-- A list of pieces with every token replaced. -/
def mapPieces {α : Type} (f : Token → Token) (g : α → α) (pieces : List (List Token × α)) :
    List (List Token × α) :=
  pieces.map fun piece => (piece.1.map f, g piece.2)

section

variable {α : Type} {g : α → α} {pieces : List (List Token × α)}

theorem forall_mem_mapPieces {rule : List Token → α → Prop}
    (h : ∀ piece ∈ pieces, rule (piece.1.map f) (g piece.2)) :
    ∀ piece ∈ mapPieces f g pieces, rule piece.1 piece.2 := by
  intro _ hmem
  obtain ⟨piece, hpiece, rfl⟩ := List.mem_map.mp hmem
  exact h piece hpiece

theorem map_fst_mapPieces :
    (mapPieces f g pieces).map Prod.fst = (pieces.map Prod.fst).map (List.map f) := by
  simp [mapPieces]

theorem map_snd_mapPieces : (mapPieces f g pieces).map Prod.snd = (pieces.map Prod.snd).map g := by
  simp [mapPieces]

theorem flatMap_fst_mapPieces :
    (mapPieces f g pieces).flatMap Prod.fst = (pieces.flatMap Prod.fst).map f := by
  simp [mapPieces, List.flatMap_map, List.map_flatMap]

end

variable (hkind : ∀ t, (f t).kind = t.kind) (hliteral : ∀ t, (f t).literal = t.literal)

include hkind hliteral

theorem Expression.mapTokens {level : Level} {ts : List Token} {e : Expr}
    (h : Expression level ts e) : Expression level (ts.map f) (e.mapTokens f) := by
  have hkind' : ∀ {t : Token} {kind : TokenKind}, t.kind = kind → (f t).kind = kind :=
    fun h => (hkind _).trans h
  induction h with
  | tighter htighter _ ih => exact .tighter htighter ih
  | assign htarget hequals _ ih =>
    rw [Expr.mapTokens]
    exact .assign (hkind' htarget) (hkind' hequals) ih
  | operation htighter _ hop _ ihleft ihright =>
    rw [List.map_append, Level.mapTokens_combine]
    exact .operation htighter ihleft (by rwa [hkind]) ihright
  | prefixed hop _ ih =>
    rw [Expr.mapTokens]
    exact .prefixed (by rwa [hkind]) ih
  | call _ hopening _ hseparated hlength hparen ih iharguments =>
    rw [Expr.mapTokens, ← map_snd_mapPieces (f := f)]
    simp only [List.map_append, List.map_cons, List.map_nil]
    refine .call ih (hkind' hopening) (forall_mem_mapPieces iharguments) ?_ ?_ (hkind' hparen)
    · rw [map_fst_mapPieces]
      exact hseparated.map hkind
    · rwa [mapPieces, List.length_map]
  | true_ ht => simpa [Expr.mapTokens] using .true_ (hkind' ht)
  | false_ ht => simpa [Expr.mapTokens] using .false_ (hkind' ht)
  | nil_ ht => simpa [Expr.mapTokens] using .nil_ (hkind' ht)
  | number ht =>
    rw [Expr.mapTokens, ← hliteral]
    exact .number (hkind' ht)
  | string ht =>
    rw [Expr.mapTokens, ← hliteral]
    exact .string (hkind' ht)
  | name ht =>
    rw [Expr.mapTokens]
    exact .name (hkind' ht)
  | grouping hopening _ hclosing ih =>
    rw [Expr.mapTokens]
    simp only [List.map_append, List.map_cons, List.map_nil]
    exact .grouping (hkind' hopening) ih (hkind' hclosing)

theorem Optional.mapTokens {ts : List Token} {value : Option Expr}
    (h : Optional (Expression .assignment) ts value) :
    Optional (Expression .assignment) (ts.map f) (value.map (Expr.mapTokens f)) := by
  cases h with
  | none => exact .none
  | some h => exact .some (h.mapTokens hkind hliteral)

theorem VariableDeclaration.mapTokens {ts : List Token} {s : Stmt} (h : VariableDeclaration ts s) :
    VariableDeclaration (ts.map f) (s.mapTokens f) := by
  cases h with
  | mk hvar htarget hvalue hsemicolon =>
    rw [Stmt.mapTokens]
    simp only [List.map_append, List.map_cons, List.map_nil]
    refine .mk ((hkind _).trans hvar) ((hkind _).trans htarget) ?_ ((hkind _).trans hsemicolon)
    cases hvalue with
    | none => exact .none
    | some hvalue =>
      cases hvalue with
      | mk hequals he => exact .some (.mk ((hkind _).trans hequals) (he.mapTokens hkind hliteral))

theorem ExpressionStatement.mapTokens {ts : List Token} {s : Stmt} (h : ExpressionStatement ts s) :
    ExpressionStatement (ts.map f) (s.mapTokens f) := by
  cases h with
  | mk he hsemicolon =>
    rw [Stmt.mapTokens]
    simp only [List.map_append, List.map_cons, List.map_nil]
    exact .mk (he.mapTokens hkind hliteral) ((hkind _).trans hsemicolon)

theorem Start.mapTokens {ts : List Token} {start : Option Stmt} (h : Start ts start) :
    Start (ts.map f) (start.map (Stmt.mapTokens f)) := by
  cases h with
  | none hsemicolon => exact .none ((hkind _).trans hsemicolon)
  | declaration h => exact .declaration (h.mapTokens hkind hliteral)
  | expression h => exact .expression (h.mapTokens hkind hliteral)

theorem Statement.mapTokens {category : Category} {ts : List Token} {s : Stmt}
    (h : Statement category ts s) : Statement category (ts.map f) (s.mapTokens f) := by
  have hkind' : ∀ {t : Token} {kind : TokenKind}, t.kind = kind → (f t).kind = kind :=
    fun h => (hkind _).trans h
  induction h with
  | statement _ ih => exact .statement ih
  | function hfun htarget hopening hparameters hseparated hlength hclosing hleft _ hright ih =>
    rw [Stmt.mapTokens, ← map_snd_mapPieces (f := f)]
    simp only [List.map_append, List.map_cons, List.map_nil]
    rw [← flatMap_fst_mapPieces (g := Stmt.mapTokens f)]
    refine .function (hkind' hfun) (hkind' htarget) (hkind' hopening) ?_ ?_ ?_ (hkind' hclosing)
      (hkind' hleft) (forall_mem_mapPieces ih) (hkind' hright)
    · intro _ hmem
      obtain ⟨parameter, hparameter, rfl⟩ := List.mem_map.mp hmem
      exact hkind' (hparameters parameter hparameter)
    · simpa [List.map_map, Function.comp_def] using hseparated.map hkind
    · rwa [List.length_map]
  | variable_ h => exact .variable_ (h.mapTokens hkind hliteral)
  | expression h => exact .expression (h.mapTokens hkind hliteral)
  | print hkeyword he hsemicolon =>
    rw [Stmt.mapTokens]
    simp only [List.map_append, List.map_cons, List.map_nil]
    exact .print (hkind' hkeyword) (he.mapTokens hkind hliteral) (hkind' hsemicolon)
  | returnValue hkeyword hvalue hsemicolon =>
    rw [Stmt.mapTokens]
    simp only [List.map_append, List.map_cons, List.map_nil]
    exact .returnValue (hkind' hkeyword) (hvalue.mapTokens hkind hliteral) (hkind' hsemicolon)
  | block hleft _ hright ih =>
    rw [Stmt.mapTokens, ← map_snd_mapPieces (f := f)]
    simp only [List.map_append, List.map_cons, List.map_nil]
    rw [← flatMap_fst_mapPieces (g := Stmt.mapTokens f)]
    exact .block (hkind' hleft) (forall_mem_mapPieces ih) (hkind' hright)
  | loop hkeyword hopening he hclosing _ ih =>
    rw [Stmt.mapTokens]
    simp only [List.map_append, List.map_cons]
    exact .loop (hkind' hkeyword) (hkind' hopening) (he.mapTokens hkind hliteral)
      (hkind' hclosing) ih
  | forLoop hkeyword hopening hstart hcondition hsemicolon hstep hclosing _ ih =>
    rw [Stmt.mapTokens_forLoop]
    simp only [List.map_append, List.map_cons]
    exact .forLoop (hkind' hkeyword) (hkind' hopening) (hstart.mapTokens hkind hliteral)
      (hcondition.mapTokens hkind hliteral) (hkind' hsemicolon) (hstep.mapTokens hkind hliteral)
      (hkind' hclosing) ih
  | branch hkeyword hopening he hclosing _ ih =>
    rw [Stmt.mapTokens]
    simp only [List.map_append, List.map_cons]
    exact .branch (hkind' hkeyword) (hkind' hopening) (he.mapTokens hkind hliteral)
      (hkind' hclosing) ih
  | branches hkeyword hopening he hclosing _ hotherwise _ ihyes ihno =>
    rw [Stmt.mapTokens]
    simp only [List.map_append, List.map_cons]
    exact .branches (hkind' hkeyword) (hkind' hopening) (he.mapTokens hkind hliteral)
      (hkind' hclosing) ihyes (hkind' hotherwise) ihno

/-- A **program** stays one when its tokens are replaced by others with the same kinds and values,
and its tree changes only in its tokens. -/
theorem Program.mapTokens {ts : List Token} {program : List Stmt} (h : Program ts program) :
    Program (ts.map f) (program.map (Stmt.mapTokens f)) := by
  obtain ⟨pieces, hpieces, rfl, rfl⟩ := h
  exact ⟨mapPieces f (Stmt.mapTokens f) pieces,
    forall_mem_mapPieces fun piece hpiece => (hpieces piece hpiece).mapTokens hkind hliteral,
    flatMap_fst_mapPieces, map_snd_mapPieces⟩

omit hkind hliteral in
/-- Two programs, one behind the other, are one program. -/
theorem Program.append {ts us : List Token} {program program' : List Stmt} (h : Program ts program)
    (h' : Program us program') : Program (ts ++ us) (program ++ program') := by
  obtain ⟨pieces, hpieces, rfl, rfl⟩ := h
  obtain ⟨pieces', hpieces', rfl, rfl⟩ := h'
  refine ⟨pieces ++ pieces', ?_, List.flatMap_append, List.map_append⟩
  exact List.forall_mem_append.mpr ⟨hpieces, hpieces'⟩

end Grammar

end LoxLang
