import LoxLang.Proofs.Outline.Atoms
import LoxLang.Proofs.Outline.Genuine

/-!
# Indentation

An outline has one line for every statement, in the order in which the statements begin, and four
spaces in front of it for every statement that this one is in (`outline_lines`). Nothing in a line
but that space depends on where the outline stands, so the outline at a level is the one at the
margin, with as many spaces in front of **each** of its lines. The only line feeds that could get in
the way are those of strings.
-/

namespace LoxLang

/-! ### Literals of trees -/

/-- The **literals** of an expression. -/
def Expr.literals : Expr → List Literal
  | literal value => [value]
  | grouping inner => inner.literals
  | unary _ operand => operand.literals
  | binary left _ right => left.literals ++ right.literals
  | logical left _ right => left.literals ++ right.literals
  | name _ => []
  | assign _ value => value.literals
  | call callee _ arguments => callee.literals ++ arguments.flatMap literals

/-- The **literals** of a statement, and of the statements in it. -/
def Stmt.literals : Stmt → List Literal
  | expression value => value.literals
  | print value => value.literals
  | declare _ value => value.toList.flatMap Expr.literals
  | block body => body.flatMap literals
  | branch condition yes none => condition.literals ++ yes.literals
  | branch condition yes (some no) => condition.literals ++ yes.literals ++ no.literals
  | loop condition body => condition.literals ++ body.literals
  | function _ _ body => body.flatMap literals
  | returnValue _ value => value.toList.flatMap Expr.literals

variable {L L' : Literal → Prop}

/-- The literals of a genuine expression are those that it **has**. -/
theorem Expr.Genuine.of_literals {e : Expr} (h : e.Genuine L) (hl : ∀ l ∈ e.literals, L' l) :
    e.Genuine L' := by
  induction h with
  | literal => exact .literal (by simpa [literals] using hl)
  | grouping _ ih => exact .grouping (ih (by simpa [literals] using hl))
  | unary hop hkind _ ih => exact .unary hop hkind (ih (by simpa [literals] using hl))
  | binary _ hop hkind _ ihleft ihright =>
    rw [literals, List.forall_mem_append] at hl
    exact .binary (ihleft hl.1) hop hkind (ihright hl.2)
  | logical _ hop hkind _ ihleft ihright =>
    rw [literals, List.forall_mem_append] at hl
    exact .logical (ihleft hl.1) hop hkind (ihright hl.2)
  | name ht hkind => exact .name ht hkind
  | assign htarget hkind _ ih => exact .assign htarget hkind (ih (by simpa [literals] using hl))
  | call _ hparen hkind _ ih iharguments =>
    rw [literals, List.forall_mem_append, List.forall_mem_flatMap] at hl
    exact .call (ih hl.1) hparen hkind fun e he => iharguments e he (hl.2 e he)

/-- The literals of a genuine **statement** are those that it has. -/
theorem Stmt.Genuine.of_literals {s : Stmt} (h : s.Genuine L) (hl : ∀ l ∈ s.literals, L' l) :
    s.Genuine L' := by
  have hoptional : ∀ {value : Option Expr}, (∀ e ∈ value, e.Genuine L) →
      (∀ l ∈ value.toList.flatMap Expr.literals, L' l) → ∀ e ∈ value, e.Genuine L' := by
    rintro value hvalue hl e rfl
    exact (hvalue e rfl).of_literals (by simpa using hl)
  induction h with
  | expression hvalue => exact .expression (hvalue.of_literals (by simpa [literals] using hl))
  | print hvalue => exact .print (hvalue.of_literals (by simpa [literals] using hl))
  | declare htarget hkind hvalue =>
    rw [literals] at hl
    exact .declare htarget hkind (hoptional hvalue hl)
  | block _ ih =>
    rw [literals, List.forall_mem_flatMap] at hl
    exact .block fun s hs => ih s hs (hl s hs)
  | @branch _ _ no hcondition _ _ ihyes ihno =>
    cases no with
    | none =>
      rw [literals, List.forall_mem_append] at hl
      exact .branch (hcondition.of_literals hl.1) (ihyes hl.2) fun s hs => by cases hs
    | some no =>
      rw [literals, List.forall_mem_append, List.forall_mem_append] at hl
      refine .branch (hcondition.of_literals hl.1.1) (ihyes hl.1.2) fun s hs => ?_
      cases hs
      exact ihno no rfl hl.2
  | loop hcondition _ ih =>
    rw [literals, List.forall_mem_append] at hl
    exact .loop (hcondition.of_literals hl.1) (ih hl.2)
  | function htarget hkind hparameters _ ih =>
    rw [literals, List.forall_mem_flatMap] at hl
    exact .function htarget hkind hparameters fun s hs => ih s hs (hl s hs)
  | returnValue hkeyword hkind hvalue =>
    rw [literals] at hl
    exact .returnValue hkeyword hkind (hoptional hvalue hl)

/-! ### Texts of one line -/

/-- A text without line feeds. -/
def OneLine (text : String) : Prop := '\n' ∉ text.toList

/-- A literal without line feeds. -/
def Literal.isOneLine : Literal → Bool
  | string text => !text.toList.contains '\n'
  | nil | bool _ | number _ => true

theorem OneLine.of_isWord {text : String} (h : IsWord text.toList) : OneLine text :=
  fun hmem => absurd (h.plain _ hmem) (by decide)

theorem OneLine.append {text text' : String} (h : OneLine text) (h' : OneLine text') :
    OneLine (text ++ text') := by
  rw [OneLine, String.toList_append]
  exact List.not_mem_append h h'

theorem OneLine.words {words : List String} (h : ∀ word ∈ words, OneLine word) :
    OneLine (" ".intercalate words) := by
  induction words with
  | nil =>
    rw [OneLine, String.intercalate_nil]
    exact List.not_mem_nil
  | cons word words ih =>
    obtain ⟨hword, hwords⟩ := List.forall_mem_cons.mp h
    cases words with
    | nil => rwa [String.intercalate_singleton]
    | cons next words =>
      rw [String.intercalate_cons_cons]
      exact (hword.append (by simp [OneLine])).append (ih hwords)

theorem OneLine.enclosed {text : String} (h : OneLine text) : OneLine ("(" ++ text ++ ")") :=
  (OneLine.append (by simp [OneLine]) h).append (by simp [OneLine])

theorem Literal.oneLine_source {l : Literal} (h : l.isOneLine) : OneLine l.source := by
  cases l with
  | nil => simp [OneLine, source]
  | bool b => cases b <;> simp [OneLine, source]
  | number x => exact .of_isWord (isWord_number x)
  | string text =>
    have htext : OneLine text := by simpa [isOneLine, OneLine] using h
    exact (OneLine.append (by simp [OneLine]) htext).append (by simp [OneLine])

namespace Token.Genuine

variable {t : Token}

theorem oneLine_of_identifier (h : t.Genuine) (hkind : t.kind = .identifier) : OneLine t.lexeme :=
  .of_isWord (Lexeme.isWord_of_identifier (hkind ▸ h.lexeme))

theorem oneLine_of_operator (h : t.Genuine) (hkind : t.kind ∈ operators) : OneLine t.lexeme :=
  .of_isWord (h.lexeme.of_operator hkind).1

end Token.Genuine

theorem Expr.oneLine_of_words {e : Expr} (hne : e.words ≠ [])
    (h : ∀ word ∈ e.words, OneLine word) : OneLine e.outline := by
  rw [e.outline_eq hne]
  exact (OneLine.words h).enclosed

/-- The outline of an **expression** is a single line, if its strings are. -/
theorem Expr.Genuine.oneLine {e : Expr} (h : e.Genuine fun l => l.isOneLine) :
    OneLine e.outline := by
  have htags : ∀ tag ∈ tags, OneLine tag := by simp [tags, OneLine]
  induction h with
  | literal hvalue =>
    rw [outline]
    exact Literal.oneLine_source hvalue
  | grouping _ ih =>
    refine oneLine_of_words (List.cons_ne_nil _ _) ?_
    simpa [words] using ⟨htags _ (by decide), ih⟩
  | unary hop hkind _ ih =>
    refine oneLine_of_words (List.cons_ne_nil _ _) ?_
    simpa [words] using ⟨hop.oneLine_of_operator (mem_operators_of_unary hkind), ih⟩
  | binary _ hop hkind _ ihleft ihright =>
    refine oneLine_of_words (List.cons_ne_nil _ _) ?_
    simpa [words] using ⟨hop.oneLine_of_operator (mem_operators_of_binary hkind), ihleft, ihright⟩
  | logical _ hop hkind _ ihleft ihright =>
    refine oneLine_of_words (List.cons_ne_nil _ _) ?_
    simpa [words] using ⟨hop.oneLine_of_operator (mem_operators_of_logical hkind), ihleft, ihright⟩
  | name ht hkind =>
    rw [outline]
    exact ht.oneLine_of_identifier hkind
  | assign htarget hkind _ ih =>
    refine oneLine_of_words (List.cons_ne_nil _ _) ?_
    simpa [words] using ⟨htags _ (by decide), htarget.oneLine_of_identifier hkind, ih⟩
  | call _ _ _ _ ih iharguments =>
    refine oneLine_of_words (List.cons_ne_nil _ _) ?_
    simpa [words] using ⟨htags _ (by decide), ih, iharguments⟩

/-- The **heading** of a statement is a single line, if its strings are. -/
theorem Stmt.Genuine.oneLine_heading {s : Stmt} (h : s.Genuine fun l => l.isOneLine) :
    OneLine s.heading := by
  refine OneLine.words ?_
  cases h with
  | expression hvalue | print hvalue => simpa [words, OneLine] using hvalue.oneLine
  | @declare _ value htarget hkind hvalue =>
    have hname := htarget.oneLine_of_identifier hkind
    cases value with
    | none => simpa [words, OneLine] using hname
    | some e => simpa [words, OneLine] using ⟨hname, (hvalue e rfl).oneLine⟩
  | block => simp [words, OneLine]
  | branch hcondition | loop hcondition => simpa [words, OneLine] using hcondition.oneLine
  | function htarget hkind hparameters =>
    have hname := htarget.oneLine_of_identifier hkind
    have hnames := (OneLine.words (List.forall_mem_map.mpr fun t ht =>
      (hparameters t ht).1.oneLine_of_identifier (hparameters t ht).2)).enclosed
    refine List.forall_mem_cons.mpr ⟨by simp [OneLine], List.forall_mem_cons.mpr ⟨hname, ?_⟩⟩
    exact List.forall_mem_singleton.mpr hnames
  | @returnValue _ value _ _ hvalue =>
    cases value with
    | none => simp [words, OneLine]
    | some e => simpa [words, OneLine] using (hvalue e rfl).oneLine

/-! ### Rows -/

/-- A line of an outline: how much deeper it is than the first one, and its **text** behind the
space in front. -/
structure Row where
  depth : Nat
  text : List Char

namespace Row

/-- The row of a statement in another one. -/
def deeper (r : Row) : Row := { r with depth := r.depth + 1 }

/-- The row with a closing parenthesis. -/
def closed (r : Row) : Row := { r with text := r.text ++ [')'] }

/-- The rows with a closing parenthesis behind the last of them. -/
def closeLast : List Row → List Row
  | [] => []
  | [r] => [r.closed]
  | r :: next :: rows => r :: closeLast (next :: rows)

/-- The row in an outline at a level. -/
def render (level : Nat) (r : Row) : List Char :=
  List.replicate (4 * (level + r.depth)) ' ' ++ r.text

theorem render_deeper (level : Nat) (r : Row) : r.deeper.render level = r.render (level + 1) := by
  rw [render, render, deeper, Nat.add_assoc, Nat.add_comm 1]

theorem render_closed (level : Nat) (r : Row) :
    r.closed.render level = r.render level ++ [')'] := by
  rw [render, render, closed, List.append_assoc]

theorem render_eq (level : Nat) (r : Row) :
    r.render level = List.replicate (4 * level) ' ' ++ r.render 0 := by
  rw [render, render, ← List.append_assoc, List.replicate_append_replicate, Nat.zero_add,
    Nat.mul_add]

end Row

namespace Stmt

/-- The statements in a statement and itself, in the order in which they begin, and how **deep**
they are in it. -/
def levels (s : Stmt) : List (Nat × Stmt) :=
  (0, s) :: (s.parts.attach.flatMap fun t => t.1.levels).map fun p => (p.1 + 1, p.2)
termination_by sizeOf s
decreasing_by exact sizeOf_lt_of_mem_parts t.2

/-- The **rows** of the outline of a statement. -/
def rows (s : Stmt) : List Row :=
  Row.closeLast
    (⟨0, '(' :: s.heading.toList⟩ :: (s.parts.attach.flatMap fun t => t.1.rows).map Row.deeper)
termination_by sizeOf s
decreasing_by exact sizeOf_lt_of_mem_parts t.2

theorem levels_eq (s : Stmt) :
    s.levels = (0, s) :: (s.parts.flatMap levels).map fun p => (p.1 + 1, p.2) := by
  rw [levels]
  simp [List.flatMap_def]

theorem rows_eq (s : Stmt) :
    s.rows = Row.closeLast
      (⟨0, '(' :: s.heading.toList⟩ :: (s.parts.flatMap rows).map Row.deeper) := by
  rw [rows]
  simp [List.flatMap_def]

theorem rows_ne_nil (s : Stmt) : s.rows ≠ [] := by
  rw [rows_eq]
  cases (s.parts.flatMap rows).map Row.deeper <;> exact List.cons_ne_nil _ _

end Stmt

/-! ### Lines -/

/-- What is between two texts stands in front of **each** but the first. -/
theorem intercalate_cons_eq_flatMap (separator text : List Char) (texts : List (List Char)) :
    separator.intercalate (text :: texts) = text ++ texts.flatMap (separator ++ ·) := by
  induction texts generalizing text with
  | nil => rw [List.intercalate_singleton, List.flatMap_nil, List.append_nil]
  | cons next texts ih =>
    rw [List.intercalate_cons_cons, ih, List.flatMap_cons, List.append_assoc, List.append_assoc]

/-- The parenthesis behind the last row stands behind **all** of them. -/
theorem Row.intercalate_closeLast (level : Nat) {rows : List Row} (h : rows ≠ []) :
    ['\n'].intercalate ((closeLast rows).map (render level)) =
      ['\n'].intercalate (rows.map (render level)) ++ [')'] := by
  induction rows using closeLast.induct with
  | case1 => exact absurd rfl h
  | case2 r =>
    rw [closeLast, List.map_singleton, List.map_singleton, List.intercalate_singleton,
      List.intercalate_singleton, render_closed]
  | case3 r next rows ih =>
    have htail := ih (List.cons_ne_nil _ _)
    have hne : (closeLast (next :: rows)).map (render level) ≠ [] := by
      cases rows <;> exact List.cons_ne_nil _ _
    have hne' : (next :: rows).map (render level) ≠ [] := List.cons_ne_nil _ _
    rw [closeLast, List.map_cons, List.intercalate_cons_of_ne_nil hne, htail,
      List.map_cons (l := next :: rows), List.intercalate_cons_of_ne_nil hne',
      List.append_assoc (render level r ++ ['\n'])]

/-- What holds of rows, closed or not, holds when the last one is **closed**. -/
theorem Row.forall₂_closeLast {α : Type} {R : α → Row → Prop} {as : List α} {rows : List Row}
    (h : List.Forall₂ R as rows) (hclosed : ∀ a r, R a r → R a r.closed) :
    List.Forall₂ R as (closeLast rows) := by
  induction h with
  | nil => exact .nil
  | @cons a r as rows hfirst hrest ih =>
    cases rows with
    | nil =>
      cases hrest
      exact .cons (hclosed a r hfirst) .nil
    | cons => exact .cons hfirst ih

namespace Stmt

/-- Nested statements begin with a line feed each. -/
theorem toList_nested {level : Nat} {ss : List Stmt}
    (h : ∀ s ∈ ss, (s.lines level).toList = ['\n'].intercalate (s.rows.map (Row.render level))) :
    (nested level ss).toList = (ss.flatMap rows).flatMap fun r => '\n' :: r.render level := by
  induction ss with
  | nil =>
    rw [nested]
    rfl
  | cons s ss ih =>
    obtain ⟨hs, hss⟩ := List.forall_mem_cons.mp h
    obtain ⟨r, rows, hrows⟩ := List.exists_cons_of_ne_nil s.rows_ne_nil
    rw [toList_nested_cons, hs, ih hss, List.flatMap_cons, List.flatMap_append, hrows,
      List.map_cons, intercalate_cons_eq_flatMap, List.flatMap_map, List.flatMap_cons]
    rfl

/-- The outline of a statement is its **rows**, below one another. -/
theorem toList_lines (s : Stmt) (level : Nat) :
    (s.lines level).toList = ['\n'].intercalate (s.rows.map (Row.render level)) := by
  induction s using parts_induction generalizing level with
  | h s ih =>
    have hnested := toList_nested fun t ht => ih t ht (level + 1)
    rw [rows_eq, Row.intercalate_closeLast level (List.cons_ne_nil _ _), List.map_cons,
      intercalate_cons_eq_flatMap, List.map_map, List.flatMap_map]
    simp only [lines, outline_eq, String.toList_append, toList_indent, hnested,
      Function.comp_apply, Row.render_deeper]
    simp [Row.render]

/-- The row is that of a statement: its heading behind a parenthesis, and parentheses that close. -/
def Heads (p : Nat × Stmt) (r : Row) : Prop :=
  r.depth = p.1 ∧
    ∃ closing, r.text = '(' :: p.2.heading.toList ++ List.replicate closing ')'

/-- There is one **row** for every statement. -/
theorem forall₂_levels_rows (s : Stmt) : List.Forall₂ Heads s.levels s.rows := by
  induction s using parts_induction with
  | h s ih =>
    have hparts : ∀ {ts : List Stmt}, (∀ t ∈ ts, List.Forall₂ Heads t.levels t.rows) →
        List.Forall₂ Heads (ts.flatMap levels) (ts.flatMap rows) := by
      intro ts hts
      induction ts with
      | nil => exact .nil
      | cons t ts ihts =>
        obtain ⟨ht, hts⟩ := List.forall_mem_cons.mp hts
        exact List.rel_append ht (ihts hts)
    have hfirst : Heads (0, s) ⟨0, '(' :: s.heading.toList⟩ := ⟨rfl, 0, by simp⟩
    rw [levels_eq, rows_eq]
    refine Row.forall₂_closeLast (.cons hfirst ?_) ?_
    · rw [List.forall₂_map_left_iff, List.forall₂_map_right_iff]
      refine (hparts ih).imp fun p r hr => ⟨?_, hr.2⟩
      rw [Row.deeper, hr.1]
    · rintro p r ⟨hdepth, closing, htext⟩
      refine ⟨hdepth, closing + 1, ?_⟩
      rw [Row.closed, htext, List.replicate_succ', List.append_assoc]

end Stmt

/-- The statements in a genuine statement, at whatever level, are genuine. -/
theorem Stmt.Genuine.levels {s : Stmt} (h : s.Genuine L) : ∀ p ∈ s.levels, p.2.Genuine L := by
  induction s using parts_induction with
  | h s ih =>
    rw [levels_eq]
    refine List.forall_mem_cons.mpr ⟨h, List.forall_mem_map.mpr fun p hp => ?_⟩
    obtain ⟨t, ht, hp⟩ := List.mem_flatMap.mp hp
    exact ih t ht (h.parts t ht) p hp

/-- A row of a statement whose heading is a single line has **no line feed**. -/
theorem Stmt.Genuine.not_mem_rows {s : Stmt} (h : s.Genuine fun l => l.isOneLine) :
    ∀ r ∈ s.rows, '\n' ∉ r.text := by
  have hheadings : ∀ p ∈ s.levels, OneLine p.2.heading :=
    fun p hp => (h.levels p hp).oneLine_heading
  have hrows := s.forall₂_levels_rows
  generalize s.levels = ps at hheadings hrows
  generalize s.rows = rows at hrows
  induction hrows with
  | nil => exact List.forall_mem_nil _
  | cons hfirst _ ih =>
    obtain ⟨hheading, hheadings⟩ := List.forall_mem_cons.mp hheadings
    refine List.forall_mem_cons.mpr ⟨?_, ih hheadings⟩
    obtain ⟨-, closing, htext⟩ := hfirst
    rw [htext]
    refine List.not_mem_append (List.not_mem_cons_of_ne_of_not_mem (by decide) hheading)
      fun hmem => ?_
    exact absurd (List.eq_of_mem_replicate hmem) (by decide)

/-- The lines of a text. -/
def textLines (text : String) : List (List Char) := text.toList.splitOn '\n'

/-- The lines of an outline are its **rows**, if no string goes over the end of a line. -/
theorem Stmt.Genuine.textLines_lines {s : Stmt} (h : s.Genuine fun l => l.isOneLine) (level : Nat) :
    textLines (s.lines level) = s.rows.map (Row.render level) := by
  have hrender : ∀ row ∈ s.rows.map (Row.render level), '\n' ∉ row := by
    refine List.forall_mem_map.mpr fun r hr => ?_
    refine List.not_mem_append (fun hmem => ?_) (h.not_mem_rows r hr)
    exact absurd (List.eq_of_mem_replicate hmem) (by decide)
  have hne : s.rows.map (Row.render level) ≠ [] :=
    fun hnil => s.rows_ne_nil (List.map_eq_nil_iff.mp hnil)
  rw [textLines, toList_lines]
  exact List.splitOn_intercalate '\n' hrender hne

/-- **Indentation is uniform.** Take a statement that is read from a text, be it in another one or
not, without line feeds in its strings. Its outline at a level has the lines of its outline at the
margin, with four spaces for each level in front of every one of them. And at the margin there is
one line for every statement in it, in the order in which they begin: four spaces for each statement
that this one is in, its heading behind a parenthesis, and parentheses that close. -/
theorem outline_lines {source : String} {k : Nat} {s : Stmt}
    (hs : (k, s) ∈ (Parse.ofSource source).statements.flatMap Stmt.levels)
    (hstrings : ∀ l ∈ s.literals, l.isOneLine) :
    (∀ n, textLines (s.lines n) =
        (textLines (s.lines 0)).map (List.replicate (4 * n) ' ' ++ ·)) ∧
      List.Forall₂
        (fun p line => ∃ closing, line =
          List.replicate (4 * p.1) ' ' ++ '(' :: p.2.heading.toList ++ List.replicate closing ')')
        s.levels (textLines (s.lines 0)) := by
  obtain ⟨t, ht, hlevel⟩ := List.mem_flatMap.mp hs
  have hread : t.Genuine fun _ => True :=
    parse_genuine (fun _ _ => trivial) (fun _ _ => trivial) t ht
  have hgenuine : s.Genuine fun l => l.isOneLine := (hread.levels _ hlevel).of_literals hstrings
  refine ⟨fun n => ?_, ?_⟩
  · rw [hgenuine.textLines_lines, hgenuine.textLines_lines, List.map_map]
    exact List.map_congr_left fun r _ => r.render_eq n
  · rw [hgenuine.textLines_lines, List.forall₂_map_right_iff]
    refine s.forall₂_levels_rows.imp fun p r ⟨hdepth, closing, htext⟩ => ⟨closing, ?_⟩
    rw [Row.render, htext, hdepth, Nat.zero_add, List.append_assoc]

/-- A **function** with an `if` in it, at all levels. The parenthesis in the string is none of the
outline. -/
theorem outline_lines_of_function :
    let source := "fun f(a) \x7b if (a) print \"(\"; else return -a; \x7d"
    let a := Token.of .identifier "a"
    let s : Stmt := .function (.of .identifier "f") [a]
      [.branch (.name a) (.print (.literal (.string "(")))
        (some (.returnValue (.of (.keyword .return_) "return")
          (some (.unary (.of .minus "-") (.name a)))))]
    (Parse.ofSource source).statements = [s] ∧ (∀ l ∈ s.literals, l.isOneLine) ∧
      ∀ n, textLines (s.lines n) =
        (["(fun f (a)", "    (if a", "        (print \"(\")", "        (return (- a))))"].map
          String.toList).map (List.replicate (4 * n) ' ' ++ ·) := by
  intro source a s
  have hprogram : Rule.program (Parse.body (scan source).tokens) = ⟨[], .ok ([s], [])⟩ := by cbv
  have hs : (Parse.ofSource source).statements = [s] :=
    congrArg Parse.statements (Parse.ofTokens_eq hprogram)
  have hstrings : ∀ l ∈ s.literals, l.isOneLine := by
    simp [s, Stmt.literals, Expr.literals, Literal.isOneLine]
  have hlines : textLines (s.lines 0) =
      ["(fun f (a)", "    (if a", "        (print \"(\")", "        (return (- a))))"].map
        String.toList := by decide +kernel
  have hmem : (0, s) ∈ (Parse.ofSource source).statements.flatMap Stmt.levels := by
    rw [hs, List.flatMap_singleton, Stmt.levels_eq]
    exact List.mem_cons_self
  refine ⟨hs, hstrings, fun n => ?_⟩
  rw [(outline_lines hmem hstrings).1 n, hlines]

end LoxLang
