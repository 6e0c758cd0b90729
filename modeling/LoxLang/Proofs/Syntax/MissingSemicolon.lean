import LoxLang.Proofs.Syntax.Recognition

/-!
# A missing semicolon at the end of a block

Recovery always skips the token at which a declaration was rejected. When the last statement of a
block lacks its semicolon, that token is the closing brace of the block, and so the block **stays
open**: what stands behind the brace is read as if it stood in the block. `parse_missing_semicolon`
says what the parse comes to. In particular, if the rest of the tokens is a list of whole
declarations that begins with a keyword, nothing remains of the block and of the rest.
-/

namespace LoxLang

open Grammar

namespace Grammar

/-- The tokens **open a block**: a block statement, or the body of a function. With them comes the
tree that the statements of the block will make. -/
inductive OpensBlock : List Token → (List Stmt → Stmt) → Prop
  | block {left : Token} : left.kind = .leftBrace → OpensBlock [left] .block
  | function {fun_ target opening closing left : Token} {parameters us : List Token} :
    fun_.kind = .keyword .fun_ → target.kind = .identifier → opening.kind = .leftParen →
      (∀ parameter ∈ parameters, parameter.kind = .identifier) →
      Separated (parameters.map ([·])) us → parameters.length ≤ maxArguments →
      closing.kind = .rightParen → left.kind = .leftBrace →
      OpensBlock (fun_ :: target :: opening :: us ++ [closing, left])
        (.function target parameters)

theorem OpensBlock.append_ne_nil {front behind : List Token} {wrap : List Stmt → Stmt}
    (h : OpensBlock front wrap) : front ++ behind ≠ [] := by
  cases h <;> simp

/-- A block that is opened, and closed behind declarations, is a declaration. -/
theorem OpensBlock.statement {front : List Token} {wrap : List Stmt → Stmt}
    (h : OpensBlock front wrap) {pieces : List (List Token × Stmt)} {right : Token}
    (hpieces : ∀ piece ∈ pieces, Statement .declaration piece.1 piece.2)
    (hright : right.kind = .rightBrace) :
    Statement .declaration (front ++ pieces.flatMap Prod.fst ++ [right])
      (wrap (pieces.map Prod.snd)) := by
  cases h with
  | block hleft => exact .statement (.block hleft hpieces hright)
  | function hfun htarget hopening hparameters hseparated hlimit hclosing hleft =>
    have hfunction := Statement.function hfun htarget hopening hparameters hseparated hlimit
      hclosing hleft hpieces hright
    simpa using hfunction

end Grammar

namespace Rule

/-! ### The block -/

/-- Behind the tokens that open a block, the block is read. -/
theorem declaration_of_opensBlock {front behind : List Token} {wrap : List Stmt → Stmt}
    (h : OpensBlock front wrap) {n : Nat} (hlength : (front ++ behind).length ≤ n) :
    declaration n (front ++ behind) =
      recover (wrap <$> block (declaration n) n : Rule Stmt) behind := by
  rw [declaration_eq hlength]
  have hbody : declarationBody (Phrase.expression n) (statement n) (declaration n) n
      (front ++ behind) = (wrap <$> block (declaration n) n : Rule Stmt) behind := by
    cases h with
    | block hleft => simp only [List.singleton_append, declarationBody, statementBody, hleft]
    | @function fun_ target opening closing left parameters us hfun htarget hopening hparameters
        hseparated hlimit hclosing hleft =>
      have happend : fun_ :: target :: opening :: us ++ [closing, left] ++ behind =
          fun_ :: target :: opening :: (us ++ closing :: left :: behind) := by simp
      rw [happend]
      simp only [declarationBody, hfun]
      exact functionDeclaration_eq_block htarget hopening hparameters hseparated hlimit hclosing
        hleft
  rw [recover, recover, hbody]

/-- A `print` without its semicolon in front of a brace is dropped, and the brace is skipped. -/
theorem declaration_of_missing_semicolon {keyword right : Token} {us behind : List Token} {e : Expr}
    (hkeyword : keyword.kind = .keyword .print_) (he : Expression .assignment us e)
    (hright : right.kind = .rightBrace) {n : Nat}
    (hlength : (keyword :: (us ++ right :: behind)).length ≤ n) :
    Answers (declaration n) (keyword :: (us ++ right :: behind))
      [⟨some right, .noSymbol .afterValue⟩] none (skipPast right behind) := by
  have hread : Phrase.expression n (us ++ right :: behind) = .ok (e, right :: behind) := by
    refine Phrase.expression_complete n he (fun t ht => ?_) (Nat.le_of_succ_le hlength)
    cases ht
    rw [hright]
    decide
  have hreject : printStatement (Phrase.expression n) (us ++ right :: behind) =
      .error ⟨⟨some right, .noSymbol .afterValue⟩, right :: behind⟩ := by
    refine (Phrase.bind_of_ok hread).trans (Phrase.bind_of_error ?_)
    refine Phrase.expect_of_forall_not fun t ht => ?_
    cases ht
    rw [hright]
    decide
  rw [Answers, declaration_eq hlength, recover]
  have hbody : declarationBody (Phrase.expression n) (statement n) (declaration n) n
      (keyword :: (us ++ right :: behind)) =
        ⟨[], .error ⟨⟨some right, .noSymbol .afterValue⟩, right :: behind⟩⟩ := by
    simp only [declarationBody, statementBody, hkeyword]
    exact congrArg (Reply.mk []) hreject
  rw [hbody]
  rfl

section

variable {declaration : Rule (Option Stmt)}

/-- A block takes over what stands in front of its statements. -/
theorem block_preceded {k m : Nat} {ts us : List Token} {faults : List SyntaxFault}
    {g : List Stmt → List Stmt}
    (h : declarations declaration blockEnds k ts =
      (declarations declaration blockEnds m us).preceded faults g) :
    block declaration k ts = (block declaration m us).preceded faults g := by
  refine bind_preceded h fun body rest => ?_
  have hsymbol : (liftM (Phrase.symbol .afterBlock) : Rule Token) rest =
      ((liftM (Phrase.symbol .afterBlock) : Rule Token) rest).preceded [] id :=
    (Reply.preceded_nil fun _ => rfl).symm
  exact bind_preceded hsymbol fun _ _ => rfl

end

/-- A block is read, unless the tokens run out in front of its closing brace. -/
theorem block_cases {n : Nat} {ts : List Token} (h : ts.length ≤ n) :
    (∃ faults ss rest, Answers (block (declaration n) n) ts faults ss rest) ∨
      ∃ faults, block (declaration n) n ts =
        ⟨faults, .error ⟨⟨none, .noSymbol .afterBlock⟩, []⟩⟩ := by
  obtain ⟨faults, ss, rest, hanswers⟩ :=
    answers_declarations (answers_declaration n) blockEnds n ts
  have hstop := stop_of_answers (declaration_advances n) rfl h hanswers
  cases rest with
  | nil =>
    refine .inr ⟨faults, ?_⟩
    rw [block, bind_of_ok hanswers]
    exact congrArg (fun φ => Reply.mk φ _) (List.append_nil faults)
  | cons right rest =>
    have hright : right.kind = .rightBrace := by simpa [blockEnds] using hstop
    refine .inl ⟨faults, ss, rest, answers_bind_iff.mpr ⟨faults, ss, _, [], hanswers, ?_, ?_⟩⟩
    · exact reads_expect_bind_iff.mpr ⟨right, rest, rfl, hright, reads_pure_iff.mpr ⟨rfl, rfl⟩⟩
    · exact (List.append_nil faults).symm

/-- A block of whole declarations that is not closed is rejected at the end of the tokens. -/
theorem block_of_unclosed {pieces : List (List Token × Stmt)}
    (hpieces : ∀ piece ∈ pieces, Statement .declaration piece.1 piece.2) {n : Nat}
    (hlength : (pieces.flatMap Prod.fst).length ≤ n) :
    block (declaration n) n (pieces.flatMap Prod.fst) =
      ⟨[], .error ⟨⟨none, .noSymbol .afterBlock⟩, []⟩⟩ := by
  have hbody : Reads (declarations (declaration n) blockEnds n) (pieces.flatMap Prod.fst ++ [])
      (pieces.map Prod.snd) [] :=
    declarations_complete (declaration_complete n) not_blockEnds_cons hpieces rfl nofun
      (by rwa [List.append_nil])
  rw [List.append_nil] at hbody
  rw [block, bind_of_ok hbody]
  rfl

/-- Where the last `print` of a block lacks its semicolon, the block goes on behind the brace. -/
theorem block_of_missing_semicolon {pieces : List (List Token × Stmt)} {keyword right : Token}
    {us behind : List Token} {e : Expr}
    (hpieces : ∀ piece ∈ pieces, Statement .declaration piece.1 piece.2)
    (hkeyword : keyword.kind = .keyword .print_) (he : Expression .assignment us e)
    (hright : right.kind = .rightBrace) {n : Nat}
    (hlength : (pieces.flatMap Prod.fst ++ keyword :: (us ++ right :: behind)).length ≤ n) :
    block (declaration n) n (pieces.flatMap Prod.fst ++ keyword :: (us ++ right :: behind)) =
      (block (declaration n) n (skipPast right behind)).preceded
        [⟨some right, .noSymbol .afterValue⟩] (pieces.map Prod.snd ++ ·) := by
  have hprint : keyword.kind ∉ closesStatement := by
    rw [hkeyword]
    decide
  have helse : ∀ t ∈ (keyword :: (us ++ right :: behind)).head?, t.kind ≠ .keyword .else_ := by
    intro t ht
    cases ht
    rw [hkeyword]
    decide
  have hshorter : (keyword :: (us ++ right :: behind)).length ≤ n := by
    rw [List.length_append] at hlength
    omega
  have hdropped := declaration_of_missing_semicolon hkeyword he hright hshorter
  refine block_preceded ?_
  -- With a larger bound, the declarations in front can be counted off.
  have hbound := declarations_agree (.refl n _) (declaration_advances n) blockEnds rfl
    (Nat.le_refl n) (show n ≤ n + 1 + pieces.length by omega) hlength
  rw [hbound, declarations_append (declaration_complete n) not_blockEnds_cons hpieces helse hlength,
    declarations_of_answers (not_blockEnds_cons keyword _ hprint) hdropped,
    Reply.preceded_preceded]
  rfl

/-! ### The program -/

/-- A program goes on behind its first declaration. -/
theorem program_of_answers {n : Nat} {ts rest : List Token} {faults : List SyntaxFault}
    {o : Option Stmt} (hne : ts ≠ []) (hlength : ts.length ≤ n)
    (h : Answers (declaration n) ts faults o rest) :
    program ts =
      (declarations (declaration n) List.isEmpty n rest).preceded faults (o.toList ++ ·) := by
  have hstop : ¬ List.isEmpty ts := fun hempty => hne (List.isEmpty_iff.mp hempty)
  have hbound := declarations_agree (.refl n _) (declaration_advances n) List.isEmpty rfl
    (Nat.le_refl n) (Nat.le_succ n) hlength
  rw [program_eq hlength, hbound]
  exact declarations_of_answers hstop h n

section

variable {front behind : List Token} {wrap : List Stmt → Stmt} (h : OpensBlock front wrap) {n : Nat}
  (hlength : (front ++ behind).length ≤ n)

include h hlength

/-- A program goes on behind the block that it begins with. -/
theorem program_of_block {faults : List SyntaxFault} {ss : List Stmt} {rest : List Token}
    (hblock : Answers (block (declaration n) n) behind faults ss rest) :
    program (front ++ behind) =
      (declarations (declaration n) List.isEmpty n rest).preceded faults (wrap ss :: ·) := by
  have hmap : Answers (wrap <$> block (declaration n) n) behind faults (wrap ss) rest :=
    answers_map_iff.mpr ⟨ss, hblock, rfl⟩
  refine program_of_answers h.append_ne_nil hlength (o := some (wrap ss)) ?_
  rw [Answers, declaration_of_opensBlock h hlength, recover, hmap]

/-- A program that begins with a block is lost, if the tokens run out in the block. -/
theorem program_of_unclosed {faults : List SyntaxFault}
    (hblock : block (declaration n) n behind =
      ⟨faults, .error ⟨⟨none, .noSymbol .afterBlock⟩, []⟩⟩) :
    Answers program (front ++ behind) (faults ++ [⟨none, .noSymbol .afterBlock⟩]) [] [] := by
  have hmap : (wrap <$> block (declaration n) n : Rule Stmt) behind =
      ⟨faults, .error ⟨⟨none, .noSymbol .afterBlock⟩, []⟩⟩ := bind_of_error hblock
  have hdropped : Answers (declaration n) (front ++ behind)
      (faults ++ [⟨none, .noSymbol .afterBlock⟩]) none [] := by
    rw [Answers, declaration_of_opensBlock h hlength, recover, hmap]
    rfl
  rw [Answers, program_of_answers h.append_ne_nil hlength hdropped, declarations_nil]
  exact congrArg (fun φ => Reply.mk φ _) (List.append_nil _)

end

/-- Where a block at the front lacks a semicolon at its end, the program is read like the one in
which the block begins behind the brace. -/
theorem program_of_missing_semicolon {front us : List Token} {wrap : List Stmt → Stmt}
    {pieces : List (List Token × Stmt)} {keyword right : Token} {e : Expr}
    (hopens : OpensBlock front wrap)
    (hpieces : ∀ piece ∈ pieces, Statement .declaration piece.1 piece.2)
    (hkeyword : keyword.kind = .keyword .print_) (he : Expression .assignment us e)
    (hright : right.kind = .rightBrace) (behind : List Token) :
    ∃ faults cut all rest,
      Answers program (front ++ skipPast right behind) faults cut rest ∧
      Answers program
        (front ++ (pieces.flatMap Prod.fst ++ keyword :: (us ++ right :: behind)))
        (⟨some right, .noSymbol .afterValue⟩ :: faults) all rest ∧
      (cut = [] ∧ all = [] ∨ ∃ ss others, cut = wrap ss :: others ∧
        all = wrap (pieces.map Prod.snd ++ ss) :: others) := by
  -- One bound that is enough for both programs and for what they nest.
  generalize hn : (front ++ (pieces.flatMap Prod.fst ++
    keyword :: (us ++ right :: behind))).length = n
  have hskip := (skipPast_suffix right behind).length_le
  have hinner : (pieces.flatMap Prod.fst ++ keyword :: (us ++ right :: behind)).length ≤ n := by
    rw [List.length_append] at hn
    omega
  have hcut : (front ++ skipPast right behind).length ≤ n := by
    simp only [List.length_append, List.length_cons] at hn ⊢
    omega
  have hcutInner : (skipPast right behind).length ≤ n := by
    rw [List.length_append] at hcut
    omega
  have hblock := block_of_missing_semicolon hpieces hkeyword he hright hinner
  rcases block_cases hcutInner with ⟨φ, ss, rest, hread⟩ | ⟨φ, hreject⟩
  · obtain ⟨ψ, others, rest', hothers⟩ :=
      answers_declarations (answers_declaration n) List.isEmpty n rest
    rw [hread] at hblock
    have hwhole := program_of_block hopens (Nat.le_of_eq hn) hblock
    rw [hothers] at hwhole
    have hshort := program_of_block hopens hcut hread
    rw [hothers] at hshort
    exact ⟨_, _, _, _, hshort, hwhole, .inr ⟨ss, others, rfl, rfl⟩⟩
  · rw [hreject] at hblock
    have hwhole := program_of_unclosed hopens (Nat.le_of_eq hn) hblock
    have hshort := program_of_unclosed hopens hcut hreject
    exact ⟨_, _, _, _, hshort, hwhole, .inl ⟨rfl, rfl⟩⟩

/-- Nothing is skipped in front of a keyword that opens a statement. -/
theorem skipPast_of_opensStatement {previous : Token} {ts : List Token}
    (h : ∀ t ∈ ts.head?, Parser.opensStatement t.kind) : skipPast previous ts = ts := by
  cases ts with
  | nil => rfl
  | cons t ts =>
    rw [skipPast, h t rfl, Bool.or_true]
    rfl

/-- A block at the front that is not closed behind declarations is the whole program, and lost. -/
theorem program_of_unclosed_program {front behind : List Token} {wrap : List Stmt → Stmt}
    {others : List Stmt} (hopens : OpensBlock front wrap) (hothers : Program behind others) :
    Answers program (front ++ behind) [⟨none, .noSymbol .afterBlock⟩] [] [] := by
  obtain ⟨pieces, hpieces, rfl, rfl⟩ := hothers
  have hlength : (pieces.flatMap Prod.fst).length ≤
      (front ++ pieces.flatMap Prod.fst).length := by
    rw [List.length_append]
    exact Nat.le_add_left _ _
  exact program_of_unclosed hopens (Nat.le_refl _) (block_of_unclosed hpieces hlength)

end Rule

/-! ### The parse -/

section

variable {tokens front us behind : List Token} {wrap : List Stmt → Stmt}
  {pieces : List (List Token × Stmt)} {keyword right : Token} {e : Expr}
  (hopens : OpensBlock front wrap)
  (hpieces : ∀ piece ∈ pieces, Statement .declaration piece.1 piece.2)
  (hkeyword : keyword.kind = .keyword .print_) (he : Expression .assignment us e)
  (hright : right.kind = .rightBrace)
  (htokens : Parse.body tokens =
    front ++ (pieces.flatMap Prod.fst ++ keyword :: (us ++ right :: behind)))

include hopens hpieces hkeyword he hright htokens

/-- **A missing semicolon keeps a block open.** Where the last statement of a block at the front of
the tokens, or of a function body, is a `print` without its semicolon, it is diagnosed at the
closing brace, but the brace does not close the block: all else is as in the parse of the tokens in
which the block begins where reading goes on behind the brace, and the statements in front of the
`print` are put in front of those of that block, if it is ever closed. If whole declarations are
behind the brace, up to the end and from a keyword on that opens a statement, it is not, and nothing
is left of them and of the block. -/
theorem parse_missing_semicolon :
    let cut := Parse.ofTokens (front ++ Rule.skipPast right behind ++ [Parse.ending tokens])
    (Parse.ofTokens tokens).diagnostics =
        .atToken .static right (SyntaxError.noSymbol .afterValue).message :: cut.diagnostics ∧
      (cut.statements = [] ∧ (Parse.ofTokens tokens).statements = [] ∨
        ∃ ss others, cut.statements = wrap ss :: others ∧
          (Parse.ofTokens tokens).statements = wrap (pieces.map Prod.snd ++ ss) :: others) ∧
      ((∃ others, Program behind others) →
        (∀ t ∈ behind.head?, Parser.opensStatement t.kind) →
        (Parse.ofTokens tokens).statements = [] ∧ cut.diagnostics =
          [.atToken .static (Parse.ending tokens) (SyntaxError.noSymbol .afterBlock).message]) := by
  intro cut
  obtain ⟨faults, ss, all, rest, hcut, hall, hstatements⟩ :=
    Rule.program_of_missing_semicolon hopens hpieces hkeyword he hright behind
  have hfront : ∀ t ∈ front ++ Rule.skipPast right behind, t.kind ≠ .eof := by
    have hskip := (Rule.skipPast_suffix right behind).subset
    intro t ht
    have hmem : t ∈ Parse.body tokens := by
      rw [htokens]
      rcases List.mem_append.mp ht with ht | ht
      · exact List.mem_append_left _ ht
      · simp [hskip ht]
    exact Parse.kind_ne_eof_of_mem_body hmem
  have hcutParse : cut = ⟨ss, faults.map (SyntaxFault.diagnostic (Parse.ending tokens))⟩ :=
    Parse.ofTokens_append_singleton hfront (Parse.kind_ending tokens) hcut
  rw [← htokens] at hall
  have hparse := Parse.ofTokens_eq hall
  refine ⟨?_, ?_, fun ⟨others, hothers⟩ hbehind => ?_⟩
  · rw [hcutParse, hparse]
    rfl
  · rw [hcutParse, hparse]
    exact hstatements
  · -- Nothing is skipped, and the block is not closed by whole declarations.
    rw [Rule.skipPast_of_opensStatement hbehind] at hcut
    have hunclosed := Rule.program_of_unclosed_program hopens hothers
    rw [Rule.Answers, hcut] at hunclosed
    cases hunclosed
    rw [hcutParse, hparse]
    refine ⟨?_, rfl⟩
    rcases hstatements with ⟨-, rfl⟩ | ⟨_, _, hcons, -⟩
    · rfl
    · cases hcons

end

/-- A token without a value, on the first line. -/
private def word (kind : TokenKind) (lexeme : String) : Token := ⟨kind, lexeme, .nil, 1⟩

private theorem expression_word (lexeme : String) :
    Expression .assignment [word .identifier lexeme] (.name (word .identifier lexeme)) :=
  .tighter rfl (.disjunction_name rfl)

/-- `print y;` -/
private def printed : List Token :=
  [word (.keyword .print_) "print", word .identifier "y", word .semicolon ";"]

private theorem program_printed : Program printed [.print (.name (word .identifier "y"))] := by
  refine ⟨[(printed, .print (.name (word .identifier "y")))], ?_, rfl, rfl⟩
  exact List.forall_mem_singleton.mpr (.statement (.print rfl (expression_word "y") rfl))

/-- Of `{ print x } print y;` nothing is left. -/
theorem parse_missing_semicolon_of_print :
    let left := word .leftBrace "\x7b"
    let right := word .rightBrace "\x7d"
    let parse := Parse.ofTokens
      (left :: word (.keyword .print_) "print" :: word .identifier "x" :: right ::
        (printed ++ [.atEnd 1]))
    parse.statements = [] ∧ parse.diagnostics =
      [.atToken .static right (SyntaxError.noSymbol .afterValue).message,
        .atToken .static (.atEnd 1) (SyntaxError.noSymbol .afterBlock).message] := by
  intro left right parse
  have hopens : OpensBlock [left] .block := .block rfl
  have hpieces : ∀ piece ∈ ([] : List (List Token × Stmt)),
      Statement .declaration piece.1 piece.2 := nofun
  have hkeyword : (word (.keyword .print_) "print").kind = .keyword .print_ := rfl
  have hright : right.kind = .rightBrace := rfl
  have hbehind : ∀ t ∈ printed.head?, Parser.opensStatement t.kind := by
    rintro t ⟨⟩
    rfl
  obtain ⟨hdiagnostics, -, hlost⟩ :=
    parse_missing_semicolon hopens hpieces hkeyword (expression_word "x") hright
      (rfl : Parse.body (left :: word (.keyword .print_) "print" :: word .identifier "x" ::
        right :: (printed ++ [.atEnd 1])) = _)
  obtain ⟨hstatements, hcut⟩ := hlost ⟨_, program_printed⟩ hbehind
  refine ⟨hstatements, hdiagnostics.trans ?_⟩
  rw [hcut]
  rfl

/-- The damage of a missing semicolon is not confined to its statement: `{ print x } print y;` is
not parsed to an empty block and `print y;`. -/
theorem not_missing_semicolon_confined :
    ¬ ∀ (front us behind : List Token) (wrap : List Stmt → Stmt)
        (pieces : List (List Token × Stmt)) (keyword right end_ : Token) (e : Expr)
        (others : List Stmt), OpensBlock front wrap →
      (∀ piece ∈ pieces, Statement .declaration piece.1 piece.2) →
      keyword.kind = .keyword .print_ → Expression .assignment us e → right.kind = .rightBrace →
      Program behind others → end_.kind = .eof →
      Parse.ofTokens (front ++
          (pieces.flatMap Prod.fst ++ keyword :: (us ++ right :: behind)) ++ [end_]) =
        ⟨wrap (pieces.map Prod.snd) :: others,
          [.atToken .static right (SyntaxError.noSymbol .afterValue).message]⟩ := by
  intro h
  have hparse := h [word .leftBrace "\x7b"] [word .identifier "x"] printed .block []
    (word (.keyword .print_) "print") (word .rightBrace "\x7d") (.atEnd 1) _ _ (.block rfl) nofun
    rfl (expression_word "x") rfl program_printed rfl
  rw [Parse.ofTokens_append_singleton (by simp [word, printed]) rfl rfl] at hparse
  have hlength : 0 = 2 := congrArg (fun parse => parse.statements.length) hparse
  exact absurd hlength (by decide)

end LoxLang
