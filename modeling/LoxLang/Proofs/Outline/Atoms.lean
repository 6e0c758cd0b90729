import LoxLang.Proofs.Number.Fewest
import LoxLang.Proofs.Outline.Parts
import LoxLang.Proofs.Outline.Forms
import LoxLang.Proofs.Syntax.WellFormed
import LoxLang.Proofs.Lexemes.Rules

/-!
# Atoms of outlines

The atoms of an outline are names, operators and literals. All of them but strings are words, and
their texts show what they are: a literal is known from its text if it can be written at all
(`Literal.source_injective`), and no literal looks like a name
(`Literal.Written.not_looksLikeName`).
-/

namespace LoxLang

/-! ### Numbers -/

theorem isPlain_of_isDigit {c : Char} (h : c.isDigit) : isPlain c := by
  have hdelimiters : ∀ d ∈ [' ', '\n', '(', ')', '"'], ¬ d.isDigit := by simp
  exact decide_eq_true fun hc => hdelimiters c hc h

namespace Decimal

open Binary64

theorem isPlain_of_mem_text {layout : Layout} {x : Decimal} {c : Char} (hc : c ∈ x.text layout) :
    isPlain c := by
  have hmarks : ∀ c ∈ marks, isPlain c := by simp [marks, isPlain]
  exact (mem_text hc).elim isPlain_of_isDigit (hmarks c)

theorem isPlain_of_mem_signText {x : Float} {c : Char} (hc : c ∈ signText x) : isPlain c := by
  rw [signText] at hc
  split at hc
  · rw [List.mem_singleton.mp hc]
    decide
  · cases hc

theorem isWord_signText_append {x : Float} {text : List Char} (h : IsWord text) :
    IsWord (signText x ++ text) :=
  ⟨List.append_ne_nil_of_right_ne_nil _ h.ne_nil,
    List.forall_mem_append.mpr ⟨fun _ => isPlain_of_mem_signText, h.plain⟩⟩

theorem isWord_whole (x : Float) : IsWord (whole x) := by
  rw [whole]
  split
  · exact ⟨List.cons_ne_nil _ _, by simp [isPlain]⟩
  · exact isWord_signText_append
      ⟨digits_ne_nil _, fun _ hc => isPlain_of_isDigit (isDigit_of_mem_digits hc)⟩

theorem isWord_shortest (x : Float) : IsWord (shortest x) := by
  rw [shortest]
  split
  · refine isWord_signText_append ?_
    split
    · exact ⟨List.cons_ne_nil _ _, by simp [isPlain]⟩
    · obtain ⟨d, rest, htext, -⟩ := exists_text numeral (fewestDigits (magnitude x))
      exact ⟨htext ▸ List.cons_ne_nil _ _, fun _ => isPlain_of_mem_text⟩
  · rw [nonFinite]
    split
    · exact isWord_signText_append ⟨List.cons_ne_nil _ _, by simp [isPlain]⟩
    · exact ⟨List.cons_ne_nil _ _, by simp [isPlain]⟩

/-- The whole part of a number without a sign is its digits. -/
theorem whole_eq {x : Float} (h : signed x = false) :
    whole x = digits (quanta (magnitude x) / one) := by
  rw [whole]
  split
  · next hzero =>
    rw [hzero]
    rfl
  · rw [signText, if_neg (by simp [h]), List.nil_append]

/-- A finite number without a sign that is not whole has the text of the **decimal** with the fewest
digits. -/
theorem shortest_eq {x : Float} (h : signed x = false) (hfinite : finite x)
    (hwhole : ¬ integral x) :
    0 < magnitude x ∧ shortest x = (fewestDigits (magnitude x)).text numeral := by
  have hpos : magnitude x ≠ 0 := by
    intro hzero
    refine hwhole ?_
    rw [integral, hfinite, hzero, quanta_of_lt (by decide), Nat.zero_mod]
    rfl
  refine ⟨Nat.pos_of_ne_zero hpos, ?_⟩
  rw [shortest, if_pos hfinite, signText, if_neg (by simp [h]), if_neg hpos, List.nil_append]

end Decimal

namespace Literal

open Binary64

theorem toList_source_number (x : Float) :
    (number x).source.toList = if integral x then Decimal.whole x else Decimal.shortest x :=
  String.toList_ofList

/-- Every number is a **word**. -/
theorem isWord_number (x : Float) : IsWord (number x).source.toList := by
  rw [toList_source_number]
  split
  · exact Decimal.isWord_whole x
  · exact Decimal.isWord_shortest x

/-- A literal that is **written** in a program: numbers are finite and have no sign, and strings
have no quotes. -/
def Written : Literal → Prop
  | number x => signed x = false ∧ finite x
  | string text => '"' ∉ text.toList
  | nil | bool _ => True

/-- A number that is written begins with a **digit**. -/
theorem exists_cons_number {x : Float} (h : (number x).Written) :
    ∃ d rest, (number x).source.toList = d :: rest ∧ d.isDigit := by
  rw [toList_source_number]
  split
  · rw [Decimal.whole_eq h.1]
    obtain ⟨d, rest, hcons⟩ := List.exists_cons_of_ne_nil (Decimal.digits_ne_nil
      (quanta (magnitude x) / one))
    exact ⟨d, rest, hcons, Decimal.isDigit_of_mem_digits (hcons ▸ List.mem_cons_self)⟩
  · next hwhole =>
    rw [(Decimal.shortest_eq h.1 h.2 hwhole).2]
    obtain ⟨d, rest, hcons, hd, -⟩ := Decimal.exists_text Decimal.numeral
      (Decimal.fewestDigits (magnitude x))
    exact ⟨d, rest, hcons, hd⟩

/-- **Different numbers have different texts.** -/
theorem number_injective {x y : Float} (hx : (number x).Written) (hy : (number y).Written)
    (h : (number x).source.toList = (number y).source.toList) : x = y := by
  refine eq_of_magnitude_eq (hx.1.trans hy.1.symm) ?_
  -- The text of a number that is not whole has more in it than digits.
  have hmixed : ∀ {x y : Float}, (number x).Written → (number y).Written → integral x →
      ¬ integral y → Decimal.whole x ≠ Decimal.shortest y := by
    intro x y hx hy hwhole hwhole' heq
    rw [Decimal.whole_eq hx.1, (Decimal.shortest_eq hy.1 hy.2 hwhole').2] at heq
    obtain ⟨d, rest, htext, -, c, hc, hdigit⟩ := Decimal.exists_text Decimal.numeral
      (Decimal.fewestDigits (magnitude y))
    refine hdigit (Decimal.isDigit_of_mem_digits (n := quanta (magnitude x) / one) ?_)
    rw [heq, htext]
    exact List.mem_cons_of_mem d hc
  rw [toList_source_number, toList_source_number] at h
  by_cases hwhole : integral x <;> by_cases hwhole' : integral y
  · rw [if_pos hwhole, if_pos hwhole', Decimal.whole_eq hx.1, Decimal.whole_eq hy.1] at h
    have hzero : ∀ {x : Float}, integral x → quanta (magnitude x) % one = 0 := fun hwhole =>
      eq_of_beq (Bool.and_eq_true_iff.mp hwhole).2
    have hquotient := Decimal.digits_injective h
    refine quanta_strictMono.injective ?_
    rw [← Nat.div_add_mod (quanta (magnitude x)) one, hquotient, hzero hwhole, ← hzero hwhole',
      Nat.div_add_mod]
  · rw [if_pos hwhole, if_neg hwhole'] at h
    exact absurd h (hmixed hx hy hwhole hwhole')
  · rw [if_neg hwhole, if_pos hwhole'] at h
    exact absurd h.symm (hmixed hy hx hwhole' hwhole)
  · obtain ⟨hpos, htext⟩ := Decimal.shortest_eq hx.1 hx.2 hwhole
    obtain ⟨hpos', htext'⟩ := Decimal.shortest_eq hy.1 hy.2 hwhole'
    rw [if_neg hwhole, if_neg hwhole', htext, htext'] at h
    have hvalue := congrArg Decimal.readText h
    rw [Decimal.readText_text, Decimal.readText_text] at hvalue
    exact Decimal.readsBack_unique (Decimal.readsBack_fewestDigits hpos)
      (Decimal.readsBack_fewestDigits hpos') hvalue

/-- The **first character** of a literal shows what it is. -/
theorem of_source_cons {l : Literal} {c : Char} {cs : List Char} (hl : l.Written)
    (h : l.source.toList = c :: cs) :
    if c = '"' then ∃ text, l = string text ∧ cs = text.toList ++ ['"']
    else if c.isDigit then ∃ x, l = number x
    else l = nil ∨ ∃ b, l = bool b := by
  cases l with
  | nil =>
    cases h
    exact .inl rfl
  | bool b =>
    cases b <;> cases h <;> exact .inr ⟨_, rfl⟩
  | number x =>
    obtain ⟨d, rest, hcons, hd⟩ := exists_cons_number hl
    obtain ⟨rfl, rfl⟩ := List.cons.inj (hcons.symm.trans h)
    have hne : d ≠ '"' := by
      rintro rfl
      exact absurd hd (by decide)
    rw [if_neg hne, if_pos hd]
    exact ⟨x, rfl⟩
  | string text =>
    rw [source, String.toList_append, String.toList_append] at h
    obtain ⟨rfl, rfl⟩ := List.cons.inj h
    exact ⟨text, rfl, rfl⟩

/-- **Different literals have different texts**, if they can be written. -/
theorem source_injective {l l' : Literal} (hl : l.Written) (hl' : l'.Written)
    (h : l.source.toList = l'.source.toList) : l = l' := by
  have hne : l.source.toList ≠ [] := by
    cases l with
    | nil => decide
    | bool b => cases b <;> decide
    | number x => exact (isWord_number x).ne_nil
    | string text => simp [source]
  obtain ⟨c, cs, hcons⟩ := List.exists_cons_of_ne_nil hne
  have hfirst := of_source_cons hl hcons
  have hfirst' := of_source_cons hl' (h ▸ hcons)
  by_cases hquote : c = '"'
  · rw [if_pos hquote] at hfirst hfirst'
    obtain ⟨text, rfl, rfl⟩ := hfirst
    obtain ⟨text', rfl, htext⟩ := hfirst'
    rw [String.toList_inj.mp (List.append_cancel_right htext)]
  rw [if_neg hquote] at hfirst hfirst'
  by_cases hdigit : c.isDigit
  · rw [if_pos hdigit] at hfirst hfirst'
    obtain ⟨x, rfl⟩ := hfirst
    obtain ⟨y, rfl⟩ := hfirst'
    rw [number_injective hl hl' h]
  · rw [if_neg hdigit] at hfirst hfirst'
    obtain rfl | ⟨b, rfl⟩ := hfirst <;> obtain rfl | ⟨b', rfl⟩ := hfirst'
    · rfl
    · cases b' <;> cases h
    · cases b <;> cases h
    · cases b <;> cases b' <;> first | rfl | cases h

end Literal

/-! ### Names and operators -/

theorem isDigit_of_charIsDigit {c : Char} (h : c.isDigit) : isDigit c := by
  simpa [isDigit, Char.isDigit, Char.le_def] using h

theorem isPlain_of_isAlphanumeric {c : Char} (h : isAlphanumeric c) : isPlain c := by
  have hdelimiters : [' ', '\n', '(', ')', '"'].all fun d => !isAlphanumeric d := by decide
  refine decide_eq_true fun hc => ?_
  have hnot := List.all_eq_true.mp hdelimiters c hc
  rw [h] at hnot
  cases hnot

/-- The operators of expressions. -/
def operators : List TokenKind := .bang :: .keyword .and_ :: .keyword .or_ :: binaryOperators

theorem mem_operators_of_unary {kind : TokenKind} (h : kind = .bang ∨ kind = .minus) :
    kind ∈ operators := by
  rcases h with rfl | rfl <;> decide

theorem mem_operators_of_logical {kind : TokenKind}
    (h : kind = .keyword .and_ ∨ kind = .keyword .or_) : kind ∈ operators := by
  rcases h with rfl | rfl <;> decide

theorem mem_operators_of_binary {kind : TokenKind} (h : kind ∈ binaryOperators) :
    kind ∈ operators := List.mem_cons_of_mem _ (List.mem_cons_of_mem _ (List.mem_cons_of_mem _ h))

/-- The words that are put in front of the operands of an expression that has no operator. -/
def tags : List String := ["group", "=", "call"]

/-- The text begins like a word, and it is no reserved word. -/
def looksLikeName (text : List Char) : Bool :=
  text.head?.any isAlpha && wordKind text == .identifier

/-- No **literal** looks like a name. -/
theorem Literal.Written.not_looksLikeName {l : Literal} (hl : l.Written) :
    ¬ looksLikeName l.source.toList := by
  have hfirst : ∀ {c : Char} {cs : List Char}, ¬ isAlpha c → ¬ looksLikeName (c :: cs) := by
    intro c cs hc h
    exact hc (Bool.and_eq_true_iff.mp h).1
  cases l with
  | nil => decide
  | bool b => cases b <;> decide
  | number x =>
    obtain ⟨d, rest, hcons, hd⟩ := exists_cons_number hl
    rw [hcons]
    exact hfirst (not_isAlpha_of_isDigit (isDigit_of_charIsDigit hd))
  | string text =>
    rw [source, String.toList_append, String.toList_append]
    exact hfirst (by decide)

namespace Lexeme

variable {kind : TokenKind} {text : List Char}

theorem of_identifier (h : Lexeme .identifier text) :
    ∃ c cs, text = c :: cs ∧ isAlpha c ∧ (∀ d ∈ cs, isAlphanumeric d) ∧
      ∀ word : Keyword, word.spelling.toList ≠ text := by
  cases h with
  | symbol h =>
    have hall : ∀ p ∈ symbols, p.2 ≠ .identifier := by decide
    exact absurd rfl (hall _ h)
  | identifier hc hcs hne => exact ⟨_, _, rfl, hc, hcs, hne⟩

/-- A **name** is a word. -/
theorem isWord_of_identifier (h : Lexeme .identifier text) : IsWord text := by
  obtain ⟨c, cs, rfl, hc, hcs, -⟩ := h.of_identifier
  have hfirst : isAlphanumeric c := by rw [isAlphanumeric, hc, Bool.true_or]
  exact ⟨List.cons_ne_nil _ _, List.forall_mem_cons.mpr
    ⟨isPlain_of_isAlphanumeric hfirst, fun d hd => isPlain_of_isAlphanumeric (hcs d hd)⟩⟩

theorem looksLikeName (h : Lexeme .identifier text) : LoxLang.looksLikeName text := by
  obtain ⟨c, cs, rfl, hc, -, hne⟩ := h.of_identifier
  rw [LoxLang.looksLikeName, wordKind_of_forall_ne hne]
  simpa using hc

/-- A lexeme of a kind that symbols have is a **symbol**. -/
theorem of_symbol (h : Lexeme kind text) (hkind : kind ∈ symbols.map Prod.snd) :
    (text, kind) ∈ symbols := by
  cases h with
  | symbol h => exact h
  | reserved word =>
    have hnone : ∀ word ∈ Keyword.all, TokenKind.keyword word ∉ symbols.map Prod.snd := by decide
    exact absurd hkind (hnone word word.mem_all)
  | _ => exact absurd hkind (by decide)

/-- Symbols and reserved words have **one spelling** each. -/
theorem text_unique {text' : List Char} (h : Lexeme kind text) (h' : Lexeme kind text')
    (hkind : kind ∈ symbols.map Prod.snd ∨ ∃ word, kind = .keyword word) : text = text' := by
  rcases hkind with hsymbol | ⟨word, rfl⟩
  · have hall : ∀ p ∈ symbols, ∀ q ∈ symbols, p.2 = q.2 → p.1 = q.1 := by decide
    exact hall _ (h.of_symbol hsymbol) _ (h'.of_symbol hsymbol) rfl
  · rw [h.eq_keyword_iff.mp rfl, h'.eq_keyword_iff.mp rfl]

/-- An **operator** is a word, and it is no tag. -/
theorem of_operator (h : Lexeme kind text) (hkind : kind ∈ operators) :
    IsWord text ∧ ∀ tag ∈ tags, text ≠ tag.toList := by
  have hreserved : ∀ word ∈ [Keyword.and_, .or_], (word.spelling.toList ≠ [] ∧
      word.spelling.toList.all isPlain) ∧ ∀ tag ∈ tags, word.spelling.toList ≠ tag.toList := by
    decide
  have hsymbols : ∀ p ∈ symbols, p.2 ∈ operators →
      (p.1 ≠ [] ∧ p.1.all isPlain) ∧ ∀ tag ∈ tags, p.1 ≠ tag.toList := by decide
  have hkinds : ∀ kind ∈ operators, kind ∈ symbols.map Prod.snd ∨
      kind ∈ [Keyword.and_, .or_].map TokenKind.keyword := by decide
  rcases hkinds kind hkind with hsymbol | hword
  · obtain ⟨⟨hne, hplain⟩, htags⟩ := hsymbols _ (h.of_symbol hsymbol) hkind
    exact ⟨⟨hne, List.all_eq_true.mp hplain⟩, htags⟩
  · obtain ⟨word, hmem, rfl⟩ := List.mem_map.mp hword
    obtain ⟨⟨hne, hplain⟩, htags⟩ := hreserved word hmem
    rw [h.eq_keyword_iff.mp rfl]
    exact ⟨⟨hne, List.all_eq_true.mp hplain⟩, htags⟩

end Lexeme

end LoxLang
