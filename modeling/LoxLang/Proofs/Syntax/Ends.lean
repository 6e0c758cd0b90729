import LoxLang.Proofs.Syntax.Following

/-!
# Parsing ends

`parse_ends` says what is known of the cursor of a parser on tokens with an end token among them:
parsing ends with the cursor on the first end token, every declaration moves it on, and it is never
behind the first end token, so that no other place is looked at than those up to there.

That a place is not looked at is said by leaving it out. A parser that looks at a place where no
token stands is `Stop.outside`, which nothing recovers from. The runs of `Parse.Ends` are on the
tokens up to the first end token with **any** tokens behind it, and with none in particular; they
are all the same, and none of them is outside.
-/

namespace LoxLang

open Parse

/-! ### Any tokens behind the first end token -/

namespace Parse

/-- The tokens up to the first end token, with others **behind** it. -/
def upToEnd (tokens behind : List Token) : List Token := tokens.take (last tokens + 1) ++ behind

section

variable {tokens : List Token} (h : ∃ t ∈ tokens, t.kind = .eof) (behind : List Token)

theorem upToEnd_drop : upToEnd tokens (tokens.drop (last tokens + 1)) = tokens :=
  List.take_append_drop _ _

include h

theorem upToEnd_eq : upToEnd tokens behind = body tokens ++ ending tokens :: behind := by
  have hprefix : body tokens <+: tokens := List.takeWhile_prefix _
  rw [upToEnd, List.take_add_one, getElem?_last h, last, ← List.prefix_iff_eq_take.mp hprefix,
    List.append_assoc]
  rfl

theorem getElem?_upToEnd {i : Nat} (hi : i ≤ last tokens) :
    (upToEnd tokens behind)[i]? = tokens[i]? := by
  have hlength : i < (tokens.take (last tokens + 1)).length := by
    rw [List.length_take]
    have hlast := (List.getElem?_eq_some_iff.mp (getElem?_last h)).1
    omega
  rw [upToEnd, List.getElem?_append_left hlength, List.getElem?_take_of_lt (Nat.lt_succ_of_le hi)]

theorem exists_eof_upToEnd : ∃ t ∈ upToEnd tokens behind, t.kind = .eof :=
  ⟨ending tokens, by rw [upToEnd_eq h]; simp, kind_ending tokens⟩

theorem body_upToEnd : body (upToEnd tokens behind) = body tokens := by
  rw [upToEnd_eq h]
  exact body_append_cons (fun _ => kind_ne_eof_of_mem_body) (kind_ending tokens) behind

theorem ending_upToEnd : ending (upToEnd tokens behind) = ending tokens := by
  rw [upToEnd_eq h]
  exact ending_append_cons (fun _ => kind_ne_eof_of_mem_body) (kind_ending tokens) behind

theorem last_upToEnd : last (upToEnd tokens behind) = last tokens :=
  congrArg List.length (body_upToEnd h behind)

theorem ahead_upToEnd (i : Nat) : ahead (upToEnd tokens behind) i = ahead tokens i :=
  congrArg (List.drop i) (body_upToEnd h behind)

theorem ofTokens_upToEnd : ofTokens (upToEnd tokens behind) = ofTokens tokens := by
  obtain ⟨faults, ss, hprogram⟩ := Rule.answers_program (body tokens)
  have hbehind : Rule.program (body (upToEnd tokens behind)) = ⟨faults, .ok (ss, [])⟩ := by
    rw [body_upToEnd h, hprogram]
  rw [ofTokens_eq hprogram, ofTokens_eq hbehind, ending_upToEnd h]

end

end Parse

namespace Parser

/-! ### What a run does -/

/-- From place `i` on, a parser **comes to** one and the same result, diagnostics and place `j`,
with whatever tokens behind the first end token and whatever bound there is on the tokens ahead. -/
def ComesTo {α : Type} (tokens : List Token) (p : Nat → Parser α) (i j : Nat)
    (reported : Array Diagnostic) (result : Except Stop α) (reported' : Array Diagnostic) : Prop :=
  ∀ n behind, last tokens - i < n →
    (p n).on (upToEnd tokens behind).toArray ⟨i, reported⟩ = (result, ⟨j, reported'⟩)

section

variable {α : Type} {tokens : List Token} (h : ∃ t ∈ tokens, t.kind = .eof) {i : Nat}
  {p : Nat → Parser α} {r : Rule α}

include h

/-- In front of the first end token **the cursor moves on**, and there it stays. -/
theorem exists_comesTo_advance (hi : i ≤ last tokens) (hpos : 0 < last tokens) :
    ∃ t, ∀ reported, ComesTo tokens (fun _ => advance) i (min (i + 1) (last tokens)) reported
      (.ok t) reported := by
  rcases Nat.lt_or_eq_of_le hi with hlt | rfl
  · obtain ⟨t, ht, hkind, -⟩ := exists_ahead_eq_cons hlt
    refine ⟨t, fun reported n behind _ => ?_⟩
    rw [Nat.min_eq_left hlt, on_advance (by rw [getElem?_upToEnd h behind hi, ht]) hkind]
  -- At the end token, what is given back stands in front of it: there has to be such a token.
  · obtain ⟨i, hlast⟩ : ∃ i, last tokens = i + 1 := ⟨last tokens - 1, by omega⟩
    have hbefore : i < last tokens := hlast ▸ Nat.lt_succ_self i
    obtain ⟨t, ht, -, -⟩ := exists_ahead_eq_cons hbefore
    have hend := getElem?_last h
    refine ⟨t, fun reported n behind _ => ?_⟩
    rw [← getElem?_upToEnd h behind (Nat.le_refl _), hlast] at hend
    rw [← getElem?_upToEnd h behind (Nat.le_of_lt hbefore)] at ht
    rw [Nat.min_eq_right (Nat.le_succ _), hlast, on_advance_of_eof hend (kind_ending tokens) ht]

/-- A parser that follows a rule comes to what the rule answers. -/
theorem exists_comesTo (hp : ∀ tokens' n, (∃ t ∈ tokens', t.kind = .eof) →
      last tokens' = last tokens → last tokens' - i < n → FollowsAt tokens' i (p n) r) :
    ∃ j, i ≤ j ∧ j ≤ last tokens ∧ (r (ahead tokens i)).rest = ahead tokens j ∧
      ∀ reported, ComesTo tokens p i j reported (r (ahead tokens i)).outcome
        (reported ++ shown tokens (r (ahead tokens i)).registered) := by
  -- The place is that of the run on the list itself. The tokens that the rule leaves are the same
  -- with any others behind the end token, and they tell the place.
  obtain ⟨j, hij, hj, hrest, -⟩ := hp tokens _ h rfl (Nat.lt_succ_self _)
  refine ⟨j, hij, hj, hrest, fun reported n behind hn => ?_⟩
  have hlast := last_upToEnd h behind
  obtain ⟨j', -, hj', hrest', hon⟩ :=
    hp _ n (exists_eof_upToEnd h behind) hlast (by rwa [hlast])
  rw [ahead_upToEnd h] at hrest' hon
  rw [ahead_upToEnd h, hrest] at hrest'
  rw [hlast] at hj'
  obtain rfl := eq_of_ahead_eq hj hj' hrest'
  rw [hon, shown, ending_upToEnd h]
  rfl

/-- A **program** is read with the cursor from the first token to the first end token. -/
theorem comesTo_program : ComesTo tokens program 0 (last tokens) #[]
    (.ok (ofTokens tokens).statements) (ofTokens tokens).diagnostics.toArray := by
  obtain ⟨faults, ss, hprogram⟩ := Rule.answers_program (body tokens)
  obtain ⟨j, -, hj, hrest, hcomes⟩ := exists_comesTo (i := 0) (p := program) h
    fun tokens' n h' _ hn => .program h' (Nat.sub_zero (last tokens') ▸ hn)
  rw [ahead_zero, hprogram] at hrest hcomes
  obtain rfl := eq_of_ahead_eq hj (Nat.le_refl _) (hrest.symm.trans (ahead_last tokens).symm)
  have hstart := hcomes #[]
  rw [Array.empty_append] at hstart
  rw [ofTokens_eq hprogram]
  exact hstart

/-- A **declaration** moves the cursor on, whether it is read or dropped. -/
theorem exists_comesTo_declaration (hi : i < last tokens) {faults : List SyntaxFault}
    {o : Option Stmt} {rest : List Token}
    (hanswers : Rule.Answers (Rule.declaration (last tokens)) (ahead tokens i) faults o rest) :
    ∃ j, i < j ∧ j ≤ last tokens ∧ rest = ahead tokens j ∧ ∀ reported,
      ComesTo tokens declaration i j reported (.ok o) (reported ++ shown tokens faults) := by
  obtain ⟨j, -, hj, hrest, hcomes⟩ := exists_comesTo (i := i) (p := declaration)
    (r := Rule.declaration (last tokens)) h
    fun tokens' n h' hlast hn => hlast ▸ .declaration h' (hlast.symm ▸ hi) hn
  have hne : ahead tokens i ≠ [] := by
    rw [← List.length_pos_iff, length_ahead]
    omega
  have hadvances := Rule.declaration_advances _ hanswers hne
  rw [Rule.Answers] at hanswers
  rw [hanswers] at hrest hcomes
  obtain rfl : rest = ahead tokens j := hrest
  rw [length_ahead, length_ahead] at hadvances
  exact ⟨j, by omega, hj, rfl, hcomes⟩

/-- A parser that follows a rule reads something, or it stops at a syntax error. -/
theorem exists_comesTo_or (hp : ∀ tokens' n, (∃ t ∈ tokens', t.kind = .eof) →
      last tokens' = last tokens → last tokens' - i < n → FollowsAt tokens' i (p n) r) :
    ∃ j result added, i ≤ j ∧ j ≤ last tokens ∧
      (result = .error .syntaxError ∨ ∃ a, result = .ok a) ∧
      ∀ reported, ComesTo tokens p i j reported result (reported ++ added) := by
  obtain ⟨j, hij, hj, -, hcomes⟩ := exists_comesTo h hp
  refine ⟨j, _, _, hij, hj, ?_, hcomes⟩
  rw [Reply.outcome]
  split
  · exact .inr ⟨_, rfl⟩
  · exact .inl rfl

omit h in
/-- Where the tokens left are those ahead of a cursor, this one has a statement boundary. -/
theorem lt_of_synchronize (hi : i < last tokens) {j : Nat} (hj : j ≤ last tokens)
    (hrest : Rule.synchronize (ahead tokens i) = ahead tokens j) :
    i < j ∧ ∃ before, tokens[j - 1]? = some before ∧
      (before.kind = .semicolon ∨ ∀ t ∈ (ahead tokens j).head?, opensStatement t.kind) := by
  obtain ⟨t, -, -, hahead⟩ := exists_ahead_eq_cons hi
  obtain ⟨skipped, before, happend, hstop⟩ :=
    Rule.exists_eq_append_skipPast t (ahead tokens (i + 1))
  rw [hahead, Rule.synchronize] at hrest
  rw [hrest, ← hahead] at happend
  rw [hrest] at hstop
  have hlength := congrArg List.length happend
  rw [List.length_append, List.length_cons, length_ahead, length_ahead] at hlength
  obtain rfl : j = i + skipped.length + 1 := by omega
  refine ⟨by omega, before, ?_, hstop⟩
  have hbefore : (ahead tokens i)[skipped.length]? = some before := by simp [happend]
  rw [Nat.add_sub_cancel, getElem?_of_lt_last (by omega), ← hbefore, ahead, List.getElem?_drop]

/-- **Recovery** moves the cursor on, to where the token in front of it is a semicolon, or the one
at it opens a statement or is the first end token. -/
theorem exists_comesTo_synchronize (hi : i < last tokens) : ∃ j before t, i < j ∧ j ≤ last tokens ∧
    tokens[j - 1]? = some before ∧ tokens[j]? = some t ∧
    (before.kind = .semicolon ∨ opensStatement t.kind ∨ j = last tokens) ∧
    ∀ reported, ComesTo tokens synchronize i j reported (.ok ()) reported := by
  have hfollows : ∀ tokens' n, (∃ t ∈ tokens', t.kind = .eof) → last tokens' = last tokens →
      last tokens' - i < n → FollowsAt tokens' i (synchronize n)
        (fun ts => ⟨[], .ok ((), Rule.synchronize ts)⟩) := by
    intro tokens' n h' hlast hn
    obtain ⟨j, hij, -, hj, hskip, hon⟩ :=
      exists_on_synchronize h' (by omega) (by omega : i ≤ last tokens') (by omega : _ < n + i)
    refine ⟨j, hij, hj, hskip, fun reported => ?_⟩
    rw [hon, shown]
    simp [Reply.outcome, Reply.registered]
  obtain ⟨j, -, hj, hrest, hcomes⟩ := exists_comesTo h hfollows
  obtain ⟨hij, before, hbefore, hstop⟩ := lt_of_synchronize hi hj hrest
  obtain ⟨t, ht, hahead⟩ := exists_getElem? h hj
  refine ⟨j, before, t, hij, hj, hbefore, ht, hstop.imp_right fun hopens => ?_, fun reported => ?_⟩
  · rcases hahead with ⟨-, -, hahead⟩ | ⟨-, -, hahead⟩
    · exact .inl (hopens t (by rw [hahead]; rfl))
    · have hlength := congrArg List.length hahead
      rw [length_ahead, List.length_nil] at hlength
      exact .inr (by omega)
  · have hsame := hcomes reported
    rwa [Reply.outcome, Reply.registered, shown, List.map_nil, Array.append_empty] at hsame

end

end Parser

namespace Parse

/-- Only tokens up to the first end token are blamed. -/
theorem exists_blamed {tokens : List Token} (h : ∃ t ∈ tokens, t.kind = .eof) {d : Diagnostic}
    (hd : d ∈ (ofTokens tokens).diagnostics) : ∃ (i : Nat) (t : Token) (e : SyntaxError),
      i ≤ last tokens ∧ tokens[i]? = some t ∧ d = .atToken .static t e.message := by
  rw [diagnostics_ofTokens] at hd
  obtain ⟨f, hf, rfl⟩ := List.mem_map.mp hd
  rcases hblame : f.blame with _ | t
  · refine ⟨last tokens, ending tokens, f.error, Nat.le_refl _, getElem?_last h, ?_⟩
    rw [SyntaxFault.diagnostic, hblame, Option.getD_none]
  · have hforward := (Rule.forward_program (body tokens)).2
    obtain ⟨i, hi, hat⟩ := List.mem_iff_getElem.mp (hforward f hf t hblame)
    refine ⟨i, t, f.error, Nat.le_of_lt hi, ?_, ?_⟩
    · rw [getElem?_of_lt_last hi, List.getElem?_eq_getElem hi, hat]
    · rw [SyntaxFault.diagnostic, hblame, Option.getD_some]

/-- What is known of the cursor of a parser. -/
structure Ends (tokens : List Token) : Prop where
  /-- The first end token stands at `last`. -/
  ending : tokens[last tokens]? = some (Parse.ending tokens) ∧ (Parse.ending tokens).kind = .eof
  /-- No end token stands in front of it. -/
  front : ∀ i < last tokens, ∃ t, tokens[i]? = some t ∧ t.kind ≠ .eof
  /-- The tokens are those up to the first end token, with the others behind it. -/
  whole : upToEnd tokens (tokens.drop (last tokens + 1)) = tokens
  /-- The cursor moves on in front of the first end token, and stays there. -/
  advance : ∀ i ≤ last tokens, 0 < last tokens → ∃ t, ∀ reported, Parser.ComesTo tokens
    (fun _ => Parser.advance) i (min (i + 1) (last tokens)) reported (.ok t) reported
  /-- The parser terminates with the cursor on the first end token. -/
  program : Parser.ComesTo tokens Parser.program 0 (last tokens) #[]
    (.ok (ofTokens tokens).statements) (ofTokens tokens).diagnostics.toArray
  /-- A declaration moves the cursor on, whether it is read or dropped, if it is not at the end. -/
  declaration : ∀ i < last tokens, ∃ j o added, i < j ∧ j ≤ last tokens ∧
    ∀ reported, Parser.ComesTo tokens Parser.declaration i j reported (.ok o) (reported ++ added)
  /-- Recovery moves the cursor on, to where the token in front of it is a semicolon, or the one at
  it opens a statement or is the first end token. -/
  recovery : ∀ i < last tokens, ∃ j before t, i < j ∧ j ≤ last tokens ∧
    tokens[j - 1]? = some before ∧ tokens[j]? = some t ∧
    (before.kind = .semicolon ∨ Parser.opensStatement t.kind ∨ j = last tokens) ∧
    ∀ reported, Parser.ComesTo tokens Parser.synchronize i j reported (.ok ()) reported
  /-- A statement is read or stops at a syntax error. It never moves the cursor back, nor behind the
  first end token. -/
  statement : ∀ i ≤ last tokens, ∃ j result added, i ≤ j ∧ j ≤ last tokens ∧
    (result = .error .syntaxError ∨ ∃ s, result = .ok s) ∧
    ∀ reported, Parser.ComesTo tokens Parser.statement i j reported result (reported ++ added)
  /-- Nor does an expression. -/
  expression : ∀ i ≤ last tokens, ∃ j result added, i ≤ j ∧ j ≤ last tokens ∧
    (result = .error .syntaxError ∨ ∃ e, result = .ok e) ∧
    ∀ reported, Parser.ComesTo tokens Parser.expression i j reported result (reported ++ added)
  /-- Only tokens up to the first end token are blamed. -/
  diagnostics : ∀ d ∈ (ofTokens tokens).diagnostics, ∃ (i : Nat) (t : Token) (e : SyntaxError),
    i ≤ last tokens ∧ tokens[i]? = some t ∧ d = .atToken .static t e.message
  /-- What stands behind the first end token makes no difference. -/
  behind : ∀ behind, ofTokens (upToEnd tokens behind) = ofTokens tokens

end Parse

/-- **Parsing ends**, always moves on, and never leaves the tokens up to the first end token. -/
theorem parse_ends {tokens : List Token} (h : ∃ t ∈ tokens, t.kind = .eof) :
    Parse.Ends tokens where
  ending := ⟨Parse.getElem?_last h, Parse.kind_ending tokens⟩
  front := by
    intro i hi
    obtain ⟨t, ht, hkind, -⟩ := Parse.exists_ahead_eq_cons hi
    exact ⟨t, ht, hkind⟩
  whole := Parse.upToEnd_drop
  advance := fun i hi hpos => Parser.exists_comesTo_advance h hi hpos
  program := Parser.comesTo_program h
  declaration := by
    intro i hi
    obtain ⟨faults, o, rest, hanswers⟩ :=
      Rule.answers_declaration (Parse.last tokens) (Parse.ahead tokens i)
    obtain ⟨j, hij, hj, -, hcomes⟩ := Parser.exists_comesTo_declaration h hi hanswers
    exact ⟨j, o, _, hij, hj, hcomes⟩
  recovery := fun i hi => Parser.exists_comesTo_synchronize h hi
  statement := fun i hi => Parser.exists_comesTo_or (r := Rule.statement (last tokens)) h
    fun tokens' n h' hlast hn => hlast ▸ .statement h' (hlast.symm ▸ hi) hn
  expression := fun i hi => Parser.exists_comesTo_or
    (r := liftM (Phrase.expression (last tokens))) h
    fun tokens' n h' hlast hn => hlast ▸ .expression h' (hlast.symm ▸ hi) hn
  diagnostics := fun d hd => Parse.exists_blamed h hd
  behind := Parse.ofTokens_upToEnd h

/-- Tokens behind the first end token do not keep the parser from ending there. -/
theorem parse_ends_of_print :
    Parse.Ends [⟨.keyword .print_, "print", .nil, 1⟩, .atEnd 1, ⟨.semicolon, ";", .nil, 1⟩] :=
  parse_ends ⟨.atEnd 1, by simp, rfl⟩

end LoxLang
