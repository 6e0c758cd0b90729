import LoxLang.Proofs.Syntax.Termination

/-!
# Cursors

A parser works on all tokens of a list, with a cursor. The tokens that the cursor has **ahead** are
those from it on, up to the first end token. A parser **follows** a rule (`Parser.Follows`) if it
does what the rule says of the tokens ahead: it takes what the rule reads, leaves the cursor at what
the rule leaves, and reports the faults of the rule, in their order. In particular the cursor does
not go back, nor behind the first end token.

Here it is shown of single tokens, of parsers in a row and of recovery.
-/

namespace LoxLang

namespace Parse

variable {tokens : List Token} {i : Nat}

/-- The place of the first end token. -/
def last (tokens : List Token) : Nat := (body tokens).length

/-- The tokens from a cursor on, up to the first end token. -/
def ahead (tokens : List Token) (cursor : Nat) : List Token := (body tokens).drop cursor

theorem length_ahead (tokens : List Token) (cursor : Nat) :
    (ahead tokens cursor).length = last tokens - cursor := List.length_drop

theorem length_ahead_le (tokens : List Token) (cursor : Nat) :
    (ahead tokens cursor).length ≤ last tokens := by
  rw [length_ahead]
  exact Nat.sub_le _ _

theorem ahead_zero (tokens : List Token) : ahead tokens 0 = body tokens := List.drop_zero

theorem ahead_last (tokens : List Token) : ahead tokens (last tokens) = [] := List.drop_length

/-- Up to the first end token, the tokens ahead tell where the cursor is. -/
theorem eq_of_ahead_eq {j : Nat} (hi : i ≤ last tokens) (hj : j ≤ last tokens)
    (h : ahead tokens i = ahead tokens j) : i = j := by
  have hlength := congrArg List.length h
  rw [length_ahead, length_ahead] at hlength
  omega

theorem getElem?_of_lt_last (hi : i < last tokens) : tokens[i]? = (body tokens)[i]? := by
  have hprefix : body tokens <+: tokens := List.takeWhile_prefix _
  rw [List.prefix_iff_getElem?.mp hprefix i hi]
  exact (List.getElem?_eq_getElem hi).symm

theorem getElem?_last (h : ∃ t ∈ tokens, t.kind = .eof) :
    tokens[last tokens]? = some (ending tokens) := by
  obtain ⟨behind, htokens⟩ := eq_body_append h
  have hat : (body tokens ++ ending tokens :: behind)[(body tokens).length]? =
      some (ending tokens) := by simp
  rwa [← htokens] at hat

/-- In front of the first end token, the token at the cursor is none, and the others are ahead of
it. -/
theorem exists_ahead_eq_cons (hi : i < last tokens) : ∃ t, tokens[i]? = some t ∧ t.kind ≠ .eof ∧
    ahead tokens i = t :: ahead tokens (i + 1) := by
  refine ⟨(body tokens)[i], ?_, kind_ne_eof_of_mem_body (List.getElem_mem hi), ?_⟩
  · rw [getElem?_of_lt_last hi]
    exact List.getElem?_eq_getElem hi
  · exact List.drop_eq_getElem_cons hi

end Parse

open Parse

namespace Parser

/-! ### Runs -/

section

variable {α β : Type} (tokens : Array Token) (c : Cursor)

@[simp]
theorem on_pure (a : α) : (pure a : Parser α).on tokens c = (.ok a, c) := rfl

theorem on_read : (read : Parser (Array Token)).on tokens c = (.ok tokens, c) := rfl

theorem on_get : (get : Parser Cursor).on tokens c = (.ok c, c) := rfl

/-- Two parsers in a row: the second goes on where the first leaves the cursor, unless that
stopped. -/
theorem on_bind (p : Parser α) (f : α → Parser β) :
    (p >>= f).on tokens c = match p.on tokens c with
      | (.ok a, c') => (f a).on tokens c'
      | (.error stop, c') => (.error stop, c') := by
  change (StateT.bind (p tokens) (ExceptT.bindCont fun a => f a tokens)) c = _
  rcases h : p.on tokens c with ⟨_ | _, c'⟩
  · rw [StateT.bind, show p tokens c = _ from h]
    rfl
  · rw [StateT.bind, show p tokens c = _ from h]
    rfl

theorem on_tryCatch (p : Parser α) (f : Stop → Parser α) :
    (tryCatch p f).on tokens c = match p.on tokens c with
      | (.ok a, c') => (.ok a, c')
      | (.error stop, c') => (f stop).on tokens c' := by
  change (ExceptT.tryCatch (p tokens) fun stop => f stop tokens) c = _
  rw [ExceptT.tryCatch]
  change (StateT.bind (p tokens) fun r => _) c = _
  rcases h : p.on tokens c with ⟨_ | _, c'⟩
  · rw [StateT.bind, show p tokens c = _ from h]
    rfl
  · rw [StateT.bind, show p tokens c = _ from h]
    rfl

theorem on_map (f : α → β) (p : Parser α) :
    (f <$> p).on tokens c = ((p.on tokens c).1.map f, (p.on tokens c).2) := by
  rw [← bind_pure_comp, on_bind]
  rcases p.on tokens c with ⟨_ | _, c'⟩ <;> rfl

theorem on_error (t : Token) (e : SyntaxError) :
    (error t e : Parser α).on tokens c = (.error .syntaxError,
      { c with reported := c.reported.push (.atToken .static t e.message) }) := rfl

end

/-! ### Single tokens -/

section

variable {tokens : List Token} {i : Nat} {reported : Array Diagnostic} {t : Token}

theorem on_look (ht : tokens[i]? = some t) (c : Cursor) :
    (look i).on tokens.toArray c = (.ok t, c) := by
  rw [look, on_bind, on_read]
  dsimp only
  rw [List.getElem?_toArray, ht]
  rfl

theorem on_peek (ht : tokens[i]? = some t) :
    peek.on tokens.toArray ⟨i, reported⟩ = (.ok t, ⟨i, reported⟩) := by
  rw [peek, on_bind, on_get]
  exact on_look ht _

theorem on_previous (ht : tokens[i]? = some t) :
    previous.on tokens.toArray ⟨i + 1, reported⟩ = (.ok t, ⟨i + 1, reported⟩) := by
  rw [previous, on_bind, on_get]
  exact on_look ht _

theorem on_isAtEnd (ht : tokens[i]? = some t) :
    isAtEnd.on tokens.toArray ⟨i, reported⟩ = (.ok (t.kind = .eof : Bool), ⟨i, reported⟩) := by
  rw [isAtEnd, on_bind, on_peek ht]
  rfl

theorem on_check (ht : tokens[i]? = some t) (kind : TokenKind) :
    (check kind).on tokens.toArray ⟨i, reported⟩ =
      (.ok (t.kind ≠ .eof ∧ t.kind = kind : Bool), ⟨i, reported⟩) := by
  rw [check, on_bind, on_isAtEnd ht]
  dsimp only
  by_cases hend : t.kind = .eof
  · simp [hend]
  · rw [if_neg (by simpa using hend), on_bind, on_peek ht]
    simp [hend]

/-- In front of an end token, the cursor moves on. -/
theorem on_advance (ht : tokens[i]? = some t) (hkind : t.kind ≠ .eof) :
    advance.on tokens.toArray ⟨i, reported⟩ = (.ok t, ⟨i + 1, reported⟩) := by
  rw [advance, on_bind, on_isAtEnd ht]
  dsimp only
  rw [if_pos (by simpa using hkind)]
  exact on_previous ht

/-- At an end token, it stays. -/
theorem on_advance_of_eof {before : Token} (ht : tokens[i + 1]? = some t) (hkind : t.kind = .eof)
    (hbefore : tokens[i]? = some before) :
    advance.on tokens.toArray ⟨i + 1, reported⟩ = (.ok before, ⟨i + 1, reported⟩) := by
  rw [advance, on_bind, on_isAtEnd ht]
  dsimp only
  rw [if_neg (by simpa using hkind)]
  exact on_previous hbefore

theorem on_accept (ht : tokens[i]? = some t) (kinds : List TokenKind) :
    (accept kinds).on tokens.toArray ⟨i, reported⟩ =
      if t.kind ≠ .eof ∧ t.kind ∈ kinds then (.ok (some t), ⟨i + 1, reported⟩)
      else (.ok none, ⟨i, reported⟩) := by
  induction kinds with
  | nil => simp [accept]
  | cons kind kinds ih =>
    rw [accept, on_bind, on_check ht]
    dsimp only
    by_cases htaken : t.kind ≠ .eof ∧ t.kind = kind
    · rw [if_pos (by simpa using htaken), on_map, on_advance ht htaken.1,
        if_pos ⟨htaken.1, htaken.2 ▸ List.mem_cons_self⟩]
      rfl
    · have hothers : t.kind ≠ .eof ∧ t.kind ∈ kind :: kinds ↔ t.kind ≠ .eof ∧ t.kind ∈ kinds :=
        and_congr_right fun hend => by
          have hne : t.kind ≠ kind := fun hkind => htaken ⟨hend, hkind⟩
          simp [hne]
      rw [if_neg (by simpa using htaken), ih]
      simp only [hothers]

end

/-! ### Parsers that follow rules -/

end Parser

namespace Reply

variable {α : Type}

/-- The tokens that a reply leaves, whether the rule read or rejected. -/
def rest (reply : Reply α) : List Token :=
  match reply.result with
  | .ok (_, rest) => rest
  | .error e => e.rest

/-- All faults of a reply, that of its own reject at the end. -/
def registered (reply : Reply α) : List SyntaxFault :=
  match reply.result with
  | .ok _ => reply.faults
  | .error e => reply.faults ++ [e.fault]

/-- How a parser ends that does the same. -/
def outcome (reply : Reply α) : Except Stop α :=
  match reply.result with
  | .ok (a, _) => .ok a
  | .error _ => .error .syntaxError

end Reply

namespace Parser

/-- The diagnostics of faults in a list. -/
def shown (tokens : List Token) (faults : List SyntaxFault) : Array Diagnostic :=
  (faults.map (SyntaxFault.diagnostic (ending tokens))).toArray

theorem shown_append (tokens : List Token) (faults faults' : List SyntaxFault) :
    shown tokens (faults ++ faults') = shown tokens faults ++ shown tokens faults' := by
  simp [shown]

/-- From place `i` on, a parser **follows** a rule: it does what the rule answers for the tokens
ahead, and leaves the cursor at the tokens that the rule leaves. -/
def FollowsAt {α : Type} (tokens : List Token) (i : Nat) (p : Parser α) (r : Rule α) : Prop :=
  ∃ j, i ≤ j ∧ j ≤ last tokens ∧ (r (ahead tokens i)).rest = ahead tokens j ∧
    ∀ reported, p.on tokens.toArray ⟨i, reported⟩ = ((r (ahead tokens i)).outcome,
      ⟨j, reported ++ shown tokens (r (ahead tokens i)).registered⟩)

/-- The parser follows the rule wherever fewer than `k` tokens are ahead. -/
def Follows {α : Type} (tokens : List Token) (k : Nat) (p : Parser α) (r : Rule α) : Prop :=
  ∀ i ≤ last tokens, last tokens - i < k → FollowsAt tokens i p r

namespace FollowsAt

variable {α β : Type} {tokens : List Token} {i : Nat} {p : Parser α} {r r' : Rule α}

theorem congr (h : FollowsAt tokens i p r) (hr : r' (ahead tokens i) = r (ahead tokens i)) :
    FollowsAt tokens i p r' := by
  rw [FollowsAt, hr]
  exact h

/-- Two parsers in a row follow two rules in a row. -/
theorem bind {f : α → Parser β} {g : α → Rule β} (hp : FollowsAt tokens i p r)
    (hf : ∀ a j, i ≤ j → j ≤ last tokens →
      (r (ahead tokens i)).result = .ok (a, ahead tokens j) → FollowsAt tokens j (f a) (g a)) :
    FollowsAt tokens i (p >>= f) (r >>= g) := by
  obtain ⟨j, hij, hj, hrest, hon⟩ := hp
  rcases hr : r (ahead tokens i) with ⟨faults, e | ⟨a, rest⟩⟩
  -- The first stops. Its own reject is reported where it is made, so that nothing is to be added.
  · rw [hr] at hrest hon
    refine ⟨j, hij, hj, ?_, fun reported => ?_⟩
    · rw [Rule.bind_of_error hr]
      exact hrest
    · rw [Rule.bind_of_error hr, on_bind, hon]
      rfl
  -- The first answers, and the faults of both are reported one after the other.
  · rw [hr] at hrest hon
    obtain rfl : rest = ahead tokens j := hrest
    obtain ⟨m, hjm, hm, hrest', hon'⟩ := hf a j hij hj (by rw [hr])
    refine ⟨m, Nat.le_trans hij hjm, hm, ?_, fun reported => ?_⟩
    · rw [Rule.bind_of_ok hr]
      exact hrest'
    · have hregistered : (⟨faults ++ (g a (ahead tokens j)).faults,
          (g a (ahead tokens j)).result⟩ : Reply β).registered =
            faults ++ (g a (ahead tokens j)).registered := by
        rw [Reply.registered, Reply.registered]
        cases (g a (ahead tokens j)).result with
        | ok _ => rfl
        | error e => exact List.append_assoc ..
      rw [on_bind, hon]
      change (f a).on tokens.toArray ⟨j, reported ++ shown tokens faults⟩ = _
      rw [hon', Rule.bind_of_ok hr, hregistered, shown_append, Array.append_assoc]
      rfl

/-- A parser that only looks leaves the cursor where it is. -/
theorem of_look {p : Parser β} {b : β} {f : β → Parser α} (hf : FollowsAt tokens i (f b) r)
    (hp : ∀ reported, p.on tokens.toArray ⟨i, reported⟩ = (.ok b, ⟨i, reported⟩)) :
    FollowsAt tokens i (p >>= f) r := by
  obtain ⟨j, hij, hj, hrest, hon⟩ := hf
  refine ⟨j, hij, hj, hrest, fun reported => ?_⟩
  rw [on_bind, hp]
  exact hon reported

theorem pure (hi : i ≤ last tokens) (a : α) : FollowsAt tokens i (Pure.pure a) (Pure.pure a) :=
  ⟨i, Nat.le_refl i, hi, rfl, fun reported => by
    change (_, (⟨i, reported⟩ : Cursor)) = (_, ⟨i, reported ++ #[]⟩)
    rw [Array.append_empty]
    rfl⟩

theorem map (hp : FollowsAt tokens i p r) (f : α → β) : FollowsAt tokens i (f <$> p) (f <$> r) := by
  rw [← bind_pure_comp]
  exact hp.bind fun a j _ hj _ => .pure hj (f a)

/-- What is wrong is reported at a token, or at the end token if the rule has none to blame. -/
theorem error (hi : i ≤ last tokens) (blame : Option Token) {t : Token} {e : SyntaxError}
    (ht : t = blame.getD (ending tokens)) :
    FollowsAt tokens i (Parser.error t e : Parser α)
      (fun ts => ⟨[], .error ⟨⟨blame, e⟩, ts⟩⟩) := by
  refine ⟨i, Nat.le_refl i, hi, rfl, fun reported => ?_⟩
  rw [on_error, ht, Array.push_eq_append]
  rfl

/-- What the parser reads, the rule answers. -/
theorem exists_answers (hp : FollowsAt tokens i p r) {a : α} {j : Nat}
    {reported reported' : Array Diagnostic}
    (hread : p.on tokens.toArray ⟨i, reported⟩ = (.ok a, ⟨j, reported'⟩)) :
    ∃ faults, Rule.Answers r (ahead tokens i) faults a (ahead tokens j) ∧
      reported' = reported ++ shown tokens faults := by
  obtain ⟨j', -, -, hrest, hon⟩ := hp
  rw [hon] at hread
  rcases hr : r (ahead tokens i) with ⟨faults, e | ⟨b, rest⟩⟩
  · rw [hr] at hread
    cases hread
  · rw [hr] at hread hrest
    cases hread
    obtain rfl : rest = ahead tokens j := hrest
    exact ⟨faults, hr, rfl⟩

/-- What the rule answers, the parser reads. -/
theorem on_of_answers (hp : FollowsAt tokens i p r) {a : α} {j : Nat} {faults : List SyntaxFault}
    (hj : j ≤ last tokens) (hanswers : Rule.Answers r (ahead tokens i) faults a (ahead tokens j))
    (reported : Array Diagnostic) :
    p.on tokens.toArray ⟨i, reported⟩ = (.ok a, ⟨j, reported ++ shown tokens faults⟩) := by
  obtain ⟨j', -, hj', hrest, hon⟩ := hp
  rw [Rule.Answers] at hanswers
  rw [hanswers] at hrest hon
  rw [hon, eq_of_ahead_eq hj hj' hrest]
  rfl

end FollowsAt

section

variable {α β : Type} {tokens : List Token} (h : ∃ t ∈ tokens, t.kind = .eof) {i : Nat}
  (hi : i ≤ last tokens)

include h hi

/-- At the cursor there is a token: the first of those ahead, or the first end token. -/
theorem exists_getElem? : ∃ t, tokens[i]? = some t ∧
    (t.kind ≠ .eof ∧ i < last tokens ∧ ahead tokens i = t :: ahead tokens (i + 1) ∨
      t = ending tokens ∧ t.kind = .eof ∧ ahead tokens i = []) := by
  rcases Nat.lt_or_eq_of_le hi with hlt | rfl
  · obtain ⟨t, ht, hkind, hahead⟩ := exists_ahead_eq_cons hlt
    exact ⟨t, ht, .inl ⟨hkind, hlt, hahead⟩⟩
  · exact ⟨ending tokens, getElem?_last h, .inr ⟨rfl, kind_ending tokens, ahead_last tokens⟩⟩

theorem on_isAtEnd_ahead (reported : Array Diagnostic) :
    isAtEnd.on tokens.toArray ⟨i, reported⟩ = (.ok (ahead tokens i).isEmpty, ⟨i, reported⟩) := by
  obtain ⟨t, ht, ⟨hkind, -, hahead⟩ | ⟨-, hkind, hahead⟩⟩ := exists_getElem? h hi
  · rw [on_isAtEnd ht, hahead]
    simp [hkind]
  · rw [on_isAtEnd ht, hahead]
    simp [hkind]

theorem on_check_ahead (kind : TokenKind) (reported : Array Diagnostic) :
    (check kind).on tokens.toArray ⟨i, reported⟩ =
      (.ok ((ahead tokens i).head?.any fun t => t.kind = kind), ⟨i, reported⟩) := by
  obtain ⟨t, ht, ⟨hkind, -, hahead⟩ | ⟨-, hkind, hahead⟩⟩ := exists_getElem? h hi
  · rw [on_check ht, hahead]
    simp [hkind]
  · rw [on_check ht, hahead]
    simp [hkind]

namespace FollowsAt

/-- What is wrong is reported at the cursor. -/
theorem error_peek (e : SyntaxError) : FollowsAt tokens i
    (do Parser.error (← peek) e : Parser α) (liftM (Phrase.reject e : Phrase α)) := by
  obtain ⟨t, ht, hahead⟩ := exists_getElem? h hi
  refine of_look ?_ fun reported => on_peek ht
  refine (error hi (ahead tokens i).head? (e := e) ?_).congr rfl
  rcases hahead with ⟨-, -, hahead⟩ | ⟨hend, -, hahead⟩
  · rw [hahead]
    rfl
  · rw [hahead]
    exact hend

/-- A token is **accepted**, and the rule goes on behind it, or it is not. -/
theorem of_accept {kinds : List TokenKind} {f : Option Token → Parser α} {r : Rule α}
    (hsome : ∀ t, i < last tokens → ahead tokens i = t :: ahead tokens (i + 1) → t.kind ∈ kinds →
      ∃ r', r (ahead tokens i) = r' (ahead tokens (i + 1)) ∧
        FollowsAt tokens (i + 1) (f (some t)) r')
    (hnone : (∀ t ∈ (ahead tokens i).head?, t.kind ∉ kinds) → FollowsAt tokens i (f none) r) :
    FollowsAt tokens i (accept kinds >>= f) r := by
  obtain ⟨t, ht, hahead⟩ := exists_getElem? h hi
  by_cases htaken : t.kind ≠ .eof ∧ t.kind ∈ kinds
  · obtain ⟨-, hlt, hahead⟩ := hahead.resolve_right fun hend => htaken.1 hend.2.1
    obtain ⟨r', hr, j, hij, hj, hrest, hon⟩ := hsome t hlt hahead htaken.2
    refine ⟨j, Nat.le_of_succ_le hij, hj, hr ▸ hrest, fun reported => ?_⟩
    rw [on_bind, on_accept ht, if_pos htaken, hr]
    exact hon reported
  · refine of_look (hnone ?_) fun reported => by rw [on_accept ht, if_neg htaken]
    rcases hahead with ⟨hkind, -, hahead⟩ | ⟨-, -, hahead⟩
    · rw [hahead]
      rintro _ ⟨⟩ hmem
      exact htaken ⟨hkind, hmem⟩
    · rw [hahead]
      exact fun _ hnot => by cases hnot

/-- Where no token is ahead, none is accepted. -/
theorem of_accept_of_nil (hnil : ahead tokens i = []) {kinds : List TokenKind}
    {f : Option Token → Parser α} {r : Rule α} (hnone : FollowsAt tokens i (f none) r) :
    FollowsAt tokens i (accept kinds >>= f) r := by
  refine of_accept h hi (fun t _ hahead _ => ?_) fun _ => hnone
  rw [hnil] at hahead
  cases hahead

theorem consume (kind : TokenKind) (e : SyntaxError) :
    FollowsAt tokens i (Parser.consume kind e) (liftM (Phrase.expect kind e)) := by
  refine of_look ?_ (on_check_ahead h hi kind)
  obtain ⟨t, ht, hahead⟩ := exists_getElem? h hi
  split
  · next hkind =>
    rcases hahead with ⟨hne, hlt, hahead⟩ | ⟨-, -, hahead⟩
    · have hread : Phrase.expect kind e (ahead tokens i) = .ok (t, ahead tokens (i + 1)) := by
        rw [hahead] at hkind ⊢
        exact Phrase.expect_eq_ok_iff.mpr ⟨rfl, by simpa using hkind⟩
      have hreply : (liftM (Phrase.expect kind e) : Rule Token) (ahead tokens i) =
          ⟨[], .ok (t, ahead tokens (i + 1))⟩ := congrArg (Reply.mk []) hread
      refine ⟨i + 1, Nat.le_succ i, hlt, by rw [hreply]; rfl, fun reported => ?_⟩
      rw [on_advance ht hne, hreply]
      simp [Reply.outcome, Reply.registered, shown]
    · rw [hahead] at hkind
      cases hkind
  · next hkind =>
    have hread : Phrase.expect kind e (ahead tokens i) = Phrase.reject e (ahead tokens i) := by
      refine Phrase.bind_of_ok (Phrase.accept?_eq_none_iff.mpr ⟨rfl, fun u hu hmem => hkind ?_⟩)
      rw [hu]
      exact hmem
    exact (error_peek h hi e).congr (congrArg (Reply.mk []) hread)

end FollowsAt

end

namespace Follows

variable {α β : Type} {tokens : List Token} {k k' : Nat} {p : Parser α} {r : Rule α}

theorem mono (hp : Follows tokens k p r) (hle : k' ≤ k) : Follows tokens k' p r :=
  fun i hi hk => hp i hi (Nat.lt_of_lt_of_le hk hle)

theorem pure (a : α) : Follows tokens k (Pure.pure a) (Pure.pure a) := fun _ hi _ => .pure hi a

theorem map (hp : Follows tokens k p r) (f : α → β) : Follows tokens k (f <$> p) (f <$> r) :=
  fun i hi hk => (hp i hi hk).map f

theorem bind {f : α → Parser β} {g : α → Rule β} (hp : Follows tokens k p r)
    (hf : ∀ a, Follows tokens k (f a) (g a)) : Follows tokens k (p >>= f) (r >>= g) :=
  fun i hi hk => (hp i hi hk).bind fun a j hij hj _ => hf a j hj (by omega)

theorem liftM_bind {q : Phrase α} {f : α → Parser β} {g : α → Phrase β}
    (hp : Follows tokens k p (liftM q)) (hf : ∀ a, Follows tokens k (f a) (liftM (g a))) :
    Follows tokens k (p >>= f) (liftM (q >>= g)) :=
  fun i hi hk => (hp.bind hf i hi hk).congr (Rule.liftM_bind q g _)

theorem liftM_map {q : Phrase α} (hp : Follows tokens k p (liftM q)) (f : α → β) :
    Follows tokens k (f <$> p) (liftM (f <$> q)) := by
  rw [← bind_pure_comp, ← bind_pure_comp]
  exact hp.liftM_bind fun a => .pure (f a)

section

variable (h : ∃ t ∈ tokens, t.kind = .eof)

include h

theorem consume (kind : TokenKind) (e : SyntaxError) :
    Follows tokens k (Parser.consume kind e) (liftM (Phrase.expect kind e)) :=
  fun _ hi _ => .consume h hi kind e

section

variable {kinds : List TokenKind} {f : Option Token → Parser α} {i : Nat} (hi : i ≤ last tokens)
  (hk : last tokens - i < k) (hle : k ≤ k' + 1)

include hi hk hle

/-- Where a rule begins with a token of some **kinds**, another rule goes on behind it, with one
token less ahead. Elsewhere the rule itself is to be followed. -/
theorem of_first (r' : Token → Rule α) (hread : ∀ t ts, t.kind ∈ kinds → r (t :: ts) = r' t ts)
    (hsome : ∀ t, Follows tokens k' (f (some t)) (r' t))
    (hnone : (∀ t ∈ (ahead tokens i).head?, t.kind ∉ kinds) → FollowsAt tokens i (f none) r) :
    FollowsAt tokens i (accept kinds >>= f) r := by
  refine .of_accept h hi (fun t hlt hahead hmem => ?_) hnone
  have hfirst : r (ahead tokens i) = r' t (ahead tokens (i + 1)) := by
    rw [hahead]
    exact hread t _ hmem
  exact ⟨r' t, hfirst, hsome t (i + 1) hlt (by omega)⟩

theorem liftM_of_first {q : Phrase α} (q' : Token → Phrase α)
    (hread : ∀ t ts, t.kind ∈ kinds → q (t :: ts) = q' t ts)
    (hsome : ∀ t, Follows tokens k' (f (some t)) (liftM (q' t)))
    (hnone : (∀ t ∈ (ahead tokens i).head?, t.kind ∉ kinds) →
      FollowsAt tokens i (f none) (liftM q)) :
    FollowsAt tokens i (accept kinds >>= f) (liftM q) :=
  of_first h hi hk hle (fun t => liftM (q' t))
    (fun t ts hmem => congrArg (Reply.mk []) (hread t ts hmem)) hsome hnone

end

/-- Behind a token that is accepted, one token less is ahead. -/
theorem accept_bind {kinds : List TokenKind} {accepted : TokenKind → Bool}
    {f : Option Token → Parser β} {g : Option Token → Rule β}
    (hkinds : ∀ kind, accepted kind ↔ kind ∈ kinds) (hle : k ≤ k' + 1)
    (hsome : ∀ t, Follows tokens k' (f (some t)) (g (some t)))
    (hnone : Follows tokens k (f none) (g none)) :
    Follows tokens k (accept kinds >>= f) (liftM (Phrase.accept? accepted) >>= g) := by
  intro i hi hk
  refine .of_accept h hi (fun t hlt hahead hmem => ?_) fun hnot => ?_
  · have hread : Phrase.accept? accepted (ahead tokens i) = .ok (some t, ahead tokens (i + 1)) := by
      rw [hahead]
      exact Phrase.accept?_eq_some_iff.mpr ⟨rfl, (hkinds _).mpr hmem⟩
    exact ⟨g (some t), Rule.liftM_bind_of_ok hread, hsome t (i + 1) hlt (by omega)⟩
  · have hread : Phrase.accept? accepted (ahead tokens i) = .ok (none, ahead tokens i) :=
      Phrase.accept?_eq_none_iff.mpr ⟨rfl, fun t ht hacc => hnot t ht ((hkinds _).mp hacc)⟩
    exact (hnone i hi hk).congr (Rule.liftM_bind_of_ok hread)

theorem liftM_accept_bind {kinds : List TokenKind} {accepted : TokenKind → Bool}
    {f : Option Token → Parser β} {g : Option Token → Phrase β}
    (hkinds : ∀ kind, accepted kind ↔ kind ∈ kinds) (hle : k ≤ k' + 1)
    (hsome : ∀ t, Follows tokens k' (f (some t)) (liftM (g (some t))))
    (hnone : Follows tokens k (f none) (liftM (g none))) :
    Follows tokens k (accept kinds >>= f) (liftM (Phrase.accept? accepted >>= g)) :=
  fun i hi hk => (accept_bind h hkinds hle hsome hnone i hi hk).congr (Rule.liftM_bind _ g _)

/-- What is done if the next token has a kind, and if it has not. -/
theorem check_bind {kind : TokenKind} {f : Bool → Parser β} {g : Bool → Phrase β}
    (hf : ∀ b, Follows tokens k (f b) (liftM (g b))) :
    Follows tokens k (check kind >>= f) (liftM (Phrase.ahead (· = kind) >>= g)) := by
  intro i hi hk
  exact .of_look ((hf _ i hi hk).congr rfl) (on_check_ahead h hi kind)

end

end Follows

/-! ### Recovery -/

section

variable {tokens : List Token} (h : ∃ t ∈ tokens, t.kind = .eof)

include h

/-- Tokens are **skipped** behind one, up to a statement boundary. -/
theorem exists_on_skip {n i : Nat} {before : Token} (hbefore : tokens[i]? = some before)
    (hi : i + 1 ≤ last tokens) (hn : last tokens - (i + 1) < n) :
    ∃ j, i + 1 ≤ j ∧ j ≤ last tokens ∧
      Rule.skipPast before (ahead tokens (i + 1)) = ahead tokens j ∧
      ∀ reported, (skip n).on tokens.toArray ⟨i + 1, reported⟩ = (.ok (), ⟨j, reported⟩) := by
  -- The bound goes down with the tokens ahead, one for one, and is never exhausted.
  induction n generalizing i before with
  | zero => exact absurd hn (Nat.not_lt_zero _)
  | succ n ih =>
    obtain ⟨t, ht, ⟨hkind, hlt, hahead⟩ | ⟨-, hkind, hahead⟩⟩ := exists_getElem? h hi
    · by_cases hsemicolon : before.kind = .semicolon
      · refine ⟨i + 1, Nat.le_refl _, hi, ?_, fun reported => ?_⟩
        · rw [hahead, Rule.skipPast, if_pos (by simp [hsemicolon])]
        · rw [skip, on_bind, on_isAtEnd ht]
          simp [hkind, on_bind, on_previous hbefore, hsemicolon]
      by_cases hopens : opensStatement t.kind
      · refine ⟨i + 1, Nat.le_refl _, hi, ?_, fun reported => ?_⟩
        · rw [hahead, Rule.skipPast, if_pos (by simp [hopens])]
        · rw [skip, on_bind, on_isAtEnd ht]
          simp [hkind, on_bind, on_previous hbefore, hsemicolon, on_peek ht, hopens]
      · obtain ⟨j, hij, hj, hskip, hon⟩ := ih ht hlt (by omega)
        refine ⟨j, Nat.le_of_succ_le hij, hj, ?_, fun reported => ?_⟩
        · rw [hahead, Rule.skipPast, if_neg (by simp [hsemicolon, hopens]), hskip]
        · rw [skip, on_bind, on_isAtEnd ht]
          simp [hkind, on_bind, on_previous hbefore, hsemicolon, on_peek ht, hopens,
            on_advance ht hkind, hon]
    · refine ⟨i + 1, Nat.le_refl _, hi, by rw [hahead, Rule.skipPast], fun reported => ?_⟩
      rw [skip, on_bind, on_isAtEnd ht]
      simp [hkind]

/-- Where a declaration has stopped, tokens are skipped, and the cursor **moves on** unless it is at
the first end token. -/
theorem exists_on_synchronize {n i : Nat} (hpos : 0 < last tokens) (hi : i ≤ last tokens)
    (hn : last tokens < n + i) :
    ∃ j, i ≤ j ∧ (i < last tokens → i < j) ∧ j ≤ last tokens ∧
      Rule.synchronize (ahead tokens i) = ahead tokens j ∧
      ∀ reported, (synchronize n).on tokens.toArray ⟨i, reported⟩ = (.ok (), ⟨j, reported⟩) := by
  obtain ⟨t, ht, ⟨hkind, hlt, hahead⟩ | ⟨rfl, hkind, hahead⟩⟩ := exists_getElem? h hi
  · obtain ⟨j, hij, hj, hskip, hon⟩ := exists_on_skip h ht hlt (by omega : _ < n)
    refine ⟨j, Nat.le_of_succ_le hij, fun _ => hij, hj, ?_, fun reported => ?_⟩
    · rw [hahead, Rule.synchronize, hskip]
    · rw [synchronize, on_bind, on_advance ht hkind]
      exact hon reported
  -- At the end, the first step stays, and gives back the token in front of the cursor.
  · have hlast : i = last tokens := by
      have hnone := congrArg List.length hahead
      rw [length_ahead, List.length_nil] at hnone
      omega
    obtain ⟨i, rfl⟩ : ∃ i', i = i' + 1 := ⟨i - 1, by omega⟩
    obtain ⟨n, rfl⟩ : ∃ n', n = n' + 1 := ⟨n - 1, by omega⟩
    obtain ⟨before, hbefore, -⟩ := exists_ahead_eq_cons (by omega : i < last tokens)
    refine ⟨i + 1, Nat.le_refl _, fun hlt => by omega, hi, ?_, fun reported => ?_⟩
    · rw [hahead, Rule.synchronize]
    · rw [synchronize, on_bind, on_advance_of_eof ht hkind hbefore]
      dsimp only
      rw [skip, on_bind, on_isAtEnd ht]
      simp [hkind]

/-- A parser that **recovers** follows the rule that recovers, if it does not start at the end. -/
theorem FollowsAt.recover {p : Parser Stmt} {r : Rule Stmt} {i n : Nat} (hi : i < last tokens)
    (hn : last tokens < n + i) (hp : FollowsAt tokens i p r) :
    FollowsAt tokens i (recover n p) (Rule.recover r) := by
  obtain ⟨j, hij, hj, hrest, hon⟩ := hp
  rw [FollowsAt, Rule.recover]
  rcases hr : r (ahead tokens i) with ⟨faults, e | ⟨s, rest⟩⟩
  · rw [hr] at hrest hon
    obtain ⟨m, hjm, -, hm, hskip, hskips⟩ :=
      exists_on_synchronize h (Nat.lt_of_le_of_lt (Nat.zero_le i) hi) hj (by omega : _ < n + j)
    refine ⟨m, Nat.le_trans hij hjm, hm, ?_, fun reported => ?_⟩
    · rw [← hskip, ← hrest]
      rfl
    · rw [Parser.recover, on_tryCatch, on_map, hon]
      change ((do synchronize n; Pure.pure none : Parser (Option Stmt))).on _ _ = _
      rw [on_bind, hskips]
      rfl
  · rw [hr] at hrest hon
    refine ⟨j, hij, hj, hrest, fun reported => ?_⟩
    rw [Parser.recover, on_tryCatch, on_map, hon]
    rfl

end

end Parser

end LoxLang
