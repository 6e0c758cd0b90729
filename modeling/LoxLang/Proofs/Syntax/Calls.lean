import Mathlib.Data.List.Forall2
import LoxLang.Proofs.Syntax.Ends
import LoxLang.Proofs.Syntax.Order
import LoxLang.Proofs.Syntax.Recorded
import LoxLang.Proofs.Syntax.Replacement

/-!
# Dropped declarations

The parser reports a syntax error where it is found, and it drops a declaration where it recovers.
There is one report for each declaration that is dropped, at any depth, in the same order, and the
reports never go back in the tokens (`parse_faults_in_order`).
-/

namespace LoxLang

/-! ### Places -/

namespace Parse

/-- The tokens **numbered**: the line of each says at which place it stands. -/
def numbered (tokens : List Token) : List Token :=
  tokens.mapIdx fun i t => { t with line := (i : Int) }

/-- The place that is the line of a numbered token. -/
def place (t : Token) : Nat := t.line.toNat

/-- Puts the line of one of the tokens back where that has been numbered. -/
def relined (tokens : List Token) (t : Token) : Token :=
  { t with line := (tokens[place t]?.map Token.line).getD t.line }

/-- The **places that are blamed**, in the order of the diagnostics. The parser does not look at
lines (`Rule.carries_program`), so it blames numbered tokens in the same places and says so. -/
def blamedPlaces (tokens : List Token) : List Nat :=
  (ofTokens (numbered tokens)).diagnostics.map fun d => d.line.toNat

/-- The calls of the rule for declarations that the parser makes, at all depths, in the order in
which they return. -/
def calls (tokens : List Token) : List Call := (Recorded.program (body tokens)).calls

variable {tokens : List Token}

theorem getElem?_numbered (tokens : List Token) (i : Nat) :
    (numbered tokens)[i]? = tokens[i]?.map fun t => { t with line := (i : Int) } := by
  simp [numbered]

theorem kind_relined (tokens : List Token) (t : Token) : (relined tokens t).kind = t.kind := rfl

theorem relined_numbered (tokens : List Token) :
    (numbered tokens).map (relined tokens) = tokens := by
  refine List.ext_getElem? fun i => ?_
  rw [List.getElem?_map, getElem?_numbered]
  rcases h : tokens[i]? with _ | t
  · rfl
  · simp [relined, place, h]

theorem body_map {f : Token → Token} (hkind : ∀ t, (f t).kind = t.kind) (tokens : List Token) :
    body (tokens.map f) = (body tokens).map f := by
  simp only [body, List.takeWhile_map, Function.comp_def, hkind]

theorem body_relined (tokens : List Token) :
    (body (numbered tokens)).map (relined tokens) = body tokens := by
  rw [← body_map (kind_relined tokens), relined_numbered]

theorem exists_end_numbered (h : ∃ t ∈ tokens, t.kind = .eof) :
    ∃ t ∈ numbered tokens, t.kind = .eof := by
  obtain ⟨t, ht, hkind⟩ := h
  obtain ⟨i, hi⟩ := List.getElem?_of_mem ht
  have hat := getElem?_numbered tokens i
  rw [hi, Option.map_some] at hat
  exact ⟨_, List.mem_of_getElem? hat, hkind⟩

theorem last_numbered (tokens : List Token) : last (numbered tokens) = last tokens := by
  rw [last, last, ← body_relined tokens, List.length_map]

theorem place_of_getElem?_numbered {i : Nat} {t : Token} (h : (numbered tokens)[i]? = some t) :
    place t = i := by
  rw [getElem?_numbered] at h
  obtain ⟨u, -, rfl⟩ := Option.map_eq_some_iff.mp h
  exact Int.toNat_natCast i

/-- The places in front of the first end token, in their order. -/
theorem map_place_body_numbered (tokens : List Token) :
    (body (numbered tokens)).map place = List.range (last tokens) := by
  refine List.ext_getElem? fun i => ?_
  rw [List.getElem?_map]
  by_cases hi : i < last tokens
  · have hlast : i < last (numbered tokens) := by rwa [last_numbered]
    obtain ⟨t, ht⟩ : ∃ t, (body (numbered tokens))[i]? = some t :=
      ⟨_, List.getElem?_eq_getElem hlast⟩
    have hplace := place_of_getElem?_numbered ((getElem?_of_lt_last hlast).trans ht)
    rw [ht, Option.map_some, hplace, List.getElem?_range hi]
  · have hbody : (body (numbered tokens)).length ≤ i := by
      rw [← last, last_numbered]
      omega
    rw [List.getElem?_eq_none hbody, List.getElem?_eq_none (by simpa using hi), Option.map_none]

theorem place_ending_numbered (h : ∃ t ∈ tokens, t.kind = .eof) :
    place (ending (numbered tokens)) = last tokens := by
  have hlast := getElem?_last (exists_end_numbered h)
  rw [last_numbered] at hlast
  exact place_of_getElem?_numbered hlast

/-- The faults are those of the numbered tokens. -/
theorem faults_relined (tokens : List Token) :
    (Rule.program (body tokens)).faults =
      (Rule.program (body (numbered tokens))).faults.map
        (SyntaxFault.mapTokens (relined tokens)) := by
  have hprogram := Rule.carries_program (kind_relined tokens) (fun _ => rfl)
    (body (numbered tokens))
  rw [body_relined] at hprogram
  rw [hprogram, Reply.mapTokens]

theorem blamedPlaces_eq (tokens : List Token) :
    blamedPlaces tokens = (Rule.program (body (numbered tokens))).faults.map fun φ =>
      place (φ.blame.getD (ending (numbered tokens))) := by
  rw [blamedPlaces, diagnostics_ofTokens, List.map_map]
  rfl

/-- A numbered token says where the token that it stands for is. -/
theorem getElem?_place {t : Token} (ht : t ∈ numbered tokens) :
    tokens[place t]? = some (relined tokens t) := by
  obtain ⟨i, hi⟩ := List.getElem?_of_mem ht
  have hat : ((numbered tokens).map (relined tokens))[i]? = some (relined tokens t) := by
    rw [List.getElem?_map, hi, Option.map_some]
  rwa [relined_numbered, ← place_of_getElem?_numbered hi] at hat

/-- The diagnostic of a fault points at the token in its place. -/
theorem diagnostic_relined (h : ∃ t ∈ tokens, t.kind = .eof) {φ : SyntaxFault}
    (hφ : φ ∈ (Rule.program (body (numbered tokens))).faults) :
    ∃ t, tokens[place (φ.blame.getD (ending (numbered tokens)))]? = some t ∧
      (φ.mapTokens (relined tokens)).diagnostic (ending tokens) =
        .atToken .static t φ.error.message := by
  rcases hblame : φ.blame with _ | t
  · refine ⟨ending tokens, ?_, ?_⟩
    · rw [Option.getD_none, place_ending_numbered h, getElem?_last h]
    · simp [SyntaxFault.diagnostic, SyntaxFault.mapTokens, hblame]
  · have hmem : t ∈ body (numbered tokens) :=
      (Rule.forward_program (body (numbered tokens))).2 φ hφ t hblame
    refine ⟨relined tokens t, getElem?_place ((List.takeWhile_prefix _).subset hmem), ?_⟩
    simp [SyntaxFault.diagnostic, SyntaxFault.mapTokens, hblame]

/-- The places that are blamed go up, and none is blamed again but that of the end. -/
theorem pairwise_blamedPlaces (h : ∃ t ∈ tokens, t.kind = .eof) :
    (blamedPlaces tokens).Pairwise fun i j => i ≤ j ∧ (i = j → j = last tokens) := by
  obtain ⟨faults, ss, hprogram⟩ := Rule.answers_program (body (numbered tokens))
  have horder := Rule.orderly_program (body (numbered tokens))
  rw [hprogram] at horder
  obtain ⟨used, hcut, blamed, cut, hblamed, -, hblames⟩ := horder
  rw [List.append_nil] at hcut
  subst hcut
  have hplaces : blamedPlaces tokens =
      blamed.map place ++ List.replicate cut (last tokens) := by
    rw [blamedPlaces_eq, hprogram, ← place_ending_numbered h]
    have hmap : ∀ faults : List SyntaxFault,
        faults.map (fun φ => place (φ.blame.getD (ending (numbered tokens)))) =
          (faults.map SyntaxFault.blame).map
            (fun blame => place (blame.getD (ending (numbered tokens)))) :=
      fun faults => by simp
    rw [hmap, hblames]
    simp
  -- Places in front of the end token are blamed at most once each, in their order.
  have hsublist : (blamed.map place).Sublist (List.range (last tokens)) := by
    rw [← map_place_body_numbered]
    exact hblamed.map place
  have hbefore : ∀ i ∈ blamed.map place, i < last tokens :=
    fun i hi => List.mem_range.mp (hsublist.subset hi)
  rw [hplaces, List.pairwise_append]
  refine ⟨?_, ?_, fun i hi j hj => ?_⟩
  · exact (List.pairwise_lt_range.sublist hsublist).imp fun hlt =>
      ⟨Nat.le_of_lt hlt, fun heq => absurd heq (Nat.ne_of_lt hlt)⟩
  · exact List.pairwise_replicate.mpr (.inr ⟨Nat.le_refl _, fun _ => rfl⟩)
  · obtain rfl := List.eq_of_mem_replicate hj
    exact ⟨Nat.le_of_lt (hbefore i hi), fun _ => rfl⟩

/-- What the diagnostics of a token list are: one for each dropped declaration, in order. -/
structure FaultsInOrder (tokens : List Token) : Prop where
  /-- What is reported where the parser stops is what the calls that dropped a declaration have
  recovered from, in the order of these. -/
  diagnostics : (ofTokens tokens).diagnostics =
    ((calls tokens).filterMap Call.fault?).map (SyntaxFault.diagnostic (ending tokens))
  /-- There are as many as calls that answered nothing. -/
  count : (ofTokens tokens).diagnostics.length =
    (calls tokens).countP fun c => c.answer?.isNone
  /-- Each points at the token that it blames. -/
  places : List.Forall₂ (fun d i => ∃ (t : Token) (e : SyntaxError),
      tokens[i]? = some t ∧ d = .atToken .static t e.message)
    (ofTokens tokens).diagnostics (blamedPlaces tokens)
  /-- The places that are blamed go up, and no token but the end token is blamed twice. -/
  order : (blamedPlaces tokens).Pairwise fun i j => i ≤ j ∧ (i = j → j = last tokens)
  /-- Each call is one that the parser makes with its cursor in front of the first end token: it
  answers the same and leaves the cursor at the same tokens. -/
  made : ∀ c ∈ calls tokens, ∃ i j added, i < j ∧ j ≤ last tokens ∧ c.tokens = ahead tokens i ∧
    c.rest = ahead tokens j ∧ ∀ reported, Parser.ComesTo tokens Parser.declaration i j reported
      (.ok c.answer?) (reported ++ added)
  /-- There are none just if every call has answered a statement. -/
  none : (ofTokens tokens).diagnostics = [] ↔ ∀ c ∈ calls tokens, ∃ s, c.answer? = some s

theorem diagnostics_eq_calls (tokens : List Token) : (ofTokens tokens).diagnostics =
    ((calls tokens).filterMap Call.fault?).map (SyntaxFault.diagnostic (ending tokens)) := by
  rw [diagnostics_ofTokens, ← Recorded.forget_program]
  rfl

/-- The **calls** in the record are calls of the parser. -/
theorem exists_comesTo_of_mem_calls (h : ∃ t ∈ tokens, t.kind = .eof) {c : Call}
    (hc : c ∈ calls tokens) : ∃ i j added, i < j ∧ j ≤ last tokens ∧ c.tokens = ahead tokens i ∧
      c.rest = ahead tokens j ∧ ∀ reported, Parser.ComesTo tokens Parser.declaration i j reported
        (.ok c.answer?) (reported ++ added) := by
  obtain ⟨hsuffix, hne, hdeclaration⟩ := Recorded.isDeclaration_of_mem_calls hc
  have hlength := hsuffix.length_le
  have hpos := List.length_pos_iff.mpr hne
  obtain ⟨faults, hanswers⟩ := hdeclaration (last tokens) hlength
  have hahead : c.tokens = ahead tokens (last tokens - c.tokens.length) :=
    List.suffix_iff_eq_drop.mp hsuffix
  rw [hahead] at hanswers
  obtain ⟨j, hij, hj, hrest, hcomes⟩ :=
    Parser.exists_comesTo_declaration h
      (Nat.sub_lt (Nat.lt_of_lt_of_le hpos hlength) hpos) hanswers
  exact ⟨_, j, _, hij, hj, hahead, hrest, hcomes⟩

theorem diagnostics_places (h : ∃ t ∈ tokens, t.kind = .eof) :
    List.Forall₂ (fun d i => ∃ (t : Token) (e : SyntaxError),
        tokens[i]? = some t ∧ d = .atToken .static t e.message)
      (ofTokens tokens).diagnostics (blamedPlaces tokens) := by
  rw [blamedPlaces_eq, diagnostics_ofTokens, faults_relined, List.map_map,
    List.forall₂_map_left_iff, List.forall₂_map_right_iff, List.forall₂_same]
  intro φ hφ
  obtain ⟨t, hat, hdiagnostic⟩ := diagnostic_relined h hφ
  exact ⟨t, φ.error, hat, hdiagnostic⟩

end Parse

/-- **Syntax faults come in order**, one for each declaration that is dropped at any depth. -/
theorem parse_faults_in_order {tokens : List Token} (h : ∃ t ∈ tokens, t.kind = .eof) :
    Parse.FaultsInOrder tokens where
  diagnostics := Parse.diagnostics_eq_calls tokens
  count := by
    rw [Parse.diagnostics_eq_calls, List.length_map, List.length_filterMap_eq_countP]
    congr
    funext c
    rcases c with ⟨ts, _ | _, rest⟩ <;> rfl
  places := Parse.diagnostics_places h
  order := Parse.pairwise_blamedPlaces h
  made := fun c hc => Parse.exists_comesTo_of_mem_calls h hc
  none := by
    rw [Parse.diagnostics_eq_calls, List.map_eq_nil_iff, List.filterMap_eq_nil_iff]
    refine forall₂_congr fun c _ => ?_
    rcases c with ⟨ts, _ | _, rest⟩ <;> simp [Call.fault?, Call.answer?]

/-- In `print ; var = ; { print` four declarations are dropped: two at the tokens where they stop,
and at the end the statement in the block and then the block itself. -/
theorem parse_faults_in_order_of_block :
    let tokens : List Token := [⟨.keyword .print_, "print", .nil, 1⟩, ⟨.semicolon, ";", .nil, 1⟩,
      ⟨.keyword .var_, "var", .nil, 2⟩, ⟨.equal, "=", .nil, 2⟩, ⟨.semicolon, ";", .nil, 2⟩,
      ⟨.leftBrace, "\x7b", .nil, 3⟩, ⟨.keyword .print_, "print", .nil, 3⟩, .atEnd 3]
    Parse.FaultsInOrder tokens ∧ Parse.blamedPlaces tokens = [1, 3, 7, 7] :=
  ⟨parse_faults_in_order ⟨.atEnd 3, by simp, rfl⟩, (Parse.blamedPlaces_eq _).trans (by decide)⟩

end LoxLang
