import LoxLang.Proofs.Lexemes.Concatenation

/-!
# Blank lines

A line without characters adds no token to a text and takes none away, wherever it stands: outside
of strings it is one more blank, and inside a string it belongs to the text of the string. So a text
has tokens of the same **kinds**, in the same order, with one line feed or with several
(`sameKinds_blank_line`, `sameKinds_newline`), although its tokens stand on other lines and its
strings have other texts.
-/

namespace LoxLang

/-- The kind of a piece that is a token. -/
def Piece.kind? (p : Piece) : Option TokenKind :=
  match p.form with
  | .token kind => some kind
  | _ => none

theorem map_kind_tokens {source : String} {ps : List Piece} (h : Cutting source.toList ps) :
    (scan source).tokens.map Token.kind = ps.filterMap Piece.kind? ++ [.eof] := by
  have hkind : ∀ p : Piece, p.lexeme?.map Prod.fst = p.kind? := by
    rintro ⟨form, text⟩
    cases form <;> rfl
  have hfirst := congrArg (List.map Prod.fst) (map_tokens h)
  rw [List.map_map, List.map_append, List.map_filterMap] at hfirst
  simp only [hkind] at hfirst
  exact hfirst

/-! ### Texts that go on behind a line feed -/

namespace Cutting

variable {cs inner rest : List Char} {ps qs : List Piece}

/-- A string that is closed is cut off from what follows. -/
theorem string (h : '"' ∉ inner) (hrest : Cutting rest ps) :
    Cutting ('"' :: inner ++ '"' :: rest) (⟨.token .string, '"' :: inner ++ ['"']⟩ :: ps) := by
  have hlongest := Piece.longest_next 1 '"' (inner ++ '"' :: rest)
  have hstands := Piece.stands_next 1 '"' (inner ++ '"' :: rest)
  rw [Piece.next_quote, Piece.string_append h] at hlongest hstands
  have hcons := Cutting.cons hstands hlongest hrest
  simpa [Piece.Split.on] using hcons

/-- A string that is not closed is all that follows. -/
theorem unclosed (h : '"' ∉ inner) : Cutting ('"' :: inner) [⟨.unclosed, '"' :: inner⟩] := by
  have hcons := Cutting.cons (.unclosed h) nofun .nil
  rwa [List.append_nil] at hcons

/-- A text in which a string is **not closed** goes on with that string behind a line feed, and is
cut as before up to it. -/
theorem exists_unclosed (h : Cutting cs ps) (hopen : ¬ ∀ p ∈ ps, p.form ≠ .unclosed) :
    ∃ front inner, '"' ∉ inner ∧ ps = front ++ [⟨.unclosed, '"' :: inner⟩] ∧
      ∀ ds qs, Cutting ('"' :: inner ++ '\n' :: ds) qs →
        Cutting (cs ++ '\n' :: ds) (front ++ qs) := by
  induction h with
  | nil => exact absurd nofun hopen
  | @cons p rest ps hstands hlongest hps ih =>
    by_cases hp : p.form = .unclosed
    · cases hstands with
      | @unclosed inner hinner =>
        obtain rfl := hps.unique .nil
        refine ⟨[], inner, hinner, rfl, fun ds qs hqs => ?_⟩
        rwa [List.append_nil]
      | _ => cases hp
    · have hrest : ¬ ∀ p ∈ ps, p.form ≠ .unclosed := fun h =>
        hopen (List.forall_mem_cons.mpr ⟨hp, h⟩)
      obtain ⟨front, inner, hinner, rfl, hbehind⟩ := ih hrest
      refine ⟨p :: front, inner, hinner, rfl, fun ds qs hqs => ?_⟩
      rw [List.append_assoc]
      exact .cons (hstands.append_newline hp ds) (hlongest.append_newline hstands ds)
        (hbehind ds qs hqs)

end Cutting

/-! ### The same kinds -/

/-- The tokens of two texts are of the same **kinds**, in the same order. -/
def SameKinds (cs ds : List Char) : Prop :=
  ∀ ps qs, Cutting cs ps → Cutting ds qs → ps.filterMap Piece.kind? = qs.filterMap Piece.kind?

namespace SameKinds

variable {cs ds es : List Char}

theorem of_cutting {ps qs : List Piece} (h : Cutting cs ps) (h' : Cutting ds qs)
    (heq : ps.filterMap Piece.kind? = qs.filterMap Piece.kind?) : SameKinds cs ds := by
  intro ps' qs' hps hqs
  rw [hps.unique h, hqs.unique h', heq]

theorem refl (cs : List Char) : SameKinds cs cs := fun _ _ h h' => by rw [h.unique h']

theorem trans (h : SameKinds cs ds) (h' : SameKinds ds es) : SameKinds cs es := by
  intro ps rs hps hrs
  obtain ⟨qs, hqs⟩ := exists_cutting ds
  exact (h ps qs hps hqs).trans (h' qs rs hqs hrs)

theorem map_kind_tokens_eq {source source' : String} (h : SameKinds source.toList source'.toList) :
    (scan source).tokens.map Token.kind = (scan source').tokens.map Token.kind := by
  obtain ⟨ps, hps⟩ := exists_cutting source.toList
  obtain ⟨qs, hqs⟩ := exists_cutting source'.toList
  rw [map_kind_tokens hps, map_kind_tokens hqs, h ps qs hps hqs]

end SameKinds

/-- A line feed behind a line feed is part of a string or a **blank**. -/
theorem sameKinds_blank_line (cs ds : List Char) :
    SameKinds (cs ++ '\n' :: '\n' :: ds) (cs ++ '\n' :: ds) := by
  obtain ⟨ps, hps⟩ := exists_cutting cs
  by_cases hclosed : ∀ p ∈ ps, p.form ≠ .unclosed
  · obtain ⟨qs, hqs⟩ := exists_cutting ds
    have hblank := Cutting.append_newline .nil nofun hqs
    refine .of_cutting (hps.append_newline hclosed hblank) (hps.append_newline hclosed hqs) ?_
    rw [List.filterMap_append, List.filterMap_append]
    rfl
  obtain ⟨front, inner, hinner, -, hbehind⟩ := hps.exists_unclosed hclosed
  by_cases hquote : '"' ∈ ds
  · -- The string ends at the first quote of what follows.
    obtain ⟨more, rest, rfl, hmore⟩ := List.eq_append_cons_of_mem hquote
    obtain ⟨qs, hqs⟩ := exists_cutting rest
    have hlong : '"' ∉ inner ++ '\n' :: '\n' :: more := by simp [hinner, hmore]
    have hshort : '"' ∉ inner ++ '\n' :: more := by simp [hinner, hmore]
    have hlongest := Cutting.string hlong hqs
    have hshorter := Cutting.string hshort hqs
    simp only [List.cons_append, List.append_assoc] at hlongest hshorter
    refine .of_cutting (hbehind _ _ hlongest) (hbehind _ _ hshorter) ?_
    rw [List.filterMap_append, List.filterMap_append]
    rfl
  · have hlong : '"' ∉ inner ++ '\n' :: '\n' :: ds := by simp [hinner, hquote]
    have hshort : '"' ∉ inner ++ '\n' :: ds := by simp [hinner, hquote]
    refine .of_cutting (hbehind _ _ (.unclosed hlong)) (hbehind _ _ (.unclosed hshort)) ?_
    rw [List.filterMap_append, List.filterMap_append]
    rfl

/-- So is a line feed at the **end** of a text. -/
theorem sameKinds_newline (cs : List Char) : SameKinds (cs ++ ['\n']) cs := by
  obtain ⟨ps, hps⟩ := exists_cutting cs
  by_cases hclosed : ∀ p ∈ ps, p.form ≠ .unclosed
  · refine .of_cutting (hps.append_newline hclosed .nil) hps ?_
    simp [Piece.kind?]
  obtain ⟨front, inner, hinner, hfront, hbehind⟩ := hps.exists_unclosed hclosed
  have hlong : '"' ∉ inner ++ ['\n'] := by simp [hinner]
  refine .of_cutting (hbehind [] _ (.unclosed hlong)) hps ?_
  rw [hfront, List.filterMap_append, List.filterMap_append]
  rfl

end LoxLang
