import Mathlib.Data.List.TakeWhile
import LoxLang.Proofs.Lexemes.Rules

/-!
# The cutting of a text

`Piece.next` takes the one piece that can stand at its place and is the longest there
(`Piece.next_eq_of_stands`). So a text has exactly one cutting, and it is the one that `cut` makes.

The line goes on at blank line feeds and inside strings only, but this is where all line feeds are
that are taken: behind each piece it has gone on by the number of line feeds in it
(`Piece.line_next`).
-/

namespace LoxLang

namespace Piece

/-! ### The piece by its first character -/

section

variable {line : Nat} {c : Char} {cs : List Char}

theorem mem_symbols_of_single {kind : TokenKind} (h : single? c = some kind) :
    ([c], kind) ∈ symbols := by
  unfold single? at h
  split at h
  all_goals first | cases h; decide | cases h

theorem mem_symbols_of_withEqual {alone paired : TokenKind}
    (h : withEqual? c = some (alone, paired)) :
    ([c], alone) ∈ symbols ∧ ([c, '='], paired) ∈ symbols := by
  unfold withEqual? at h
  split at h
  all_goals first | cases h; decide | cases h

/-- A character that begins no symbol, is not blank and no quote begins a number or a word, or is
no lexeme at all. -/
theorem next_of_plain (hsymbol : ∀ text kind, (c :: text, kind) ∉ symbols) (hblank : c ∉ blanks)
    (hquote : c ≠ '"') :
    next line c cs =
      if isDigit c then Split.on line (number c cs)
      else if isAlpha c then Split.on line (word c cs)
      else Split.on line (⟨.stray, [c]⟩, cs) := by
  have hsingle : single? c = none :=
    Option.eq_none_iff_forall_ne_some.mpr fun kind h => hsymbol [] kind (mem_symbols_of_single h)
  have hpaired : withEqual? c = none :=
    Option.eq_none_iff_forall_ne_some.mpr fun kinds h =>
      hsymbol [] kinds.1 (mem_symbols_of_withEqual h).1
  have hslash : c ≠ '/' := by
    rintro rfl
    exact hsymbol [] .slash (by decide)
  have hskipped : ¬ (c = ' ' ∨ c = '\r' ∨ c = '\t') := by
    rintro (rfl | rfl | rfl) <;> exact hblank (by decide)
  have hfeed : c ≠ '\n' := by
    rintro rfl
    exact hblank (by decide)
  simp only [next, hsingle, hpaired, if_neg hslash, if_neg hskipped, if_neg hfeed, if_neg hquote]

theorem next_of_isDigit (h : isDigit c) : next line c cs = Split.on line (number c cs) := by
  rw [next_of_plain (fun _ _ hc => (head_of_mem_symbols hc).2.1 h), if_pos h]
  · exact fun hc => (of_mem_blanks hc).2.1 h
  · rintro rfl
    exact absurd h (by decide)

theorem next_of_isAlpha (h : isAlpha c) : next line c cs = Split.on line (word c cs) := by
  rw [next_of_plain (fun _ _ hc => (head_of_mem_symbols hc).2.2.1 h),
    if_neg fun hc => not_isAlpha_of_isDigit hc h, if_pos h]
  · exact fun hc => (of_mem_blanks hc).2.2 h
  · rintro rfl
    exact absurd h (by decide)

theorem next_quote : next line '"' cs = string line cs := rfl

/-- The line on which a piece ends that begins on `line`: one further for each line feed in it. -/
def lineAfter (line : Nat) (p : Piece) : Nat := line + p.text.count '\n'

theorem next_of_mem_blanks (h : c ∈ blanks) :
    next line c cs = Split.on (lineAfter line ⟨.blank, [c]⟩) (⟨.blank, [c]⟩, cs) := by
  simp only [blanks, List.mem_cons, List.not_mem_nil, or_false] at h
  rcases h with rfl | rfl | rfl | rfl <;> rfl

/-! ### Strings -/

/-- A string ends at the next quote, on the line behind **all** its line feeds. -/
theorem stringBehind_append (done : List Char) {inner rest : List Char} (h : '"' ∉ inner) :
    stringBehind done line (inner ++ '"' :: rest) =
      Split.on (line + inner.count '\n')
        (⟨.token .string, done.reverse ++ inner ++ ['"']⟩, rest) := by
  induction inner generalizing done line with
  | nil => simp [stringBehind]
  | cons c inner ih =>
    obtain ⟨hc, hinner⟩ := not_or.mp (mt List.mem_cons.mpr h)
    rw [List.cons_append, stringBehind, if_neg (Ne.symm hc), ih _ hinner, List.count_cons]
    by_cases hfeed : c = '\n' <;> simp [hfeed, Nat.add_comm, Nat.add_left_comm]

/-- A string that is not closed takes all of the text. -/
theorem stringBehind_of_not_mem (done : List Char) {inner : List Char} (h : '"' ∉ inner) :
    stringBehind done line inner =
      Split.on (line + inner.count '\n') (⟨.unclosed, done.reverse ++ inner⟩, []) := by
  induction inner generalizing done line with
  | nil => simp [stringBehind]
  | cons c inner ih =>
    obtain ⟨hc, hinner⟩ := not_or.mp (mt List.mem_cons.mpr h)
    rw [stringBehind, if_neg (Ne.symm hc), ih _ hinner, List.count_cons]
    by_cases hfeed : c = '\n' <;> simp [hfeed, Nat.add_comm, Nat.add_left_comm]

theorem string_append {inner rest : List Char} (h : '"' ∉ inner) :
    string line (inner ++ '"' :: rest) =
      Split.on (line + inner.count '\n') (⟨.token .string, '"' :: inner ++ ['"']⟩, rest) :=
  stringBehind_append ['"'] h

theorem string_of_not_mem {inner : List Char} (h : '"' ∉ inner) :
    string line inner = Split.on (line + inner.count '\n') (⟨.unclosed, '"' :: inner⟩, []) :=
  stringBehind_of_not_mem ['"'] h

/-! ### The piece stands at its place -/

private theorem not_mem_takeWhile_bne (d : Char) : d ∉ cs.takeWhile fun c => c != d := by
  intro h
  have hd : (d != d) = true := List.mem_takeWhile_imp (p := fun c => c != d) h
  exact bne_iff_ne.mp hd rfl

/-- Only a slash opens a comment. -/
private theorem not_opens_comment (h : c ≠ '/') : ¬ ['/', '/'] <+: c :: cs := fun hfront =>
  h (List.cons_prefix_cons.mp hfront).1.symm

theorem stands_string (line : Nat) (cs : List Char) :
    Stands (string line cs).1.toPiece (string line cs).2 := by
  by_cases hquote : '"' ∈ cs
  · obtain ⟨inner, rest, rfl, hinner⟩ := List.eq_append_cons_of_mem hquote
    rw [string_append hinner]
    exact .token (.string hinner) (not_opens_comment (by decide))
  · rw [string_of_not_mem hquote]
    exact .unclosed hquote

/-- What is taken behind a digit is a **number**. -/
theorem exists_number (h : isDigit c) :
    ∃ text, (number c cs).1 = ⟨.token .number, text⟩ ∧ Lexeme .number text := by
  have hdigits : ∀ cs : List Char, IsDigits (c :: cs.takeWhile isDigit) := fun cs =>
    ⟨List.cons_ne_nil _ _, List.forall_mem_cons.mpr ⟨h, fun _ => List.mem_takeWhile_imp⟩⟩
  unfold number
  split
  · next d rest _ =>
    split
    · next hd =>
      have hfraction : IsDigits (d :: rest.takeWhile isDigit) :=
        ⟨List.cons_ne_nil _ _, List.forall_mem_cons.mpr ⟨hd, fun _ => List.mem_takeWhile_imp⟩⟩
      refine ⟨_, rfl, ?_⟩
      rw [List.append_assoc]
      exact .decimal (hdigits cs) hfraction
    · exact ⟨_, rfl, .whole (hdigits cs)⟩
  · exact ⟨_, rfl, .whole (hdigits cs)⟩

theorem stands_number (h : isDigit c) : Stands (number c cs).1 (number c cs).2 := by
  have hslash : c ≠ '/' := by
    rintro rfl
    exact absurd h (by decide)
  have htext := text_append_number c cs
  obtain ⟨text, hnumber, hlexeme⟩ := exists_number h
  rw [hnumber] at htext ⊢
  exact .token hlexeme (htext ▸ not_opens_comment hslash)

theorem stands_word (h : isAlpha c) : Stands (word c cs).1 (word c cs).2 := by
  refine .token (.word h fun _ => List.mem_takeWhile_imp) (not_opens_comment ?_)
  rintro rfl
  exact absurd h (by decide)

theorem stands_comment : Stands (comment cs).1 (comment cs).2 := by
  refine .comment (not_mem_takeWhile_bne _) fun c hc => ?_
  have hfind : cs.find? (fun c => !(c != '\n')) = some c :=
    (List.find?_not_eq_head?_dropWhile _ _).trans hc
  simpa using List.find?_some hfind

/-- A character is **stray** if no symbol begins with it and it is none of those that begin
something else. -/
theorem stands_stray (hblank : c ∉ blanks) (hquote : c ≠ '"') (hdigit : ¬ isDigit c)
    (hletter : ¬ isAlpha c) (hsingle : single? c = none) (hpaired : withEqual? c = none)
    (hslash : c ≠ '/') : Stands ⟨.stray, [c]⟩ cs := by
  refine .stray hblank fun kind text h => ?_
  have hsymbol := h.of_cons
  rw [if_neg hquote, if_neg hdigit, if_neg hletter] at hsymbol
  have hall : symbols.all fun p => p.1.head?.all fun d =>
      single? d ≠ none ∨ withEqual? d ≠ none ∨ d = '/' := by decide
  rcases of_decide_eq_true (List.all_eq_true.mp hall _ hsymbol) with h | h | h
  · exact h hsingle
  · exact h hpaired
  · exact hslash h

/-- The piece that is taken **can stand** at its place. -/
theorem stands_next (line : Nat) (c : Char) (cs : List Char) :
    Stands (next line c cs).1.toPiece (next line c cs).2 := by
  unfold next
  split
  · next kind hsingle =>
    refine .token (.symbol (mem_symbols_of_single hsingle)) (not_opens_comment ?_)
    rintro rfl
    cases hsingle
  · next alone paired hsingle hpaired =>
    obtain ⟨halone, hboth⟩ := mem_symbols_of_withEqual hpaired
    have hne : c ≠ '/' := by
      rintro rfl
      cases hpaired
    split
    · exact .token (.symbol hboth) (not_opens_comment hne)
    · exact .token (.symbol halone) (not_opens_comment hne)
  · next hsingle hpaired =>
    split_ifs with hslash hblank hfeed hquote hdigit hletter
    · subst hslash
      split
      · exact stands_comment
      · next hcs =>
        refine .token (.symbol (by decide)) fun hfront => ?_
        obtain ⟨rest, hrest⟩ := (List.cons_prefix_cons.mp hfront).2
        exact hcs rest hrest.symm
    · refine .blank ?_
      rcases hblank with rfl | rfl | rfl <;> decide
    · exact .blank (hfeed ▸ by decide)
    · exact stands_string line cs
    · exact stands_number hdigit
    · exact stands_word hletter
    · refine stands_stray ?_ hquote hdigit hletter hsingle hpaired hslash
      simpa [blanks, hfeed, or_comm, or_assoc, or_left_comm] using hblank

/-! ### The line is counted -/

/-- A piece without line feeds ends on the line on which it begins. -/
theorem line_on {p : Piece} {rest : List Char} (h : '\n' ∉ p.text) :
    (Split.on line (p, rest)).1.line = (Split.on line (p, rest)).1.lineAfter line := by
  rw [lineAfter, Split.on, List.count_eq_zero_of_not_mem h]
  rfl

/-- No number has a blank in it. -/
theorem not_mem_number {d : Char} (h : isDigit c) (hd : d ∈ blanks) :
    d ∉ (number c cs).1.text := by
  obtain ⟨text, hnumber, hlexeme⟩ := exists_number h
  rw [hnumber]
  exact hlexeme.not_mem_of_mem_blanks nofun hd

theorem line_string (line : Nat) (cs : List Char) :
    (string line cs).1.line = (string line cs).1.lineAfter line := by
  by_cases hquote : '"' ∈ cs
  · obtain ⟨inner, rest, rfl, hinner⟩ := List.eq_append_cons_of_mem hquote
    rw [string_append hinner, lineAfter]
    simp [Split.on]
  · rw [string_of_not_mem hquote, lineAfter]
    simp [Split.on]

/-- Behind a piece, the line has gone on by the number of **line feeds** in the piece. In symbols,
comments, numbers and words there are none. -/
theorem line_next (line : Nat) (c : Char) (cs : List Char) :
    (next line c cs).1.line = (next line c cs).1.lineAfter line := by
  have hsymbol : ∀ p ∈ symbols, '\n' ∉ p.1 := by decide
  unfold next
  split
  · next kind hsingle => exact line_on (hsymbol _ (mem_symbols_of_single hsingle))
  · next alone paired _ hpaired =>
    obtain ⟨halone, hboth⟩ := mem_symbols_of_withEqual hpaired
    split
    · exact line_on (hsymbol _ hboth)
    · exact line_on (hsymbol _ halone)
  · split_ifs with hslash hblank hnewline hquote hdigit hletter
    · subst hslash
      split
      · next rest =>
        refine line_on (List.not_mem_append (by decide) ?_)
        exact not_mem_takeWhile_bne '\n'
      · exact line_on (by decide)
    · refine line_on ?_
      rcases hblank with rfl | rfl | rfl <;> decide
    · subst hnewline
      rfl
    · exact line_string line cs
    · exact line_on (not_mem_number hdigit (by decide))
    · have hword : ∀ d ∈ c :: cs.takeWhile isAlphanumeric, isAlphanumeric d :=
        List.forall_mem_cons.mpr ⟨by rw [isAlphanumeric, hletter, Bool.true_or],
          fun _ => List.mem_takeWhile_imp⟩
      exact line_on fun hmem => absurd (hword _ hmem) (by decide)
    · exact line_on fun hmem => hnewline (List.mem_singleton.mp hmem).symm

/-! ### The piece is the longest -/

/-- What begins with characters of a kind is a prefix of all of them. -/
private theorem prefix_takeWhile {p : Char → Bool} {text : List Char} (hfront : text <+: cs)
    (h : ∀ d ∈ text, p d) : text <+: cs.takeWhile p := by
  obtain ⟨rest, rfl⟩ := hfront
  exact ⟨_, (List.takeWhile_append_of_pos h).symm⟩

/-- A number goes on behind its point. -/
theorem number_append {whole rest : List Char} {d : Char} (hwhole : ∀ d ∈ whole, isDigit d)
    (hd : isDigit d) :
    number c (whole ++ '.' :: d :: rest) =
      run (.token .number) (c :: whole ++ ['.', d]) isDigit rest := by
  have hpoint : ¬ isDigit '.' := by decide
  rw [number, List.takeWhile_append_of_pos hwhole, List.dropWhile_append_of_pos hwhole,
    List.takeWhile_cons_of_neg hpoint, List.dropWhile_cons_of_neg hpoint, List.append_nil]
  exact if_pos hd

theorem length_le_number {text : List Char} (h : Lexeme .number (c :: text))
    (hfront : text <+: cs) : (c :: text).length ≤ (number c cs).1.text.length := by
  rcases h.of_number with hdigits | ⟨whole, fraction, hwhole, hfraction, htext⟩
  · -- Without a point, the text is in the whole part of the number.
    have hletters := (prefix_takeWhile hfront fun d hd => hdigits.2 d (.tail _ hd)).length_le
    have hnumber : (c :: cs.takeWhile isDigit).length ≤ (number c cs).1.text.length := by
      unfold number
      split
      · split <;> simp [run]
      · exact Nat.le_refl _
    exact (Nat.succ_le_succ hletters).trans hnumber
  · -- With a point, it has all of the whole part, and a fraction that may go on.
    obtain ⟨d, whole, rfl⟩ := List.exists_cons_of_ne_nil hwhole.1
    rw [List.cons_append] at htext
    obtain ⟨rfl, rfl⟩ := List.cons.inj htext
    obtain ⟨d, fraction, rfl⟩ := List.exists_cons_of_ne_nil hfraction.1
    obtain ⟨rest, rfl⟩ := hfront
    have hfractions := (prefix_takeWhile (List.prefix_append fraction rest) fun e he =>
      hfraction.2 e (.tail _ he)).length_le
    have hnumber : number c (whole ++ '.' :: d :: (fraction ++ rest)) =
        run (.token .number) (c :: whole ++ ['.', d]) isDigit (fraction ++ rest) :=
      number_append (fun e he => hwhole.2 e (.tail _ he)) (hfraction.2 d List.mem_cons_self)
    rw [List.append_assoc, List.cons_append, List.cons_append, hnumber]
    simp only [run, List.length_append, List.length_cons, List.length_nil]
    omega

/-- The piece that is taken is the **longest** at its place. -/
theorem longest_next (line : Nat) (c : Char) (cs : List Char) :
    Longest (next line c cs).1.toPiece (next line c cs).2 := by
  intro _ _ kind text htext hfront
  rw [text_append_next] at hfront
  obtain ⟨d, text, rfl⟩ := htext.exists_cons
  obtain ⟨rfl, htail⟩ := List.cons_prefix_cons.mp hfront
  have hrule := htext.of_cons
  by_cases hquote : d = '"'
  · rw [if_pos hquote] at hrule
    obtain ⟨rfl, inner, hinner, rfl⟩ := hrule
    subst hquote
    obtain ⟨rest, rfl⟩ := htail
    rw [next_quote, List.append_assoc, List.singleton_append, string_append hinner]
    exact Nat.le_refl _
  rw [if_neg hquote] at hrule
  by_cases hdigit : isDigit d
  · rw [if_pos hdigit] at hrule
    subst hrule
    rw [next_of_isDigit hdigit]
    exact length_le_number htext htail
  rw [if_neg hdigit] at hrule
  by_cases hletter : isAlpha d
  · rw [if_pos hletter] at hrule
    have hletters := (prefix_takeWhile htail hrule.2).length_le
    rw [next_of_isAlpha hletter]
    exact Nat.succ_le_succ hletters
  · rw [if_neg hletter] at hrule
    -- A symbol is one character, as no piece is shorter, or ends with an equals sign.
    have hall : ∀ p ∈ symbols, p.1.length = 1 ∨
        p.1 ∈ [['!', '='], ['=', '='], ['>', '='], ['<', '=']] := by decide
    rcases hall _ hrule with hone | hequal
    · exact hone.trans_le (List.length_pos_iff.mpr (text_next_ne_nil line d cs))
    · simp only [List.mem_cons, List.cons.injEq, List.not_mem_nil, or_false] at hequal
      obtain ⟨rest, rfl⟩ := htail
      rcases hequal with ⟨rfl, rfl, -⟩ | ⟨rfl, rfl, -⟩ | ⟨rfl, rfl, -⟩ | ⟨rfl, rfl, -⟩ <;>
        exact Nat.le_refl _

/-! ### There is no other -/

/-- A comment ends in front of the next line feed. -/
theorem comment_append {inner rest : List Char} (h : '\n' ∉ inner)
    (hrest : ∀ d ∈ rest.head?, d = '\n') :
    comment (inner ++ rest) = (⟨.comment, '/' :: '/' :: inner⟩, rest) := by
  have hinner : ∀ d ∈ inner, (d != '\n') = true :=
    fun d hd => bne_iff_ne.mpr (ne_of_mem_of_not_mem hd h)
  rw [comment, run, List.takeWhile_append_of_pos hinner, List.dropWhile_append_of_pos hinner]
  cases rest with
  | nil => simp
  | cons d rest =>
    obtain rfl := hrest d rfl
    simp

/-- A token that is the longest at its place is the one that is taken. -/
theorem next_eq_of_lexeme {kind : TokenKind} {text rest : List Char} (htext : Lexeme kind text)
    (hslash : ¬ ['/', '/'] <+: text ++ rest) (hlongest : Longest ⟨.token kind, text⟩ rest)
    (h : text ++ rest = c :: cs) :
    (next line c cs).1.toPiece = ⟨.token kind, text⟩ ∧ (next line c cs).2 = rest := by
  obtain ⟨d, text, rfl⟩ := htext.exists_cons
  obtain ⟨rfl, rfl⟩ := List.cons.inj h
  have hstands := stands_next line d (text ++ rest)
  have hlongest' := longest_next line d (text ++ rest)
  have hsame := text_append_next line d (text ++ rest)
  generalize next line d (text ++ rest) = split at hstands hlongest' hsame ⊢
  obtain ⟨⟨p, line'⟩, rest'⟩ := split
  dsimp only at hstands hlongest' hsame ⊢
  cases hstands with
  | @token kind' text' rest' htext' =>
    have hle := hlongest kind rfl kind' text' htext' ⟨rest', hsame⟩
    have hge := hlongest' kind' rfl kind (d :: text) htext ⟨rest, hsame.symm⟩
    obtain ⟨rfl, rfl⟩ := List.append_inj hsame (Nat.le_antisymm hle hge)
    exact ⟨by rw [htext.kind_unique htext'], rfl⟩
  | blank hblank =>
    obtain ⟨rfl, -⟩ := List.cons.inj hsame
    exact absurd hblank htext.not_mem_blanks
  | @comment inner => exact absurd ⟨inner ++ rest', hsame⟩ hslash
  | stray _ hstray =>
    obtain ⟨rfl, -⟩ := List.cons.inj hsame
    exact absurd htext (hstray kind text)
  | @unclosed inner hinner =>
    rw [List.append_nil] at hsame
    obtain ⟨rfl, rfl⟩ := List.cons.inj hsame
    have hstring := htext.of_cons
    rw [if_pos rfl] at hstring
    obtain ⟨-, inner', -, rfl⟩ := hstring
    exact absurd (by simp) hinner

/-- A piece that can stand at its place and is the longest there is **the one** that is taken. -/
theorem next_eq_of_stands {p : Piece} {rest : List Char} (hp : Stands p rest)
    (hlongest : Longest p rest) (h : p.text ++ rest = c :: cs) :
    next line c cs = Split.on (p.lineAfter line) (p, rest) := by
  -- The line follows from the piece.
  suffices hpiece : (next line c cs).1.toPiece = p ∧ (next line c cs).2 = rest by
    have hline := line_next line c cs
    rw [hpiece.1] at hline
    exact Prod.ext (by rw [Split.on, ← hline, ← hpiece.1]) hpiece.2
  cases hp with
  | token htext hslash => exact next_eq_of_lexeme htext hslash hlongest h
  | blank hc =>
    obtain ⟨rfl, rfl⟩ := List.cons.inj h
    rw [next_of_mem_blanks hc]
    exact ⟨rfl, rfl⟩
  | comment hinner hrest =>
    obtain ⟨rfl, rfl⟩ := List.cons.inj h
    have hcomment := comment_append hinner hrest
    exact ⟨congrArg Prod.fst hcomment, congrArg Prod.snd hcomment⟩
  | @stray d _ hblank hstray =>
    obtain ⟨rfl, rfl⟩ := List.cons.inj h
    have hdigit : ¬ isDigit d := fun hc =>
      hstray .number [] (.whole ⟨List.cons_ne_nil _ _, List.forall_mem_singleton.mpr hc⟩)
    have hquote : d ≠ '"' := by
      rintro rfl
      exact hstray .string ['"'] (.string List.not_mem_nil)
    rw [next_of_plain (fun text kind hc => hstray kind text (.symbol hc)) hblank hquote,
      if_neg hdigit, if_neg fun hc => hstray _ [] (.word hc fun _ hd => absurd hd List.not_mem_nil)]
    exact ⟨rfl, rfl⟩
  | unclosed hinner =>
    rw [List.append_nil] at h
    obtain ⟨rfl, rfl⟩ := List.cons.inj h
    rw [next_quote, string_of_not_mem hinner]
    exact ⟨rfl, rfl⟩

end

end Piece

/-! ### The whole text -/

/-- The pieces with the lines they end on, where the first one begins on `line`. -/
def place (line : Nat) : List Piece → List PlacedPiece
  | [] => []
  | p :: ps => ⟨p, p.lineAfter line⟩ :: place (p.lineAfter line) ps

theorem map_toPiece_place (line : Nat) (ps : List Piece) :
    (place line ps).map PlacedPiece.toPiece = ps := by
  induction ps generalizing line with
  | nil => rfl
  | cons p ps ih => rw [place, List.map_cons, ih]

namespace Cutting

variable {cs : List Char} {ps : List Piece}

/-- The pieces of a cutting are **those that are taken**, one after the other, and behind the last
of them the line has gone on by the number of line feeds in the text. -/
theorem cut_eq (h : Cutting cs ps) (line : Nat) :
    cut line cs = (place line ps, line + cs.count '\n') := by
  induction h generalizing line with
  | nil => exact cut_nil line
  | @cons p rest ps hstands hlongest _ ih =>
    have hne : p.text ≠ [] := by
      cases hstands with
      | token htext =>
        obtain ⟨c, cs, rfl⟩ := htext.exists_cons
        exact List.cons_ne_nil _ _
      | _ => exact List.cons_ne_nil _ _
    obtain ⟨c, cs, h⟩ := List.exists_cons_of_ne_nil (List.append_ne_nil_of_left_ne_nil hne rest)
    rw [List.count_append, h, cut_cons, Piece.next_eq_of_stands hstands hlongest h, Piece.Split.on,
      ih, place, Piece.lineAfter, Nat.add_assoc]

theorem exists_stands {p : Piece} (h : Cutting cs ps) (hp : p ∈ ps) : ∃ rest, Stands p rest := by
  induction h with
  | nil => exact absurd hp List.not_mem_nil
  | cons hstands _ _ ih =>
    rcases List.mem_cons.mp hp with rfl | hp
    · exact ⟨_, hstands⟩
    · exact ih hp

theorem unique {ps' : List Piece} (h : Cutting cs ps) (h' : Cutting cs ps') : ps = ps' := by
  have hplace : place 1 ps = place 1 ps' :=
    congrArg Prod.fst ((h.cut_eq 1).symm.trans (h'.cut_eq 1))
  rw [← map_toPiece_place 1 ps, hplace, map_toPiece_place]

end Cutting

/-- Every text **has** a cutting. -/
theorem exists_cutting (cs : List Char) : ∃ ps, Cutting cs ps := by
  induction hn : cs.length using Nat.strongRecOn generalizing cs with
  | ind n ih =>
    subst hn
    cases cs with
    | nil => exact ⟨[], .nil⟩
    | cons c cs =>
      obtain ⟨ps, hps⟩ := ih _ (Nat.lt_succ_of_le (Piece.length_next_le 1 c cs)) _ rfl
      have hcons := Cutting.cons (Piece.stands_next 1 c cs) (Piece.longest_next 1 c cs) hps
      rw [Piece.text_append_next] at hcons
      exact ⟨_, hcons⟩

end LoxLang
