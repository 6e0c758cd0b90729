import Mathlib.Data.List.Basic

/-!
# Forms

A **form** is an atom, or a list of forms in parentheses. Outlines spell forms, with spaces and line
feeds between them. What is spelled is known from the text, whatever the atoms are: a text spells
one list of forms at most (`Spells.unique`). An atom is a word, which ends where the next space,
line feed, parenthesis or quote is, or it is quoted and ends at the next quote, so that nothing
inside the quotes matters.
-/

namespace LoxLang

/-- **Forms**. -/
inductive Form
  | atom (text : List Char)
  | node (items : List Form)

/-- The characters that separate forms. -/
def gaps : List Char := [' ', '\n']

/-- The characters that words are made of. -/
def isPlain (c : Char) : Bool := decide (c ∉ [' ', '\n', '(', ')', '"'])

/-- What separates forms is in no word, and it closes nothing. -/
theorem of_mem_gaps {c : Char} (h : c ∈ gaps) : ¬ isPlain c ∧ c ≠ ')' := by
  simp only [gaps, List.mem_cons, List.not_mem_nil, or_false] at h
  rcases h with rfl | rfl <;> decide

/-- A text that is a **word**. -/
structure IsWord (text : List Char) : Prop where
  ne_nil : text ≠ []
  plain : ∀ c ∈ text, isPlain c

/-- The text ends, or it goes on with a character that is in no word. -/
def WordEnds (cs : List Char) : Prop := ∀ c ∈ cs.head?, ¬ isPlain c

/-- The text **spells** these forms. -/
inductive Spells : List Char → List Form → Prop
  | nil : Spells [] []
  | gap {c : Char} {cs : List Char} {fs : List Form} : c ∈ gaps → Spells cs fs → Spells (c :: cs) fs
  | word {text cs : List Char} {fs : List Form} :
    IsWord text → WordEnds cs → Spells cs fs → Spells (text ++ cs) (.atom text :: fs)
  | quoted {inner cs : List Char} {fs : List Form} :
    '"' ∉ inner → Spells cs fs →
      Spells ('"' :: inner ++ '"' :: cs) (.atom ('"' :: inner ++ ['"']) :: fs)
  | node {inner cs : List Char} {items fs : List Form} :
    Spells inner items → Spells cs fs → Spells ('(' :: inner ++ ')' :: cs) (.node items :: fs)

/-- Two texts that begin with as many characters of a sort as there are **begin alike**. -/
theorem append_inj_of_head {p : Char → Bool} {as as' bs bs' : List Char} (has : ∀ c ∈ as, p c)
    (has' : ∀ c ∈ as', p c) (hbs : ∀ c ∈ bs.head?, ¬ p c) (hbs' : ∀ c ∈ bs'.head?, ¬ p c)
    (h : as ++ bs = as' ++ bs') : as = as' ∧ bs = bs' := by
  have hnone : ∀ {bs : List Char}, (∀ c ∈ bs.head?, ¬ p c) → bs.takeWhile p = [] := by
    intro bs hbs
    cases bs with
    | nil => rfl
    | cons c bs => exact List.takeWhile_cons_of_neg (hbs c rfl)
  have hfront := congrArg (List.takeWhile p) h
  rw [List.takeWhile_append_of_pos has, List.takeWhile_append_of_pos has', hnone hbs, hnone hbs',
    List.append_nil, List.append_nil] at hfront
  exact ⟨hfront, List.append_cancel_left (hfront ▸ h)⟩

/-- The text ends, or it goes on with the parenthesis that closes what encloses it. -/
def Closes (cs : List Char) : Prop := ∀ c ∈ cs.head?, c = ')'

theorem Closes.nil : Closes [] := fun _ hc => absurd hc (by simp)

theorem Closes.cons (cs : List Char) : Closes (')' :: cs) := fun _ hc => (Option.some.inj hc).symm

/-- A text that closes nothing is not what **closes**. -/
theorem Closes.exists_cons {c : Char} {cs cs' rest : List Char} (h : Closes rest) (hc : c ≠ ')')
    (heq : c :: cs = cs' ++ rest) : ∃ cs'', cs' = c :: cs'' ∧ cs = cs'' ++ rest := by
  rcases List.cons_eq_append_iff.mp heq with ⟨rfl, rfl⟩ | hcons
  · exact absurd (h c rfl) hc
  · exact hcons

/-- A word **ends** where what encloses it is closed. -/
theorem WordEnds.append_closes {cs rest : List Char} (h : WordEnds cs) (hrest : Closes rest) :
    WordEnds (cs ++ rest) := by
  cases cs with
  | nil => exact fun c hc => hrest c hc ▸ by decide
  | cons c cs => exact h

namespace IsWord

variable {text : List Char}

theorem exists_cons (h : IsWord text) : ∃ c cs, text = c :: cs ∧ isPlain c := by
  obtain ⟨c, cs, rfl⟩ := List.exists_cons_of_ne_nil h.ne_nil
  exact ⟨c, cs, rfl, h.plain c List.mem_cons_self⟩

end IsWord

theorem ne_of_isPlain {c d : Char} (hc : isPlain c) (hd : ¬ isPlain d) : c ≠ d := by
  rintro rfl
  exact hd hc

namespace Spells

variable {c : Char} {cs : List Char} {fs : List Form}

/-- The **first character** shows what is spelled first. -/
theorem of_cons (h : Spells (c :: cs) fs) :
    if c ∈ gaps then Spells cs fs
    else if c = '(' then
      ∃ inner cs' items fs', cs = inner ++ ')' :: cs' ∧ fs = .node items :: fs' ∧
        Spells inner items ∧ Spells cs' fs'
    else if c = '"' then
      ∃ inner cs' fs', cs = inner ++ '"' :: cs' ∧ fs = .atom ('"' :: inner ++ ['"']) :: fs' ∧
        '"' ∉ inner ∧ Spells cs' fs'
    else
      isPlain c ∧ ∃ text cs' fs', c :: cs = text ++ cs' ∧ fs = .atom text :: fs' ∧
        IsWord text ∧ WordEnds cs' ∧ Spells cs' fs' := by
  generalize htext : c :: cs = text at h
  cases h with
  | nil => cases htext
  | gap hgap h =>
    obtain ⟨rfl, rfl⟩ := List.cons.inj htext
    rwa [if_pos hgap]
  | word hword hends h =>
    obtain ⟨d, ds, rfl, hd⟩ := hword.exists_cons
    obtain ⟨rfl, rfl⟩ := List.cons.inj htext
    rw [if_neg fun hmem => (of_mem_gaps hmem).1 hd, if_neg (ne_of_isPlain hd (by decide)),
      if_neg (ne_of_isPlain hd (by decide))]
    exact ⟨hd, _, _, _, rfl, rfl, hword, hends, h⟩
  | quoted hinner h =>
    obtain ⟨rfl, rfl⟩ := List.cons.inj htext
    rw [if_neg (by decide), if_neg (by decide), if_pos rfl]
    exact ⟨_, _, _, rfl, rfl, hinner, h⟩
  | node hitems h =>
    obtain ⟨rfl, rfl⟩ := List.cons.inj htext
    rw [if_neg (by decide), if_pos rfl]
    exact ⟨_, _, _, _, rfl, rfl, hitems, h⟩

/-- What is spelled closes nothing. -/
theorem eq_nil_of_closes (h : Spells cs fs) (hcs : Closes cs) : cs = [] ∧ fs = [] := by
  cases cs with
  | nil =>
    generalize hnil : ([] : List Char) = cs at h
    cases h with
    | nil => exact ⟨rfl, rfl⟩
    | word hword => exact absurd (List.append_eq_nil_iff.mp hnil.symm).1 hword.ne_nil
    | _ => cases hnil
  | cons c cs =>
    obtain rfl : c = ')' := hcs c rfl
    have hfirst := h.of_cons
    rw [if_neg (by decide), if_neg (by decide), if_neg (by decide)] at hfirst
    exact absurd hfirst.1 (by decide)

/-- A text **spells one list of forms** at most, and a text that goes on with what closes it ends at
one place at most. -/
theorem unique_append {rest rest' cs' : List Char} {fs' : List Form} (h : Spells cs fs)
    (h' : Spells cs' fs') (hrest : Closes rest) (hrest' : Closes rest')
    (heq : cs ++ rest = cs' ++ rest') : fs = fs' ∧ rest = rest' := by
  induction h generalizing cs' fs' rest rest' with
  | nil =>
    cases cs' with
    | nil => exact ⟨(h'.eq_nil_of_closes .nil).2.symm, heq⟩
    | cons c cs' =>
      rw [List.nil_append] at heq
      exact absurd (h'.eq_nil_of_closes fun d hd => hrest d (heq ▸ hd)).1 (List.cons_ne_nil _ _)
  | gap hgap _ ih =>
    obtain ⟨cs', rfl, htail⟩ := hrest'.exists_cons (of_mem_gaps hgap).2 heq
    have hfirst := h'.of_cons
    rw [if_pos hgap] at hfirst
    exact ih hfirst hrest hrest' htail
  | @word text cs fs hword hends _ ih =>
    obtain ⟨c, text, rfl, hc⟩ := hword.exists_cons
    obtain ⟨cs', rfl, htail⟩ := hrest'.exists_cons (ne_of_isPlain hc (by decide)) heq
    have hfirst := h'.of_cons
    rw [if_neg fun hmem => (of_mem_gaps hmem).1 hc, if_neg (ne_of_isPlain hc (by decide)),
      if_neg (ne_of_isPlain hc (by decide))] at hfirst
    obtain ⟨-, text', cs'', fs'', hcs', rfl, hword', hends', hspells⟩ := hfirst
    rw [hcs', List.append_assoc, List.append_assoc] at heq
    obtain ⟨rfl, htail⟩ := append_inj_of_head hword.plain hword'.plain (hends.append_closes hrest)
      (hends'.append_closes hrest') heq
    obtain ⟨rfl, rfl⟩ := ih hspells hrest hrest' htail
    exact ⟨rfl, rfl⟩
  | quoted hinner _ ih =>
    rw [List.append_assoc, List.cons_append] at heq
    obtain ⟨cs', rfl, htail⟩ := hrest'.exists_cons (by decide) heq
    have hfirst := h'.of_cons
    rw [if_neg (by decide), if_neg (by decide), if_pos rfl] at hfirst
    obtain ⟨inner', cs'', fs'', rfl, rfl, hinner', hspells⟩ := hfirst
    have hplain : ∀ {inner : List Char}, '"' ∉ inner → ∀ c ∈ inner, (c != '"') = true :=
      fun hinner c hc => bne_iff_ne.mpr (ne_of_mem_of_not_mem hc hinner)
    rw [List.append_assoc, List.cons_append] at htail
    obtain ⟨rfl, hbehind⟩ :=
      append_inj_of_head (hplain hinner) (hplain hinner') (by simp) (by simp) htail
    obtain ⟨rfl, rfl⟩ := ih hspells hrest hrest' (List.cons.inj hbehind).2
    exact ⟨rfl, rfl⟩
  | node _ _ ihitems ih =>
    rw [List.append_assoc, List.cons_append] at heq
    obtain ⟨cs', rfl, htail⟩ := hrest'.exists_cons (by decide) heq
    have hfirst := h'.of_cons
    rw [if_neg (by decide), if_pos rfl] at hfirst
    obtain ⟨inner', cs'', items', fs'', rfl, rfl, hitems', hspells⟩ := hfirst
    rw [List.append_assoc, List.cons_append] at htail
    obtain ⟨rfl, hbehind⟩ := ihitems hitems' (.cons _) (.cons _) htail
    obtain ⟨rfl, rfl⟩ := ih hspells hrest hrest' (List.cons.inj hbehind).2
    exact ⟨rfl, rfl⟩

/-- A text **spells one list of forms** at most. -/
theorem unique {fs' : List Form} (h : Spells cs fs) (h' : Spells cs fs') : fs = fs' :=
  (h.unique_append h' .nil .nil rfl).1

end Spells

/-! ### Composition -/

/-- The text spells these forms, whatever is **spelled behind** it. -/
structure Spelled (text : List Char) (items : List Form) : Prop where
  spells_append {cs : List Char} {fs : List Form} :
    WordEnds cs → Spells cs fs → Spells (text ++ cs) (items ++ fs)

namespace Spelled

variable {text text' : List Char} {items items' : List Form} {c : Char}

theorem spells (h : Spelled text items) : Spells text items := by
  have hall := h.spells_append (fun _ hc => absurd hc (by simp)) .nil
  rwa [List.append_nil, List.append_nil] at hall

theorem nil : Spelled [] [] := ⟨fun _ h => h⟩

theorem word (h : IsWord text) : Spelled text [.atom text] :=
  ⟨fun hends hcs => .word h hends hcs⟩

theorem quoted (h : '"' ∉ text) :
    Spelled ('"' :: text ++ ['"']) [.atom ('"' :: text ++ ['"'])] := by
  refine ⟨fun _ hcs => ?_⟩
  rw [List.append_assoc]
  exact .quoted h hcs

theorem node (h : Spelled text items) : Spelled ('(' :: text ++ [')']) [.node items] := by
  refine ⟨fun _ hcs => ?_⟩
  rw [List.append_assoc]
  exact .node h.spells hcs

theorem gap (hc : c ∈ gaps) (h : Spelled text items) : Spelled (c :: text) items :=
  ⟨fun hends hcs => .gap hc (h.spells_append hends hcs)⟩

theorem append (h : Spelled text items) (hends : WordEnds text') (h' : Spelled text' items') :
    Spelled (text ++ text') (items ++ items') := by
  refine ⟨fun hcs hspells => ?_⟩
  rw [List.append_assoc, List.append_assoc]
  refine h.spells_append ?_ (h'.spells_append hcs hspells)
  cases text' with
  | nil => exact hcs
  | cons c text' => exact hends

theorem wordEnds_cons (hc : c ∈ gaps) : WordEnds (c :: text) :=
  fun _ hd => Option.some.inj hd ▸ (of_mem_gaps hc).1

/-- Texts with a gap **between** them spell what each of them spells. -/
theorem intercalate (hc : c ∈ gaps) {texts : List (List Char)}
    (h : List.Forall₂ (fun text f => Spelled text [f]) texts items) :
    Spelled ([c].intercalate texts) items := by
  induction h with
  | nil => exact nil
  | cons hfirst hrest ih =>
    cases hrest with
    | nil =>
      rw [List.intercalate_singleton]
      exact hfirst
    | cons =>
      rw [List.intercalate_cons_cons, List.append_assoc]
      exact hfirst.append (wordEnds_cons hc) (gap hc ih)

end Spelled

end LoxLang
