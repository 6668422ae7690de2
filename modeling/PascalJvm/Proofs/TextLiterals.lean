import Mathlib.Tactic
import PascalJvm.Proofs.Outcome
import PascalJvm.Proofs.Printing

/-!
# Text literals

A text literal is found and understood in two steps. The grammar finds where it ends: after the
opening quote it takes as many pieces as it can, two quotes or one character that is no quote, and
gives none of them back; then the closing quote must stand there. Decoding takes the lexeme apart
again without knowing how it was found. Both steps are settled by the way a text is written, with
its quotes doubled (`textLexeme?_eq_some_iff`, `decodeText_eq_ok_iff`), so decoding cannot fail on a
lexeme. Reading a literal in one pass does the two steps at once (`text?_eq`).
-/
namespace PascalJvm.Source.Lexeme

/-- A text with each of its quotes twice. -/
def doubled (s : List Char) : List Char :=
  s.flatMap fun c => if c = '\'' then ['\'', '\''] else [c]

@[simp] lemma doubled_nil : doubled [] = [] := rfl

@[simp] lemma doubled_quote (s : List Char) : doubled ('\'' :: s) = '\'' :: '\'' :: doubled s := rfl

@[simp] lemma doubled_of_ne {c : Char} (h : c ≠ '\'') (s : List Char) :
    doubled (c :: s) = c :: doubled s := by simp [doubled, h]

lemma quoted_eq (s : List Char) : quoted s = '\'' :: doubled s ++ ['\''] := rfl

/-- As many pieces of a text literal as stand at the start, and what follows them. A piece is two
quotes, or one character that is no quote. -/
def pieces : List Char → List Char × List Char
  | [] => ([], [])
  | '\'' :: '\'' :: s => ('\'' :: '\'' :: (pieces s).1, (pieces s).2)
  | c :: s => if c = '\'' then ([], c :: s) else (c :: (pieces s).1, (pieces s).2)

/-- What stands between the quotes, and what follows the closing one. -/
def inside? (t : List Char) : Option (List Char × List Char) :=
  match (pieces t).2 with
  | '\'' :: rest => some ((pieces t).1, rest)
  | _ => none

/-- The lexeme of a text literal, as it is written, and what follows it. -/
def textLexeme? : List Char → Option (List Char × List Char)
  | '\'' :: t => (inside? t).map fun p => ('\'' :: p.1 ++ ['\''], p.2)
  | _ => none

/-- Make one quote of two. -/
def undouble : List Char → Except String (List Char)
  | [] => .ok []
  | '\'' :: '\'' :: s => (undouble s).map ('\'' :: ·)
  | c :: s =>
      if c = '\'' then .error "invalid quote in string literal" else (undouble s).map (c :: ·)

/-- The text that a lexeme stands for. -/
def decodeText (w : List Char) : Except String (List Char) :=
  if w.head? = some '\'' ∧ w.getLast? = some '\'' ∧ 2 ≤ w.length then undouble w.tail.dropLast
  else .error "invalid string literal"

section Scanning

variable {t w rest : List Char}

/-- Doubled quotes are taken to the end, up to a quote that stands alone. -/
lemma pieces_doubled_append (s : List Char) (h : rest.head? ≠ some '\'') :
    pieces (doubled s ++ '\'' :: rest) = (doubled s, '\'' :: rest) := by
  induction s with
  | nil =>
    cases rest with
    | nil => rfl
    | cons c rest =>
      have hc : c ≠ '\'' := by simpa using h
      simp [pieces, hc]
  | cons c s ih =>
    by_cases hc : c = '\''
    · subst hc
      simp [pieces, ih]
    · simp [pieces, hc, ih]

/-- The pieces are a doubled text, and a quote that follows them stands alone. -/
lemma pieces_spec (t : List Char) : t = (pieces t).1 ++ (pieces t).2 ∧
    (∃ s, (pieces t).1 = doubled s) ∧
      ∀ rest, (pieces t).2 = '\'' :: rest → rest.head? ≠ some '\'' := by
  fun_induction pieces t with
  | case1 => exact ⟨rfl, ⟨[], rfl⟩, by simp⟩
  | case2 t ih =>
    obtain ⟨ht, ⟨s, hs⟩, hrest⟩ := ih
    exact ⟨by simp [← ht], ⟨'\'' :: s, by simp [hs]⟩, hrest⟩
  | case3 t hno =>
    -- the repetition stops at a quote only because no second one follows it
    refine ⟨rfl, ⟨[], rfl⟩, ?_⟩
    intro rest hrest hquote
    obtain ⟨-, rfl⟩ := List.cons.inj hrest
    obtain ⟨u, rfl⟩ := List.head?_eq_some_iff.mp hquote
    exact hno u rfl rfl
  | case4 c t hno hc ih =>
    obtain ⟨ht, ⟨s, hs⟩, hrest⟩ := ih
    exact ⟨by simp [← ht], ⟨c :: s, by simp [hs, hc]⟩, hrest⟩

lemma inside?_eq_some_iff : inside? t = some (w, rest) ↔ pieces t = (w, '\'' :: rest) := by
  rw [inside?, Prod.ext_iff]
  split
  next r hr => simp [hr]
  next hno =>
    refine ⟨nofun, fun h => ?_⟩
    exact absurd h.2 (hno rest)

/-- A lexeme is found exactly where a quoted text stands with no quote after it. -/
lemma textLexeme?_eq_some_iff : textLexeme? t = some (w, rest) ↔
    (∃ s, w = quoted s) ∧ t = w ++ rest ∧ rest.head? ≠ some '\'' := by
  constructor
  · intro h
    unfold textLexeme? at h
    split at h
    next u =>
      obtain ⟨p, hp, hw⟩ := Option.map_eq_some_iff.mp h
      obtain ⟨rfl, rfl⟩ := Prod.mk.inj hw
      have hpieces := inside?_eq_some_iff.mp hp
      obtain ⟨hu, ⟨s, hs⟩, hquote⟩ := pieces_spec u
      rw [hpieces] at hu hs hquote
      refine ⟨⟨s, by rw [quoted_eq, ← hs]⟩, ?_, hquote p.2 rfl⟩
      rw [hu]
      simp
    next => cases h
  · rintro ⟨⟨s, rfl⟩, rfl, hrest⟩
    have hinside : inside? (doubled s ++ '\'' :: rest) = some (doubled s, rest) :=
      inside?_eq_some_iff.mpr (pieces_doubled_append s hrest)
    rw [quoted_eq, List.append_assoc, List.cons_append, List.singleton_append, textLexeme?, hinside]
    rfl

end Scanning

section Decoding

variable {s w : List Char}

lemma undouble_doubled (s : List Char) : undouble (doubled s) = .ok s := by
  induction s with
  | nil => rfl
  | cons c s ih =>
    by_cases hc : c = '\''
    · subst hc
      simp [undouble, ih, Except.map]
    · simp [undouble, hc, ih, Except.map]

lemma eq_doubled_of_undouble (h : undouble w = .ok s) : w = doubled s := by
  fun_induction undouble w generalizing s with
  | case1 =>
    cases h
    rfl
  | case2 w ih =>
    obtain ⟨u, hu, rfl⟩ := map_eq_ok.mp h
    rw [doubled_quote, ← ih hu]
  | case3 => cases h
  | case4 c w hno hc ih =>
    obtain ⟨u, hu, rfl⟩ := map_eq_ok.mp h
    rw [doubled_of_ne hc, ← ih hu]

lemma decodeText_enclosed (u : List Char) : decodeText ('\'' :: u ++ ['\'']) = undouble u := by
  have hlast : ('\'' :: u ++ ['\'']).getLast? = some '\'' := List.getLast?_concat
  have hlength : 2 ≤ ('\'' :: u ++ ['\'']).length := by simp
  rw [decodeText, if_pos ⟨rfl, hlast, hlength⟩, List.cons_append, List.tail_cons,
    List.dropLast_concat]

/-- Only a text between two quotes is decoded. -/
lemma enclosed_of_decodeText (h : decodeText w = .ok s) : ∃ u, w = '\'' :: u ++ ['\''] := by
  unfold decodeText at h
  split at h
  next hw =>
    obtain ⟨hfirst, hlast, hlength⟩ := hw
    obtain ⟨v, rfl⟩ := List.head?_eq_some_iff.mp hfirst
    obtain ⟨x, hx⟩ := List.getLast?_eq_some_iff.mp hlast
    cases x with
    | nil =>
      rw [hx] at hlength
      simp at hlength
    | cons c u =>
      obtain ⟨rfl, -⟩ := List.cons.inj hx
      exact ⟨u, hx⟩
  next => cases h

/-- Decoding gives a text for its quoted form, and for nothing else. -/
lemma decodeText_eq_ok_iff : decodeText w = .ok s ↔ w = quoted s := by
  constructor
  · intro h
    obtain ⟨u, rfl⟩ := enclosed_of_decodeText h
    rw [decodeText_enclosed] at h
    rw [eq_doubled_of_undouble h, quoted_eq]
  · rintro rfl
    rw [quoted_eq, decodeText_enclosed, undouble_doubled]

end Decoding

section OnePass

variable {c : Char}

lemma inside?_quotes (t : List Char) :
    inside? ('\'' :: '\'' :: t) = (inside? t).map fun p => ('\'' :: '\'' :: p.1, p.2) := by
  simp only [inside?, pieces]
  split <;> rfl

lemma inside?_of_ne (hc : c ≠ '\'') (t : List Char) :
    inside? (c :: t) = (inside? t).map fun p => (c :: p.1, p.2) := by
  have hpieces : pieces (c :: t) = (c :: (pieces t).1, (pieces t).2) := by simp [pieces, hc]
  simp only [inside?, hpieces]
  split <;> rfl

lemma textBody?_eq (t : List Char) : textBody? t =
    (inside? t).bind fun p => (undouble p.1).toOption.map fun s => (s, p.2) := by
  -- a piece more for the scan is a character more for the decoder
  fun_induction textBody? t with
  | case1 => rfl
  | case2 t ih =>
    rw [ih, inside?_quotes]
    cases inside? t with
    | none => rfl
    | some p => cases hp : undouble p.1 <;> simp [undouble, hp, Except.map, Except.toOption]
  | case3 t hno =>
    have hpieces : pieces ('\'' :: t) = ([], '\'' :: t) := by
      rw [pieces, if_pos rfl]
      exact hno
    simp only [inside?, hpieces]
    rfl
  | case4 c t hno hc ih =>
    rw [ih, inside?_of_ne hc]
    cases inside? t with
    | none => rfl
    | some p => cases hp : undouble p.1 <;> simp [undouble, hc, hp, Except.map, Except.toOption]

/-- Reading a literal in one pass is finding its lexeme and decoding it. -/
lemma text?_eq (t : List Char) : text? t =
    (textLexeme? t).bind fun p => (decodeText p.1).toOption.map fun s => (s, p.2) := by
  fun_cases textLexeme? t with
  | case1 t =>
    rw [text?, textBody?_eq, Option.bind_map]
    simp only [Function.comp_def, decodeText_enclosed]
  | case2 t hno =>
    rw [text?]
    · rfl
    · exact hno

/-- A text is read exactly where its quoted form stands with no quote after it. -/
lemma text?_eq_some_iff {t s rest : List Char} :
    text? t = some (s, rest) ↔ t = quoted s ++ rest ∧ rest.head? ≠ some '\'' := by
  rw [text?_eq, Option.bind_eq_some_iff]
  constructor
  · rintro ⟨⟨w, r⟩, hw, h⟩
    obtain ⟨u, hu, heq⟩ := Option.map_eq_some_iff.mp h
    obtain ⟨rfl, rfl⟩ := Prod.mk.inj heq
    obtain rfl := decodeText_eq_ok_iff.mp (toOption_eq_some.mp hu)
    exact (textLexeme?_eq_some_iff.mp hw).2
  · rintro ⟨rfl, hrest⟩
    have hdecoded : decodeText (quoted s) = .ok s := decodeText_eq_ok_iff.mpr rfl
    refine ⟨(quoted s, rest), textLexeme?_eq_some_iff.mpr ⟨⟨s, rfl⟩, rfl, hrest⟩, ?_⟩
    rw [hdecoded]
    rfl

end OnePass

/-- Text literals are read exactly. The quoted form of a text is found as a whole wherever no quote
follows it, and decodes to the text. What is found always decodes, to the text whose quoted form it
is. Reading in one pass does both steps. -/
theorem text_literals_read_exactly :
    (∀ s rest : List Char, rest.head? ≠ some '\'' →
      textLexeme? (quoted s ++ rest) = some (quoted s, rest) ∧ decodeText (quoted s) = .ok s) ∧
    (∀ t w rest : List Char, textLexeme? t = some (w, rest) →
      t = w ++ rest ∧ ∃ s, decodeText w = .ok s ∧ quoted s = w) ∧
    ∀ t : List Char, text? t =
      (textLexeme? t).bind fun p => (decodeText p.1).toOption.map fun s => (s, p.2) := by
  refine ⟨?_, ?_, text?_eq⟩
  · intro s rest hrest
    exact ⟨textLexeme?_eq_some_iff.mpr ⟨⟨s, rfl⟩, rfl, hrest⟩, decodeText_eq_ok_iff.mpr rfl⟩
  · intro t w rest h
    obtain ⟨⟨s, hs⟩, ht, -⟩ := textLexeme?_eq_some_iff.mp h
    exact ⟨ht, s, decodeText_eq_ok_iff.mpr hs, hs.symm⟩

/-- Runs of quotes at the start, in the middle and at the end. -/
def quoteRuns : List Char := "''it's 😀'".toList

theorem quoteRuns_read_exactly :
    [')'].head? ≠ some '\'' ∧ quoted quoteRuns = "'''''it''s 😀'''".toList ∧
    textLexeme? (quoted quoteRuns ++ [')']) = some (quoted quoteRuns, [')']) ∧
    ∃ s, decodeText (quoted quoteRuns) = .ok s ∧ quoted s = quoted quoteRuns ∧ s = quoteRuns := by
  have hrest : [')'].head? ≠ some '\'' := by decide
  obtain ⟨hquoted, hlexeme, -⟩ := text_literals_read_exactly
  obtain ⟨hfound, hdecoded⟩ := hquoted quoteRuns [')'] hrest
  obtain ⟨-, s, hs, hback⟩ := hlexeme _ _ _ hfound
  refine ⟨hrest, by decide +kernel, hfound, s, hs, hback, ?_⟩
  exact Except.ok.inj (hs.symm.trans hdecoded)

end PascalJvm.Source.Lexeme
