import Mathlib.Tactic
import PascalJvm.Proofs.Expansion
import PascalJvm.Proofs.SameText

/-!
# Comments for includes and for the grammar

Include directives are looked for in a text before it is parsed. The scanner cuts the text at
opening marks wherever they stand. For the grammar an opening mark in a text literal or in a line
comment opens nothing (`lexed`). The two cuts are compared here: they are the same as long as
every opening mark opens a comment of the grammar. At the first one that does not, the scanner
goes astray, unless the mark is never closed and no comment follows.
-/
namespace PascalJvm.Include

open Source

/-- A text literal at the start, as it is written, and what follows it. -/
def literal? (s : List Char) : Option (List Char × List Char) :=
  (Lexeme.text? s).map fun (_, rest) => (s.take (s.length - rest.length), rest)

/-- A line comment at the start, and what follows it. -/
def line? : List Char → Option (List Char × List Char)
  | '/' :: '/' :: s => some ('/' :: '/' :: s.takeWhile (· ≠ '\n'), s.dropWhile (· ≠ '\n'))
  | _ => none

/-- A comment at the start: its kind, its body, and what follows it. -/
def comment? (s : List Char) : Option (CommentStyle × List Char × List Char) :=
  (opened? s).bind fun (style, rest) =>
    (Text.breakOn style.closing rest).map fun (body, after) => (style, body, after)

/-- The first piece of a text as the grammar reads it: a text literal, a line comment, a comment,
or any other character. -/
def firstPiece : List Char → Option (Piece × List Char)
  | [] => none
  | c :: s =>
      match (literal? (c :: s)).or (line? (c :: s)) with
      | some (w, rest) => some (.plain w, rest)
      | none =>
          match comment? (c :: s) with
          | some (style, body, rest) => some (.comment style body, rest)
          | none => some (.plain [c], s)

section FirstPiece

variable {s rest w body : List Char} {style : CommentStyle}

lemma opened?_eq_some_iff : opened? s = some (style, rest) ↔ s = style.opening ++ rest := by
  refine ⟨eq_of_opened?, ?_⟩
  rintro rfl
  cases style <;> simp [opened?, CommentStyle.opening, Text.after?]

lemma comment?_eq_some_iff : comment? s = some (style, body, rest) ↔
    ∃ inner, s = style.opening ++ inner ∧ Text.breakOn style.closing inner = some (body, rest) := by
  simp only [comment?, Option.bind_eq_some_iff, Option.map_eq_some_iff, Prod.exists, Prod.mk.injEq,
    opened?_eq_some_iff]
  constructor
  · rintro ⟨st, inner, hs, b, after, hb, rfl, rfl, rfl⟩
    exact ⟨inner, hs, hb⟩
  · rintro ⟨inner, hs, hb⟩
    exact ⟨style, inner, hs, body, rest, hb, rfl, rfl, rfl⟩

lemma eq_of_literal? (h : literal? s = some (w, rest)) : s = w ++ rest ∧ w ≠ [] := by
  obtain ⟨⟨t, r⟩, ht, hr⟩ := Option.map_eq_some_iff.mp h
  obtain ⟨rfl, rfl⟩ := Prod.mk.inj hr
  obtain ⟨rfl, -⟩ := Lexeme.text?_eq_some_iff.mp ht
  have hlength : (quoted t ++ r).length - r.length = (quoted t).length := by simp
  rw [hlength, List.take_left]
  exact ⟨rfl, List.cons_ne_nil _ _⟩

lemma eq_of_line? (h : line? s = some (w, rest)) : s = w ++ rest ∧ w ≠ [] := by
  unfold line? at h
  split at h
  next u =>
    obtain ⟨rfl, rfl⟩ := Prod.mk.inj (Option.some.inj h)
    simp
  next => cases h

/-- Nothing of the text is lost. -/
lemma eq_of_firstPiece {p : Piece} (h : firstPiece s = some (p, rest)) :
    s = p.text ++ rest ∧ p.text ≠ [] := by
  cases s with
  | nil => cases h
  | cons c t =>
    rw [firstPiece] at h
    split at h
    next w r hw =>
      obtain ⟨rfl, rfl⟩ := Prod.mk.inj (Option.some.inj h)
      rcases Option.or_eq_some_iff.mp hw with hw | ⟨-, hw⟩
      · exact eq_of_literal? hw
      · exact eq_of_line? hw
    next =>
      split at h
      next style body r hc =>
        obtain ⟨rfl, rfl⟩ := Prod.mk.inj (Option.some.inj h)
        obtain ⟨inner, hs, hb⟩ := comment?_eq_some_iff.mp hc
        rw [hs, Text.eq_of_breakOn hb, Piece.text]
        refine ⟨by simp, ?_⟩
        cases style <;> simp [CommentStyle.opening]
      next =>
        obtain ⟨rfl, rfl⟩ := Prod.mk.inj (Option.some.inj h)
        exact ⟨rfl, List.cons_ne_nil _ _⟩

lemma length_after_firstPiece_lt {p : Piece} (h : firstPiece s = some (p, rest)) :
    rest.length < s.length := by
  obtain ⟨hs, hne⟩ := eq_of_firstPiece h
  have hpos := List.length_pos_iff.mpr hne
  rw [hs, List.length_append]
  omega

lemma comment?_of_firstPiece (h : firstPiece s = some (.comment style body, rest)) :
    comment? s = some (style, body, rest) := by
  cases s with
  | nil => cases h
  | cons c t =>
    rw [firstPiece] at h
    split at h
    next => cases h
    next =>
      split at h
      next hc =>
        cases h
        exact hc
      next => cases h

end FirstPiece

section Skipping

variable {s rest : List Char}

lemma skipFrom_braces_eq (s opening : List Char) : Layout.skipFrom (.braces opening) s =
    match Text.breakOn CommentStyle.brace.closing s with
    | some (_, rest) => Layout.skip rest
    | none => opening := by
  induction s with
  | nil => rfl
  | cons c s ih =>
    rw [Layout.skipFrom, ih, Text.breakOn]
    by_cases hc : c = '\x7d'
    · simp [hc, CommentStyle.closing, Text.after?, Layout.skip]
    · simp only [hc, if_false, CommentStyle.closing, Text.after?, Ne.symm hc]
      cases Text.breakOn ['\x7d'] s <;> rfl

lemma skipFrom_stars_eq (s opening : List Char) : Layout.skipFrom (.stars opening) s =
    match Text.breakOn CommentStyle.paren.closing s with
    | some (_, rest) => Layout.skip rest
    | none => opening := by
  induction s with
  | nil => rfl
  | cons c s ih =>
    rw [Text.breakOn]
    cases hafter : Text.after? CommentStyle.paren.closing (c :: s) with
    | some rest =>
      rw [Text.after?_eq_some.mp hafter]
      rfl
    | none =>
      rw [Layout.skipFrom, ih]
      · cases Text.breakOn CommentStyle.paren.closing s <;> rfl
      · rintro r rfl rfl
        cases hafter

lemma skipFrom_slashes_eq (s : List Char) :
    Layout.skipFrom .slashes s = Layout.skip (s.dropWhile (· ≠ '\n')) := by
  induction s with
  | nil => rfl
  | cons c s ih =>
    rw [Layout.skipFrom]
    by_cases hc : c = '\n'
    · simp [hc, Layout.skip, Layout.skipFrom, Layout.isSpace]
    · simp [hc, ih]

/-- Blanks, line comments and comments stand between the items of a program. -/
def Piece.isLayout : Piece → Bool
  | .comment _ _ => true
  | .plain w => (line? w).isSome || w.all Layout.isSpace

lemma skip_char {c : Char} (hline : line? (c :: s) = none) (hcomment : comment? (c :: s) = none) :
    Layout.skip (c :: s) = if (Piece.plain [c]).isLayout then Layout.skip s else c :: s := by
  have hunclosed : ∀ style inner, c :: s = CommentStyle.opening style ++ inner →
      Text.breakOn style.closing inner = none := by
    intro style inner hs
    cases hb : Text.breakOn style.closing inner with
    | none => rfl
    | some cut =>
      rw [comment?_eq_some_iff.mpr ⟨inner, hs, hb⟩] at hcomment
      cases hcomment
  by_cases hbrace : c = '\x7b'
  · subst hbrace
    show Layout.skipFrom (.braces _) s = _
    rw [skipFrom_braces_eq, hunclosed .brace s rfl]
    rfl
  by_cases hstar : ∃ u, c = '(' ∧ s = '*' :: u
  · obtain ⟨u, rfl, rfl⟩ := hstar
    show Layout.skipFrom (.stars _) u = _
    rw [skipFrom_stars_eq, hunclosed .paren u rfl]
    rfl
  rw [Layout.skip, Layout.skipFrom]
  · simp [Piece.isLayout, line?, Layout.skip]
  · exact hbrace
  · intro u hc hs
    exact hstar ⟨u, hc, hs⟩
  · rintro u rfl rfl
    cases hline

/-- What the parser skips are the pieces of the cut that are layout. -/
theorem skip_firstPiece {p : Piece} (h : firstPiece s = some (p, rest)) :
    Layout.skip s = if p.isLayout then Layout.skip rest else s := by
  cases s with
  | nil => cases h
  | cons c t =>
    rw [firstPiece] at h
    split at h
    next w r hw =>
      obtain ⟨rfl, rfl⟩ := Prod.mk.inj (Option.some.inj h)
      rcases Option.or_eq_some_iff.mp hw with hw | ⟨-, hw⟩
      · -- a text literal begins with a quote, which no layout does
        obtain ⟨hs, hne⟩ := eq_of_literal? hw
        obtain rfl : c = '\'' := by
          obtain ⟨found, hfound, -⟩ := Option.map_eq_some_iff.mp hw
          unfold Lexeme.text? at hfound
          split at hfound
          next hc => exact (List.cons.inj hc).1
          next => cases hfound
        obtain ⟨d, u, rfl⟩ := List.exists_cons_of_ne_nil hne
        obtain ⟨rfl, -⟩ := List.cons.inj hs
        rfl
      · unfold line? at hw
        split at hw
        next u hc =>
          obtain ⟨rfl, rfl⟩ := Prod.mk.inj (Option.some.inj hw)
          rw [hc]
          exact skipFrom_slashes_eq u
        next => cases hw
    next hpassage =>
      split at h
      next style body r hc =>
        obtain ⟨rfl, rfl⟩ := Prod.mk.inj (Option.some.inj h)
        obtain ⟨inner, hs, hb⟩ := comment?_eq_some_iff.mp hc
        rw [hs]
        cases style with
        | brace =>
          show Layout.skipFrom (.braces _) inner = _
          rw [skipFrom_braces_eq, hb]
          rfl
        | paren =>
          show Layout.skipFrom (.stars _) inner = _
          rw [skipFrom_stars_eq, hb]
          rfl
      next hc =>
        obtain ⟨rfl, rfl⟩ := Prod.mk.inj (Option.some.inj h)
        exact skip_char (Option.or_eq_none_iff.mp hpassage).2 hc

end Skipping
/-- Put plain text in front of a text that is cut already. -/
def prepend (w : List Char) : List Piece → List Piece
  | .plain t :: ps => .plain (w ++ t) :: ps
  | ps => .plain w :: ps

lemma prepend_inj {w : List Char} {ps qs : List Piece} (hp : ∃ t ts, ps = .plain t :: ts)
    (hq : ∃ t ts, qs = .plain t :: ts) : prepend w ps = prepend w qs ↔ ps = qs := by
  obtain ⟨t, ts, rfl⟩ := hp
  obtain ⟨u, us, rfl⟩ := hq
  simp [prepend]

/-- Cut a text into plain text and comments, as the grammar reads it. -/
def lexed (s : List Char) : List Piece :=
  match h : firstPiece s with
  | none => [.plain []]
  | some (.plain w, rest) =>
      have := length_after_firstPiece_lt h
      prepend w (lexed rest)
  | some (.comment style body, rest) =>
      have := length_after_firstPiece_lt h
      .plain [] :: .comment style body :: lexed rest
termination_by s.length

/-- An opening mark that opens no comment: what follows the mark, and what follows the piece of
text that it stands in. -/
structure Stray where
  style : CommentStyle
  inner : List Char
  rest : List Char
deriving DecidableEq

/-- The first opening mark that opens no comment for the grammar. It stands in a text literal or in
a line comment, or it is never closed. -/
def stray? (s : List Char) : Option Stray :=
  match h : firstPiece s with
  | none => none
  | some (.plain w, rest) =>
      have := length_after_firstPiece_lt h
      match nextComment s with
      | some (before, style, inner) =>
          if before.length < w.length then some ⟨style, inner, rest⟩ else stray? rest
      | none => stray? rest
  | some (.comment _ _, rest) =>
      have := length_after_firstPiece_lt h
      stray? rest
termination_by s.length

/-- The mark is never closed, and there is no comment after it. -/
def Stray.Harmless (x : Stray) : Prop :=
  Text.contains x.style.closing x.inner = false ∧ lexed x.rest = [.plain x.rest]

section Pieces

variable {s rest w body before inner after : List Char} {style : CommentStyle}

lemma pieces_of_none (h : nextComment s = none) : pieces s = [.plain s] := by
  unfold pieces
  split
  next => rfl
  next hn => simp [h] at hn

lemma pieces_of_unclosed (h : nextComment s = some (before, style, inner))
    (hb : Text.breakOn style.closing inner = none) : pieces s = [.plain s] := by
  unfold pieces
  split
  next => rfl
  next hn =>
    rw [h] at hn
    cases hn
    split
    next => rfl
    next hb' => simp [hb] at hb'

lemma pieces_of_closed (h : nextComment s = some (before, style, inner))
    (hb : Text.breakOn style.closing inner = some (body, after)) :
    pieces s = .plain before :: .comment style body :: pieces after := by
  rw [pieces]
  split
  next hn => simp [h] at hn
  next hn =>
    rw [h] at hn
    cases hn
    split
    next hb' => simp [hb] at hb'
    next hb' =>
      rw [hb] at hb'
      cases hb'
      rfl

lemma nextComment_opening :
    nextComment (style.opening ++ inner) = some ([], style, inner) := by
  have ho : opened? (style.opening ++ inner) = some (style, inner) := opened?_eq_some_iff.mpr rfl
  cases style <;> simp_all [CommentStyle.opening, nextComment]

/-- A text that is cut begins with plain text. -/
lemma pieces_head (s : List Char) : ∃ t ps, pieces s = .plain t :: ps := by
  cases hn : nextComment s with
  | none => exact ⟨_, _, pieces_of_none hn⟩
  | some found =>
    obtain ⟨before, style, inner⟩ := found
    cases hb : Text.breakOn style.closing inner with
    | none => exact ⟨_, _, pieces_of_unclosed hn hb⟩
    | some cut => exact ⟨_, _, pieces_of_closed hn hb⟩

/-- Without an opening mark that begins in `w`, the search goes on behind `w`. -/
lemma nextComment_append (h : ∀ before style inner,
    nextComment (w ++ rest) = some (before, style, inner) → w.length ≤ before.length) :
    nextComment (w ++ rest) =
      (nextComment rest).map fun (before, found) => (w ++ before, found) := by
  induction w with
  | nil => simp
  | cons c w ih =>
    rw [List.cons_append, nextComment] at h ⊢
    cases ho : opened? (c :: (w ++ rest)) with
    | some found =>
      have := h [] found.1 found.2 (by simp [ho])
      simp at this
    | none =>
      simp only [ho] at h ⊢
      rw [ih ?_]
      · cases nextComment rest <;> rfl
      · intro before style inner hn
        have := h (c :: before) style inner (by simp [hn])
        simpa using this

lemma pieces_append (h : ∀ before style inner,
    nextComment (w ++ rest) = some (before, style, inner) → w.length ≤ before.length) :
    pieces (w ++ rest) = prepend w (pieces rest) := by
  have hnext := nextComment_append h
  cases hn : nextComment rest with
  | none =>
    rw [pieces_of_none hn, pieces_of_none (by rw [hnext, hn]; rfl)]
    rfl
  | some found =>
    obtain ⟨before, style, inner⟩ := found
    rw [hn, Option.map_some] at hnext
    cases hb : Text.breakOn style.closing inner with
    | none =>
      rw [pieces_of_unclosed hn hb, pieces_of_unclosed hnext hb]
      rfl
    | some cut =>
      rw [pieces_of_closed hn hb, pieces_of_closed hnext hb]
      rfl

end Pieces

section Lexed

variable {s rest w body before inner : List Char} {style : CommentStyle}

lemma lexed_head (s : List Char) : ∃ t ps, lexed s = .plain t :: ps := by
  unfold lexed
  split
  next => exact ⟨_, _, rfl⟩
  next rest _ =>
    unfold prepend
    split <;> exact ⟨_, _, rfl⟩
  next => exact ⟨_, _, rfl⟩

/-- The opening mark stands in a text literal or line comment, or it is not closed. -/
lemma stray?_of_mark (h : firstPiece s = some (.plain w, rest))
    (hn : nextComment s = some (before, style, inner)) (hlt : before.length < w.length) :
    stray? s = some ⟨style, inner, rest⟩ := by
  rw [stray?]
  split <;> simp_all

lemma stray?_of_plain (h : firstPiece s = some (.plain w, rest))
    (hle : ∀ before style inner, nextComment s = some (before, style, inner) →
      w.length ≤ before.length) : stray? s = stray? rest := by
  rw [stray?]
  split
  next h' => simp [h] at h'
  next h' =>
    rw [h] at h'
    cases h'
    split
    next hn => rw [if_neg (by have := hle _ _ _ hn; omega)]
    next => rfl
  next h' => simp [h] at h'

lemma stray?_of_comment (h : firstPiece s = some (.comment style body, rest)) :
    stray? s = stray? rest := by
  rw [stray?]
  split <;> simp_all

/-- A stray mark makes the scanner cut in a place where the grammar does not, or it makes the
scanner cut nowhere from there on. -/
lemma pieces_eq_prepend_iff (hn : nextComment (w ++ rest) = some (before, style, inner))
    (hlt : before.length < w.length) :
    pieces (w ++ rest) = prepend w (lexed rest) ↔ Stray.Harmless ⟨style, inner, rest⟩ := by
  obtain ⟨t, ps, hlexed⟩ := lexed_head rest
  rw [Stray.Harmless, hlexed, Text.contains]
  cases hb : Text.breakOn style.closing inner with
  | none =>
    rw [pieces_of_unclosed hn hb]
    simp only [prepend, List.cons.injEq, Piece.plain.injEq, List.append_cancel_left_eq,
      Option.isSome_none, true_and, eq_comm]
  | some cut =>
    rw [pieces_of_closed hn hb]
    simp only [prepend, List.cons.injEq, Piece.plain.injEq, Option.isSome_some, Bool.true_eq_false,
      false_and, iff_false, not_and]
    rintro rfl
    simp at hlt

end Lexed

/-- The scanner cuts a text as the grammar does, exactly if no opening mark that opens no comment
leads it astray. -/
theorem pieces_eq_lexed_iff (s : List Char) :
    pieces s = lexed s ↔ ∀ x ∈ stray? s, x.Harmless := by
  fun_induction lexed s with
  | case1 s h =>
    obtain rfl : s = [] := by
      cases s with
      | nil => rfl
      | cons c t =>
        rw [firstPiece] at h
        split at h
        · cases h
        · split at h <;> cases h
    rw [pieces_of_none rfl, stray?]
    simp [firstPiece]
  | case2 s w rest h _ ih =>
    obtain ⟨rfl, -⟩ := eq_of_firstPiece h
    rw [Piece.text] at h ⊢
    by_cases hle : ∀ before style inner,
        nextComment (w ++ rest) = some (before, style, inner) → w.length ≤ before.length
    · rw [pieces_append hle, stray?_of_plain h hle, ← ih]
      exact prepend_inj (pieces_head rest) (lexed_head rest)
    · push Not at hle
      obtain ⟨before, style, inner, hn, hlt⟩ := hle
      rw [pieces_eq_prepend_iff hn hlt, stray?_of_mark h hn hlt]
      simp
  | case3 s style body rest h _ ih =>
    obtain ⟨inner, hs, hb⟩ := comment?_eq_some_iff.mp (comment?_of_firstPiece h)
    have hn : nextComment s = some ([], style, inner) := by
      rw [hs]
      exact nextComment_opening
    rw [pieces_of_closed hn hb, stray?_of_comment h, ← ih]
    simp

/-- Expand the pieces of a text, with `cut` to cut the texts of included files. -/
def expandBy (cut : List Char → List Piece) (store : Files.Store) (base : String)
    (opened : List Files.Location) : List Piece → Traced IncludeError (List Char)
  | [] => return []
  | .plain text :: rest => do return text ++ (← expandBy cut store base opened rest)
  | .comment style body :: rest =>
      match directive? body with
      | none => do
          return (Piece.comment style body).text ++ (← expandBy cut store base opened rest)
      | some path =>
          let full := Files.Path.join base (String.ofList path)
          match hc : cyclePath? store opened full with
          | some shown => Traced.fail (.cycle shown)
          | none =>
              match hf : store.file full with
              | .error e => Traced.fail (.unreadable full e)
              | .ok (l, text) =>
                  have ⟨hl, ht⟩ := Files.Store.locate_of_file hf
                  have := unopened_cons_lt ht (not_mem_of_cyclePath? hl hc)
                  do
                    Traced.report (.including full)
                    let inner ← expandBy cut store ((Files.Path.parent? full).getD base)
                      (l :: opened) (cut text.toList)
                    return inner ++ (← expandBy cut store base opened rest)
termination_by ps => (unopened store opened, ps.length)
decreasing_by
  · exact Prod.Lex.right _ (by simp)
  · exact Prod.Lex.right _ (by simp)
  · exact Prod.Lex.left _ _ this
  · exact Prod.Lex.right _ (by simp)

/-- It does not matter how the files of the store are cut, if the cut is the same. -/
lemma expandPieces_eq_expandBy {cut : List Char → List Piece} {store : Files.Store}
    (hcut : ∀ l text, store.textAt l = .ok text → pieces text.toList = cut text.toList)
    (base : String) (opened : List Files.Location) (ps : List Piece) :
    expandPieces store base opened ps = expandBy cut store base opened ps := by
  fun_induction expandBy cut store base opened ps with
  | case1 base opened => rw [expandPieces]
  | case2 base opened text rest ih => rw [expandPieces_plain, ih]
  | case3 base opened style body rest hd ih => rw [expandPieces_comment hd, ih]
  | case4 base opened style body rest path hd full shown hc => exact expandPieces_cycle hd hc
  | case5 base opened style body rest path hd full hc e hf => exact expandPieces_unreadable hd hc hf
  | case6 base opened style body rest path hd full hc l text hf hl ht hlt ih₁ ih₂ =>
    rw [expandPieces_include hd hc hf, hcut l text ht, ih₁, ih₂]

/-- The scanner cuts a text as the grammar does, exactly if the first opening mark that opens no
comment for the grammar, if there is one, is never closed and no comment follows. If all texts are
like that, the directives that are expanded are those in comments of the grammar. -/
theorem includes_follow_grammar_iff (s : List Char) :
    (pieces s = lexed s ↔ ∀ x ∈ stray? s, x.Harmless) ∧
      ∀ (store : Files.Store) (base : String), (∀ x ∈ stray? s, x.Harmless) →
        (∀ l text, store.textAt l = .ok text → ∀ x ∈ stray? text.toList, x.Harmless) →
        expand store base s = expandBy lexed store base [] (lexed s) := by
  refine ⟨pieces_eq_lexed_iff s, fun store base hs hfiles => ?_⟩
  rw [expand, (pieces_eq_lexed_iff s).mpr hs]
  refine expandPieces_eq_expandBy (fun l text ht => ?_) base [] (lexed s)
  exact (pieces_eq_lexed_iff text.toList).mpr (hfiles l text ht)

/-- A store with one file. -/
def noteStore : Files.Store := ⟨["w"], [["w"]], [(["w", "a.inc"], "1 \x7bone\x7d".toUTF8)]⟩

/-- A directive in a text literal is expanded, and an opening mark in a line comment hides one. -/
theorem includes_in_literals_and_lines :
    (expand noteStore "/w" "'\x7b$I a.inc\x7d'".toList).outcome = .ok "'1 \x7bone\x7d'".toList ∧
      lexed "'\x7b$I a.inc\x7d'".toList = [.plain "'\x7b$I a.inc\x7d'".toList] ∧
    (expand noteStore "/w" "// \x7b\n\x7b$I a.inc\x7d".toList).outcome =
        .ok "// \x7b\n\x7b$I a.inc\x7d".toList ∧
      lexed "// \x7b\n\x7b$I a.inc\x7d".toList =
        [.plain "// \x7b\n".toList, .comment .brace "$I a.inc".toList, .plain []] := by
  refine ⟨?_, by decide +kernel, ?_, by decide +kernel⟩
  · have hmain : pieces "'\x7b$I a.inc\x7d'".toList =
        [.plain ['\''], .comment .brace "$I a.inc".toList, .plain ['\'']] := by decide +kernel
    have hinner : pieces "1 \x7bone\x7d".toList =
        [.plain "1 ".toList, .comment .brace "one".toList, .plain []] := by decide +kernel
    have hd : directive? "$I a.inc".toList = some "a.inc".toList := by decide +kernel
    have hc : cyclePath? noteStore [] (Files.Path.join "/w" (String.ofList "a.inc".toList)) = none := by
      decide +kernel
    have hf : noteStore.file (Files.Path.join "/w" (String.ofList "a.inc".toList)) =
        .ok (["w", "a.inc"], "1 \x7bone\x7d") := by decide +kernel
    rw [expand, hmain, expandPieces_plain, expandPieces_include hd hc hf, hinner, expandPieces_plain,
      expandPieces_comment (by decide +kernel)]
    simp only [expandPieces_plain, expandPieces]
    rfl
  · have hmain : pieces "// \x7b\n\x7b$I a.inc\x7d".toList =
        [.plain "// ".toList, .comment .brace "\n\x7b$I a.inc".toList, .plain []] := by
      decide +kernel
    rw [expand, hmain, expandPieces_plain, expandPieces_comment (by decide +kernel)]
    simp only [expandPieces_plain, expandPieces]
    rfl

lemma noteStore_harmless : ∀ l text, noteStore.textAt l = .ok text →
    ∀ x ∈ stray? text.toList, x.Harmless := by
  intro l text ht x hx
  obtain ⟨bytes, hmem⟩ := mem_files_of_textAt ht
  obtain ⟨rfl, -⟩ := Prod.mk.inj (List.mem_singleton.mp hmem)
  have htext : noteStore.textAt ["w", "a.inc"] = .ok "1 \x7bone\x7d" := by decide +kernel
  obtain rfl := Except.ok.inj (htext.symm.trans ht)
  have hnone : stray? "1 \x7bone\x7d".toList = none := by decide +kernel
  rw [hnone] at hx
  cases hx

theorem includes_follow_grammar_note :
    (∀ x ∈ stray? "'it''s' // it's\n(*$I a.inc*) \x7b".toList, x.Harmless) ∧
      expand noteStore "/w" "'it''s' // it's\n(*$I a.inc*) \x7b".toList =
        expandBy lexed noteStore "/w" [] (lexed "'it''s' // it's\n(*$I a.inc*) \x7b".toList) := by
  have hstray : stray? "'it''s' // it's\n(*$I a.inc*) \x7b".toList = some ⟨.brace, [], []⟩ := by
    decide +kernel
  have hharmless : ∀ x ∈ stray? "'it''s' // it's\n(*$I a.inc*) \x7b".toList, x.Harmless := by
    intro x hx
    obtain rfl := Option.some.inj (hstray.symm.trans hx)
    exact ⟨rfl, by decide +kernel⟩
  exact ⟨hharmless, (includes_follow_grammar_iff _).2 noteStore "/w" hharmless noteStore_harmless⟩

end PascalJvm.Include
