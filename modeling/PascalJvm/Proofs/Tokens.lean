import Mathlib.Data.List.TakeWhile
import PascalJvm.Proofs.Reading
import PascalJvm.Proofs.TextLiterals

/-!
# Reading tokens

Layout in front of a token is skipped whatever comments it holds, and the token itself is not
taken for layout. `Next s t s'` says that `t` is the token that comes next in `s`; from it
follows what marks, words, operators and literals find there.
-/
namespace PascalJvm.Source

open Layout Lexeme Source.Parser

namespace Layout

lemma skip_blank {c : Char} (hc : isSpace c) (s : List Char) : skip (c :: s) = skip s := by
  simp only [isSpace, Bool.or_eq_true, decide_eq_true_eq] at hc
  rcases hc with ((rfl | rfl) | rfl) | rfl <;> simp [skip, skipFrom, isSpace]

lemma skipFrom_braces {inside : List Char} (h : '\x7d' ∉ inside) (opening s : List Char) :
    skipFrom (.braces opening) (inside ++ '\x7d' :: s) = skip s := by
  induction inside with
  | nil => simp [skipFrom, skip]
  | cons c inside ih =>
    obtain ⟨hc, hinside⟩ := List.ne_and_not_mem_of_not_mem_cons h
    simp [skipFrom, Ne.symm hc, ih hinside]

lemma skipFrom_stars {inside : List Char} (h : ¬ ['*', ')'] <:+: inside) (opening s : List Char) :
    skipFrom (.stars opening) (inside ++ '*' :: ')' :: s) = skip s := by
  induction inside with
  | nil => simp [skipFrom, skip]
  | cons c inside ih =>
    have hinside : ¬ ['*', ')'] <:+: inside := fun hi => h (hi.trans (List.infix_cons List.infix_rfl))
    rw [List.cons_append, skipFrom, ih hinside]
    -- no star with a parenthesis after it begins here
    rintro u rfl hu
    cases inside with
    | nil => simp at hu
    | cons d inside =>
      obtain ⟨rfl, -⟩ := List.cons_eq_cons.mp hu
      exact h ⟨[], inside, by simp⟩

lemma skipFrom_slashes {inside : List Char} (h : '\n' ∉ inside) (s : List Char) :
    skipFrom .slashes (inside ++ '\n' :: s) = skip s := by
  induction inside with
  | nil => simp [skipFrom, skip]
  | cons c inside ih =>
    obtain ⟨hc, hinside⟩ := List.ne_and_not_mem_of_not_mem_cons h
    simp [skipFrom, Ne.symm hc, ih hinside]

lemma Filler.skip_append {l : List Char} (h : Filler l) (s : List Char) : skip (l ++ s) = skip s := by
  induction h with
  | nil => rfl
  | blank hc _ ih => rw [List.cons_append, skip_blank hc, ih]
  | @braces inside l hinside _ ih =>
    have := skipFrom_braces hinside ('\x7b' :: inside ++ '\x7d' :: l ++ s) (l ++ s)
    simpa [skip, skipFrom, ih] using this.trans ih
  | @stars inside l hinside _ ih =>
    have := skipFrom_stars hinside ('(' :: '*' :: inside ++ '*' :: ')' :: l ++ s) (l ++ s)
    simpa [skip, skipFrom, ih] using this.trans ih
  | @slashes inside l hinside _ ih =>
    have := skipFrom_slashes hinside (l ++ s)
    simpa [skip, skipFrom, ih] using this.trans ih

/-- The text begins with a blank. -/
def Blank (s : List Char) : Prop := ∃ c s', s = c :: s' ∧ isSpace c

lemma Gap.skip_append {gap : List Char} (h : Gap gap) (s : List Char) :
    skip (gap ++ s) = skip s := by
  cases gap with
  | nil => exact h.elim
  | cons c l => rw [List.cons_append, skip_blank h.1, h.2.skip_append]

lemma Gap.blank {gap : List Char} (h : Gap gap) (s : List Char) : Blank (gap ++ s) := by
  cases gap with
  | nil => exact h.elim
  | cons c l => exact ⟨c, l ++ s, rfl, h.1⟩

/-- Not taken for layout, with a blank after it. -/
def Solid : Token → Prop
  | [] => False
  | c :: t => isSpace c = false ∧ c ≠ '\x7b' ∧ (c = '(' ∨ c = '/' → t = [])

lemma Solid.skip_append {t s : List Char} (ht : Solid t) (hs : Blank s) : skip (t ++ s) = t ++ s := by
  obtain ⟨b, s, rfl, hb⟩ := hs
  cases t with
  | nil => exact ht.elim
  | cons c t =>
    obtain ⟨hspace, hbrace, hmark⟩ := ht
    have hstar : b ≠ '*' := by
      rintro rfl
      cases hb
    have hslash : b ≠ '/' := by
      rintro rfl
      cases hb
    rw [List.cons_append, skip, skipFrom, if_neg (by simp [hspace])]
    · exact hbrace
    · rintro u rfl hu
      obtain rfl := hmark (.inl rfl)
      exact hstar (List.cons_eq_cons.mp hu).1
    · rintro u rfl hu
      obtain rfl := hmark (.inr rfl)
      exact hslash (List.cons_eq_cons.mp hu).1

end Layout

/-- Neither a word nor a mark goes on at the start of the text. -/
def Apart (s : List Char) : Prop := ∀ c ∈ s.head?, isSpace c ∨ c = '.'

lemma Layout.Blank.head?_ne_quote {s : List Char} (h : Blank s) : s.head? ≠ some '\'' := by
  obtain ⟨c, s, rfl, hc⟩ := h
  intro hquote
  cases hquote
  cases hc

lemma Layout.Blank.apart {s : List Char} (h : Blank s) : Apart s := by
  obtain ⟨b, s, rfl, hb⟩ := h
  intro c hc
  cases hc
  exact .inl hb

lemma Apart.takeWhile_append {q : Char → Bool} (hblank : ∀ c, isSpace c → q c = false)
    (hpoint : q '.' = false) {s : List Char} (hs : Apart s) (t : List Char) :
    (t ++ s).takeWhile q = t.takeWhile q := by
  induction t with
  | nil =>
    cases s with
    | nil => rfl
    | cons c s =>
      have hc : q c = false := by
        rcases hs c rfl with hc | rfl
        · exact hblank c hc
        · exact hpoint
      simp [hc]
  | cons c t ih => by_cases hc : q c <;> simp [hc, ih]

lemma Apart.dropWhile_append {q : Char → Bool} (hblank : ∀ c, isSpace c → q c = false)
    (hpoint : q '.' = false) {s : List Char} (hs : Apart s) (t : List Char) :
    (t ++ s).dropWhile q = t.dropWhile q ++ s := by
  have hwhole := (t ++ s).takeWhile_append_dropWhile (p := q)
  have ht := t.takeWhile_append_dropWhile (p := q)
  rw [hs.takeWhile_append hblank hpoint] at hwhole
  conv_rhs at hwhole => rw [← ht, List.append_assoc]
  exact List.append_cancel_left hwhole

lemma isWordChar_of_isSpace {c : Char} (h : isSpace c) : isWordChar c = false := by
  simp only [isSpace, Bool.or_eq_true, decide_eq_true_eq] at h
  rcases h with ((rfl | rfl) | rfl) | rfl <;> rfl

/-- The first token of `s` is `t`, and `s'` stands after it. -/
structure Next (s : List Char) (t : Token) (s' : List Char) : Prop where
  ne_nil : t ≠ []
  skip_eq : skip s = t ++ s'
  apart : Apart s'

namespace Next

variable {s s' : List Char} {t : Token}

lemma skip (h : Next s t s') : Next (Layout.skip s) t s' :=
  ⟨h.ne_nil, by rw [skip_skip, h.skip_eq], h.apart⟩

lemma length_lt (h : Next s t s') : s'.length < s.length := by
  have hskip := length_skip_le s
  have ht := List.length_pos_of_ne_nil h.ne_nil
  rw [h.skip_eq, List.length_append] at hskip
  omega

lemma finds_symbol {mark : String} (h : Next s mark.toList s') : Finds (symbol mark) s () s' :=
  Parser.finds_symbol.mpr h.skip_eq

/-- A mark cannot go on from one token into the next. -/
lemma misses_symbol (h : Next s t s') {mark : String} (hmark : ¬ mark.toList <+: t)
    (hplain : ∀ c ∈ mark.toList.tail, isSpace c = false ∧ c ≠ '.') : Misses (symbol mark) s := by
  rw [Parser.misses_symbol, h.skip_eq]
  intro hpre
  rcases List.prefix_or_prefix_of_prefix hpre (List.prefix_append t s') with hle | ⟨rest, hrest⟩
  · exact hmark hle
  · obtain ⟨u, hu⟩ := hpre
    cases rest with
    | nil => exact hmark (by simp [← hrest])
    | cons c rest =>
      have hc : c ∈ s'.head? := by
        rw [← hrest, List.append_assoc, List.append_cancel_left_eq] at hu
        simp [← hu]
      have hmem : c ∈ mark.toList.tail := by
        rw [← hrest, List.tail_append_of_ne_nil h.ne_nil]
        simp
      obtain ⟨hspace, hpoint⟩ := hplain c hmem
      rcases h.apart c hc with hs | rfl
      · simp [hspace] at hs
      · exact hpoint rfl

lemma word_eq (h : Next s t s') : word (Layout.skip s) = word t := by
  rw [h.skip_eq]
  exact h.apart.takeWhile_append (fun _ => isWordChar_of_isSpace) rfl t

lemma afterWord_eq (h : Next s t s') : afterWord (Layout.skip s) = afterWord t ++ s' := by
  rw [h.skip_eq]
  exact h.apart.dropWhile_append (fun _ => isWordChar_of_isSpace) rfl t

lemma misses_keyword (h : Next s t s') {k : String} (hk : lower (word t) ≠ k.toList) :
    Misses (keyword k) s := by
  simp [keyword, keyword?, h.word_eq, hk]

lemma finds_keyword (h : Next s t s') {k : String} (hk : lower (word t) = k.toList)
    (ht : afterWord t = []) : Finds (keyword k) s () s' := by
  simp [keyword, keyword?, h.word_eq, h.afterWord_eq, hk, ht]

end Next

/-- How an operator is written. -/
inductive Spelling
  | mark (m : String)
  | word (k : String)

namespace Spelling

variable {α : Type}

/-- The alternative of a grammar rule that reads the operator. -/
def reader (a : α) : Spelling → Parser α
  | mark m => marked m a
  | word k => worded k a

/-- The operator is found at the start of the token. -/
def fits (t : Token) : Spelling → Bool
  | mark m => m.toList.isPrefixOf t
  | word k => lower (Lexeme.word t) = k.toList

/-- The operator is the whole token. -/
def fills (t : Token) : Spelling → Bool
  | mark m => m.toList = t
  | word k => lower (Lexeme.word t) = k.toList && afterWord t = []

/-- No blank and no point inside. -/
def plain : Spelling → Bool
  | mark m => m.toList.tail.all fun c => !isSpace c && c != '.'
  | word _ => true

variable {s s' : List Char} {t : Token} {a : α} {sp : Spelling}

lemma misses_reader (h : Next s t s') (hsp : sp.plain) (hfits : sp.fits t = false) :
    Misses (sp.reader a) s := by
  cases sp with
  | mark m =>
    refine Misses.bind (h.misses_symbol ?_ ?_)
    · intro hpre
      simp [fits, List.isPrefixOf_iff_prefix.mpr hpre] at hfits
    · simpa [plain] using hsp
  | word k => exact Misses.bind (h.misses_keyword (by simpa [fits] using hfits))

lemma finds_reader (h : Next s t s') (hfills : sp.fills t) : Finds (sp.reader a) s a s' := by
  cases sp with
  | mark m =>
    simp only [fills, decide_eq_true_eq] at hfills
    subst hfills
    exact finds_bind.mpr ⟨(), s', h.finds_symbol, finds_pure.mpr ⟨rfl, rfl⟩⟩
  | word k =>
    simp only [fills, Bool.and_eq_true, decide_eq_true_eq] at hfills
    exact finds_bind.mpr ⟨(), s', h.finds_keyword hfills.1 hfills.2, finds_pure.mpr ⟨rfl, rfl⟩⟩

end Spelling

/-- An operator of the grammar, by the spellings it chooses from. -/
def operator {α : Type} (ops : List (Spelling × α)) : Parser α :=
  rule (firstOf (ops.map fun x => x.1.reader x.2))

section

variable {α : Type} {ops : List (Spelling × α)} {s s' : List Char} {t : Token}

lemma Next.misses_operator (h : Next s t s') (hops : ∀ x ∈ ops, x.1.plain)
    (hfits : ∀ x ∈ ops, x.1.fits t = false) : Misses (operator ops) s := by
  rw [operator, misses_rule, misses_firstOf]
  intro p hp
  obtain ⟨x, hx, rfl⟩ := List.mem_map.mp hp
  exact Spelling.misses_reader h.skip (hops x hx) (hfits x hx)

/-- The first spelling that fits a token decides. -/
lemma Next.finds_operator (h : Next s t s') (hops : ∀ x ∈ ops, x.1.plain) {sp : Spelling} {a : α}
    (hfind : ops.find? (fun x => x.1.fits t) = some (sp, a)) (hfills : sp.fills t) :
    Finds (operator ops) s a s' := by
  rw [operator, finds_rule]
  induction ops with
  | nil => cases hfind
  | cons x ops ih =>
    rw [List.map_cons, finds_firstOf_cons]
    cases hx : x.1.fits t with
    | true =>
      simp only [List.find?_cons, hx, Option.some.injEq] at hfind
      subst hfind
      exact .inl (Spelling.finds_reader h.skip hfills)
    | false =>
      simp only [List.find?_cons, hx] at hfind
      exact .inr ⟨Spelling.misses_reader h.skip (hops x List.mem_cons_self) hx,
        ih (fun y hy => hops y (List.mem_cons_of_mem _ hy)) hfind⟩

end

def comparisonSpellings : List (Spelling × BinOp) :=
  [(.mark "<=", .le), (.mark ">=", .ge), (.mark "<>", .ne), (.mark "=", .eq), (.mark "<", .lt),
    (.mark ">", .gt)]

def additionSpellings : List (Spelling × BinOp) :=
  [(.mark "+", .add), (.mark "-", .sub), (.word "or", .or)]

def multiplicationSpellings : List (Spelling × BinOp) :=
  [(.mark "*", .mul), (.mark "/", .div), (.word "div", .intDiv), (.word "mod", .mod),
    (.word "and", .and)]

def unarySpellings : List (Spelling × Option UnOp) :=
  [(.mark "-", some .neg), (.mark "+", none), (.word "not", some .not)]

lemma comparisonOp_eq : comparisonOp = operator comparisonSpellings := rfl

lemma additionOp_eq : additionOp = operator additionSpellings := rfl

lemma multiplicationOp_eq : multiplicationOp = operator multiplicationSpellings := rfl

lemma unaryOp_eq : unaryOp = operator unarySpellings := rfl

/-- What makes a word a name. -/
structure NameFacts (n : Token) : Prop where
  starts : ∃ c cs, n = c :: cs ∧ isWordStart c
  word_eq : word n = n
  not_reserved : isReserved n = false
  not_true : lower n ≠ "true".toList
  not_false : lower n ≠ "false".toList

lemma isWordChar_of_isWordStart {c : Char} (h : isWordStart c) : isWordChar c := by
  simp only [isWordStart, isWordChar, Char.isAlphanum, Bool.or_eq_true] at h ⊢
  tauto

lemma nameFacts {n : String} (h : isName n) : NameFacts n.toList := by
  unfold isName at h
  cases hn : n.toList with
  | nil => simp [hn] at h
  | cons c cs =>
    simp only [hn, Bool.and_eq_true, List.all_eq_true, Bool.not_eq_true', bne_iff_ne] at h
    obtain ⟨⟨⟨⟨hstart, hall⟩, hreserved⟩, htrue⟩, hfalse⟩ := h
    refine ⟨⟨c, cs, rfl, hstart⟩, ?_, hreserved, htrue, hfalse⟩
    refine List.takeWhile_eq_self_iff.mpr fun d hd => ?_
    rcases List.mem_cons.mp hd with rfl | hd
    · exact isWordChar_of_isWordStart hstart
    · exact hall d hd

lemma NameFacts.afterWord_eq {n : Token} (h : NameFacts n) : afterWord n = [] := by
  have hwhole := n.takeWhile_append_dropWhile (p := isWordChar)
  rw [show n.takeWhile isWordChar = n from h.word_eq] at hwhole
  exact List.append_right_eq_self.mp hwhole

namespace Lexeme

variable {c : Char}

lemma toLower_of_isDigit (hc : c.isDigit) : c.toLower = c := by
  simp only [Char.isDigit, Bool.and_eq_true, decide_eq_true_eq, UInt32.le_iff_toNat_le,
    ge_iff_le] at hc
  refine dif_neg fun hupper => ?_
  rw [ge_iff_le, UInt32.le_iff_toNat_le] at hupper
  exact absurd (hupper.1.trans hc.2) (by decide)

/-- Digits up to a blank. -/
lemma digits?_append {ds s : List Char} (hds : ds ≠ []) (hall : ∀ d ∈ ds, d.isDigit) (hs : Blank s) :
    digits? (ds ++ s) = some (ds, s) := by
  have hblank : ∀ d, isSpace d → d.isDigit = false := by
    intro d hd
    have hword := isWordChar_of_isSpace hd
    simp only [isWordChar, Char.isAlphanum, Bool.or_eq_false_iff] at hword
    exact hword.1.2
  have htake := hs.apart.takeWhile_append hblank rfl ds
  have hdrop := hs.apart.dropWhile_append hblank rfl ds
  rw [List.takeWhile_eq_self_iff.mpr hall] at htake
  rw [List.dropWhile_eq_nil_iff.mpr hall, List.nil_append] at hdrop
  simp only [digits?, run?, htake, hdrop]

end Lexeme

namespace Next

variable {s s' : List Char} {t : Token}

lemma finds_identifier {n : String} (h : Next s n.toList s') (hn : isName n) :
    Finds identifier s n s' := by
  have facts := nameFacts hn
  obtain ⟨c, cs, hcs, hstart⟩ := facts.starts
  have hskip : Layout.skip s = c :: (cs ++ s') := by rw [h.skip_eq, hcs, List.cons_append]
  have hword : word (c :: (cs ++ s')) = n.toList := by rw [← hskip, h.word_eq, facts.word_eq]
  have hafter : afterWord (c :: (cs ++ s')) = s' := by
    rw [← hskip, h.afterWord_eq, facts.afterWord_eq, List.nil_append]
  rw [identifier, finds_lexeme, hskip, identifier?, hword, hafter, hstart, facts.not_reserved]
  simp

lemma misses_identifier (h : Next s t s') (ht : ∀ c ∈ t.head?, isWordStart c = false) :
    Misses identifier s := by
  cases t with
  | nil => exact absurd rfl h.ne_nil
  | cons c t =>
    rw [identifier, misses_lexeme, h.skip_eq, List.cons_append, identifier?, ht c rfl]
    simp

variable {α : Type} {bool : Bool → α} {real : Single → α} {int : Int32 → α} {text : List Char → α}
  {char : Nat → α}

lemma misses_literal (h : Next s t s') (htrue : lower (word t) ≠ "true".toList)
    (hfalse : lower (word t) ≠ "false".toList)
    (hhead : ∀ c ∈ t.head?, c.isDigit = false ∧ c ≠ '$' ∧ c ≠ '\'' ∧ c ≠ '#') :
    Misses (literal bool real int text char) s := by
  have hbool : bool? (Layout.skip s) = none := by
    simp only [bool?, named?, h.word_eq]
    simpa using ⟨hfalse, htrue⟩
  obtain ⟨c, cs, rfl⟩ := List.exists_cons_of_ne_nil h.ne_nil
  obtain ⟨hdigit, hmarks⟩ := hhead c rfl
  exact misses_literal_of_head h.skip_eq hbool hdigit hmarks

lemma finds_bool {b : Bool} (h : Next s (if b then "true" else "false").toList s') :
    Finds (literal bool real int text char) s (.ok (bool b)) s' := by
  rw [literal, finds_firstOf_cons, finds_bind]
  refine .inl ⟨b, s', ?_, finds_pure.mpr ⟨rfl, rfl⟩⟩
  rw [finds_lexeme, bool?, named?, h.word_eq, h.afterWord_eq]
  cases b <;> rfl

lemma finds_int {n : Nat} (h : Next s (Nat.toDigits 10 n) s') (hs : Blank s') (hn : n ≤ maxInt) :
    Finds (literal bool real int text char) s (.ok (int (Int32.ofNat n))) s' := by
  have hall : ∀ d ∈ Nat.toDigits 10 n, d.isDigit := fun d hd =>
    Nat.isDigit_of_mem_toDigits (by omega) (by omega) hd
  have hdigits := digits?_append Nat.toDigits_ne_nil hall hs
  have hvalue : Decimal.ofDigits (Nat.toDigits 10 n) = n :=
    Nat.ofDigitChars_toDigits (by omega) (by omega)
  obtain ⟨c, cs, hcs⟩ := List.exists_cons_of_ne_nil (Nat.toDigits_ne_nil (n := n) (b := 10))
  have hc : c.isDigit := hall c (by simp [hcs])
  have hlower := toLower_of_isDigit hc
  have hskip : Layout.skip s = c :: (cs ++ s') := by rw [h.skip_eq, hcs, List.cons_append]
  have hreal : real? (Layout.skip s) = none := by
    obtain ⟨b, s', rfl, hb⟩ := hs
    simp only [isSpace, Bool.or_eq_true, decide_eq_true_eq] at hb
    rcases hb with ((rfl | rfl) | rfl) | rfl <;> simp [h.skip_eq, real?, hdigits, exponent?]
  rw [literal]
  simp only [finds_firstOf_cons]
  refine .inr ⟨.bind ?_, .inr ⟨.bind (misses_lexeme.mpr hreal), .inl ?_⟩⟩
  · rw [misses_lexeme, hskip]
    refine bool?_eq_none _ ?_ ?_ <;> rw [hlower] <;> rintro rfl <;> cases hc
  · refine finds_bind.mpr ⟨.ok (Int32.ofNat n), s', ?_, finds_pure.mpr ⟨rfl, rfl⟩⟩
    rw [finds_lexeme, h.skip_eq, integer?]
    · simp [hdigits, numeral, hvalue, hn, Except.map]
    · intro u hu
      rw [hcs] at hu
      obtain ⟨rfl, -⟩ := List.cons_eq_cons.mp hu
      cases hc

lemma finds_text {cs : List Char} (h : Next s (quoted cs) s') (hs : Blank s') :
    Finds (literal bool real int text char) s (.ok (text cs)) s' := by
  have hskip : Layout.skip s = '\'' :: (cs.flatMap (fun c => if c = '\'' then ['\'', '\''] else [c]) ++
      '\'' :: s') := by simp [h.skip_eq, quoted]
  rw [literal]
  simp only [finds_firstOf_cons]
  refine .inr ⟨.bind ?_, .inr ⟨.bind ?_, .inr ⟨.bind ?_, .inl ?_⟩⟩⟩
  · rw [misses_lexeme, hskip, bool?_eq_none _ (by decide) (by decide)]
  · rw [misses_lexeme, hskip, real?_eq_none _ (by decide)]
  · rw [misses_lexeme, hskip, integer?_eq_none _ (by decide) (by decide)]
  · refine finds_bind.mpr ⟨cs, s', ?_, finds_pure.mpr ⟨rfl, rfl⟩⟩
    rw [finds_lexeme, h.skip_eq, text?_eq_some_iff]
    exact ⟨rfl, hs.head?_ne_quote⟩

lemma finds_code {n : Nat} (h : Next s ('#' :: Nat.toDigits 10 n) s') (hs : Blank s')
    (hn : n ≤ 0xFFFF) : Finds (literal bool real int text char) s (.ok (char n)) s' := by
  have hall : ∀ d ∈ Nat.toDigits 10 n, d.isDigit := fun d hd =>
    Nat.isDigit_of_mem_toDigits (by omega) (by omega) hd
  have hdigits := digits?_append Nat.toDigits_ne_nil hall hs
  have hvalue : Decimal.ofDigits (Nat.toDigits 10 n) = n :=
    Nat.ofDigitChars_toDigits (by omega) (by omega)
  have hskip : Layout.skip s = '#' :: (Nat.toDigits 10 n ++ s') := h.skip_eq
  have hcode : Lexeme.charCode (Nat.toDigits 10 n) = .ok n := by
    have hlimit : n ≤ maxCount := hn.trans (by decide)
    have hnumeral : numeral maxCount (Nat.toDigits 10 n) = .ok n := by simp [numeral, hvalue, hlimit]
    rw [Lexeme.charCode, hnumeral]
    exact if_pos hn
  rw [literal]
  simp only [finds_firstOf_cons]
  refine .inr ⟨.bind ?_, .inr ⟨.bind ?_, .inr ⟨.bind ?_, .inr ⟨.bind ?_, .inl ?_⟩⟩⟩⟩
  · rw [misses_lexeme, hskip, bool?_eq_none _ (by decide) (by decide)]
  · rw [misses_lexeme, hskip, real?_eq_none _ (by decide)]
  · rw [misses_lexeme, hskip, integer?_eq_none _ (by decide) (by decide)]
  · rw [misses_lexeme, hskip, text?_eq_none _ (by decide)]
  · refine finds_bind.mpr ⟨.ok n, s', ?_, finds_pure.mpr ⟨rfl, rfl⟩⟩
    exact finds_charCode.mpr ⟨_, _, hskip, hdigits, hcode⟩

end Next

end PascalJvm.Source
