import Mathlib.Tactic
import PascalJvm.Source.Program

/-!
# What parsers find

`Finds p s a r` says that `p` reads `a` at the start of `s` and leaves `r`, and `Misses p s` that
it finds nothing there; the marks of failed rules play no part in either. One equivalence per
combinator takes such facts apart and puts them together. A repetition of a parser that always
takes something is `Repeats`: item after item, up to the place where the parser misses.

Skipping layout twice is skipping it once, so a rule may be entered before or after the layout
in front of it.
-/
namespace PascalJvm.Source

namespace Layout

/-- An enclosed comment is entered from its opening. -/
private def Entered : Mode → List Char → Prop
  | .braces opening, s => skip opening = skipFrom (.braces opening) s
  | .stars opening, s => skip opening = skipFrom (.stars opening) s
  | _, _ => True

private lemma skip_skipFrom (m : Mode) (s : List Char) (h : Entered m s) :
    skip (skipFrom m s) = skipFrom m s := by
  fun_induction skipFrom m s with
  | case1 => rfl
  | case2 s ih => exact ih (by simp [Entered, skip, skipFrom])
  | case3 s ih => exact ih (by simp [Entered, skip, skipFrom])
  | case4 s ih => exact ih trivial
  | case5 s c hbrace hstar hslash hspace ih => exact ih trivial
  | case6 s c hbrace hstar hslash hspace => simp [skip, skipFrom, hspace]
  | case7 opening => simpa [Entered, skipFrom] using h
  | case8 opening s ih => exact ih trivial
  | case9 opening c s hc ih => exact ih (by simpa [Entered, skipFrom, hc] using h)
  | case10 opening => simpa [Entered, skipFrom] using h
  | case11 opening s ih => exact ih trivial
  | case12 opening c s hstar ih => exact ih (by simpa [Entered, skipFrom] using h)
  | case13 => rfl
  | case14 s ih => exact ih trivial
  | case15 c s hc ih => exact ih trivial

@[simp] lemma skip_skip (s : List Char) : skip (skip s) = skip s := skip_skipFrom .plain s trivial

/-- From inside an enclosed comment, skipping may go back to its opening. -/
private def reach : Mode → List Char → Nat
  | .braces opening, s => max opening.length s.length
  | .stars opening, s => max opening.length s.length
  | _, s => s.length

private lemma length_skipFrom_le (m : Mode) (s : List Char) :
    (skipFrom m s).length ≤ reach m s := by
  fun_induction skipFrom m s <;> simp only [reach, List.length_cons, List.length_nil] at * <;> omega

lemma length_skip_le (s : List Char) : (skip s).length ≤ s.length := length_skipFrom_le .plain s

end Layout

namespace Parser

variable {α β : Type} {p q : Parser α} {s t r : List Char} {a : α}

def Finds (p : Parser α) (s : List Char) (a : α) (r : List Char) : Prop :=
  (p s).result = some (a, r)

def Misses (p : Parser α) (s : List Char) : Prop := (p s).result = none

lemma finds_or_misses (p : Parser α) (s : List Char) : (∃ a r, Finds p s a r) ∨ Misses p s := by
  unfold Finds Misses
  cases (p s).result with
  | none => exact .inr rfl
  | some x => exact .inl ⟨x.1, x.2, rfl⟩

lemma Finds.not_misses (h : Finds p s a r) : ¬ Misses p s := by
  unfold Finds Misses at *
  simp [h]

lemma Finds.unique {b : α} (h : Finds p s a r) (h' : Finds p s b t) : a = b ∧ r = t := by
  unfold Finds at *
  simpa [h] using h'

@[simp] lemma finds_pure {b : α} : Finds (return a) s b r ↔ a = b ∧ s = r := by
  show some (a, s) = some (b, r) ↔ _
  simp

@[simp] lemma not_misses_pure : ¬ Misses (return a : Parser α) s := nofun

@[simp] lemma misses_fail : Misses (fail : Parser α) s := rfl

lemma result_bind (p : Parser α) (f : α → Parser β) (s : List Char) :
    ((p >>= f) s).result = (p s).result.bind fun x => (f x.1 x.2).result := by
  show (Parser.bind p f s).result = _
  unfold Parser.bind
  split <;> simp [*]

lemma finds_bind {f : α → Parser β} {b : β} :
    Finds (p >>= f) s b r ↔ ∃ a t, Finds p s a t ∧ Finds (f a) t b r := by
  simp [Finds, result_bind, Option.bind_eq_some_iff]

lemma misses_bind {f : α → Parser β} :
    Misses (p >>= f) s ↔ ∀ a t, Finds p s a t → Misses (f a) t := by
  simp [Finds, Misses, result_bind, Option.bind_eq_none_iff]

lemma Misses.bind {f : α → Parser β} (h : Misses p s) : Misses (p >>= f) s :=
  misses_bind.mpr fun _ _ ha => absurd h ha.not_misses

lemma result_orElse (p q : Parser α) (s : List Char) :
    (orElse p q s).result = (p s).result.or (q s).result := by
  unfold Parser.orElse
  split <;> simp [*]

lemma finds_orElse :
    Finds (orElse p q) s a r ↔ Finds p s a r ∨ Misses p s ∧ Finds q s a r := by
  simp [Finds, Misses, result_orElse, Option.or_eq_some_iff]

lemma misses_orElse : Misses (orElse p q) s ↔ Misses p s ∧ Misses q s := by
  simp [Misses, result_orElse]

@[simp] lemma finds_firstOf_cons {ps : List (Parser α)} :
    Finds (firstOf (p :: ps)) s a r ↔ Finds p s a r ∨ Misses p s ∧ Finds (firstOf ps) s a r :=
  finds_orElse

lemma misses_firstOf {ps : List (Parser α)} : Misses (firstOf ps) s ↔ ∀ p ∈ ps, Misses p s := by
  induction ps with
  | nil => simp [firstOf]
  | cons p ps ih => simp [firstOf, misses_orElse, ih]

/-- The first alternative that finds something decides. -/
lemma finds_firstOf_append {before : List (Parser α)} (hbefore : ∀ q ∈ before, Misses q s)
    (hp : Finds p s a r) (after : List (Parser α)) : Finds (firstOf (before ++ p :: after)) s a r := by
  induction before with
  | nil => exact finds_firstOf_cons.mpr (.inl hp)
  | cons q before ih =>
    refine finds_firstOf_cons.mpr (.inr ⟨hbefore q List.mem_cons_self, ?_⟩)
    exact ih fun x hx => hbefore x (List.mem_cons_of_mem _ hx)

lemma finds_optional {x : Option α} :
    Finds (optional p) s x r ↔
      (∃ a, x = some a ∧ Finds p s a r) ∨ Misses p s ∧ x = none ∧ s = r := by
  simp only [optional, finds_orElse, finds_bind, misses_bind, finds_pure]
  constructor
  · rintro (⟨a, t, ha, rfl, rfl⟩ | ⟨hmiss, rfl, rfl⟩)
    · exact .inl ⟨a, rfl, ha⟩
    · rcases finds_or_misses p s with ⟨a, t, ha⟩ | hp
      · exact absurd (hmiss a t ha) not_misses_pure
      · exact .inr ⟨hp, rfl, rfl⟩
  · rintro (⟨a, rfl, ha⟩ | ⟨hp, rfl, rfl⟩)
    · exact .inl ⟨a, r, ha, rfl, rfl⟩
    · exact .inr ⟨fun a t ha => absurd hp ha.not_misses, rfl, rfl⟩

lemma result_rule (p : Parser α) (s : List Char) :
    (rule p s).result = (p (Layout.skip s)).result := by
  unfold Parser.rule
  dsimp only
  split <;> simp [*]

@[simp] lemma finds_rule : Finds (rule p) s a r ↔ Finds p (Layout.skip s) a r := by
  simp [Finds, result_rule]

@[simp] lemma misses_rule : Misses (rule p) s ↔ Misses p (Layout.skip s) := by
  simp [Misses, result_rule]

@[simp] lemma finds_lexeme {scan : List Char → Option (α × List Char)} :
    Finds (lexeme scan) s a r ↔ scan (Layout.skip s) = some (a, r) := finds_rule

@[simp] lemma misses_lexeme {scan : List Char → Option (α × List Char)} :
    Misses (lexeme scan) s ↔ scan (Layout.skip s) = none := misses_rule

lemma finds_symbol {mark : String} {u : Unit} :
    Finds (symbol mark) s u r ↔ Layout.skip s = mark.toList ++ r := by
  simp [Finds, symbol, Text.after?_eq_some]

lemma misses_symbol {mark : String} :
    Misses (symbol mark) s ↔ ¬ mark.toList <+: Layout.skip s := by
  have hnone : Misses (symbol mark) s ↔ ∀ r, ¬ Text.after? mark.toList (Layout.skip s) = some r := by
    simp [Misses, symbol, Option.eq_none_iff_forall_ne_some]
  simp only [hnone, Text.after?_eq_some]
  simp [List.IsPrefix, eq_comm]

lemma not_misses_symbol {mark : String} (h : Layout.skip s = mark.toList ++ r) :
    ¬ Misses (symbol mark) s :=
  (Parser.finds_symbol (u := ()).mpr h).not_misses

/-- `p` always takes at least one character. -/
def Consumes (p : Parser α) : Prop := ∀ s a r, Finds p s a r → r.length < s.length

/-- `p` reads the items one after the other, and then finds no more. -/
inductive Repeats (p : Parser α) : List Char → List α → List Char → Prop
  | stop {s : List Char} : Misses p s → Repeats p s [] s
  | step {s t r : List Char} {a : α} {more : List α} :
      Finds p s a t → t.length < s.length → Repeats p t more r → Repeats p s (a :: more) r

lemma Repeats.length_le {xs : List α} (h : Repeats p s xs r) : r.length ≤ s.length := by
  induction h with
  | stop => exact le_rfl
  | step _ hlt _ ih => exact ih.trans hlt.le

lemma Repeats.finds_upTo {xs : List α} (h : Repeats p s xs r) {n : Nat} (hn : s.length < n) :
    Finds (upTo p n) s xs r := by
  induction h generalizing n with
  | stop hmiss =>
    obtain ⟨n, rfl⟩ := Nat.exists_eq_add_of_lt hn
    simp only [upTo, finds_orElse]
    exact .inr ⟨hmiss.bind, finds_pure.mpr ⟨rfl, rfl⟩⟩
  | step hfind hlt _ ih =>
    obtain ⟨n, rfl⟩ := Nat.exists_eq_succ_of_ne_zero (Nat.ne_zero_of_lt hn)
    simp only [upTo, finds_orElse, finds_bind]
    exact .inl ⟨_, _, hfind, _, _, ih (by omega), finds_pure.mpr ⟨rfl, rfl⟩⟩

lemma Repeats.finds_many {xs : List α} (h : Repeats p s xs r) : Finds (many p) s xs r :=
  h.finds_upTo (Nat.lt_succ_self _)

lemma not_misses_upTo (p : Parser α) (n : Nat) (s : List Char) : ¬ Misses (upTo p n) s := by
  cases n with
  | zero => exact not_misses_pure
  | succ n => exact fun h => not_misses_pure (misses_orElse.mp h).2

lemma Consumes.repeats_of_upTo (hp : Consumes p) {n : Nat} {xs : List α}
    (h : Finds (upTo p n) s xs r) (hn : s.length < n) : Repeats p s xs r := by
  induction n generalizing s xs with
  | zero => omega
  | succ n ih =>
    simp only [upTo, finds_orElse, finds_bind, finds_pure] at h
    rcases h with ⟨a, t, ha, more, u, hmore, rfl, rfl⟩ | ⟨hmiss, rfl, rfl⟩
    · have hlt := hp s a t ha
      exact .step ha hlt (ih hmore (by omega))
    · refine .stop ?_
      rcases finds_or_misses p s with ⟨a, t, ha⟩ | hs
      · have := (misses_bind.mp hmiss) a t ha
        rcases finds_or_misses (upTo p n) t with ⟨more, u, hmore⟩ | hmore
        · exact absurd ((misses_bind.mp this) more u hmore) not_misses_pure
        · exact absurd hmore (not_misses_upTo p n t)
      · exact hs

/-- A repetition of a parser that always takes something. -/
lemma Consumes.finds_many (hp : Consumes p) {xs : List α} :
    Finds (many p) s xs r ↔ Repeats p s xs r :=
  ⟨fun h => hp.repeats_of_upTo h (Nat.lt_succ_self _), Repeats.finds_many⟩

lemma finds_commaList {xs : List α} :
    Finds (commaList p) s xs r ↔ ∃ first t more, xs = first :: more ∧ Finds p s first t ∧
      Finds (many (do symbol ","; p)) t more r := by
  simp only [commaList, finds_bind, finds_pure]
  constructor
  · rintro ⟨first, t, hfirst, more, u, hmore, rfl, rfl⟩
    exact ⟨first, t, more, rfl, hfirst, hmore⟩
  · rintro ⟨first, t, more, rfl, hfirst, hmore⟩
    exact ⟨first, t, hfirst, more, r, hmore, rfl, rfl⟩

lemma finds_between {opening closing : String} :
    Finds (between opening closing p) s a r ↔ ∃ t u, Layout.skip s = opening.toList ++ t ∧
      Finds p t a u ∧ Layout.skip u = closing.toList ++ r := by
  simp only [between, finds_bind, finds_symbol, finds_pure]
  constructor
  · rintro ⟨-, t, hopen, b, u, hb, -, v, hclose, rfl, rfl⟩
    exact ⟨t, u, hopen, hb, hclose⟩
  · rintro ⟨t, u, hopen, ha, hclose⟩
    exact ⟨(), t, hopen, a, u, ha, (), r, hclose, rfl, rfl⟩

end Parser

namespace Lexeme

variable {c : Char} (u : List Char)

lemma digits?_eq_none (hc : c.isDigit = false) : digits? (c :: u) = none := by
  simp [digits?, run?, hc]

lemma real?_eq_none (hc : c.isDigit = false) : real? (c :: u) = none := by
  simp [real?, digits?_eq_none u hc]

lemma integer?_eq_none (hc : c.isDigit = false) (hdollar : c ≠ '$') : integer? (c :: u) = none := by
  simp [integer?, digits?_eq_none u hc, hdollar]

lemma text?_eq_none (hquote : c ≠ '\'') : text? (c :: u) = none := by simp [text?, hquote]

lemma bool?_eq_none (ht : c.toLower ≠ 't') (hf : c.toLower ≠ 'f') : bool? (c :: u) = none := by
  by_cases hc : isWordChar c <;> simp [bool?, named?, word, lower, hc, ht, hf]

lemma isDigit_of_isWordStart {c : Char} (h : isWordStart c) : c.isDigit = false := by
  change ((decide (c.val ≥ 'A'.val ∧ c.val ≤ 'Z'.val) || (c.val ≥ 'a'.val && c.val ≤ 'z'.val)) ||
    c = '_') = true at h
  simp only [Bool.or_eq_true, Bool.and_eq_true, decide_eq_true_eq, UInt32.le_iff_toNat_le,
    ge_iff_le] at h
  by_contra hdigit
  simp only [Bool.not_eq_false, Char.isDigit, Bool.and_eq_true, decide_eq_true_eq,
    UInt32.le_iff_toNat_le, ge_iff_le] at hdigit
  rcases h with (h | h) | rfl
  · exact absurd (h.1.trans hdigit.2) (by decide)
  · exact absurd (h.1.trans hdigit.2) (by decide)
  · exact absurd hdigit.2 (by decide)

end Lexeme

open Source.Parser in
lemma finds_charCode {s r : List Char} {x : Formed Nat} :
    Finds charCode s x r ↔ ∃ u ds, Layout.skip s = '#' :: u ∧
      Lexeme.digits? u = some (ds, r) ∧ Lexeme.charCode ds = x := by
  refine finds_rule.trans ?_
  unfold Finds
  dsimp only
  split
  next u hu => cases hds : Lexeme.digits? u <;> grind
  next hno => grind

open Source.Parser in
/-- Where no truth value stands, the first character tells that there is no literal. -/
lemma misses_literal_of_head {α : Type} {bool : Bool → α} {real : Single → α} {int : Int32 → α}
    {text : List Char → α} {char : Nat → α} {s u : List Char} {c : Char}
    (hskip : Layout.skip s = c :: u) (hbool : Lexeme.bool? (Layout.skip s) = none)
    (hdigit : c.isDigit = false) (hc : c ≠ '$' ∧ c ≠ '\'' ∧ c ≠ '#') :
    Misses (literal bool real int text char) s := by
  obtain ⟨hdollar, hquote, hhash⟩ := hc
  rw [literal, misses_firstOf]
  simp only [List.mem_cons, List.not_mem_nil, or_false, forall_eq_or_imp, forall_eq]
  refine ⟨.bind (misses_lexeme.mpr hbool), .bind ?_, .bind ?_, .bind ?_, .bind ?_⟩
  · rw [misses_lexeme, hskip, Lexeme.real?_eq_none _ hdigit]
  · rw [misses_lexeme, hskip, Lexeme.integer?_eq_none _ hdigit hdollar]
  · rw [misses_lexeme, hskip, Lexeme.text?_eq_none _ hquote]
  · rcases finds_or_misses charCode s with ⟨x, r, hx⟩ | hmiss
    · obtain ⟨v, ds, hv, -⟩ := finds_charCode.mp hx
      exact absurd (List.cons_eq_cons.mp (hskip.symm.trans hv)).1 hhash
    · exact hmiss

end PascalJvm.Source
