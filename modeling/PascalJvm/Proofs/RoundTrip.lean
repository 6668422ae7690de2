import Mathlib
import PascalJvm.Proofs.Tokens

/-!
# Reading what was written

A written expression is read back as the same tree, whatever layout stands between its tokens.
Each layer of the grammar reads the expressions of its level, provided that what follows them
belongs to no tighter layer. Nested expressions are read by the parser that the layers are
built over, and the number of tokens bounds how deep they nest.
-/
namespace PascalJvm.Source

open Layout Lexeme Source.Parser

/-- The tokens come next, each with a blank after it, and `r` is left. -/
inductive Spelled : List Token → List Char → List Char → Prop
  | nil {r : List Char} : Spelled [] r r
  | cons {t : Token} {ts : List Token} {s s' r : List Char} :
      Next s t s' → Blank s' → Spelled ts s' r → Spelled (t :: ts) s r

namespace Spelled

variable {s r : List Char} {t : Token} {ts us : List Token}

lemma cons_iff : Spelled (t :: ts) s r ↔ ∃ s', Next s t s' ∧ Blank s' ∧ Spelled ts s' r := by
  constructor
  · intro h
    cases h with
    | cons hnext hblank hts => exact ⟨_, hnext, hblank, hts⟩
  · rintro ⟨s', hnext, hblank, hts⟩
    exact .cons hnext hblank hts

lemma nil_iff : Spelled [] s r ↔ s = r :=
  ⟨fun h => by cases h; rfl, fun h => h ▸ .nil⟩

lemma append_iff : Spelled (ts ++ us) s r ↔ ∃ m, Spelled ts s m ∧ Spelled us m r := by
  induction ts generalizing s with
  | nil => simp [nil_iff]
  | cons t ts ih =>
    simp only [List.cons_append, cons_iff, ih]
    constructor
    · rintro ⟨s', hnext, hblank, m, hts, hus⟩
      exact ⟨m, ⟨s', hnext, hblank, hts⟩, hus⟩
    · rintro ⟨m, ⟨s', hnext, hblank, hts⟩, hus⟩
      exact ⟨s', hnext, hblank, m, hts, hus⟩

lemma length_le (h : Spelled ts s r) : ts.length + r.length ≤ s.length := by
  induction h with
  | nil => simp
  | cons hnext _ _ ih =>
    have := hnext.length_lt
    simp only [List.length_cons]
    omega

end Spelled

/-- The text of an expression with as few parentheses as the grammar allows. -/
abbrev Expr.spelling (e : Expr) : List Token := e.tokens BinOp.leftLevel

/-- An operand in a place for expressions that bind at least as tightly as `b`. -/
def Expr.operand (b : Nat) (e : Expr) : List Token := enclosed (e.level ≤ b) e.spelling

lemma Expr.level_le_four (e : Expr) : e.level ≤ 4 := by
  cases e with
  | binary op a b => exact op.level_le_four
  | _ => simp [Expr.level]

lemma Expr.operand_of_le {b : Nat} {e : Expr} (h : e.level ≤ b) : e.operand b = e.spelling := by
  simp [Expr.operand, enclosed, h]

lemma Expr.operand_of_lt {b : Nat} {e : Expr} (h : b < e.level) :
    e.operand b = "(".toList :: e.spelling ++ [")".toList] := by
  simp [Expr.operand, enclosed, h]

/-- Places of neighbouring levels differ for the expressions of the looser level only. -/
lemma Expr.operand_succ {b : Nat} {e : Expr} (h : e.level ≠ b + 1) :
    e.operand (b + 1) = e.operand b := by
  have : e.level ≤ b + 1 ↔ e.level ≤ b := by omega
  simp only [Expr.operand, this]

lemma Expr.spelling_unary (op : UnOp) (x : Expr) :
    (Expr.unary op x).spelling = op.token.toList :: x.operand 1 := rfl

lemma Expr.spelling_binary (op : BinOp) (a b : Expr) :
    (Expr.binary op a b).spelling =
      a.operand op.leftLevel ++ op.token.toList :: b.operand (op.level - 1) := by
  have hlevel : b.level < op.level ↔ b.level ≤ op.level - 1 := by
    have := op.two_le_level
    omega
  simp only [Expr.spelling, Expr.tokens, Expr.operand, hlevel]

def operators : List BinOp :=
  [.add, .sub, .mul, .div, .intDiv, .mod, .and, .or, .eq, .ne, .lt, .le, .gt, .ge]

lemma mem_operators (op : BinOp) : op ∈ operators := by cases op <;> decide

/-- The tokens that may stand after an expression of a level: those that close it, and the
operators that bind more loosely. -/
def followers (b : Nat) : List Token :=
  [")".toList, "]".toList, ",".toList, "end".toList] ++
    (operators.filter fun op => b < op.level).map fun op => op.token.toList

/-- What comes next may stand after an expression of level `b`. -/
def Follow (b : Nat) (r : List Char) : Prop := ∃ t r', Next r t r' ∧ t ∈ followers b

lemma followers_mono {b c : Nat} (h : b ≤ c) {t : Token} (ht : t ∈ followers c) :
    t ∈ followers b := by
  simp only [followers, List.mem_append, List.mem_map, List.mem_filter, decide_eq_true_eq] at ht ⊢
  rcases ht with ht | ⟨op, ⟨hop, hlevel⟩, rfl⟩
  · exact .inl ht
  · exact .inr ⟨op, ⟨hop, by omega⟩, rfl⟩

lemma Follow.mono {b c : Nat} (h : b ≤ c) {r : List Char} (hr : Follow c r) : Follow b r := by
  obtain ⟨t, r', hnext, ht⟩ := hr
  exact ⟨t, r', hnext, followers_mono h ht⟩

lemma follow_operator {b : Nat} {op : BinOp} {r r' : List Char} (h : Next r op.token.toList r')
    (hb : b < op.level) : Follow b r := by
  refine ⟨_, _, h, List.mem_append_right _ (List.mem_map.mpr ⟨op, ?_, rfl⟩)⟩
  exact List.mem_filter.mpr ⟨mem_operators op, by simpa using hb⟩

lemma follow_closing {b : Nat} {t : Token} {r r' : List Char} (h : Next r t r')
    (ht : t ∈ [")".toList, "]".toList, ",".toList, "end".toList]) : Follow b r :=
  ⟨t, r', h, List.mem_append_left _ ht⟩

/-- The operators of one layer, and where they are found. -/
structure Layer (k : Nat) (op : Parser BinOp) : Prop where
  finds : ∀ {o : BinOp} {s s' : List Char}, o.level = k → Next s o.token.toList s' → Finds op s o s'
  misses : ∀ {s : List Char}, Follow k s → Misses op s

/-- The spellings of a layer are told apart by the tokens alone. -/
lemma layer_of_spellings {k : Nat} {ops : List (Spelling × BinOp)} (hplain : ∀ x ∈ ops, x.1.plain)
    (hfinds : ∀ o ∈ operators, o.level = k → (ops.find? fun x => x.1.fits o.token.toList).any
      fun x => x.1.fills o.token.toList && x.2 = o)
    (hmisses : ∀ t ∈ followers k, ∀ x ∈ ops, x.1.fits t = false) : Layer k (operator ops) := by
  constructor
  · intro o s s' ho h
    have ho' := hfinds o (mem_operators o) ho
    cases hx : ops.find? fun x => x.1.fits o.token.toList with
    | none => simp [hx] at ho'
    | some x =>
      simp only [hx, Option.any_some, Bool.and_eq_true, decide_eq_true_eq] at ho'
      obtain ⟨hfills, rfl⟩ := ho'
      exact h.finds_operator hplain hx hfills
  · rintro s ⟨t, s', h, ht⟩
    exact h.misses_operator hplain (hmisses t ht)

lemma multiplication_layer : Layer 2 multiplicationOp := by
  rw [multiplicationOp_eq]
  exact layer_of_spellings (by decide) (by decide) (by decide)

lemma addition_layer : Layer 3 additionOp := by
  rw [additionOp_eq]
  exact layer_of_spellings (by decide) (by decide) (by decide)

lemma comparison_layer : Layer 4 comparisonOp := by
  rw [comparisonOp_eq]
  exact layer_of_spellings (by decide) (by decide) (by decide)

/-- `p` reads the expressions of up to `n` tokens in a place of level `b`. -/
def Reads (p : Parser (Formed Expr)) (b n : Nat) : Prop :=
  ∀ e : Expr, e.Printable → (e.operand b).length ≤ n →
    ∀ s r, Spelled (e.operand b) s r → Follow b r → Finds p s (.ok e) r

section

variable {p : Parser (Formed Expr)} {n : Nat}

/-- One more operand of a binary layer. -/
def another (op : Parser BinOp) (p : Parser (Formed Expr)) : Parser (BinOp × Formed Expr) := do
  let o ← op
  let x ← p
  return (o, x)

lemma finds_another {op : Parser BinOp} {k : Nat} (hop : Layer (k + 1) op) (hp : Reads p k n)
    {o : BinOp} (ho : o.level = k + 1) {b : Expr} (hb : b.Printable)
    (hn : (b.operand k).length ≤ n) {s r : List Char}
    (hs : Spelled (o.token.toList :: b.operand k) s r) (hr : Follow k r) :
    Finds (another op p) s (o, .ok b) r ∧ r.length < s.length := by
  have hlength := hs.length_le
  obtain ⟨s', hnext, -, hb'⟩ := Spelled.cons_iff.mp hs
  refine ⟨finds_bind.mpr ⟨o, s', hop.finds ho hnext, ?_⟩, ?_⟩
  · exact finds_bind.mpr ⟨.ok b, r, hp b hb hn s' r hb' hr, finds_pure.mpr ⟨rfl, rfl⟩⟩
  · simp only [List.length_cons] at hlength
    omega

/-- An expression is its first operand, joined with the operands of its layer that follow. The
induction goes down the left operands; `more` are the operands to the right of `e`. -/
lemma binary_spine {op : Parser BinOp} {k : Nat} (hk : k + 1 = 2 ∨ k + 1 = 3)
    (hop : Layer (k + 1) op) (hp : Reads p k n) (e : Expr) (he : e.Printable)
    (hn : (e.operand (k + 1)).length ≤ n) {s r : List Char}
    (hs : Spelled (e.operand (k + 1)) s r) (hr : Follow k r) {more : List (BinOp × Formed Expr)}
    {r' : List Char} (hmore : Repeats (another op p) r more r') :
    ∃ first m rest, Finds p s first m ∧ Repeats (another op p) m rest r' ∧
      joinLeft .binary first rest = joinLeft .binary (.ok e) more := by
  by_cases hlevel : e.level = k + 1
  · obtain ⟨o, a, b, rfl⟩ : ∃ o a b, e = .binary o a b := by
      cases e with
      | binary o a b => exact ⟨o, a, b, rfl⟩
      | _ => simp [Expr.level] at hlevel <;> omega
    have ho : o.level = k + 1 := hlevel
    have hleft : o.leftLevel = k + 1 := by
      rw [BinOp.leftLevel_eq]
      omega
    rw [Expr.operand_of_le hlevel.le, Expr.spelling_binary, hleft, ho, Nat.add_sub_cancel] at hs hn
    obtain ⟨m, ha, hob⟩ := Spelled.append_iff.mp hs
    obtain ⟨m', hnext, -, -⟩ := Spelled.cons_iff.mp hob
    simp only [List.length_append, List.length_cons] at hn
    obtain ⟨hfinds, hlt⟩ := finds_another hop hp ho he.2 (by omega) hob hr
    exact binary_spine hk hop hp a he.1 (by omega) ha (follow_operator hnext (by omega))
      (.step hfinds hlt hmore)
  · rw [Expr.operand_succ hlevel] at hs hn
    exact ⟨.ok e, r, more, hp e he hn s r hs hr, hmore, rfl⟩

lemma binaryLayer_reads {op : Parser BinOp} {k : Nat} (hk : k + 1 = 2 ∨ k + 1 = 3)
    (hop : Layer (k + 1) op) (hp : Reads p k n) : Reads (binaryLayer .binary op p) (k + 1) n := by
  intro e he hn s r hs hr
  have hstop : Repeats (another op p) r [] r := .stop (hop.misses hr).bind
  obtain ⟨first, m, rest, hfirst, hrest, hjoin⟩ :=
    binary_spine hk hop hp e he hn hs (hr.mono (Nat.le_succ k)) hstop
  refine finds_bind.mpr ⟨first, m, hfirst, finds_bind.mpr ⟨rest, r, hrest.finds_many, ?_⟩⟩
  exact finds_pure.mpr ⟨hjoin, rfl⟩

lemma comparisonLayer_reads (hp : Reads p 3 n) : Reads (comparisonLayer p) 4 n := by
  intro e he hn s r hs hr
  by_cases hlevel : e.level = 4
  · obtain ⟨o, a, b, rfl⟩ : ∃ o a b, e = .binary o a b := by
      cases e with
      | binary o a b => exact ⟨o, a, b, rfl⟩
      | _ => simp [Expr.level] at hlevel
    have ho : o.level = 4 := hlevel
    have hleft : o.leftLevel = 3 := by
      rw [BinOp.leftLevel_eq]
      omega
    rw [Expr.operand_of_le hlevel.le, Expr.spelling_binary, hleft, ho, Nat.add_sub_cancel 3 1] at hs hn
    obtain ⟨m, ha, hob⟩ := Spelled.append_iff.mp hs
    obtain ⟨m', hnext, -, -⟩ := Spelled.cons_iff.mp hob
    simp only [List.length_append, List.length_cons] at hn
    have hfirst := hp a he.1 (by omega) s m ha (follow_operator hnext (by omega))
    have hsecond := (finds_another comparison_layer hp ho he.2 (by omega) hob (hr.mono (by omega))).1
    refine finds_bind.mpr ⟨.ok a, m, hfirst, finds_bind.mpr ⟨some (o, .ok b), r, ?_, ?_⟩⟩
    · exact finds_optional.mpr (.inl ⟨_, rfl, hsecond⟩)
    · exact finds_pure.mpr ⟨rfl, rfl⟩
  · rw [Expr.operand_succ hlevel] at hs hn
    have hfirst := hp e he hn s r hs (hr.mono (by omega))
    refine finds_bind.mpr ⟨.ok e, r, hfirst, finds_bind.mpr ⟨none, r, ?_, ?_⟩⟩
    · exact finds_optional.mpr (.inr ⟨(comparison_layer.misses hr).bind, rfl, rfl⟩)
    · exact finds_pure.mpr ⟨rfl, rfl⟩

lemma finds_unaryOp {op : UnOp} {s s' : List Char} (h : Next s op.token.toList s') :
    Finds unaryOp s (some op) s' := by
  have hplain : ∀ x ∈ unarySpellings, x.1.plain := by decide
  rw [unaryOp_eq]
  cases op with
  | neg => exact h.finds_operator hplain (show _ = some (Spelling.mark "-", _) from rfl) rfl
  | not => exact h.finds_operator hplain (show _ = some (Spelling.word "not", _) from rfl) rfl

/-- No unary operator begins with the token. -/
def Unsigned (t : Token) : Prop := ∀ x ∈ unarySpellings, x.1.fits t = false

lemma unsigned_cons {c : Char} {t : Token} (hminus : c ≠ '-') (hplus : c ≠ '+')
    (hnot : lower (word (c :: t)) ≠ "not".toList) : Unsigned (c :: t) := by
  simp only [Unsigned, unarySpellings, List.mem_cons, List.not_mem_nil, or_false, forall_eq_or_imp,
    forall_eq, Spelling.fits]
  refine ⟨?_, ?_, by simpa using hnot⟩
  · simpa [List.isPrefixOf] using hminus.symm
  · simpa [List.isPrefixOf] using hplus.symm

lemma unsigned_mark {c : Char} {t : Token} (hword : isWordChar c = false) (hminus : c ≠ '-')
    (hplus : c ≠ '+') : Unsigned (c :: t) :=
  unsigned_cons hminus hplus (by simp [word, lower, hword])

lemma NameFacts.unsigned {n : Token} (h : NameFacts n) : Unsigned n := by
  obtain ⟨c, cs, rfl, hstart⟩ := h.starts
  have hnot : lower (c :: cs) ≠ "not".toList := by
    intro hnot
    have hreserved := h.not_reserved
    simp only [isReserved, List.any_eq_false, decide_eq_true_eq] at hreserved
    exact hreserved "not" (by decide) hnot
  refine unsigned_cons ?_ ?_ (by rwa [h.word_eq]) <;> rintro rfl <;> cases hstart

lemma digits_unsigned (n : Nat) : Unsigned (Nat.toDigits 10 n) := by
  obtain ⟨c, cs, hcs⟩ := List.exists_cons_of_ne_nil (Nat.toDigits_ne_nil (n := n) (b := 10))
  have hc : c.isDigit := Nat.isDigit_of_mem_toDigits (n := n) (b := 10) (by omega) (by omega)
    (by simp [hcs])
  have hchar : isWordChar c := by simp [isWordChar, Char.isAlphanum, hc]
  have hne : ∀ d, d.isDigit = false → c ≠ d := by
    rintro d hd rfl
    simp [hc] at hd
  rw [hcs]
  refine unsigned_cons (hne _ rfl) (hne _ rfl) ?_
  simp [word, lower, hchar, toLower_of_isDigit hc, hne 'n' rfl]

/-- The tokens of a variable begin with its name. -/
lemma access_head (e : Expr) (ha : e.isAccess) (he : e.Printable) :
    ∃ n ts, e.spelling = n :: ts ∧ NameFacts n := by
  match e with
  | .name n => exact ⟨n.toList, [], rfl, nameFacts he⟩
  | .field record f =>
    obtain ⟨n, ts, hts : record.tokens _ = _, hn⟩ := access_head record ha he.2.1
    exact ⟨n, _, by rw [Expr.spelling, Expr.tokens, hts]; rfl, hn⟩
  | .index array position =>
    obtain ⟨n, ts, hts : array.tokens _ = _, hn⟩ := access_head array ha he.2.1
    exact ⟨n, _, by rw [Expr.spelling, Expr.tokens, hts]; rfl, hn⟩

lemma operand_zero_head (e : Expr) (he : e.Printable) :
    ∃ t ts, e.operand 0 = t :: ts ∧ Unsigned t := by
  by_cases hlevel : e.level ≤ 0
  · rw [Expr.operand_of_le hlevel]
    cases e with
    | int v => exact ⟨_, [], rfl, digits_unsigned _⟩
    | real v => exact he.elim
    | bool b => exact ⟨_, [], rfl, by cases b <;> exact unsigned_cons (by decide) (by decide) (by decide)⟩
    | char c => exact ⟨_, [], rfl, unsigned_mark rfl (by decide) (by decide)⟩
    | text t => exact ⟨_, [], rfl, unsigned_mark rfl (by decide) (by decide)⟩
    | name n => exact ⟨_, [], rfl, (nameFacts he).unsigned⟩
    | call f args => exact ⟨_, _, rfl, (nameFacts he.1).unsigned⟩
    | field record f =>
      obtain ⟨n, ts, hts, hn⟩ := access_head (.field record f) he.1 he
      exact ⟨n, ts, hts, hn.unsigned⟩
    | index array position =>
      obtain ⟨n, ts, hts, hn⟩ := access_head (.index array position) he.1 he
      exact ⟨n, ts, hts, hn.unsigned⟩
    | unary op x => simp [Expr.level] at hlevel
    | binary op a b =>
      have := op.two_le_level
      simp only [Expr.level] at hlevel
      omega
  · rw [Expr.operand_of_lt (by omega)]
    exact ⟨_, _, rfl, unsigned_mark rfl (by decide) (by decide)⟩

/-- An expression is an operand with its unary operators in front of it. -/
lemma unary_spine (hp : Reads p 0 n) (e : Expr) (he : e.Printable)
    (hn : (e.operand 1).length ≤ n) {s r : List Char} (hs : Spelled (e.operand 1) s r)
    (hr : Follow 0 r) :
    ∃ ops m x, Repeats unaryOp s ops m ∧ Finds p m (.ok x) r ∧ applyUnary .unary ops x = e := by
  by_cases hlevel : e.level = 1
  · obtain ⟨op, x, rfl⟩ : ∃ op x, e = .unary op x := by
      cases e with
      | unary op x => exact ⟨op, x, rfl⟩
      | binary op a b =>
        have := op.two_le_level
        simp only [Expr.level] at hlevel
        omega
      | _ => simp [Expr.level] at hlevel
    rw [Expr.operand_of_le hlevel.le, Expr.spelling_unary] at hs hn
    obtain ⟨s', hnext, -, hx⟩ := Spelled.cons_iff.mp hs
    simp only [List.length_cons] at hn
    obtain ⟨ops, m, y, hops, hy, hxy⟩ := unary_spine hp x he (by omega) hx hr
    refine ⟨some op :: ops, m, y, .step (finds_unaryOp hnext) hnext.length_lt hops, hy, ?_⟩
    rw [applyUnary, hxy]
  · rw [Expr.operand_succ hlevel] at hs hn
    refine ⟨[], s, e, .stop ?_, hp e he hn s r hs hr, rfl⟩
    obtain ⟨t, ts, hts, ht⟩ := operand_zero_head e he
    rw [hts] at hs
    obtain ⟨s', hnext, -, -⟩ := Spelled.cons_iff.mp hs
    rw [unaryOp_eq]
    exact hnext.misses_operator (by decide) ht

lemma unaryLayer_reads (hp : Reads p 0 n) : Reads (unaryLayer .unary p) 1 n := by
  intro e he hn s r hs hr
  obtain ⟨ops, m, x, hops, hx, hxe⟩ := unary_spine hp e he hn hs (hr.mono (by omega))
  refine finds_bind.mpr ⟨ops, m, hops.finds_many, finds_bind.mpr ⟨.ok x, r, hx, ?_⟩⟩
  exact finds_pure.mpr ⟨congrArg Except.ok hxe, rfl⟩

end

/-- The parser of nested expressions. -/
structure Nested (sub : Parser (Formed Expr)) (n : Nat) : Prop where
  reads : Reads sub 4 n
  misses : ∀ {s s' : List Char}, Next s ")".toList s' → Misses sub s

lemma Formed.all_map_ok {α : Type} (xs : List α) : Formed.all (xs.map Except.ok) = .ok xs := by
  induction xs with
  | nil => rfl
  | cons x xs ih =>
    rw [List.map_cons, Formed.all, ih]
    rfl

section

variable {sub : Parser (Formed Expr)} {n : Nat} {s r : List Char}

lemma Nested.finds (h : Nested sub n) {e : Expr} (he : e.Printable) (hn : e.spelling.length ≤ n)
    (hs : Spelled e.spelling s r) (hr : Follow 4 r) : Finds sub s (.ok e) r := by
  rw [← Expr.operand_of_le e.level_le_four] at hn hs
  exact h.reads e he hn s r hs hr

lemma Next.misses_comma {t : Token} (h : Next s t r) (ht : t = ")".toList ∨ t = "]".toList) :
    Misses (do symbol ","; sub) s := by
  refine Misses.bind (h.misses_symbol ?_ (by simp))
  rcases ht with rfl | rfl <;> decide

/-- Arguments from the second one on, up to the closing parenthesis. -/
lemma moreArgs_repeats (h : Nested sub n) {args : List Expr} (hargs : ArgsPrintable args)
    (hn : (moreTokens BinOp.leftLevel args).length ≤ n) {m : List Char}
    (hs : Spelled (moreTokens BinOp.leftLevel args) s m) (hm : Next m ")".toList r) :
    Repeats (do symbol ","; sub) s (args.map Except.ok) m ∧ Follow 4 s := by
  induction args generalizing s with
  | nil =>
    obtain rfl := Spelled.nil_iff.mp hs
    exact ⟨.stop (hm.misses_comma (.inl rfl)), follow_closing hm (by decide)⟩
  | cons a rest ih =>
    simp only [moreTokens, List.length_append, List.length_cons] at hn hs
    have hlength := hs.length_le
    rw [List.cons_append] at hs
    obtain ⟨s₁, hcomma, -, hs₁⟩ := Spelled.cons_iff.mp hs
    obtain ⟨s₂, ha, hrest⟩ := Spelled.append_iff.mp hs₁
    obtain ⟨hmore, hfollow⟩ := ih hargs.2 (by omega) hrest
    have hfirst := h.finds hargs.1 (by simp only [Expr.spelling]; omega) ha hfollow
    refine ⟨.step ?_ ?_ hmore, follow_closing hcomma (by decide)⟩
    · exact finds_bind.mpr ⟨(), s₁, hcomma.finds_symbol, hfirst⟩
    · have := ha.length_le
      have := hcomma.length_lt
      omega

lemma args_finds (h : Nested sub n) {args : List Expr} (hargs : ArgsPrintable args)
    (hn : (argTokens BinOp.leftLevel args).length ≤ n) {m : List Char}
    (hs : Spelled (argTokens BinOp.leftLevel args) s m) (hm : Next m ")".toList r) :
    ∃ x, Finds (optional (commaList sub)) s x m ∧ x.getD [] = args.map Except.ok := by
  cases args with
  | nil =>
    obtain rfl := Spelled.nil_iff.mp hs
    exact ⟨none, finds_optional.mpr (.inr ⟨(h.misses hm).bind, rfl, rfl⟩), rfl⟩
  | cons a rest =>
    simp only [argTokens, List.length_append] at hn hs
    obtain ⟨s₁, ha, hrest⟩ := Spelled.append_iff.mp hs
    obtain ⟨hmore, hfollow⟩ := moreArgs_repeats h hargs.2 (by omega) hrest hm
    have hfirst := h.finds hargs.1 (by simp only [Expr.spelling]; omega) ha hfollow
    refine ⟨some ((a :: rest).map Except.ok), finds_optional.mpr (.inl ⟨_, rfl, ?_⟩), rfl⟩
    exact finds_commaList.mpr ⟨_, s₁, _, rfl, hfirst, hmore.finds_many⟩

lemma callOver_finds (h : Nested sub n) {f : String} {args : List Expr}
    (he : (Expr.call f args).Printable) (hn : (Expr.call f args).spelling.length ≤ n + 1)
    (hs : Spelled (Expr.call f args).spelling s r) : Finds (callOver sub) s (.ok (.call f args)) r := by
  simp only [Expr.spelling, Expr.tokens, List.length_append, List.length_cons, List.length_nil] at hn
  simp only [Expr.spelling, Expr.tokens, List.cons_append] at hs
  obtain ⟨s₁, hf, -, hs₁⟩ := Spelled.cons_iff.mp hs
  obtain ⟨s₂, hopen, -, hs₂⟩ := Spelled.cons_iff.mp hs₁
  obtain ⟨s₃, hargs, hs₃⟩ := Spelled.append_iff.mp hs₂
  obtain ⟨s₄, hclose, -, hs₄⟩ := Spelled.cons_iff.mp hs₃
  obtain rfl := Spelled.nil_iff.mp hs₄
  obtain ⟨x, hx, hxs⟩ := args_finds h he.2 (by omega) hargs hclose
  rw [callOver, finds_rule]
  refine finds_bind.mpr ⟨f, s₁, hf.skip.finds_identifier he.1, finds_bind.mpr ⟨x, s₄, ?_, ?_⟩⟩
  · exact finds_between.mpr ⟨s₂, s₃, hopen.skip_eq, hx, hclose.skip_eq⟩
  · rw [hxs, Formed.all_map_ok]
    exact finds_pure.mpr ⟨rfl, rfl⟩

/-- One selector after a variable. -/
def selector (sub : Parser (Formed Expr)) : Parser (Formed Selector) :=
  orElse fieldSelector (indexSelector sub)

lemma fieldSelector_finds {f : String} (hf : isName f) (hs : Spelled [".".toList, f.toList] s r) :
    Finds (selector sub) s (.ok (.field f)) r := by
  obtain ⟨s₁, hpoint, -, hs₁⟩ := Spelled.cons_iff.mp hs
  obtain ⟨s₂, hname, -, hs₂⟩ := Spelled.cons_iff.mp hs₁
  obtain rfl := Spelled.nil_iff.mp hs₂
  refine finds_orElse.mpr (.inl ?_)
  rw [fieldSelector, finds_rule]
  refine finds_bind.mpr ⟨(), s₁, hpoint.skip.finds_symbol, ?_⟩
  exact finds_bind.mpr ⟨f, s₂, hname.finds_identifier hf, finds_pure.mpr ⟨rfl, rfl⟩⟩

lemma Next.misses_fieldSelector {t : Token} (h : Next s t r) (ht : ¬ ".".toList <+: t) :
    Misses fieldSelector s :=
  misses_rule.mpr (Misses.bind (h.skip.misses_symbol ht (by simp)))

lemma indexSelector_finds (h : Nested sub n) {e : Expr} (he : e.Printable)
    (hn : e.spelling.length ≤ n) (hs : Spelled ("[".toList :: e.spelling ++ ["]".toList]) s r) :
    Finds (selector sub) s (.ok (.index [e])) r := by
  rw [List.cons_append] at hs
  obtain ⟨s₁, hopen, -, hs₁⟩ := Spelled.cons_iff.mp hs
  obtain ⟨s₂, hpos, hs₂⟩ := Spelled.append_iff.mp hs₁
  obtain ⟨s₃, hclose, -, hs₃⟩ := Spelled.cons_iff.mp hs₂
  obtain rfl := Spelled.nil_iff.mp hs₃
  have hpos' := h.finds he hn hpos (follow_closing hclose (by decide))
  have hstop : Repeats (do symbol ","; sub) s₂ [] s₂ := .stop (hclose.misses_comma (.inr rfl))
  refine finds_orElse.mpr (.inr ⟨hopen.misses_fieldSelector (by decide), ?_⟩)
  rw [indexSelector, finds_rule]
  refine finds_bind.mpr ⟨[.ok e], s₃, finds_between.mpr ⟨s₁, s₂, ?_, ?_, hclose.skip_eq⟩, ?_⟩
  · exact hopen.skip.skip_eq
  · exact finds_commaList.mpr ⟨_, s₂, _, rfl, hpos', hstop.finds_many⟩
  · exact finds_pure.mpr ⟨rfl, rfl⟩

/-- A variable is its name with selectors after it. The induction goes down the chain;
`more` are the selectors to the right of `e`. -/
lemma access_spine (h : Nested sub n) (e : Expr) (ha : e.isAccess) (he : e.Printable)
    (hn : e.spelling.length ≤ n + 1) {s r : List Char} (hs : Spelled e.spelling s r)
    (hcall : Misses (symbol "(") r) {more : List Selector} {r' : List Char}
    (hmore : Repeats (selector sub) r (more.map Except.ok) r') :
    ∃ (base : String) (m : List Char) (selectors : List Selector),
      isName base ∧ Next s base.toList m ∧ Misses (symbol "(") m ∧
      Repeats (selector sub) m (selectors.map Except.ok) r' ∧
      selectors.foldl Selector.apply (.name base) = more.foldl Selector.apply e := by
  match e with
  | .name base =>
    obtain ⟨s₁, hname, -, hs₁⟩ := Spelled.cons_iff.mp hs
    obtain rfl := Spelled.nil_iff.mp hs₁
    exact ⟨base, s₁, more, he, hname, hcall, hmore, rfl⟩
  | .field record f =>
    simp only [Expr.spelling, Expr.tokens, List.length_append] at hn hs
    obtain ⟨m, hrecord, hfield⟩ := Spelled.append_iff.mp hs
    obtain ⟨m', hpoint, -, -⟩ := Spelled.cons_iff.mp hfield
    have hlength := hfield.length_le
    simp only [List.length_cons, List.length_nil] at hlength
    have hmore' : Repeats (selector sub) m ((Selector.field f :: more).map Except.ok) r' :=
      .step (fieldSelector_finds he.2.2 hfield) (by omega) hmore
    exact access_spine h record ha he.2.1 (by simp only [Expr.spelling]; omega) hrecord
      (hpoint.misses_symbol (by decide) (by simp)) hmore'
  | .index array position =>
    simp only [Expr.spelling, Expr.tokens, List.length_append, List.length_cons] at hn
    simp only [Expr.spelling, Expr.tokens, List.append_assoc, List.cons_append] at hs
    obtain ⟨m, harray, hindex⟩ := Spelled.append_iff.mp hs
    obtain ⟨m', hopen, -, -⟩ := Spelled.cons_iff.mp hindex
    have hlength := hindex.length_le
    simp only [List.length_cons] at hlength
    have hfinds := indexSelector_finds h he.2.2 (by simp only [Expr.spelling]; omega) hindex
    have hmore' : Repeats (selector sub) m ((Selector.index [position] :: more).map Except.ok) r' :=
      .step hfinds (by omega) hmore
    exact access_spine h array ha he.2.1 (by simp only [Expr.spelling]; omega) harray
      (hopen.misses_symbol (by decide) (by simp)) hmore'

lemma Spelled.skip {t : Token} {ts : List Token} (h : Spelled (t :: ts) s r) :
    Spelled (t :: ts) (Layout.skip s) r := by
  obtain ⟨s', hnext, hblank, hts⟩ := Spelled.cons_iff.mp h
  exact .cons hnext.skip hblank hts

lemma Next.misses_parentheses {t : Token} (h : Next s t r) (ht : ∀ c ∈ t.head?, c ≠ '(')
    {α : Type} {q : Parser α} : Misses (between "(" ")" q) s := by
  refine Misses.bind (h.misses_symbol ?_ (by simp))
  obtain ⟨c, cs, rfl⟩ := List.exists_cons_of_ne_nil h.ne_nil
  simpa using (ht c rfl).symm

/-- The literals of expressions. -/
abbrev exprLiteral : Parser (Formed Expr) :=
  literal .bool .real .int (fun t => .text (String.ofList t)) .char

lemma primary_literal {t : Token} {e : Expr} (h : Next s t r) (ht : ∀ c ∈ t.head?, c ≠ '(')
    (he : Finds exprLiteral (Layout.skip s) (.ok e) r) : Finds (primary sub) s (.ok e) r := by
  rw [primary, finds_rule]
  simp only [finds_firstOf_cons]
  exact .inr ⟨h.skip.misses_parentheses ht, .inl he⟩

lemma int_of_nonneg {v : Int32} (hv : 0 ≤ v) :
    v.toInt.toNat ≤ maxInt ∧ Int32.ofNat v.toInt.toNat = v := by
  have hnonneg : 0 ≤ v.toInt := Int32.le_iff_toInt_le.mp hv
  have hlt := v.toInt_lt
  refine ⟨by unfold maxInt; omega, ?_⟩
  rw [← Int32.toInt_inj, Int32.toInt_ofNat_of_lt (by omega)]
  omega

lemma NameFacts.head {n : Token} (h : NameFacts n) :
    ∀ c ∈ n.head?, c ≠ '(' ∧ c.isDigit = false ∧ c ≠ '$' ∧ c ≠ '\'' ∧ c ≠ '#' := by
  obtain ⟨c, cs, rfl, hstart⟩ := h.starts
  intro d hd
  obtain rfl : c = d := by simpa using hd
  refine ⟨?_, isDigit_of_isWordStart hstart, ?_, ?_, ?_⟩ <;> rintro rfl <;> cases hstart

lemma Next.misses_literal_of_name {n : Token} (h : Next s n r) (hn : NameFacts n) :
    Misses exprLiteral s := by
  refine h.misses_literal ?_ ?_ fun c hc => (hn.head c hc).2
  · rw [hn.word_eq]
    exact hn.not_true
  · rw [hn.word_eq]
    exact hn.not_false

lemma primary_call (h : Nested sub n) {f : String} {args : List Expr}
    (he : (Expr.call f args).Printable) (hn : (Expr.call f args).spelling.length ≤ n + 1)
    (hs : Spelled (Expr.call f args).spelling s r) : Finds (primary sub) s (.ok (.call f args)) r := by
  have facts := nameFacts he.1
  have hcall := callOver_finds h he hn hs.skip
  obtain ⟨s', hnext, -, -⟩ := Spelled.cons_iff.mp hs
  rw [primary, finds_rule]
  simp only [finds_firstOf_cons]
  refine .inr ⟨hnext.skip.misses_parentheses fun c hc => (facts.head c hc).1, .inr ⟨?_, .inl hcall⟩⟩
  exact hnext.skip.misses_literal_of_name facts

lemma primary_access (h : Nested sub n) {e : Expr} (ha : e.isAccess) (he : e.Printable)
    (hn : e.spelling.length ≤ n + 1) (hs : Spelled e.spelling s r) (hr : Follow 0 r) :
    Finds (primary sub) s (.ok e) r := by
  obtain ⟨t, r', hr', ht⟩ := hr
  have hstop : ∀ t ∈ followers 0, ¬ "(".toList <+: t ∧ ¬ ".".toList <+: t ∧ ¬ "[".toList <+: t := by
    decide
  obtain ⟨hopen, hpoint, hbracket⟩ := hstop t ht
  have hselector : Misses (selector sub) r :=
    misses_orElse.mpr ⟨hr'.misses_fieldSelector hpoint,
      misses_rule.mpr (Misses.bind (Misses.bind (hr'.skip.misses_symbol hbracket (by simp))))⟩
  have hmore : Repeats (selector sub) r (([] : List Selector).map Except.ok) r := .stop hselector
  obtain ⟨base, m, selectors, hname, hnext, hcall, hselectors, hfold⟩ :=
    access_spine h e ha he hn hs (hr'.misses_symbol hopen (by simp)) hmore
  have facts := nameFacts hname
  rw [primary, finds_rule]
  simp only [finds_firstOf_cons]
  refine .inr ⟨hnext.skip.misses_parentheses fun c hc => (facts.head c hc).1,
    .inr ⟨hnext.skip.misses_literal_of_name facts, .inr ⟨?_, .inl ?_⟩⟩⟩
  · refine misses_rule.mpr (misses_bind.mpr fun f m' hf => ?_)
    obtain ⟨rfl, rfl⟩ := hf.unique (hnext.skip.skip.finds_identifier hname)
    exact Misses.bind (Misses.bind hcall)
  · refine finds_bind.mpr ⟨.ok ⟨base, selectors⟩, r, finds_rule.mpr ?_, ?_⟩
    · refine finds_bind.mpr ⟨base, m, hnext.skip.skip.finds_identifier hname, ?_⟩
      refine finds_bind.mpr ⟨selectors.map Except.ok, r, hselectors.finds_many, ?_⟩
      rw [Formed.all_map_ok]
      exact finds_pure.mpr ⟨rfl, rfl⟩
    · exact finds_pure.mpr ⟨congrArg Except.ok hfold, rfl⟩

lemma primary_reads (h : Nested sub n) : Reads (primary sub) 0 (n + 1) := by
  intro e he hn s r hs hr
  by_cases hlevel : e.level ≤ 0
  · rw [Expr.operand_of_le hlevel] at hs hn
    cases e with
    | int v =>
      obtain ⟨s', hnext, hblank, hs'⟩ := Spelled.cons_iff.mp hs
      obtain rfl := Spelled.nil_iff.mp hs'
      have hv := int_of_nonneg he
      have hfind : Finds exprLiteral (Layout.skip s) (.ok (.int (Int32.ofNat v.toInt.toNat))) s' :=
        hnext.skip.finds_int hblank hv.1
      rw [hv.2] at hfind
      refine primary_literal hnext ?_ hfind
      intro c hc hopen
      have hdigit := Nat.isDigit_of_mem_toDigits (by omega) (by omega) (List.mem_of_mem_head? hc)
      simp [hopen] at hdigit
    | real v => exact he.elim
    | bool b =>
      obtain ⟨s', hnext, hblank, hs'⟩ := Spelled.cons_iff.mp hs
      obtain rfl := Spelled.nil_iff.mp hs'
      exact primary_literal hnext (by cases b <;> simp) hnext.skip.finds_bool
    | char c =>
      obtain ⟨s', hnext, hblank, hs'⟩ := Spelled.cons_iff.mp hs
      obtain rfl := Spelled.nil_iff.mp hs'
      exact primary_literal hnext (by simp) (hnext.skip.finds_code hblank he)
    | text t =>
      obtain ⟨s', hnext, hblank, hs'⟩ := Spelled.cons_iff.mp hs
      obtain rfl := Spelled.nil_iff.mp hs'
      have hfind : Finds exprLiteral (Layout.skip s) (.ok (.text (String.ofList t.toList))) s' :=
        hnext.skip.finds_text hblank
      rw [String.ofList_toList] at hfind
      exact primary_literal hnext (by simp [quoted]) hfind
    | name n => exact primary_access h rfl he hn hs hr
    | call f args => exact primary_call h he hn hs
    | field record f => exact primary_access h he.1 he hn hs hr
    | index array position => exact primary_access h he.1 he hn hs hr
    | unary op x => simp [Expr.level] at hlevel
    | binary op a b =>
      have := op.two_le_level
      simp only [Expr.level] at hlevel
      omega
  · rw [Expr.operand_of_lt (by omega)] at hs hn
    rw [List.cons_append] at hs
    simp only [List.length_append, List.length_cons, List.length_nil] at hn
    obtain ⟨s₁, hopen, -, hs₁⟩ := Spelled.cons_iff.mp hs
    obtain ⟨s₂, he', hs₂⟩ := Spelled.append_iff.mp hs₁
    obtain ⟨s₃, hclose, -, hs₃⟩ := Spelled.cons_iff.mp hs₂
    obtain rfl := Spelled.nil_iff.mp hs₃
    have hinside := h.finds he (by omega) he' (follow_closing hclose (by decide))
    rw [primary, finds_rule]
    simp only [finds_firstOf_cons]
    exact .inl (finds_between.mpr ⟨s₁, s₂, hopen.skip.skip_eq, hinside, hclose.skip_eq⟩)

/-- No expression begins with a closing parenthesis. -/
lemma expressionOver_misses (h : Next s ")".toList r) : Misses (expressionOver sub) s := by
  have hunary : Finds (many unaryOp) s [] s := by
    rw [unaryOp_eq]
    exact (Repeats.stop (h.misses_operator (by decide) (by decide))).finds_many
  have hidentifier : Misses identifier (Layout.skip (Layout.skip s)) :=
    h.skip.skip.misses_identifier (by simp [isWordStart])
  have hprimary : Misses (primary sub) s := by
    rw [primary, misses_rule, misses_firstOf]
    simp only [List.mem_cons, List.not_mem_nil, or_false, forall_eq_or_imp, forall_eq]
    refine ⟨h.skip.misses_parentheses (by simp), ?_, ?_, ?_⟩
    · exact h.skip.misses_literal (by decide) (by decide) (by simp)
    · exact misses_rule.mpr hidentifier.bind
    · exact Misses.bind (misses_rule.mpr hidentifier.bind)
  refine Misses.bind (Misses.bind (Misses.bind (misses_bind.mpr fun ops m hops => ?_)))
  obtain ⟨rfl, rfl⟩ := hops.unique hunary
  exact hprimary.bind

end

lemma Expr.spelling_ne_nil {e : Expr} (he : e.Printable) : e.spelling ≠ [] := by
  cases e with
  | unary op x => simp [Expr.spelling_unary]
  | binary op a b => simp [Expr.spelling_binary]
  | _ =>
    obtain ⟨t, ts, hts, -⟩ := operand_zero_head _ he
    rw [Expr.operand_of_le (Nat.le_refl 0)] at hts
    simp [hts]

lemma expressionWithin_nested (n : Nat) : Nested (expressionWithin n) n := by
  induction n with
  | zero =>
    refine ⟨fun e he hn => ?_, fun _ => misses_fail⟩
    rw [Expr.operand_of_le e.level_le_four] at hn
    exact absurd (List.length_eq_zero_iff.mp (Nat.le_zero.mp hn)) (Expr.spelling_ne_nil he)
  | succ n ih =>
    refine ⟨?_, expressionOver_misses⟩
    have hunary := unaryLayer_reads (primary_reads ih)
    have hproduct := binaryLayer_reads (.inl rfl) multiplication_layer hunary
    have hsum := binaryLayer_reads (.inr rfl) addition_layer hproduct
    exact comparisonLayer_reads hsum

lemma expression_finds {e : Expr} (he : e.Printable) {s r : List Char}
    (hs : Spelled e.spelling s r) (hr : Follow 4 r) : Finds expression s (.ok e) r := by
  have hlength := hs.length_le
  have hwithin := (expressionWithin_nested (s.length + 1)).finds he (by omega) hs hr
  unfold Finds expression
  exact hwithin

lemma solid_mark {c : Char} (hspace : isSpace c = false) (hbrace : c ≠ '\x7b') : Solid [c] :=
  ⟨hspace, hbrace, fun _ => rfl⟩

lemma solid_word {c : Char} {t : Token} (h : isWordChar c) : Solid (c :: t) := by
  have hspace : isSpace c = false := by
    by_contra hspace
    simp [isWordChar_of_isSpace (Bool.not_eq_false _ ▸ hspace)] at h
  refine ⟨hspace, ?_, ?_⟩
  · rintro rfl
    cases h
  · rintro (rfl | rfl) <;> cases h

lemma NameFacts.solid {n : Token} (h : NameFacts n) : Solid n := by
  obtain ⟨c, cs, rfl, hstart⟩ := h.starts
  exact solid_word (isWordChar_of_isWordStart hstart)

lemma digits_solid (n : Nat) : Solid (Nat.toDigits 10 n) := by
  obtain ⟨c, cs, hcs⟩ := List.exists_cons_of_ne_nil (Nat.toDigits_ne_nil (n := n) (b := 10))
  have hc : c.isDigit := Nat.isDigit_of_mem_toDigits (n := n) (b := 10) (by omega) (by omega)
    (by simp [hcs])
  rw [hcs]
  exact solid_word (by simp [isWordChar, Char.isAlphanum, hc])

lemma BinOp.token_solid (op : BinOp) : Solid op.token.toList := by
  cases op <;> exact ⟨by decide, by decide, by decide⟩

lemma UnOp.token_solid (op : UnOp) : Solid op.token.toList := by
  cases op <;> exact ⟨by decide, by decide, by decide⟩

lemma enclosed_solid (bare : Bool) {ts : List Token} (h : ∀ t ∈ ts, Solid t) :
    ∀ t ∈ enclosed bare ts, Solid t := by
  have hopen : Solid "(".toList := solid_mark rfl (by decide)
  have hclose : Solid ")".toList := solid_mark rfl (by decide)
  intro t ht
  unfold enclosed at ht
  split at ht
  · exact h t ht
  · simp only [List.cons_append, List.mem_cons, List.mem_append, List.not_mem_nil, or_false] at ht
    rcases ht with rfl | ht | rfl
    · exact hopen
    · exact h t ht
    · exact hclose

mutual

lemma tokens_solid (e : Expr) (he : e.Printable) : ∀ t ∈ e.spelling, Solid t := by
  have hpoint : Solid ".".toList := solid_mark rfl (by decide)
  have hopen : Solid "(".toList := solid_mark rfl (by decide)
  have hclose : Solid ")".toList := solid_mark rfl (by decide)
  have hleft : Solid "[".toList := solid_mark rfl (by decide)
  have hright : Solid "]".toList := solid_mark rfl (by decide)
  match e with
  | .int v => simpa [Expr.tokens] using digits_solid _
  | .real v => exact he.elim
  | .bool b => cases b <;> simp [Expr.tokens] <;> exact solid_word rfl
  | .char c => simpa [Expr.tokens] using ⟨rfl, by decide, by simp⟩
  | .text t => simpa [Expr.tokens] using ⟨rfl, by decide, by simp⟩
  | .name n => simpa [Expr.tokens] using (nameFacts he).solid
  | .call f args =>
    have hargs := argTokens_solid args he.2
    have hf := (nameFacts he.1).solid
    simp only [Expr.spelling, Expr.tokens, List.cons_append, List.mem_cons, List.mem_append]
    grind
  | .field record f =>
    have hrecord := tokens_solid record he.2.1
    have hf := (nameFacts he.2.2).solid
    simp only [Expr.spelling, Expr.tokens, List.mem_cons, List.mem_append]
    grind
  | .index array position =>
    have harray := tokens_solid array he.2.1
    have hposition := tokens_solid position he.2.2
    simp only [Expr.spelling, Expr.tokens, List.mem_cons, List.mem_append]
    grind
  | .unary op x =>
    have hx := enclosed_solid (x.level ≤ 1) (tokens_solid x he)
    have hop := UnOp.token_solid op
    simp only [Expr.spelling, Expr.tokens, List.mem_cons]
    grind
  | .binary op a b =>
    have ha := enclosed_solid (a.level ≤ op.leftLevel) (tokens_solid a he.1)
    have hb := enclosed_solid (b.level < op.level) (tokens_solid b he.2)
    have hop := BinOp.token_solid op
    simp only [Expr.spelling, Expr.tokens, List.mem_append, List.mem_cons]
    grind

lemma argTokens_solid (args : List Expr) (hargs : ArgsPrintable args) :
    ∀ t ∈ argTokens BinOp.leftLevel args, Solid t := by
  match args with
  | [] => simp [argTokens]
  | a :: rest =>
    have ha := tokens_solid a hargs.1
    have hrest := moreTokens_solid rest hargs.2
    simp only [argTokens, List.mem_append]
    grind

lemma moreTokens_solid (args : List Expr) (hargs : ArgsPrintable args) :
    ∀ t ∈ moreTokens BinOp.leftLevel args, Solid t := by
  have hcomma : Solid ",".toList := solid_mark rfl (by decide)
  match args with
  | [] => simp [moreTokens]
  | a :: rest =>
    have ha := tokens_solid a hargs.1
    have hrest := moreTokens_solid rest hargs.2
    simp only [moreTokens, List.cons_append, List.mem_cons, List.mem_append]
    grind

end

lemma Written.spelled {ts : List Token} {text : List Char} (h : Written ts text)
    (hsolid : ∀ t ∈ ts, Solid t) {gap r : List Char} (hgap : Gap gap) (hr : Blank r) :
    Spelled ts (gap ++ text ++ r) r := by
  induction h generalizing gap with
  | last t =>
    have ht := hsolid t List.mem_cons_self
    refine .cons ⟨?_, ?_, hr.apart⟩ hr .nil
    · rintro rfl
      exact ht.elim
    · rw [List.append_assoc, hgap.skip_append, ht.skip_append hr]
  | @more t gap' s ts hgap' _ ih =>
    have ht := hsolid t List.mem_cons_self
    have hblank : Blank (gap' ++ s ++ r) := by
      rw [List.append_assoc]
      exact hgap'.blank _
    have hts := ih (fun u hu => hsolid u (List.mem_cons_of_mem _ hu)) hgap'
    refine .cons ⟨?_, ?_, hblank.apart⟩ hblank hts
    · rintro rfl
      exact ht.elim
    · simp only [List.append_assoc, hgap.skip_append]
      rw [← List.append_assoc gap', ht.skip_append hblank]

section

variable {tail : List Char}

/-- Up to the assigned expression, every word of the text has its blank. -/
lemma next_begin : Next (" begin x :=".toList ++ tail) "begin".toList (" x :=".toList ++ tail) :=
  ⟨by decide, rfl, fun c hc => .inl (by cases hc; rfl)⟩

lemma next_target : Next (" x :=".toList ++ tail) "x".toList (" :=".toList ++ tail) :=
  ⟨by decide, rfl, fun c hc => .inl (by cases hc; rfl)⟩

lemma next_assign (h : Blank tail) : Next (" :=".toList ++ tail) ":=".toList tail :=
  ⟨by decide, rfl, h.apart⟩

lemma next_end : Next " end.".toList "end".toList ".".toList :=
  ⟨by decide, rfl, fun c hc => .inr (by cases hc; rfl)⟩

lemma assignment_finds {e : Expr} (hblank : Blank tail)
    (he : Finds expression tail (.ok e) " end.".toList) :
    Finds assignment (" x :=".toList ++ tail) (.ok (.assign ⟨"x", []⟩ e)) " end.".toList := by
  have hassign := next_assign hblank
  have hselector : Misses (orElse fieldSelector (indexSelector expression)) (" :=".toList ++ tail) :=
    misses_orElse.mpr ⟨hassign.misses_fieldSelector (by decide),
      misses_rule.mpr (Misses.bind (Misses.bind (hassign.skip.misses_symbol (by decide) (by simp))))⟩
  have haccess : Finds access (Layout.skip (" x :=".toList ++ tail)) (.ok ⟨"x", []⟩)
      (" :=".toList ++ tail) := by
    refine finds_rule.mpr (finds_bind.mpr ⟨"x", " :=".toList ++ tail, ?_, ?_⟩)
    · exact next_target.skip.skip.finds_identifier rfl
    · exact finds_bind.mpr ⟨[], _, (Repeats.stop hselector).finds_many, finds_pure.mpr ⟨rfl, rfl⟩⟩
  refine finds_rule.mpr (finds_bind.mpr ⟨_, _, haccess, finds_bind.mpr ⟨(), tail, ?_, ?_⟩⟩)
  · exact hassign.finds_symbol
  · exact finds_bind.mpr ⟨_, _, he, finds_pure.mpr ⟨rfl, rfl⟩⟩

lemma statement_finds {e : Expr} (hblank : Blank tail)
    (he : Finds expression tail (.ok e) " end.".toList) :
    Finds statement (" x :=".toList ++ tail) (.ok (.assign ⟨"x", []⟩ e)) " end.".toList := by
  have hkeyword : ∀ k : String, lower (word "x".toList) ≠ k.toList →
      Misses (keyword k) (Layout.skip (" x :=".toList ++ tail)) := fun k hk =>
    next_target.skip.misses_keyword hk
  have hwithin : ∀ n, Finds (statementWithin (n + 1)) (" x :=".toList ++ tail)
      (.ok (.assign ⟨"x", []⟩ e)) " end.".toList := by
    intro n
    let sub := statementWithin n
    let before := [compoundOver sub, ifOver sub, caseOver sub, whileOver sub, repeatOver sub,
      forOver sub, writelnStatement, writeStatement, readlnStatement, readStatement]
    have hbefore : ∀ q ∈ before, Misses q (" x :=".toList ++ tail) := by
      simp only [before, List.mem_cons, List.not_mem_nil, or_false, forall_eq_or_imp, forall_eq]
      refine ⟨?_, ?_, ?_, ?_, ?_, ?_, ?_, ?_, ?_, ?_⟩ <;>
        exact misses_rule.mpr (Misses.bind (hkeyword _ (by decide)))
    have hfirst := finds_firstOf_append hbefore (assignment_finds hblank he) [callStatement]
    rw [statementWithin, statementOver]
    exact hfirst
  unfold Finds statement
  exact hwithin _

lemma compound_finds {e : Expr} (hblank : Blank tail)
    (he : Finds expression tail (.ok e) " end.".toList) :
    Finds (compoundOver statement) (" begin x :=".toList ++ tail)
      (.ok (.compound [.assign ⟨"x", []⟩ e])) ".".toList := by
  have hmore : Finds (many (do symbol ";"; optional statement)) " end.".toList [] " end.".toList := by
    have hstop : Misses (do symbol ";"; optional statement) " end.".toList :=
      Misses.bind (next_end.misses_symbol (by decide) (by simp))
    exact (Repeats.stop hstop).finds_many
  have hlist : Finds (statementList statement) (" x :=".toList ++ tail)
      (.ok [.assign ⟨"x", []⟩ e]) " end.".toList := by
    refine finds_bind.mpr ⟨some (.ok (.assign ⟨"x", []⟩ e)), " end.".toList, ?_, ?_⟩
    · exact finds_optional.mpr (.inl ⟨_, rfl, statement_finds hblank he⟩)
    · exact finds_bind.mpr ⟨[], _, hmore, finds_pure.mpr ⟨rfl, rfl⟩⟩
  refine finds_rule.mpr (finds_bind.mpr ⟨(), _, next_begin.skip.finds_keyword rfl rfl, ?_⟩)
  refine finds_bind.mpr ⟨_, _, hlist, finds_bind.mpr ⟨(), ".".toList, ?_, finds_pure.mpr ⟨rfl, rfl⟩⟩⟩
  exact next_end.finds_keyword rfl rfl

lemma block_finds {e : Expr} (hblank : Blank tail)
    (he : Finds expression tail (.ok e) " end.".toList) :
    Finds block (" begin x :=".toList ++ tail)
      (.ok ⟨[], [], [], [], .compound [.assign ⟨"x", []⟩ e]⟩) ".".toList := by
  have hkeyword : ∀ k : String, lower (word "begin".toList) ≠ k.toList →
      Misses (keyword k) (Layout.skip (" begin x :=".toList ++ tail)) := fun k hk =>
    next_begin.skip.misses_keyword hk
  have hwithin : ∀ n, Finds (blockWithin (n + 1)) (" begin x :=".toList ++ tail)
      (.ok ⟨[], [], [], [], .compound [.assign ⟨"x", []⟩ e]⟩) ".".toList := by
    intro n
    let sub := blockWithin n
    have hsection : Misses (firstOf [constSection, typeSection, varSection, procedureOver sub,
        functionOver sub]) (" begin x :=".toList ++ tail) := by
      rw [misses_firstOf]
      simp only [List.mem_cons, List.not_mem_nil, or_false, forall_eq_or_imp, forall_eq]
      refine ⟨?_, ?_, ?_, ?_, ?_⟩ <;> exact misses_rule.mpr (Misses.bind (hkeyword _ (by decide)))
    refine finds_bind.mpr ⟨[], _, (Repeats.stop hsection).finds_many, ?_⟩
    exact finds_bind.mpr ⟨_, _, compound_finds hblank he, finds_pure.mpr ⟨rfl, rfl⟩⟩
  unfold Finds block
  exact hwithin _

lemma program_finds {e : Expr} (hblank : Blank tail)
    (he : Finds expression tail (.ok e) " end.".toList) :
    Finds program ("program p; begin x :=".toList ++ tail)
      (.ok ⟨"p", ⟨[], [], [], [], .compound [.assign ⟨"x", []⟩ e]⟩⟩) [] := by
  have hkeyword : Finds (keyword "program") ("program p; begin x :=".toList ++ tail) ()
      (" p; begin x :=".toList ++ tail) := rfl
  have hname : Finds identifier (" p; begin x :=".toList ++ tail) "p"
      ("; begin x :=".toList ++ tail) := rfl
  have hfiles : Misses (between "(" ")" (commaList identifier)) ("; begin x :=".toList ++ tail) :=
    Misses.bind rfl
  have hsemicolon : Finds (symbol ";") ("; begin x :=".toList ++ tail) ()
      (" begin x :=".toList ++ tail) := rfl
  refine finds_bind.mpr ⟨_, _, hkeyword, finds_bind.mpr ⟨_, _, hname, ?_⟩⟩
  refine finds_bind.mpr ⟨none, _, finds_optional.mpr (.inr ⟨hfiles, rfl, rfl⟩), ?_⟩
  refine finds_bind.mpr ⟨_, _, hsemicolon, finds_bind.mpr ⟨_, _, block_finds hblank he, ?_⟩⟩
  exact finds_bind.mpr ⟨(), [], rfl, finds_bind.mpr ⟨(), [], rfl, finds_pure.mpr ⟨rfl, rfl⟩⟩⟩

end

/-- An expression that is written with any layout between its tokens, and with parentheses only
where levels, association to the left and comparisons without association require them, is read
back as the same tree. -/
theorem Program.parse_written (e : Expr) (text : List Char) (he : e.Printable)
    (htext : Written (e.tokens BinOp.leftLevel) text) :
    Program.parse ("program p; begin x := ".toList ++ text ++ " end.".toList) =
      .ok ⟨"p", ⟨[], [], [], [], .compound [.assign ⟨"x", []⟩ e]⟩⟩ := by
  have hend : Blank " end.".toList := ⟨' ', "end.".toList, rfl, rfl⟩
  have hspelled := htext.spelled (tokens_solid e he) (show Gap [' '] from ⟨rfl, .nil⟩) hend
  have hblank : Blank ([' '] ++ text ++ " end.".toList) := ⟨' ', text ++ " end.".toList, rfl, rfl⟩
  have hexpr := expression_finds he hspelled (follow_closing next_end (by decide))
  have hprogram := program_finds hblank hexpr
  have hjoin : "program p; begin x := ".toList ++ text ++ " end.".toList =
      "program p; begin x :=".toList ++ ([' '] ++ text ++ " end.".toList) := by simp
  rw [hjoin]
  unfold Program.parse
  unfold Finds at hprogram
  split
  next p rest missed hp =>
    rw [hp] at hprogram
    cases hprogram
    rfl
  next missed hp =>
    rw [hp] at hprogram
    cases hprogram

/-- `(a - b) * -c[1].f <= g('it''s', #65)` -/
def mixedExpr : Expr :=
  .binary .le
    (.binary .mul (.binary .sub (.name "a") (.name "b"))
      (.unary .neg (.field (.index (.name "c") (.int 1)) "f")))
    (.call "g" [.text "it's", .char 65])

def mixedText : List Char :=
  "( a \x7bdifference\x7d - b ) * - c [ 1 ] (* a field *) . f // compared\n <= g ( 'it''s' , #65 )".toList

theorem parse_written_mixed :
    mixedExpr.Printable ∧ Written (mixedExpr.tokens BinOp.leftLevel) mixedText ∧
      Program.parse ("program p; begin x := ".toList ++ mixedText ++ " end.".toList) =
        .ok ⟨"p", ⟨[], [], [], [], .compound [.assign ⟨"x", []⟩ mixedExpr]⟩⟩ := by
  have hprintable : mixedExpr.Printable := by
    simp only [mixedExpr, Expr.Printable, ArgsPrintable]
    decide
  have hgap : Gap " ".toList := ⟨rfl, .nil⟩
  have hbraces : Gap " \x7bdifference\x7d ".toList :=
    ⟨rfl, .braces (by decide : '\x7d' ∉ "difference".toList) (.blank rfl .nil)⟩
  have hstars : Gap " (* a field *) ".toList :=
    ⟨rfl, .stars (by decide : ¬ ['*', ')'] <:+: " a field ".toList) (.blank rfl .nil)⟩
  have hslashes : Gap " // compared\n ".toList :=
    ⟨rfl, .slashes (by decide : '\n' ∉ " compared".toList) (.blank rfl .nil)⟩
  have hwritten : Written (mixedExpr.tokens BinOp.leftLevel) mixedText :=
    .more _ hgap (.more _ hbraces (.more _ hgap (.more _ hgap (.more _ hgap (.more _ hgap
      (.more _ hgap (.more _ hgap (.more _ hgap (.more _ hgap (.more _ hstars (.more _ hgap
        (.more _ hslashes (.more _ hgap (.more _ hgap (.more _ hgap (.more _ hgap (.more _ hgap
          (.more _ hgap (.last _)))))))))))))))))))
  exact ⟨hprintable, hwritten, Program.parse_written mixedExpr mixedText hprintable hwritten⟩

/-- Comparisons do not associate: without parentheses around the first of two, the text is no
program. -/
theorem parse_chained_comparison :
    ¬ ∀ (e : Expr) (text : List Char), e.Printable → Written (e.tokens BinOp.level) text →
      Program.parse ("program p; begin x := ".toList ++ text ++ " end.".toList) =
        .ok ⟨"p", ⟨[], [], [], [], .compound [.assign ⟨"x", []⟩ e]⟩⟩ := by
  intro h
  have hgap : Gap " ".toList := ⟨rfl, .nil⟩
  have hparse := h (.binary .lt (.binary .lt (.name "a") (.name "b")) (.name "c")) "a < b < c".toList
    (by simp only [Expr.Printable]; decide)
    (.more _ hgap (.more _ hgap (.more _ hgap (.more _ hgap (.last _)))))
  have hfails : (Program.parse ("program p; begin x := ".toList ++ "a < b < c".toList ++
      " end.".toList)).isOk = false := by decide +kernel
  rw [hparse] at hfails
  cases hfails

end PascalJvm.Source
