import PascalJvm.Proofs.CaseBranches
import PascalJvm.Proofs.Outcome
import PascalJvm.Proofs.Reading
import PascalJvm.Proofs.TextLiterals

/-!
# One text, two expressions

The text of a constant expression can also be read as an ordinary expression. When both readings
leave the same rest, the trees correspond: `Twin` says how. Reading the ordinary expression may
go on where the constant expression ends, with a selector, a call without arguments or a
comparison. `Matches` carries both possibilities through the layers of the grammar: the two
readings end at the same place, or the ordinary one ends later, and then nothing follows that a
surrounding constant expression could go on with.
-/
namespace PascalJvm.Source

open Source.Parser

mutual

/-- The two trees are readings of one text. -/
def Twin : ConstExpr → Expr → Prop
  | .int i, e => e = .int i
  | .real x, e => e = .real x
  | .bool b, e => e = .bool b
  | .char c, e =>
      (e = .char c ∧ c ≤ 0xFFFF) ∨ ∃ letter : Char, c = letter.toNat ∧ e = .text (String.ofList [letter])
  | .text t, e => e = .text t ∧ t.toList.length ≠ 1
  | .name n, e => e = .name n
  | .call f args, e => ∃ args', e = .call f args' ∧ Twins args args'
  | .unary op x, e => ∃ x', e = .unary op x' ∧ Twin x x'
  | .binary op a b, e =>
      op.isRelational = false ∧ ∃ a' b', e = .binary op a' b' ∧ Twin a a' ∧ Twin b b'

def Twins : List ConstExpr → List Expr → Prop
  | [], es => es = []
  | c :: cs, es => ∃ e rest, es = e :: rest ∧ Twin c e ∧ Twins cs rest

end

namespace Parser

variable {α β : Type} {p q : Parser α}

/-- `p` leaves no more text than there was. -/
def Shrinks (p : Parser α) : Prop := ∀ s a r, Finds p s a r → r.length ≤ s.length

lemma Consumes.shrinks (h : Consumes p) : Shrinks p := fun s a r hs => (h s a r hs).le

lemma shrinks_pure (a : α) : Shrinks (return a) := by
  intro s b r h
  obtain ⟨-, rfl⟩ := finds_pure.mp h
  exact le_rfl

lemma shrinks_fail : Shrinks (fail : Parser α) := nofun

lemma Shrinks.bind {f : α → Parser β} (hp : Shrinks p) (hf : ∀ a, Shrinks (f a)) :
    Shrinks (p >>= f) := by
  intro s b r h
  obtain ⟨a, t, ha, hb⟩ := finds_bind.mp h
  exact (hf a t b r hb).trans (hp s a t ha)

lemma Shrinks.orElse (hp : Shrinks p) (hq : Shrinks q) : Shrinks (orElse p q) := by
  intro s a r h
  rcases finds_orElse.mp h with h | ⟨-, h⟩
  · exact hp s a r h
  · exact hq s a r h

lemma shrinks_firstOf {ps : List (Parser α)} (h : ∀ p ∈ ps, Shrinks p) : Shrinks (firstOf ps) := by
  induction ps with
  | nil => exact shrinks_fail
  | cons p ps ih =>
    exact (h p List.mem_cons_self).orElse (ih fun q hq => h q (List.mem_cons_of_mem _ hq))

lemma Shrinks.optional (hp : Shrinks p) : Shrinks (optional p) :=
  (hp.bind fun _ => shrinks_pure _).orElse (shrinks_pure _)

lemma Shrinks.upTo (hp : Shrinks p) (n : Nat) : Shrinks (upTo p n) := by
  induction n with
  | zero => exact shrinks_pure _
  | succ n ih => exact (hp.bind fun _ => ih.bind fun _ => shrinks_pure _).orElse (shrinks_pure _)

lemma Shrinks.many (hp : Shrinks p) : Shrinks (many p) :=
  fun s xs r h => hp.upTo (s.length + 1) s xs r h

lemma Shrinks.rule (hp : Shrinks p) : Shrinks (rule p) := by
  intro s a r h
  exact (hp _ a r (finds_rule.mp h)).trans (Layout.length_skip_le s)

lemma shrinks_lexeme {scan : List Char → Option (α × List Char)}
    (h : ∀ s a r, scan s = some (a, r) → r.length ≤ s.length) : Shrinks (lexeme scan) :=
  Shrinks.rule h

lemma consumes_symbol {mark : String} (hmark : mark.toList ≠ []) : Consumes (symbol mark) := by
  intro s u r h
  have hskip := Layout.length_skip_le s
  have hpos := List.length_pos_of_ne_nil hmark
  rw [finds_symbol.mp h, List.length_append] at hskip
  omega

lemma Consumes.bind {f : α → Parser β} (hp : Consumes p) (hf : ∀ a, Shrinks (f a)) :
    Consumes (p >>= f) := by
  intro s b r h
  obtain ⟨a, t, ha, hb⟩ := finds_bind.mp h
  exact (hf a t b r hb).trans_lt (hp s a t ha)

lemma Consumes.rule (hp : Consumes p) : Consumes (rule p) := by
  intro s a r h
  exact (hp _ a r (finds_rule.mp h)).trans_le (Layout.length_skip_le s)

lemma consumes_firstOf {ps : List (Parser α)} (h : ∀ p ∈ ps, Consumes p) :
    Consumes (firstOf ps) := by
  induction ps with
  | nil => exact nofun
  | cons p ps ih =>
    intro s a r hs
    rcases finds_firstOf_cons.mp hs with hs | ⟨-, hs⟩
    · exact h p List.mem_cons_self s a r hs
    · exact ih (fun q hq => h q (List.mem_cons_of_mem _ hq)) s a r hs

lemma consumes_keyword {k : String} (hk : k.toList ≠ []) : Consumes (keyword k) := by
  refine Consumes.rule fun s u r h => ?_
  change Lexeme.keyword? k s = some (u, r) at h
  unfold Lexeme.keyword? at h
  split at h
  next hword =>
    cases h
    have hlength := congrArg List.length (s.takeWhile_append_dropWhile (p := Lexeme.isWordChar))
    have hpos : 0 < (Lexeme.lower (Lexeme.word s)).length := by
      rw [hword]
      exact List.length_pos_of_ne_nil hk
    simp only [Lexeme.lower, Lexeme.word, List.length_map, List.length_append] at hpos hlength
    simp only [Lexeme.afterWord]
    omega
  next => cases h

lemma consumes_marked {mark : String} (hmark : mark.toList ≠ []) (a : α) :
    Consumes (marked mark a) :=
  (consumes_symbol hmark).bind fun _ => shrinks_pure _

lemma consumes_worded {k : String} (hk : k.toList ≠ []) (a : α) : Consumes (worded k a) :=
  (consumes_keyword hk).bind fun _ => shrinks_pure _

lemma shrinks_identifier : Shrinks identifier := by
  refine shrinks_lexeme fun s n r h => ?_
  unfold Lexeme.identifier? at h
  split at h
  next => cases h
  next c cs =>
    split at h
    next =>
      cases h
      exact (List.dropWhile_suffix _).length_le
    next => cases h

lemma Shrinks.commaList (hp : Shrinks p) : Shrinks (commaList p) := by
  refine hp.bind fun _ => Shrinks.bind (Shrinks.many ?_) fun _ => shrinks_pure _
  exact (consumes_symbol (by decide)).shrinks.bind fun _ => hp

/-- What stands between two marks is shorter than what begins with the first. -/
lemma Shrinks.between {opening closing : String} (hopening : opening.toList ≠ [])
    (hclosing : closing.toList ≠ []) (hp : Shrinks p) : Consumes (between opening closing p) := by
  intro s a r h
  obtain ⟨_, t, hopen, h⟩ := finds_bind.mp h
  obtain ⟨b, u, hb, h⟩ := finds_bind.mp h
  obtain ⟨_, v, hclose, h⟩ := finds_bind.mp h
  obtain ⟨-, rfl⟩ := finds_pure.mp h
  have hlt := consumes_symbol hopening _ _ _ hopen
  have hle := hp _ _ _ hb
  have hlt' := consumes_symbol hclosing _ _ _ hclose
  omega

end Parser

namespace Lexeme

variable {s r : List Char}

lemma length_of_run? {q : Char → Bool} {ds : List Char} (h : run? q s = some (ds, r)) :
    r.length ≤ s.length := by
  unfold run? at h
  split at h
  next => cases h
  next =>
    cases h
    exact (List.dropWhile_suffix _).length_le

lemma length_of_named? {α : Type} {name : α → String} {items : List α} {a : α}
    (h : named? name items s = some (a, r)) : r.length ≤ s.length := by
  obtain ⟨b, -, hb⟩ := Option.map_eq_some_iff.mp h
  cases hb
  exact (List.dropWhile_suffix _).length_le

lemma length_of_exponent? {n : Int} (h : exponent? s = some (n, r)) : r.length ≤ s.length := by
  unfold exponent? at h
  split at h
  next c s =>
    split at h
    next =>
      split at h
      all_goals
        obtain ⟨⟨ds, u⟩, hds, hu⟩ := Option.map_eq_some_iff.mp h
        cases hu
        have := length_of_run? hds
        simp only [List.length_cons] at *
        omega
    next => cases h
  next => cases h

lemma length_of_real? {x : Single} (h : real? s = some (x, r)) : r.length ≤ s.length := by
  unfold real? at h
  obtain ⟨⟨whole, rest⟩, hwhole, h⟩ := Option.bind_eq_some_iff.mp h
  have hrest := length_of_run? hwhole
  dsimp only at h
  split at h
  next ds rest' hfraction =>
    have hrest' : rest'.length ≤ rest.length := by
      split at hfraction
      next u =>
        have := length_of_run? hfraction
        simp only [List.length_cons]
        omega
      next => cases hfraction
    split at h
    next n u hexp =>
      cases h
      have := length_of_exponent? hexp
      omega
    next =>
      cases h
      omega
  next =>
    obtain ⟨⟨n, u⟩, hexp, h⟩ := Option.bind_eq_some_iff.mp h
    cases h
    exact (length_of_exponent? hexp).trans hrest

lemma length_of_integer? {x : Formed Int32} (h : integer? s = some (x, r)) :
    r.length ≤ s.length := by
  unfold integer? at h
  split at h
  all_goals
    obtain ⟨⟨ds, u⟩, hds, hu⟩ := Option.map_eq_some_iff.mp h
    cases hu
    have := length_of_run? hds
  · simp only [List.length_cons]
    omega
  · exact this

lemma length_of_text? {t : List Char} (h : text? s = some (t, r)) : r.length ≤ s.length := by
  rw [(text?_eq_some_iff.mp h).1, List.length_append]
  exact Nat.le_add_left _ _

end Lexeme

section

variable {α : Type} {bool : Bool → α} {real : Single → α} {int : Int32 → α} {text : List Char → α}
  {char : Nat → α}

lemma shrinks_charCode : Shrinks charCode := by
  intro s x r h
  obtain ⟨u, ds, hu, hds, -⟩ := finds_charCode.mp h
  have hrest := Lexeme.length_of_run? hds
  have hskip := Layout.length_skip_le s
  rw [hu, List.length_cons] at hskip
  omega

lemma shrinks_literal : Shrinks (literal bool real int text char) := by
  refine shrinks_firstOf fun p hp => ?_
  simp only [List.mem_cons, List.not_mem_nil, or_false] at hp
  rcases hp with rfl | rfl | rfl | rfl | rfl
  · exact (shrinks_lexeme fun _ _ _ => Lexeme.length_of_named?).bind fun _ => shrinks_pure _
  · exact (shrinks_lexeme fun _ _ _ => Lexeme.length_of_real?).bind fun _ => shrinks_pure _
  · exact (shrinks_lexeme fun _ _ _ => Lexeme.length_of_integer?).bind fun _ => shrinks_pure _
  · exact (shrinks_lexeme fun _ _ _ => Lexeme.length_of_text?).bind fun _ => shrinks_pure _
  · exact shrinks_charCode.bind fun _ => shrinks_pure _

end

section

variable {sub : Parser (Formed Expr)}

lemma consumes_multiplicationOp : Consumes multiplicationOp := by
  refine (consumes_firstOf ?_).rule
  simp only [List.mem_cons, List.not_mem_nil, or_false, forall_eq_or_imp, forall_eq]
  exact ⟨consumes_marked (by decide) _, consumes_marked (by decide) _,
    consumes_worded (by decide) _, consumes_worded (by decide) _, consumes_worded (by decide) _⟩

lemma consumes_additionOp : Consumes additionOp := by
  refine (consumes_firstOf ?_).rule
  simp only [List.mem_cons, List.not_mem_nil, or_false, forall_eq_or_imp, forall_eq]
  exact ⟨consumes_marked (by decide) _, consumes_marked (by decide) _,
    consumes_worded (by decide) _⟩

lemma consumes_comparisonOp : Consumes comparisonOp := by
  refine (consumes_firstOf ?_).rule
  simp only [List.mem_cons, List.not_mem_nil, or_false, forall_eq_or_imp, forall_eq]
  refine ⟨?_, ?_, ?_, ?_, ?_, ?_⟩ <;> exact consumes_marked (by decide) _

lemma consumes_unaryOp : Consumes unaryOp := by
  refine (consumes_firstOf ?_).rule
  simp only [List.mem_cons, List.not_mem_nil, or_false, forall_eq_or_imp, forall_eq]
  exact ⟨consumes_marked (by decide) _, consumes_marked (by decide) _,
    consumes_worded (by decide) _⟩

lemma consumes_fieldSelector : Consumes fieldSelector :=
  ((consumes_symbol (by decide)).bind fun _ => shrinks_identifier.bind fun _ => shrinks_pure _).rule

lemma consumes_indexSelector (h : Shrinks sub) : Consumes (indexSelector sub) :=
  ((h.commaList.between (by decide) (by decide)).bind fun _ => shrinks_pure _).rule

lemma consumes_selector (h : Shrinks sub) : Consumes (orElse fieldSelector (indexSelector sub)) := by
  intro s x r hs
  rcases finds_orElse.mp hs with hs | ⟨-, hs⟩
  · exact consumes_fieldSelector s x r hs
  · exact consumes_indexSelector h s x r hs

lemma shrinks_primary (h : Shrinks sub) : Shrinks (primary sub) := by
  refine (shrinks_firstOf fun p hp => ?_).rule
  simp only [List.mem_cons, List.not_mem_nil, or_false] at hp
  rcases hp with rfl | rfl | rfl | rfl
  · exact (h.between (by decide) (by decide)).shrinks
  · exact shrinks_literal
  · have hargs : Shrinks (between "(" ")" (optional (commaList sub))) :=
      (h.commaList.optional.between (by decide) (by decide)).shrinks
    exact (shrinks_identifier.bind fun _ => hargs.bind fun _ => shrinks_pure _).rule
  · have hselectors := (consumes_selector h).shrinks.many
    refine Shrinks.bind (Shrinks.rule ?_) fun _ => shrinks_pure _
    exact shrinks_identifier.bind fun _ => hselectors.bind fun _ => shrinks_pure _

lemma shrinks_another {op : Parser BinOp} (hop : Consumes op) {p : Parser (Formed Expr)}
    (hp : Shrinks p) : Consumes (do let o ← op; let x ← p; return (o, x)) :=
  hop.bind fun _ => hp.bind fun _ => shrinks_pure _

lemma shrinks_binaryLayer {op : Parser BinOp} (hop : Consumes op) {p : Parser (Formed Expr)}
    (hp : Shrinks p) : Shrinks (binaryLayer .binary op p) :=
  hp.bind fun _ => (shrinks_another hop hp).shrinks.many.bind fun _ => shrinks_pure _

lemma shrinks_unaryLayer {p : Parser (Formed Expr)} (hp : Shrinks p) :
    Shrinks (unaryLayer .unary p) :=
  consumes_unaryOp.shrinks.many.bind fun _ => hp.bind fun _ => shrinks_pure _

lemma shrinks_expressionOver (h : Shrinks sub) : Shrinks (expressionOver sub) := by
  have hunary := shrinks_unaryLayer (shrinks_primary h)
  have hsum := shrinks_binaryLayer consumes_additionOp
    (shrinks_binaryLayer consumes_multiplicationOp hunary)
  refine hsum.bind fun _ => Shrinks.bind (Shrinks.optional ?_) fun _ => shrinks_pure _
  exact (shrinks_another consumes_comparisonOp hsum).shrinks

lemma shrinks_expressionWithin (n : Nat) : Shrinks (expressionWithin n) := by
  induction n with
  | zero => exact shrinks_fail
  | succ n ih => exact shrinks_expressionOver ih

end

namespace Parser

variable {α β γ δ : Type}

/-- Where `p` finds something, `q` does as well. Either it ends at the same place with a related
value, or it ends later, and then the place where `p` ended has the property `P`. -/
def Matches (R : α → β → Prop) (P : List Char → Prop) (p : Parser α) (q : Parser β) : Prop :=
  ∀ s a r, Finds p s a r →
    ∃ b r', Finds q s b r' ∧ (r' = r ∧ R a b ∨ r'.length < r.length ∧ P r)

section

variable {R : α → β → Prop} {P Q : List Char → Prop} {p : Parser α} {q : Parser β}

lemma finds_upTo_of_misses {n : Nat} {s r : List Char} {xs : List α} (hp : Misses p s)
    (h : Finds (upTo p n) s xs r) : xs = [] ∧ r = s := by
  cases n with
  | zero =>
    obtain ⟨rfl, rfl⟩ := finds_pure.mp h
    exact ⟨rfl, rfl⟩
  | succ n =>
    rcases finds_orElse.mp h with h | ⟨-, h⟩
    · exact absurd hp.bind h.not_misses
    · obtain ⟨rfl, rfl⟩ := finds_pure.mp h
      exact ⟨rfl, rfl⟩

lemma exists_finds_upTo (p : Parser α) (n : Nat) (s : List Char) :
    ∃ xs r, Finds (upTo p n) s xs r := by
  rcases finds_or_misses (upTo p n) s with h | h
  · exact h
  · exact absurd h (not_misses_upTo p n s)

/-- A repetition of matching items. -/
lemma Matches.upTo (h : Matches R P p q) (hq : Consumes q) (hstop : ∀ r, P r → Misses p r ∧ Q r)
    (hlater : ∀ s b r, Finds q s b r → Q s) (n : Nat) :
    Matches (List.Forall₂ R) Q (upTo p n) (upTo q n) := by
  induction n with
  | zero =>
    intro s xs r hs
    obtain ⟨rfl, rfl⟩ := finds_pure.mp hs
    exact ⟨[], s, finds_pure.mpr ⟨rfl, rfl⟩, .inl ⟨rfl, .nil⟩⟩
  | succ n ih =>
    intro s xs r hs
    simp only [Parser.upTo, finds_orElse, finds_bind, finds_pure] at hs
    rcases hs with ⟨a, t, ha, more, u, hmore, rfl, rfl⟩ | ⟨hmiss, rfl, rfl⟩
    · obtain ⟨b, t', hb, hcases⟩ := h s a t ha
      rcases hcases with ⟨rfl, hab⟩ | ⟨hlt, hP⟩
      · obtain ⟨ys, r', hys, hcases⟩ := ih t' more u hmore
        have hfinds : Finds (Parser.upTo q (n + 1)) s (b :: ys) r' := by
          simp only [Parser.upTo, finds_orElse, finds_bind, finds_pure]
          exact .inl ⟨b, t', hb, ys, r', hys, rfl, rfl⟩
        exact ⟨b :: ys, r', hfinds, hcases.imp (And.imp_right (.cons hab)) id⟩
      · obtain ⟨rfl, rfl⟩ := finds_upTo_of_misses (hstop t hP).1 hmore
        obtain ⟨ys, r', hys⟩ := exists_finds_upTo q n t'
        have hfinds : Finds (Parser.upTo q (n + 1)) s (b :: ys) r' := by
          simp only [Parser.upTo, finds_orElse, finds_bind, finds_pure]
          exact .inl ⟨b, t', hb, ys, r', hys, rfl, rfl⟩
        have hle := hq.shrinks.upTo n t' ys r' hys
        exact ⟨b :: ys, r', hfinds, .inr ⟨by omega, (hstop _ hP).2⟩⟩
    · -- `p` finds no further item here, but `q` may
      obtain ⟨ys, r', hys⟩ := exists_finds_upTo q (n + 1) s
      refine ⟨ys, r', hys, ?_⟩
      rcases finds_or_misses q s with ⟨b, t', hb⟩ | hq'
      · refine .inr ⟨?_, hlater s b t' hb⟩
        simp only [Parser.upTo, finds_orElse, finds_bind, finds_pure] at hys
        rcases hys with ⟨c, u, hc, more, v, hmore, rfl, rfl⟩ | ⟨hnone, -⟩
        · have hlt := hq s c u hc
          have hle := hq.shrinks.upTo n u more v hmore
          omega
        · obtain ⟨more, v, hmore⟩ := exists_finds_upTo q n t'
          have := misses_bind.mp (misses_bind.mp hnone b t' hb) more v hmore
          exact absurd this not_misses_pure
      · obtain ⟨rfl, rfl⟩ := finds_upTo_of_misses hq' hys
        exact .inl ⟨rfl, .nil⟩

/-- A first item and a repetition after it. -/
lemma Matches.chain {R' : γ → δ → Prop} {p' : Parser γ} {q' : Parser δ} (h : Matches R P p q)
    (h' : Matches R' P p' q') (hq' : Consumes q') (hstop : ∀ r, P r → Misses p' r ∧ Q r)
    (hlater : ∀ s b r, Finds q' s b r → Q s) {s t r : List Char} {a : α} {xs : List γ}
    (ha : Finds p s a t) (hxs : Finds (many p') t xs r) :
    ∃ b t' ys r', Finds q s b t' ∧ Finds (many q') t' ys r' ∧
      (r' = r ∧ R a b ∧ List.Forall₂ R' xs ys ∨ r'.length < r.length ∧ Q r) := by
  obtain ⟨b, t', hb, hcases⟩ := h s a t ha
  rcases hcases with ⟨rfl, hab⟩ | ⟨hlt, hP⟩
  · obtain ⟨ys, r', hys, hcases⟩ := h'.upTo hq' hstop hlater (t'.length + 1) t' xs r hxs
    refine ⟨b, t', ys, r', hb, hys, hcases.imp ?_ id⟩
    exact And.imp_right (And.intro hab)
  · obtain ⟨rfl, rfl⟩ := finds_upTo_of_misses (hstop t hP).1 hxs
    obtain ⟨ys, r', hys⟩ := exists_finds_upTo q' (t'.length + 1) t'
    have hle := hq'.shrinks.upTo _ t' ys r' hys
    exact ⟨b, t', ys, r', hb, hys, .inr ⟨by omega, (hstop _ hP).2⟩⟩

/-- The same parser in front of matching ones. -/
lemma Matches.after {R' : γ × α → γ × β → Prop} {S : γ → Prop} {front : Parser γ}
    (hfront : ∀ s c r, Finds front s c r → S c) (h : Matches R P p q)
    (hR : ∀ c a b, S c → R a b → R' (c, a) (c, b)) :
    Matches R' P (do let c ← front; let a ← p; return (c, a))
      (do let c ← front; let b ← q; return (c, b)) := by
  intro s x r hs
  simp only [finds_bind, finds_pure] at hs
  obtain ⟨c, t, hc, a, u, ha, rfl, rfl⟩ := hs
  obtain ⟨b, r', hb, hcases⟩ := h t a u ha
  refine ⟨(c, b), r', ?_, hcases.imp (And.imp_right (hR c a b (hfront s c t hc))) id⟩
  simp only [finds_bind, finds_pure]
  exact ⟨c, t, hc, b, r', hb, rfl, rfl⟩

end

end Parser

/-- Where both pieces have a meaning, the meanings correspond. -/
def Alike (x : Formed ConstExpr) (y : Formed Expr) : Prop :=
  ∀ c e, x = .ok c → y = .ok e → Twin c e

lemma Alike.map {α : Type} {x : Formed α} {f : α → ConstExpr} {g : α → Expr}
    (h : ∀ a, x = .ok a → Twin (f a) (g a)) : Alike (x.map f) (x.map g) := by
  intro c e hc he
  obtain ⟨a, rfl, rfl⟩ := map_eq_ok.mp hc
  cases he
  exact h a rfl

lemma Alike.applyUnary {x : Formed ConstExpr} {y : Formed Expr} (h : Alike x y)
    (ops : List (Option UnOp)) :
    Alike (x.map (applyUnary .unary ops)) (y.map (applyUnary .unary ops)) := by
  have htwin : ∀ ops c e, Twin c e →
      Twin (Source.applyUnary .unary ops c) (Source.applyUnary .unary ops e) := by
    intro ops c e hce
    induction ops with
    | nil => exact hce
    | cons op ops ih =>
      cases op with
      | none => exact ih
      | some op => exact ⟨_, rfl, ih⟩
  intro c e hc he
  obtain ⟨c', rfl, rfl⟩ := map_eq_ok.mp hc
  obtain ⟨e', rfl, rfl⟩ := map_eq_ok.mp he
  exact htwin ops c' e' (h c' e' rfl rfl)

/-- Operands with the same operator in front of them, which is no comparison. -/
def AlikeOperands (x : BinOp × Formed ConstExpr) (y : BinOp × Formed Expr) : Prop :=
  x.1 = y.1 ∧ x.1.isRelational = false ∧ Alike x.2 y.2

lemma Alike.joinLeft {xs : List (BinOp × Formed ConstExpr)} {ys : List (BinOp × Formed Expr)}
    (h : List.Forall₂ AlikeOperands xs ys) {x : Formed ConstExpr} {y : Formed Expr}
    (hxy : Alike x y) : Alike (joinLeft .binary x xs) (joinLeft .binary y ys) := by
  induction h generalizing x y with
  | nil => exact hxy
  | @cons x₁ y₁ xs ys h₁ _ ih =>
    obtain ⟨o, x₁⟩ := x₁
    obtain ⟨o', y₁⟩ := y₁
    obtain ⟨rfl, hrel, halike⟩ : o = o' ∧ o.isRelational = false ∧ Alike x₁ y₁ := h₁
    refine ih fun c e hc he => ?_
    simp only [bind_eq_ok, pure_eq_ok] at hc he
    obtain ⟨a, ha, b, hb, rfl⟩ := hc
    obtain ⟨a', ha', b', hb', rfl⟩ := he
    exact ⟨hrel, a', b', rfl, hxy a a' ha ha', halike b b' hb hb'⟩

lemma Alike.all {xs : List (Formed ConstExpr)} {ys : List (Formed Expr)}
    (h : List.Forall₂ Alike xs ys) {cs : List ConstExpr} {es : List Expr}
    (hcs : Formed.all xs = .ok cs) (hes : Formed.all ys = .ok es) : Twins cs es := by
  induction h generalizing cs es with
  | nil =>
    cases hcs
    cases hes
    rfl
  | cons hxy _ ih =>
    simp only [Formed.all, bind_eq_ok, pure_eq_ok] at hcs hes
    obtain ⟨c, hc, cs, hcs, rfl⟩ := hcs
    obtain ⟨e, he, es, hes, rfl⟩ := hes
    exact ⟨e, es, rfl, hxy c e hc he, ih hcs hes⟩

section

variable {P Q : List Char → Prop} {p : Parser (Formed ConstExpr)} {q : Parser (Formed Expr)}

lemma unaryLayer_matches (h : Matches Alike P p q) :
    Matches Alike P (unaryLayer .unary p) (unaryLayer .unary q) := by
  intro s x r hs
  simp only [unaryLayer, finds_bind, finds_pure] at hs
  obtain ⟨ops, t, hops, x, u, hx, rfl, rfl⟩ := hs
  obtain ⟨y, r', hy, hcases⟩ := h t x u hx
  refine ⟨y.map (applyUnary .unary ops), r', ?_,
    hcases.imp (And.imp_right fun hxy => hxy.applyUnary ops) id⟩
  simp only [unaryLayer, finds_bind, finds_pure]
  exact ⟨ops, t, hops, y, r', hy, rfl, rfl⟩

lemma binaryLayer_matches {op : Parser BinOp} (hop : Consumes op)
    (hrel : ∀ s o r, Finds op s o r → o.isRelational = false) (hq : Shrinks q)
    (hstop : ∀ r, P r → Misses op r ∧ Q r) (hlater : ∀ s o r, Finds op s o r → Q s)
    (h : Matches Alike P p q) :
    Matches Alike Q (binaryLayer .binary op p) (binaryLayer .binary op q) := by
  intro s x r hs
  simp only [binaryLayer, finds_bind, finds_pure] at hs
  obtain ⟨first, t, hfirst, more, u, hmore, rfl, rfl⟩ := hs
  have hitems : Matches AlikeOperands P (do let o ← op; let x ← p; return (o, x))
      (do let o ← op; let x ← q; return (o, x)) :=
    h.after hrel fun o a b ho hab => ⟨rfl, ho, hab⟩
  have hstop' : ∀ r, P r → Misses (do let o ← op; let x ← p; return (o, x)) r ∧ Q r :=
    fun r hr => ⟨(hstop r hr).1.bind, (hstop r hr).2⟩
  have hlater' : ∀ s b r, Finds (do let o ← op; let x ← q; return (o, x)) s b r → Q s := by
    intro s b r hb
    obtain ⟨o, t, ho, -⟩ := finds_bind.mp hb
    exact hlater s o t ho
  obtain ⟨y, t', ys, r', hy, hys, hcases⟩ :=
    h.chain hitems (shrinks_another hop hq) hstop' hlater' hfirst hmore
  refine ⟨joinLeft .binary y ys, r', ?_,
    hcases.imp (And.imp_right fun hboth => Alike.joinLeft hboth.2 hboth.1) id⟩
  simp only [binaryLayer, finds_bind, finds_pure]
  exact ⟨y, t', hy, ys, r', hys, rfl, rfl⟩

end

/-- No constant expression around goes on here. -/
def Closed (r : List Char) : Prop := Misses (symbol ")") r ∧ Misses (symbol ",") r

section

variable {p : Parser (Formed ConstExpr)} {q : Parser (Formed Expr)}

lemma comparisonLayer_matches (hq : Shrinks q)
    (hclosed : ∀ s o r, Finds comparisonOp s o r → Closed s) (h : Matches Alike Closed p q) :
    Matches Alike Closed p (comparisonLayer q) := by
  intro s x r hs
  obtain ⟨y, t, hy, hcases⟩ := h s x r hs
  rcases finds_or_misses (do let o ← comparisonOp; let b ← q; return (o, b)) t with ⟨⟨o, z⟩, u, hz⟩ | hmiss
  · have hlt := shrinks_another consumes_comparisonOp hq t _ u hz
    obtain ⟨o', v, ho, -⟩ := finds_bind.mp hz
    have hfinds : Finds (comparisonLayer q) s (do return .binary o (← y) (← z)) u := by
      simp only [comparisonLayer]
      exact finds_bind.mpr ⟨y, t, hy, finds_bind.mpr ⟨some (o, z), u,
        finds_optional.mpr (.inl ⟨_, rfl, hz⟩), finds_pure.mpr ⟨rfl, rfl⟩⟩⟩
    refine ⟨_, u, hfinds, .inr ?_⟩
    rcases hcases with ⟨rfl, -⟩ | ⟨hlt', hr⟩
    · exact ⟨hlt, hclosed t o' v ho⟩
    · exact ⟨by omega, hr⟩
  · have hfinds : Finds (comparisonLayer q) s y t := by
      simp only [comparisonLayer]
      exact finds_bind.mpr ⟨y, t, hy, finds_bind.mpr ⟨none, t,
        finds_optional.mpr (.inr ⟨hmiss, rfl, rfl⟩), finds_pure.mpr ⟨rfl, rfl⟩⟩⟩
    exact ⟨y, t, hfinds, hcases⟩

/-- Arguments that are followed by a closing parenthesis. -/
lemma commaList_matches (hq : Shrinks q) (h : Matches Alike Closed p q) :
    Matches (List.Forall₂ Alike) (fun r => Misses (symbol ")") r) (commaList p) (commaList q) := by
  intro s xs r hs
  obtain ⟨first, t, more, rfl, hfirst, hmore⟩ := finds_commaList.mp hs
  have hitems : Matches Alike Closed (do symbol ","; p) (do symbol ","; q) := by
    intro s x r hs
    obtain ⟨u, t, hcomma, hx⟩ := finds_bind.mp hs
    obtain ⟨y, r', hy, hcases⟩ := h t x r hx
    exact ⟨y, r', finds_bind.mpr ⟨u, t, hcomma, hy⟩, hcases⟩
  have hitem : Consumes (do symbol ","; q) := (consumes_symbol (by decide)).bind fun _ => hq
  have hstop : ∀ r, Closed r → Misses (do symbol ","; p) r ∧ Misses (symbol ")") r :=
    fun r hr => ⟨hr.2.bind, hr.1⟩
  have hlater : ∀ s y r, Finds (do symbol ","; q) s y r → Misses (symbol ")") s := by
    intro s y r hs
    obtain ⟨u, t, hcomma, -⟩ := finds_bind.mp hs
    rw [misses_symbol, finds_symbol.mp hcomma]
    simp
  obtain ⟨y, t', ys, r', hy, hys, hcases⟩ := h.chain hitems hitem hstop hlater hfirst hmore
  refine ⟨y :: ys, r', finds_commaList.mpr ⟨y, t', ys, rfl, hy, hys⟩, hcases.imp ?_ id⟩
  exact And.imp_right fun hboth => .cons hboth.1 hboth.2

end

lemma misses_bind_pure {α β : Type} {p : Parser α} {f : α → β} {s : List Char} :
    Misses (do let a ← p; return f a) s ↔ Misses p s := by
  refine ⟨fun h => ?_, Misses.bind⟩
  rcases finds_or_misses p s with ⟨a, t, ha⟩ | hp
  · exact absurd (misses_bind.mp h a t ha) not_misses_pure
  · exact hp

lemma finds_bind_pure {α β : Type} {p : Parser α} {f : α → β} {s r : List Char} {b : β} :
    Finds (do let a ← p; return f a) s b r ↔ ∃ a, Finds p s a r ∧ f a = b := by
  simp only [finds_bind, finds_pure]
  constructor
  · rintro ⟨a, t, ha, rfl, rfl⟩
    exact ⟨a, ha, rfl⟩
  · rintro ⟨a, ha, rfl⟩
    exact ⟨a, r, ha, rfl, rfl⟩

section

variable {s r : List Char}

/-- A character written by number has a code of 16 bits. -/
lemma yields_charCode : charCode.Yields (Formed.Holds (· ≤ 0xFFFF)) := by
  intro s x r h n hn
  obtain ⟨u, ds, -, -, hcode⟩ := finds_charCode.mp h
  rw [hn, Lexeme.charCode, bind_eq_ok] at hcode
  obtain ⟨m, -, hm⟩ := hcode
  split at hm
  next hle =>
    cases hm
    exact hle
  next => cases hm

/-- The literals of constant expressions and of ordinary ones are found at the same places. -/
lemma literal_alike {x : Formed ConstExpr}
    (h : Finds (literal .bool .real .int constText .char) s x r) :
    ∃ y : Formed Expr, Finds (literal .bool .real .int (fun t => .text (String.ofList t)) .char) s y r ∧
      Alike x y := by
  simp only [literal, finds_firstOf_cons, finds_bind_pure, misses_bind_pure] at h ⊢
  rcases h with ⟨b, hb, rfl⟩ | ⟨hbool, ⟨v, hv, rfl⟩ | ⟨hreal, ⟨i, hi, rfl⟩ | ⟨hint, ⟨t, ht, rfl⟩ |
    ⟨htext, ⟨n, hn, rfl⟩ | ⟨-, hnone⟩⟩⟩⟩⟩
  · refine ⟨_, .inl ⟨b, hb, rfl⟩, fun c e hc he => ?_⟩
    cases hc
    cases he
    rfl
  · refine ⟨_, .inr ⟨hbool, .inl ⟨v, hv, rfl⟩⟩, fun c e hc he => ?_⟩
    cases hc
    cases he
    rfl
  · exact ⟨_, .inr ⟨hbool, .inr ⟨hreal, .inl ⟨i, hi, rfl⟩⟩⟩, Alike.map fun a _ => rfl⟩
  · refine ⟨_, .inr ⟨hbool, .inr ⟨hreal, .inr ⟨hint, .inl ⟨t, ht, rfl⟩⟩⟩⟩, fun c e hc he => ?_⟩
    cases hc
    cases he
    unfold constText
    split
    next letter => exact .inr ⟨letter, rfl, rfl⟩
    next hlong =>
      refine ⟨rfl, fun hlength => ?_⟩
      rw [String.toList_ofList] at hlength
      obtain ⟨letter, hletter⟩ := List.length_eq_one_iff.mp hlength
      exact hlong letter hletter
  · refine ⟨_, .inr ⟨hbool, .inr ⟨hreal, .inr ⟨hint, .inr ⟨htext, .inl ⟨n, hn, rfl⟩⟩⟩⟩⟩, ?_⟩
    refine Alike.map fun a ha => .inl ⟨rfl, ?_⟩
    exact yields_charCode s n r hn a ha
  · exact absurd misses_fail hnone.not_misses

lemma misses_literal_iff :
    Misses (literal .bool .real .int constText .char : Parser (Formed ConstExpr)) s ↔
      Misses (literal .bool .real .int (fun t => .text (String.ofList t)) .char :
        Parser (Formed Expr)) s := by
  simp only [literal, misses_firstOf, List.mem_cons, List.not_mem_nil, or_false, forall_eq_or_imp,
    forall_eq, misses_bind_pure]

lemma head_of_identifier {n : String} (h : Finds identifier s n r) :
    ∃ c t, Layout.skip s = c :: t ∧ Lexeme.isWordStart c := by
  rw [identifier, finds_lexeme] at h
  unfold Lexeme.identifier? at h
  split at h
  next => cases h
  next c t hskip =>
    split at h
    next hstart => exact ⟨c, t, hskip, (Bool.and_eq_true_iff.mp hstart).1⟩
    next => cases h

/-- Nothing but an expression in parentheses begins with a parenthesis. -/
lemma misses_literal_of_open {t : List Char} (h : Layout.skip s = '(' :: t) :
    Misses (literal .bool .real .int constText .char : Parser (Formed ConstExpr)) s := by
  refine misses_literal_of_head h ?_ (by decide) (by decide)
  rw [h]
  exact Lexeme.bool?_eq_none _ (by decide) (by decide)

lemma misses_identifier_of_open {t : List Char} (h : Layout.skip s = '(' :: t) :
    Misses identifier s := by
  rcases finds_or_misses identifier s with ⟨n, r, hn⟩ | hmiss
  · obtain ⟨c, u, hc, hstart⟩ := head_of_identifier hn
    rw [h] at hc
    cases hc
    cases hstart
  · exact hmiss

/-- A selector or a list of arguments begins here. -/
def Selecting (r : List Char) : Prop :=
  ∃ c t, Layout.skip r = c :: t ∧ (c = '(' ∨ c = '[' ∨ c = '.')

end

section

variable {p : Parser (Formed ConstExpr)} {q : Parser (Formed Expr)}

lemma parentheses_match (h : Matches Alike Closed p q) {s r : List Char} {x : Formed ConstExpr}
    (hx : Finds (between "(" ")" p) s x r) :
    ∃ y, Finds (between "(" ")" q) s y r ∧ Alike x y := by
  obtain ⟨t, u, hopen, hx, hclose⟩ := finds_between.mp hx
  obtain ⟨y, u', hy, ⟨rfl, hxy⟩ | ⟨-, hclosed⟩⟩ := h t x u hx
  · exact ⟨y, finds_between.mpr ⟨t, u', hopen, hy, hclose⟩, hxy⟩
  · exact absurd hclosed.1 (not_misses_symbol hclose)

lemma call_match (hq : Shrinks q) (h : Matches Alike Closed p q) {s r : List Char}
    {x : Formed ConstExpr} (hx : Finds (constCallOver p) s x r) :
    ∃ y, Finds (callOver q) s y r ∧ Alike x y := by
  rw [constCallOver, finds_rule] at hx
  obtain ⟨f, t, hf, hx⟩ := finds_bind.mp hx
  obtain ⟨xs, u, hxs, hx⟩ := finds_bind.mp hx
  obtain ⟨rfl, rfl⟩ := finds_pure.mp hx
  obtain ⟨v, w, hopen, hxs, hclose⟩ := finds_between.mp hxs
  obtain ⟨ys, w', hys, ⟨rfl, hall⟩ | ⟨-, hno⟩⟩ := commaList_matches hq h v xs w hxs
  · refine ⟨(do return .call f (← Formed.all ys)), ?_, fun c e hc he => ?_⟩
    · rw [callOver, finds_rule]
      refine finds_bind.mpr ⟨f, t, hf, finds_bind.mpr ⟨some ys, u, ?_, finds_pure.mpr ⟨rfl, rfl⟩⟩⟩
      exact finds_between.mpr ⟨v, w', hopen, finds_optional.mpr (.inl ⟨ys, rfl, hys⟩), hclose⟩
    · simp only [bind_eq_ok, pure_eq_ok] at hc he
      obtain ⟨cs, hcs, rfl⟩ := hc
      obtain ⟨es, hes, rfl⟩ := he
      exact ⟨es, rfl, Alike.all hall hcs hes⟩
  · exact absurd hno (not_misses_symbol hclose)

lemma head_of_selector {r t : List Char} {x : Formed Selector}
    (h : Finds (orElse fieldSelector (indexSelector q)) r x t) :
    ∃ c u, Layout.skip r = c :: u ∧ (c = '[' ∨ c = '.') := by
  rcases finds_orElse.mp h with h | ⟨-, h⟩
  · rw [fieldSelector, finds_rule] at h
    obtain ⟨u, v, hpoint, -⟩ := finds_bind.mp h
    rw [finds_symbol, Layout.skip_skip] at hpoint
    exact ⟨'.', v, hpoint, .inr rfl⟩
  · rw [indexSelector, finds_rule] at h
    obtain ⟨ps, v, hps, -⟩ := finds_bind.mp h
    obtain ⟨w, u, hopen, -⟩ := finds_between.mp hps
    rw [Layout.skip_skip] at hopen
    exact ⟨'[', w, hopen, .inl rfl⟩

lemma selecting_of_selector {r t : List Char} {x : Formed Selector}
    (h : Finds (orElse fieldSelector (indexSelector q)) r x t) : Selecting r := by
  obtain ⟨c, u, hr, hc⟩ := head_of_selector h
  exact ⟨c, u, hr, .inr hc⟩

/-- A name alone, or with arguments or selectors that only the ordinary expression takes. -/
lemma name_match (hq : Shrinks q) {s r : List Char} {n : String} (hn : Finds identifier s n r) :
    ∃ y r', Finds (firstOf [callOver q, do return (← accessOver q).map Access.toExpr]) s y r' ∧
      (r' = r ∧ Alike (.ok (.name n)) y ∨ r'.length < r.length ∧ Selecting r) := by
  have hn' : Finds identifier (Layout.skip s) n r := by
    rw [identifier, finds_lexeme, Layout.skip_skip] at *
    exact hn
  rcases finds_or_misses (callOver q) s with ⟨y, r', hy⟩ | hcall
  · refine ⟨y, r', finds_firstOf_cons.mpr (.inl hy), .inr ?_⟩
    rw [callOver, finds_rule] at hy
    obtain ⟨m, t, hm, hy⟩ := finds_bind.mp hy
    obtain ⟨rfl, rfl⟩ := hn'.unique hm
    obtain ⟨args, u, hargs, hy⟩ := finds_bind.mp hy
    obtain ⟨rfl, rfl⟩ := finds_pure.mp hy
    have hlt := (hq.commaList.optional.between (by decide) (by decide)) _ _ _ hargs
    obtain ⟨v, w, hopen, -⟩ := finds_between.mp hargs
    exact ⟨hlt, '(', v, hopen, .inl rfl⟩
  · obtain ⟨selectors, r', hselectors⟩ :=
      exists_finds_upTo (orElse fieldSelector (indexSelector q)) (r.length + 1) r
    have haccess : Finds (accessOver q) s (do return ⟨n, ← Formed.all selectors⟩) r' := by
      rw [accessOver, finds_rule]
      exact finds_bind.mpr ⟨n, r, hn', finds_bind.mpr ⟨selectors, r', hselectors,
        finds_pure.mpr ⟨rfl, rfl⟩⟩⟩
    refine ⟨_, r', finds_firstOf_cons.mpr (.inr ⟨hcall, finds_firstOf_cons.mpr (.inl
      (finds_bind_pure.mpr ⟨_, haccess, rfl⟩))⟩), ?_⟩
    rcases finds_or_misses (orElse fieldSelector (indexSelector q)) r with ⟨x, t, hx⟩ | hnone
    · refine .inr ⟨?_, selecting_of_selector hx⟩
      cases (consumes_selector hq).repeats_of_upTo hselectors (Nat.lt_succ_self _) with
      | stop hmiss => exact absurd hmiss hx.not_misses
      | step hfirst hlt hrest => exact hrest.length_le.trans_lt hlt
    · obtain ⟨rfl, rfl⟩ := finds_upTo_of_misses hnone hselectors
      refine .inl ⟨rfl, fun c e hc he => ?_⟩
      cases hc
      cases he
      rfl

lemma misses_parentheses {s : List Char} (h : ∀ t, Layout.skip s ≠ '(' :: t) :
    Misses (between "(" ")" q) s := by
  refine Misses.bind (misses_symbol.mpr ?_)
  rintro ⟨t, ht⟩
  exact h t ht.symm

lemma primary_matches (hq : Shrinks q) (h : Matches Alike Closed p q) :
    Matches Alike Selecting (constPrimary p) (primary q) := by
  intro s x r hs
  rw [constPrimary, finds_rule] at hs
  simp only [finds_firstOf_cons] at hs
  simp only [primary, finds_rule, finds_firstOf_cons (p := between _ _ _),
    finds_firstOf_cons (p := literal _ _ _ _ _)]
  generalize Layout.skip s = s' at hs
  -- a literal or a name does not begin with a parenthesis
  rcases hs with hx | ⟨-, hx | ⟨hliteral, hx | ⟨-, hx | ⟨-, hnone⟩⟩⟩⟩
  · obtain ⟨y, hy, hxy⟩ := parentheses_match h hx
    exact ⟨y, r, .inl hy, .inl ⟨rfl, hxy⟩⟩
  · have hopen : ∀ t, Layout.skip s' ≠ '(' :: t := fun t ht =>
      hx.not_misses (misses_literal_of_open ht)
    obtain ⟨y, hy, hxy⟩ := literal_alike hx
    exact ⟨y, r, .inr ⟨misses_parentheses hopen, .inl hy⟩, .inl ⟨rfl, hxy⟩⟩
  · have hopen : ∀ t, Layout.skip s' ≠ '(' :: t := by
      intro t ht
      refine hx.not_misses (misses_rule.mpr (Misses.bind ?_))
      exact misses_identifier_of_open (by rw [Layout.skip_skip, ht])
    obtain ⟨y, hy, hxy⟩ := call_match hq h hx
    refine ⟨y, r, .inr ⟨misses_parentheses hopen, .inr ⟨misses_literal_iff.mp hliteral, ?_⟩⟩,
      .inl ⟨rfl, hxy⟩⟩
    exact finds_firstOf_cons.mpr (.inl hy)
  · obtain ⟨n, hn, rfl⟩ := finds_bind_pure.mp hx
    have hopen : ∀ t, Layout.skip s' ≠ '(' :: t := fun t ht =>
      hn.not_misses (misses_identifier_of_open ht)
    obtain ⟨y, r', hy, hcases⟩ := name_match hq hn
    exact ⟨y, r', .inr ⟨misses_parentheses hopen, .inr ⟨misses_literal_iff.mp hliteral, hy⟩⟩, hcases⟩
  · exact absurd misses_fail hnone.not_misses

end

section

variable {s r : List Char}

lemma misses_symbol_of_head {mark : String} {c : Char} {t : List Char}
    (h : Layout.skip s = c :: t) (hmark : ∀ d ∈ mark.toList.head?, d ≠ c)
    (hne : mark.toList ≠ []) : Misses (symbol mark) s := by
  obtain ⟨d, m, hd⟩ := List.exists_cons_of_ne_nil hne
  rw [misses_symbol, h, hd]
  rintro ⟨u, hu⟩
  exact hmark d (by simp [hd]) (List.cons_eq_cons.mp hu).1

lemma closed_of_head {c : Char} {t : List Char} (h : Layout.skip s = c :: t) (hclose : c ≠ ')')
    (hcomma : c ≠ ',') : Closed s :=
  ⟨misses_symbol_of_head h (by simpa using hclose.symm) (by decide),
    misses_symbol_of_head h (by simpa using hcomma.symm) (by decide)⟩

/-- A word stands here. -/
lemma head_of_keyword {k : String} {u : Unit} (h : Finds (keyword k) s u r) (hk : k.toList ≠ []) :
    Lexeme.lower (Lexeme.word (Layout.skip s)) = k.toList ∧
      ∃ c t, Layout.skip s = c :: t ∧ Lexeme.isWordChar c := by
  rw [keyword, finds_lexeme] at h
  unfold Lexeme.keyword? at h
  split at h
  next hword =>
    refine ⟨hword, ?_⟩
    cases hs : Layout.skip s with
    | nil =>
      rw [hs] at hword
      exact absurd hword.symm hk
    | cons c t =>
      refine ⟨c, t, rfl, ?_⟩
      by_contra hc
      simp only [hs, Lexeme.word, List.takeWhile_cons, hc] at hword
      exact hk hword.symm
  next => cases h

lemma head_of_marked {mark : String} {o o' : BinOp} {c : Char} (hmark : mark.toList.head? = some c)
    (h : Finds (marked mark o) s o' r) : ∃ t, Layout.skip s = c :: t := by
  obtain ⟨u, v, hsymbol, -⟩ := finds_bind.mp h
  obtain ⟨t, ht⟩ := List.head?_eq_some_iff.mp hmark
  exact ⟨t ++ v, by rw [finds_symbol.mp hsymbol, ht, List.cons_append]⟩

lemma keyword_of_worded {k : String} {o o' : BinOp} (h : Finds (worded k o) s o' r) :
    ∃ t, Finds (keyword k) s () t := by
  obtain ⟨u, t, hk, -⟩ := finds_bind.mp h
  exact ⟨t, hk⟩

/-- Where no sum goes on. -/
lemma misses_additionOp_of_head {c : Char} {t : List Char} (h : Layout.skip s = c :: t)
    (hplus : c ≠ '+') (hminus : c ≠ '-')
    (hor : Lexeme.lower (Lexeme.word (Layout.skip s)) ≠ "or".toList) : Misses additionOp s := by
  have hs : Layout.skip (Layout.skip s) = c :: t := by rw [Layout.skip_skip, h]
  rw [additionOp, misses_rule, misses_firstOf]
  simp only [List.mem_cons, List.not_mem_nil, or_false, forall_eq_or_imp, forall_eq]
  refine ⟨.bind ?_, .bind ?_, .bind ?_⟩
  · exact misses_symbol_of_head hs (by simpa using hplus.symm) (by decide)
  · exact misses_symbol_of_head hs (by simpa using hminus.symm) (by decide)
  · rw [keyword, misses_lexeme, Layout.skip_skip, Lexeme.keyword?, if_neg hor]

lemma misses_multiplicationOp_of_head {c : Char} {t : List Char} (h : Layout.skip s = c :: t)
    (hstar : c ≠ '*') (hslash : c ≠ '/') (hword : Lexeme.isWordChar c = false) :
    Misses multiplicationOp s := by
  have hs : Layout.skip (Layout.skip s) = c :: t := by rw [Layout.skip_skip, h]
  have hkeyword : ∀ k : String, k.toList ≠ [] → Misses (keyword k) (Layout.skip s) := by
    intro k hk
    rw [keyword, misses_lexeme, hs, Lexeme.keyword?, if_neg]
    simpa [Lexeme.word, hword, Lexeme.lower] using hk.symm
  rw [multiplicationOp, misses_rule, misses_firstOf]
  simp only [List.mem_cons, List.not_mem_nil, or_false, forall_eq_or_imp, forall_eq]
  refine ⟨.bind ?_, .bind ?_, .bind (hkeyword _ (by decide)), .bind (hkeyword _ (by decide)),
    .bind (hkeyword _ (by decide))⟩
  · exact misses_symbol_of_head hs (by simpa using hstar.symm) (by decide)
  · exact misses_symbol_of_head hs (by simpa using hslash.symm) (by decide)

/-- No sum around goes on here, nor anything around the sum. -/
def SumEnds (s : List Char) : Prop := Misses additionOp s ∧ Closed s

lemma sumEnds_of_mark {c : Char} {t : List Char} (h : Layout.skip s = c :: t)
    (hword : Lexeme.isWordChar c = false) (hc : c ≠ '+' ∧ c ≠ '-' ∧ c ≠ ')' ∧ c ≠ ',') :
    SumEnds s := by
  have hor : Lexeme.lower (Lexeme.word (Layout.skip s)) ≠ "or".toList := by
    simp [h, Lexeme.word, hword, Lexeme.lower]
  exact ⟨misses_additionOp_of_head h hc.1 hc.2.1 hor, closed_of_head h hc.2.2.1 hc.2.2.2⟩

lemma sumEnds_of_keyword {k : String} (h : Finds (keyword k) (Layout.skip s) () r)
    (hk : k.toList ≠ []) (hor : k.toList ≠ "or".toList) : SumEnds s := by
  obtain ⟨hlower, c, t, hs, hc⟩ := head_of_keyword h hk
  rw [Layout.skip_skip] at hs hlower
  refine ⟨misses_additionOp_of_head hs ?_ ?_ (by rwa [hlower]), closed_of_head hs ?_ ?_⟩ <;>
    rintro rfl <;> cases hc

lemma selecting_stops (h : Selecting s) : Misses multiplicationOp s ∧ SumEnds s := by
  obtain ⟨c, t, hs, hc⟩ := h
  have hword : Lexeme.isWordChar c = false := by rcases hc with rfl | rfl | rfl <;> rfl
  refine ⟨misses_multiplicationOp_of_head hs ?_ ?_ hword, sumEnds_of_mark hs hword ?_⟩ <;>
    rcases hc with rfl | rfl | rfl <;> decide

lemma sumEnds_of_multiplicationOp {o : BinOp} (h : Finds multiplicationOp s o r) : SumEnds s := by
  rw [multiplicationOp, finds_rule] at h
  simp only [finds_firstOf_cons] at h
  rcases h with h | ⟨-, h | ⟨-, h | ⟨-, h | ⟨-, h | ⟨-, h⟩⟩⟩⟩⟩
  · obtain ⟨t, ht⟩ := head_of_marked rfl h
    exact sumEnds_of_mark ((Layout.skip_skip s).symm.trans ht) rfl (by decide)
  · obtain ⟨t, ht⟩ := head_of_marked rfl h
    exact sumEnds_of_mark ((Layout.skip_skip s).symm.trans ht) rfl (by decide)
  · obtain ⟨t, ht⟩ := keyword_of_worded h
    exact sumEnds_of_keyword ht (by decide) (by decide)
  · obtain ⟨t, ht⟩ := keyword_of_worded h
    exact sumEnds_of_keyword ht (by decide) (by decide)
  · obtain ⟨t, ht⟩ := keyword_of_worded h
    exact sumEnds_of_keyword ht (by decide) (by decide)
  · exact absurd misses_fail h.not_misses

lemma closed_of_additionOp {o : BinOp} (h : Finds additionOp s o r) : Closed s := by
  rw [additionOp, finds_rule] at h
  simp only [finds_firstOf_cons] at h
  rcases h with h | ⟨-, h | ⟨-, h | ⟨-, h⟩⟩⟩
  · obtain ⟨t, ht⟩ := head_of_marked rfl h
    exact closed_of_head ((Layout.skip_skip s).symm.trans ht) (by decide) (by decide)
  · obtain ⟨t, ht⟩ := head_of_marked rfl h
    exact closed_of_head ((Layout.skip_skip s).symm.trans ht) (by decide) (by decide)
  · obtain ⟨t, ht⟩ := keyword_of_worded h
    obtain ⟨-, c, u, hs, hc⟩ := head_of_keyword ht (by decide)
    rw [Layout.skip_skip] at hs
    refine closed_of_head hs ?_ ?_ <;> rintro rfl <;> cases hc
  · exact absurd misses_fail h.not_misses

lemma closed_of_comparisonOp {o : BinOp} (h : Finds comparisonOp s o r) : Closed s := by
  rw [comparisonOp, finds_rule] at h
  simp only [finds_firstOf_cons] at h
  rcases h with h | ⟨-, h | ⟨-, h | ⟨-, h | ⟨-, h | ⟨-, h | ⟨-, h⟩⟩⟩⟩⟩⟩
  case inr.inr.inr.inr.inr.inr => exact absurd misses_fail h.not_misses
  all_goals
    obtain ⟨t, ht⟩ := head_of_marked rfl h
    exact closed_of_head ((Layout.skip_skip s).symm.trans ht) (by decide) (by decide)

lemma multiplicationOp_yields : multiplicationOp.Yields fun o => o.isRelational = false := by
  refine Yields.rule (yields_firstOf ?_)
  simp only [List.mem_cons, List.not_mem_nil, or_false, forall_eq_or_imp, forall_eq]
  refine ⟨?_, ?_, ?_, ?_, ?_⟩ <;> exact .after fun _ => yields_pure rfl

lemma additionOp_yields : additionOp.Yields fun o => o.isRelational = false := by
  refine Yields.rule (yields_firstOf ?_)
  simp only [List.mem_cons, List.not_mem_nil, or_false, forall_eq_or_imp, forall_eq]
  refine ⟨?_, ?_, ?_⟩ <;> exact .after fun _ => yields_pure rfl

end

lemma expressionWithin_matches (n : Nat) :
    Matches Alike Closed (constExpressionWithin n) (expressionWithin n) := by
  induction n with
  | zero => exact fun s x r h => absurd misses_fail h.not_misses
  | succ n ih =>
    have hsub := shrinks_expressionWithin n
    have hunary := unaryLayer_matches (primary_matches hsub ih)
    have hunary' := shrinks_unaryLayer (shrinks_primary hsub)
    have hproduct := binaryLayer_matches consumes_multiplicationOp
      multiplicationOp_yields hunary' (fun _ => selecting_stops)
      (fun _ _ _ => sumEnds_of_multiplicationOp) hunary
    have hproduct' := shrinks_binaryLayer consumes_multiplicationOp hunary'
    have hsum := binaryLayer_matches consumes_additionOp
      additionOp_yields hproduct' (fun _ hr => hr)
      (fun _ _ _ => closed_of_additionOp) hproduct
    have hsum' := shrinks_binaryLayer consumes_additionOp hproduct'
    exact comparisonLayer_matches hsum' (fun _ _ _ => closed_of_comparisonOp) hsum

/-- A constant expression and an ordinary expression that take the same part of a text. -/
theorem twin_of_same_text {text rest : List Char} {c : ConstExpr} {e : Expr}
    (hc : (constExpression text).result = some (.ok c, rest))
    (he : (expression text).result = some (.ok e, rest)) : Twin c e := by
  unfold constExpression at hc
  unfold expression at he
  obtain ⟨y, r', hy, hcases⟩ := expressionWithin_matches _ text _ rest hc
  obtain ⟨rfl, rfl⟩ := Finds.unique he hy
  rcases hcases with ⟨-, halike⟩ | ⟨hlt, -⟩
  · exact halike c e rfl rfl
  · exact absurd hlt (Nat.lt_irrefl _)

end PascalJvm.Source
