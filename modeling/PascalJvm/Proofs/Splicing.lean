import Mathlib.Tactic
import PascalJvm.Proofs.Comments
import PascalJvm.Proofs.Directories

/-!
# Expansion changes directives only

`Cut` says how a text is cut into plain text and comments: a comment starts at the first opening
mark and ends at the first closing mark of its kind behind it, and from a mark that is never closed
on the text is plain. There is one such cut, and it loses nothing. Expansion takes over every piece
as it is, except that in the place of a directive stands the expansion of its file, whatever files
are open.
-/
namespace PascalJvm.Include

open Files

section Marks

variable {s mark before rest body after : List Char} {style : CommentStyle}

/-- A mark that occurs is found, there or earlier. -/
lemma breakOn_of_occurs (h : s = before ++ mark ++ rest) :
    ∃ b r, Text.breakOn mark s = some (b, r) ∧ b.length ≤ before.length := by
  induction s generalizing before with
  | nil =>
    obtain ⟨rfl, rfl, rfl⟩ : before = [] ∧ mark = [] ∧ rest = [] := by simpa using h.symm
    exact ⟨[], [], rfl, le_rfl⟩
  | cons c s ih =>
    rw [Text.breakOn]
    cases hafter : Text.after? mark (c :: s) with
    | some r => exact ⟨[], r, rfl, Nat.zero_le _⟩
    | none =>
      cases before with
      | nil =>
        rw [List.nil_append] at h
        rw [Text.after?_eq_some.mpr h] at hafter
        cases hafter
      | cons d before =>
        obtain ⟨-, h⟩ := List.cons.inj h
        obtain ⟨b, r, hb, hle⟩ := ih h
        exact ⟨c :: b, r, by rw [hb]; rfl, Nat.succ_le_succ hle⟩

lemma breakOn_eq_none_iff : Text.breakOn mark s = none ↔ ∀ b r, s ≠ b ++ mark ++ r := by
  constructor
  · intro h b r hs
    obtain ⟨b', r', hb, -⟩ := breakOn_of_occurs hs
    rw [h] at hb
    cases hb
  · intro h
    cases hb : Text.breakOn mark s with
    | none => rfl
    | some cut => exact absurd (Text.eq_of_breakOn hb) (h cut.1 cut.2)

/-- The mark behind `before` is the first one in the text. -/
lemma breakOn_eq_some_iff : Text.breakOn mark s = some (before, rest) ↔
    s = before ++ mark ++ rest ∧ ∀ b r, s = b ++ mark ++ r → before.length ≤ b.length := by
  constructor
  · intro h
    refine ⟨Text.eq_of_breakOn h, fun b r hs => ?_⟩
    obtain ⟨b', r', hb, hle⟩ := breakOn_of_occurs hs
    obtain ⟨rfl, rfl⟩ := Prod.mk.inj (Option.some.inj (h.symm.trans hb))
    exact hle
  · rintro ⟨hs, hfirst⟩
    obtain ⟨b, r, hb, hle⟩ := breakOn_of_occurs hs
    have hcut := Text.eq_of_breakOn hb
    have hlength : b.length = before.length := le_antisymm hle (hfirst b r hcut)
    rw [hcut, List.append_assoc, List.append_assoc] at hs
    obtain ⟨rfl, hrest⟩ := List.append_inj hs hlength
    rw [hb, List.append_cancel_left hrest]

/-- An opening mark that occurs is found, or another one before it. -/
lemma nextComment_of_occurs (h : s = before ++ style.opening ++ rest) :
    ∃ b st r, nextComment s = some (b, st, r) ∧ b.length ≤ before.length := by
  induction s generalizing before with
  | nil => cases style <;> simp [CommentStyle.opening] at h
  | cons c s ih =>
    rw [nextComment]
    cases ho : opened? (c :: s) with
    | some found => exact ⟨[], found.1, found.2, rfl, Nat.zero_le _⟩
    | none =>
      cases before with
      | nil =>
        rw [List.nil_append] at h
        rw [opened?_eq_some_iff.mpr h] at ho
        cases ho
      | cons d before =>
        obtain ⟨-, h⟩ := List.cons.inj h
        obtain ⟨b, st, r, hb, hle⟩ := ih h
        exact ⟨c :: b, st, r, by rw [hb]; rfl, Nat.succ_le_succ hle⟩

lemma nextComment_eq_none_iff :
    nextComment s = none ↔ ∀ st b r, s ≠ b ++ CommentStyle.opening st ++ r := by
  constructor
  · intro h st b r hs
    obtain ⟨b', st', r', hb, -⟩ := nextComment_of_occurs hs
    rw [h] at hb
    cases hb
  · intro h
    cases hb : nextComment s with
    | none => rfl
    | some found => exact absurd (eq_of_nextComment hb) (h found.2.1 found.1 found.2.2)

/-- The opening mark behind `before` is the first one of both kinds. -/
lemma nextComment_eq_some_iff : nextComment s = some (before, style, rest) ↔
    s = before ++ style.opening ++ rest ∧
      ∀ st b r, s = b ++ CommentStyle.opening st ++ r → before.length ≤ b.length := by
  constructor
  · intro h
    refine ⟨eq_of_nextComment h, fun st b r hs => ?_⟩
    obtain ⟨b', st', r', hb, hle⟩ := nextComment_of_occurs hs
    obtain ⟨rfl, -⟩ := Prod.mk.inj (Option.some.inj (h.symm.trans hb))
    exact hle
  · rintro ⟨hs, hfirst⟩
    obtain ⟨b, st, r, hb, hle⟩ := nextComment_of_occurs hs
    have hcut := eq_of_nextComment hb
    have hlength : b.length = before.length := le_antisymm hle (hfirst st b r hcut)
    rw [hcut, List.append_assoc, List.append_assoc] at hs
    obtain ⟨rfl, hrest⟩ := List.append_inj hs hlength
    -- at one place begins a comment of one kind
    have hopened := (opened?_eq_some_iff.mpr hrest).symm.trans (opened?_eq_some_iff.mpr rfl)
    rw [hb, ← Option.some.inj hopened]

end Marks

/-- The opening mark after `before` is the first one in the text. -/
def OpensFirst (before : List Char) (style : CommentStyle) (rest : List Char) : Prop :=
  ∀ st b r, before ++ style.opening ++ rest = b ++ CommentStyle.opening st ++ r →
    before.length ≤ b.length

/-- The closing mark after `body` is the first one of its kind. -/
def ClosesFirst (body : List Char) (style : CommentStyle) (after : List Char) : Prop :=
  ∀ b r, body ++ style.closing ++ after = b ++ style.closing ++ r → body.length ≤ b.length

/-- The text is cut from the left into these pieces. -/
inductive Cut : List Char → List Piece → Prop
  | plain {s : List Char}
      (h : ∀ style before rest, s ≠ before ++ CommentStyle.opening style ++ rest) :
      Cut s [.plain s]
  | unclosed {before rest : List Char} {style : CommentStyle} (hopen : OpensFirst before style rest)
      (h : ∀ body after, rest ≠ body ++ style.closing ++ after) :
      Cut (before ++ style.opening ++ rest) [.plain (before ++ style.opening ++ rest)]
  | comment {before body after : List Char} {style : CommentStyle} {ps : List Piece}
      (hopen : OpensFirst before style (body ++ style.closing ++ after))
      (hclose : ClosesFirst body style after) (h : Cut after ps) :
      Cut (before ++ style.opening ++ (body ++ style.closing ++ after))
        (.plain before :: .comment style body :: ps)

/-- A text is cut in one way. -/
theorem cut_iff {s : List Char} {ps : List Piece} : Cut s ps ↔ ps = pieces s := by
  constructor
  · intro h
    induction h with
    | plain h => exact (pieces_of_none (nextComment_eq_none_iff.mpr h)).symm
    | unclosed hopen h =>
      have hnext := nextComment_eq_some_iff.mpr ⟨rfl, hopen⟩
      exact (pieces_of_unclosed hnext (breakOn_eq_none_iff.mpr h)).symm
    | comment hopen hclose _ ih =>
      have hnext := nextComment_eq_some_iff.mpr ⟨rfl, hopen⟩
      rw [pieces_of_closed hnext (breakOn_eq_some_iff.mpr ⟨rfl, hclose⟩), ih]
  · rintro rfl
    fun_induction pieces s with
    | case1 s hn => exact .plain (nextComment_eq_none_iff.mp hn)
    | case2 s before style rest hn hb =>
      obtain ⟨rfl, hopen⟩ := nextComment_eq_some_iff.mp hn
      exact .unclosed hopen (breakOn_eq_none_iff.mp hb)
    | case3 s before style rest hn body after hb _ ih =>
      obtain ⟨rfl, hopen⟩ := nextComment_eq_some_iff.mp hn
      obtain ⟨rfl, hclose⟩ := breakOn_eq_some_iff.mp hb
      exact .comment hopen hclose ih

/-- Nothing is lost in the cut. -/
lemma Cut.text_eq {s : List Char} {ps : List Piece} (h : Cut s ps) : ps.flatMap Piece.text = s := by
  induction h with
  | plain h => simp [Piece.text]
  | unclosed hopen h => simp [Piece.text]
  | comment hopen hclose _ ih => simp [Piece.text, ih]

section Expansion

variable {store : Store} {base : String} {opened opened' : List Location}

lemma cyclePath?_of_subset (hsub : opened' ⊆ opened) {path : String}
    (h : cyclePath? store opened path = none) : cyclePath? store opened' path = none := by
  unfold cyclePath? at h ⊢
  split at h
  · simp only [ite_eq_right_iff, reduceCtorEq, imp_false] at h ⊢
    exact fun hmem => h (hsub hmem)
  · split at h
    · simp only [ite_eq_right_iff, reduceCtorEq, imp_false] at h ⊢
      exact fun hmem => h (hsub hmem)
    · rfl

/-- What can be expanded while some files are open can be expanded while fewer are, with the same
result. -/
theorem expandPieces_of_subset (base : String) (opened : List Location) (ps : List Piece) :
    ∀ opened' out, opened' ⊆ opened → (expandPieces store base opened ps).outcome = .ok out →
      (expandPieces store base opened' ps).outcome = .ok out := by
  fun_induction expandPieces store base opened ps with
  | case1 base opened =>
    intro opened' out _ h
    rw [expandPieces]
    exact h
  | case2 base opened rest text ih =>
    intro opened' out hsub h
    rw [expandPieces_plain, outcome_prefixed, map_eq_ok]
    rw [outcome_prefixed, map_eq_ok] at h
    obtain ⟨more, hmore, rfl⟩ := h
    exact ⟨more, ih opened' more hsub hmore, rfl⟩
  | case3 base opened rest style body hd ih =>
    intro opened' out hsub h
    rw [expandPieces_comment hd, outcome_prefixed, map_eq_ok]
    rw [outcome_prefixed, map_eq_ok] at h
    obtain ⟨more, hmore, rfl⟩ := h
    exact ⟨more, ih opened' more hsub hmore, rfl⟩
  | case4 base opened rest style body path hd full shown hc =>
    intro opened' out _ h
    cases h
  | case5 base opened rest style body path hd full hc e hf =>
    intro opened' out _ h
    cases h
  | case6 base opened rest style body path hd full hc l text hf hl ht hlt ih₁ ih₂ =>
    intro opened' out hsub h
    rw [Traced.outcome_report_bind] at h
    simp only [Traced.bind_ok, Traced.outcome_pure, Except.ok.injEq] at h
    obtain ⟨inner, hinner, more, hmore, rfl⟩ := h
    rw [expandPieces_include hd (cyclePath?_of_subset hsub hc) hf, Traced.outcome_report_bind]
    simp only [Traced.bind_ok, Traced.outcome_pure, Except.ok.injEq]
    refine ⟨inner, ih₁ _ inner ?_ hinner, more, ih₂ opened' more hsub hmore, rfl⟩
    exact List.cons_subset_cons l hsub

/-- What stands in the place of a piece of a text that lies in the directory `base`. -/
inductive Replaced (store : Store) (base : String) : Piece → List Char → Prop
  | plain (text : List Char) : Replaced store base (.plain text) text
  | comment (style : CommentStyle) {body : List Char} (hd : directive? body = none) :
      Replaced store base (.comment style body) (Piece.comment style body).text
  | file (style : CommentStyle) {body path : List Char} (hd : directive? body = some path)
      {l : Location} {text : String}
      (hf : store.file (Path.join base (String.ofList path)) = .ok (l, text)) {out : List Char}
      (h : (expand store ((Path.parent? (Path.join base (String.ofList path))).getD base)
        text.toList).outcome = .ok out) :
      Replaced store base (.comment style body) out

/-- The result is put together from what stands in the places of the pieces. -/
lemma replaced_of_ok {ps : List Piece} {out : List Char}
    (h : (expandPieces store base opened ps).outcome = .ok out) :
    ∃ parts, List.Forall₂ (Replaced store base) ps parts ∧ out = parts.flatten := by
  induction ps generalizing out with
  | nil =>
    rw [expandPieces] at h
    cases h
    exact ⟨[], .nil, rfl⟩
  | cons p rest ih =>
    cases p with
    | plain text =>
      rw [expandPieces_plain, outcome_prefixed, map_eq_ok] at h
      obtain ⟨more, hmore, rfl⟩ := h
      obtain ⟨parts, hparts, rfl⟩ := ih hmore
      exact ⟨text :: parts, .cons (.plain text) hparts, rfl⟩
    | comment style body =>
      cases hd : directive? body with
      | none =>
        rw [expandPieces_comment hd, outcome_prefixed, map_eq_ok] at h
        obtain ⟨more, hmore, rfl⟩ := h
        obtain ⟨parts, hparts, rfl⟩ := ih hmore
        exact ⟨_ :: parts, .cons (.comment style hd) hparts, rfl⟩
      | some path =>
        cases hc : cyclePath? store opened (Path.join base (String.ofList path)) with
        | some shown =>
          rw [expandPieces_cycle hd hc] at h
          cases h
        | none =>
          cases hf : store.file (Path.join base (String.ofList path)) with
          | error e =>
            rw [expandPieces_unreadable hd hc hf] at h
            cases h
          | ok found =>
            rw [expandPieces_include hd hc hf, Traced.outcome_report_bind] at h
            simp only [Traced.bind_ok, Traced.outcome_pure, Except.ok.injEq] at h
            obtain ⟨inner, hinner, more, hmore, rfl⟩ := h
            obtain ⟨parts, hparts, rfl⟩ := ih hmore
            have halone := expandPieces_of_subset _ _ _ [] inner (List.nil_subset _) hinner
            exact ⟨inner :: parts, .cons (.file style hd hf halone) hparts, rfl⟩

/-- Without directives the pieces are put together again. -/
lemma ok_of_no_directive {ps : List Piece}
    (h : ∀ style body, .comment style body ∈ ps → directive? body = none) :
    (expandPieces store base opened ps).outcome = .ok (ps.flatMap Piece.text) := by
  induction ps with
  | nil =>
    rw [expandPieces]
    rfl
  | cons p rest ih =>
    have hrest := ih fun style body hmem => h style body (List.mem_cons_of_mem _ hmem)
    cases p with
    | plain text => rw [expandPieces_plain, outcome_prefixed, hrest]; rfl
    | comment style body =>
      rw [expandPieces_comment (h style body List.mem_cons_self), outcome_prefixed, hrest]
      rfl

end Expansion

/-- A text is cut into pieces in one way, and nothing is lost. If its expansion succeeds, whatever
files are open, the result has each piece as it is, in order, except that in the place of a
directive stands the expansion of its file, taken by itself from the parent of the path of that
file, which is the directory that the file lies in. A text without directives is always expanded,
into itself. -/
theorem expansion_replaces_directives (store : Store) (base : String) (opened : List Location)
    (text : List Char) :
    (∀ ps, Cut text ps ↔ ps = pieces text) ∧ (pieces text).flatMap Piece.text = text ∧
    (∀ out, (expandPieces store base opened (pieces text)).outcome = .ok out →
      ∃ parts, List.Forall₂ (Replaced store base) (pieces text) parts ∧ out = parts.flatten) ∧
    (∀ path l inner, store.file path = .ok (l, inner) → store.isDirectory l = false →
      store.LiesIn l ((Path.parent? path).getD base)) ∧
    ((∀ style body, .comment style body ∈ pieces text → directive? body = none) →
      (expandPieces store base opened (pieces text)).outcome = .ok text) := by
  have htext := (cut_iff.mpr rfl : Cut text (pieces text)).text_eq
  refine ⟨fun ps => cut_iff, htext, fun out h => replaced_of_ok h, ?_, fun h => ?_⟩
  · intro path l inner h hl
    exact Store.liesIn_parent (Store.locate_of_file h).1 hl base
  · rw [ok_of_no_directive h, htext]

end PascalJvm.Include
