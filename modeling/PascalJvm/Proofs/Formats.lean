import Mathlib.Tactic
import PascalJvm.Emit.Output
import PascalJvm.Proofs.WellTyped
import PascalJvm.Real.Text

/-!
# Reading format texts

How the host's formatter reads a text: a percent sign starts a directive, which has a minus sign
for justification to the left, a width, a precision after a point, and a conversion letter; two
percent signs stand for one. The formatter refuses a minus sign without a width, a width that
starts with zero, which would be a flag, and a precision where the letter takes none.

What is generated for the arguments of a write statement is read as these arguments: the
characters of each text as they are, and for each value one directive with the width that was
given for it (`read_formatText`).
-/
namespace PascalJvm.Formatted

open Typed

structure Directive where
  left : Bool
  width : Option Nat
  precision : Option Nat
  letter : Char
deriving DecidableEq, Repr

inductive Piece
  | char (c : Char)
  | directive (d : Directive)
deriving DecidableEq, Repr

def minus : List Char → Bool × List Char
  | '-' :: cs => (true, cs)
  | cs => (false, cs)

/-- A width, if there are digits. -/
def width? (cs : List Char) : Option (Option Nat × List Char) :=
  match cs.takeWhile Char.isDigit with
  | [] => some (none, cs)
  | d :: ds =>
      if d = '0' then none
      else some (some (Decimal.ofDigits (d :: ds)), cs.dropWhile Char.isDigit)

/-- A precision, if there is a point. -/
def precision? : List Char → Option (Option Nat × List Char)
  | '.' :: cs =>
      match cs.takeWhile Char.isDigit with
      | [] => none
      | d :: ds => some (some (Decimal.ofDigits (d :: ds)), cs.dropWhile Char.isDigit)
  | cs => some (none, cs)

/-- Whether a conversion letter takes a precision. -/
def takesPrecision? : Char → Option Bool
  | 'd' | 'c' => some false
  | 'f' | 'b' | 's' => some true
  | _ => none

/-- What comes after a percent sign. -/
def directive? (cs : List Char) : Option (Directive × List Char) := do
  let (left, cs) := minus cs
  let (width, cs) ← width? cs
  let (precision, cs) ← precision? cs
  let letter ← cs.head?
  let takes ← takesPrecision? letter
  if left && width.isNone || precision.isSome && !takes then none
  else return (⟨left, width, precision, letter⟩, cs.tail)

def piece? : List Char → Option (Piece × List Char)
  | [] => none
  | '%' :: '%' :: cs => some (.char '%', cs)
  | '%' :: cs => (directive? cs).map fun r => (.directive r.1, r.2)
  | c :: cs => some (.char c, cs)

section

variable {cs rest : List Char}

lemma length_minus (cs : List Char) : (minus cs).2.length ≤ cs.length := by
  unfold minus
  split <;> simp

lemma length_of_width? {n : Option Nat} (h : width? cs = some (n, rest)) :
    rest.length ≤ cs.length := by
  unfold width? at h
  split at h
  · cases h
    exact le_refl _
  · split_ifs at h
    cases h
    exact (List.dropWhile_suffix _).length_le

lemma length_of_precision? {n : Option Nat} (h : precision? cs = some (n, rest)) :
    rest.length ≤ cs.length := by
  unfold precision? at h
  split at h
  · split at h
    · cases h
    · cases h
      exact (List.dropWhile_suffix _).length_le.trans (by simp)
  · cases h
    exact le_refl _

lemma length_of_directive? {d : Directive} (h : directive? cs = some (d, rest)) :
    rest.length ≤ cs.length := by
  simp only [directive?, Option.bind_eq_bind, Option.bind_eq_some_iff, Prod.exists] at h
  obtain ⟨n, cs₁, hwidth, m, cs₂, hprecision, letter, -, takes, -, hd⟩ := h
  split_ifs at hd
  cases hd
  have h₀ := length_minus cs
  have h₁ := length_of_width? hwidth
  have h₂ := length_of_precision? hprecision
  simp only [List.length_tail]
  omega

lemma length_of_piece? {p : Piece} (h : piece? cs = some (p, rest)) :
    rest.length < cs.length := by
  unfold piece? at h
  split at h
  · cases h
  · cases h
    simp
  · simp only [Option.map_eq_some_iff, Prod.exists, Prod.mk.injEq] at h
    obtain ⟨d, cs', hd, -, rfl⟩ := h
    have := length_of_directive? hd
    simp
    omega
  · cases h
    simp

end

/-- Read a whole text; `none` if the formatter refuses it. -/
def read (cs : List Char) : Option (List Piece) :=
  if cs = [] then some []
  else
    match _h : piece? cs with
    | none => none
    | some (p, rest) => (read rest).map (p :: ·)
termination_by cs.length
decreasing_by exact length_of_piece? ‹_›

section

variable {cs rest : List Char}

@[simp] theorem read_nil : read [] = some [] := by rw [read, if_pos rfl]

lemma read_of_piece? {p : Piece} (h : piece? cs = some (p, rest)) :
    read cs = (read rest).map (p :: ·) := by
  rw [read]
  split_ifs with hcs
  · rw [hcs] at h
    cases h
  · split
    next hnone =>
      rw [h] at hnone
      cases hnone
    next p' rest' hsome =>
      rw [h] at hsome
      cases hsome
      rfl

/-- The front of a text that is all digits, up to something else. -/
lemma span_digits {ds : List Char} {c : Char} (hds : ∀ d ∈ ds, d.isDigit) (hc : c.isDigit = false)
    (rest : List Char) : (ds ++ c :: rest).takeWhile Char.isDigit = ds ∧
      (ds ++ c :: rest).dropWhile Char.isDigit = c :: rest := by
  induction ds with
  | nil => simp [hc]
  | cons d ds ih =>
    obtain ⟨hd, hds⟩ := List.forall_mem_cons.mp hds
    simp [hd, ih hds]

lemma isDigit_toDigits (n : Nat) : ∀ d ∈ Nat.toDigits 10 n, d.isDigit :=
  fun _ hd => Nat.isDigit_of_mem_toDigits (by omega) (by omega) hd

lemma ofDigits_toDigits (n : Nat) : Decimal.ofDigits (Nat.toDigits 10 n) = n :=
  Nat.ofDigitChars_toDigits (by omega) (by omega)

/-- Only zero is written with a zero in front. -/
lemma head_toDigits {n : Nat} (hn : n ≠ 0) : ∃ d ds, Nat.toDigits 10 n = d :: ds ∧ d ≠ '0' := by
  induction n using Nat.strongRecOn with
  | ind n ih =>
    by_cases hlt : n < 10
    · refine ⟨n.digitChar, [], Nat.toDigits_of_lt_base hlt, ?_⟩
      interval_cases n <;> simp_all [Nat.digitChar]
    · obtain ⟨d, ds, hds, hd⟩ := ih (n / 10) (by omega) (by omega)
      refine ⟨d, ds ++ [(n % 10).digitChar], ?_, hd⟩
      rw [Nat.toDigits_of_base_le (by omega) (by omega), hds, List.cons_append]

lemma width?_of_number {n : Nat} {c : Char} (hn : n ≠ 0) (hc : c.isDigit = false) :
    width? (Nat.toDigits 10 n ++ c :: rest) = some (some n, c :: rest) := by
  obtain ⟨htake, hdrop⟩ := span_digits (isDigit_toDigits n) hc rest
  obtain ⟨d, ds, hds, hd⟩ := head_toDigits hn
  have hvalue := ofDigits_toDigits n
  rw [width?, htake, hdrop, hds]
  rw [hds] at hvalue
  simp [hd, hvalue]

lemma width?_of_none {c : Char} (hc : c.isDigit = false) :
    width? (c :: rest) = some (none, c :: rest) := by
  simp [width?, hc]

lemma precision?_of_number (n : Nat) {c : Char} (hc : c.isDigit = false) :
    precision? ('.' :: (Nat.toDigits 10 n ++ c :: rest)) = some (some n, c :: rest) := by
  obtain ⟨htake, hdrop⟩ := span_digits (isDigit_toDigits n) hc rest
  obtain ⟨d, ds, hds⟩ := List.exists_cons_of_ne_nil (Nat.toDigits_ne_nil (n := n) (b := 10))
  have hvalue := ofDigits_toDigits n
  rw [precision?, htake, hdrop, hds]
  rw [hds] at hvalue
  simp [hvalue]

lemma precision?_of_none {c : Char} (hc : c ≠ '.') :
    precision? (c :: rest) = some (none, c :: rest) := by
  unfold precision?
  split <;> simp_all

end

/-- The directive for a value of a type. -/
def Directive.ofWidth (t : Ty) (width : Option FieldWidth) : Directive where
  left := width.any FieldWidth.left
  width := width.map FieldWidth.width
  precision := width.bind FieldWidth.decimals
  letter := Emit.conversion t

section

variable {t : Ty} {rest : List Char}

lemma letter_cases (t : Ty) : ∃ takes, takesPrecision? (Emit.conversion t) = some takes ∧
    (t.is .real = true → takes = true) ∧ (Emit.conversion t).isDigit = false ∧
    Emit.conversion t ≠ '.' ∧ Emit.conversion t ≠ '-' ∧ Emit.conversion t ≠ '%' := by
  cases t with
  | basic b => cases b <;> simp [Emit.conversion, takesPrecision?, Ty.is]
  | _ => simp [Emit.conversion, takesPrecision?, Ty.is]

lemma minus_of_ne {c : Char} (hc : c ≠ '-') : minus (c :: rest) = (false, c :: rest) := by
  unfold minus
  split <;> simp_all

lemma precision?_decimalsText (decimals : Option Nat) {c : Char} (hc : c.isDigit = false)
    (hpoint : c ≠ '.') : precision? ((Emit.decimalsText decimals).toList ++ c :: rest) =
      some (decimals, c :: rest) := by
  cases decimals with
  | none => exact precision?_of_none hpoint
  | some n => simpa [Emit.decimalsText] using precision?_of_number n hc

lemma width?_before_decimals {n : Nat} (hn : n ≠ 0) (decimals : Option Nat) {c : Char}
    (hc : c.isDigit = false) :
    width? (Nat.toDigits 10 n ++ ((Emit.decimalsText decimals).toList ++ c :: rest)) =
      some (some n, (Emit.decimalsText decimals).toList ++ c :: rest) := by
  cases decimals with
  | none => exact width?_of_number hn hc
  | some m => simpa [Emit.decimalsText] using width?_of_number hn (by decide)

lemma minus_sign (left : Bool) {n : Nat} (rest : List Char) :
    minus ((if left then "-" else "").toList ++ (Nat.toDigits 10 n ++ rest)) =
      (left, Nat.toDigits 10 n ++ rest) := by
  cases left with
  | true => rfl
  | false =>
    obtain ⟨d, ds, hds⟩ := List.exists_cons_of_ne_nil (Nat.toDigits_ne_nil (n := n) (b := 10))
    have hd : d ≠ '-' := by
      rintro rfl
      have := isDigit_toDigits n '-' (by simp [hds])
      cases this
    rw [hds]
    exact minus_of_ne hd

/-- The text of a directive is read as the directive. -/
lemma directive?_widthText {width : Option FieldWidth}
    (hwidth : ∀ w ∈ width, w.width ≠ 0 ∧ (w.decimals.isNone || t.is .real) = true) :
    directive? ((Emit.widthText width).toList ++ Emit.conversion t :: rest) =
      some (.ofWidth t width, rest) := by
  obtain ⟨takes, htakes, hreal, hdigit, hpoint, hminus, -⟩ := letter_cases t
  cases width with
  | none =>
    have hstart : (Emit.widthText none).toList ++ Emit.conversion t :: rest =
      Emit.conversion t :: rest := rfl
    simp [directive?, hstart, minus_of_ne hminus, width?_of_none hdigit, precision?_of_none hpoint,
      htakes, Directive.ofWidth]
  | some w =>
    obtain ⟨hzero, hdecimals⟩ := hwidth w rfl
    have hstart : (Emit.widthText (some w)).toList ++ Emit.conversion t :: rest =
        (if w.left then "-" else "").toList ++ (Nat.toDigits 10 w.width ++
          ((Emit.decimalsText w.decimals).toList ++ Emit.conversion t :: rest)) := by
      simp [Emit.widthText]
    have hallowed : w.decimals.isSome = true → takes = true := by
      intro hsome
      exact hreal (by simpa [Option.isNone_iff_eq_none, Option.isSome_iff_ne_none.mp hsome] using
        hdecimals)
    simpa [directive?, hstart, minus_sign, width?_before_decimals hzero _ hdigit,
      precision?_decimalsText _ hdigit hpoint, htakes, Directive.ofWidth] using hallowed

end

lemma piece?_of_directive {cs rest : List Char} {d : Directive}
    (h : directive? cs = some (d, rest)) : piece? ('%' :: cs) = some (.directive d, rest) := by
  by_cases hpercent : ∃ cs', cs = '%' :: cs'
  · obtain ⟨cs', rfl⟩ := hpercent
    simp [directive?, minus, width?, precision?, takesPrecision?] at h
  · rw [piece?, h]
    · rfl
    · exact fun cs' hcs => hpercent ⟨cs', hcs⟩

/-- What an argument of a write statement stands for. -/
def pieces : WriteArg → List Piece
  | .literal s => s.toList.map .char
  | .value e width => [.directive (.ofWidth e.ty width)]

section

variable {Γ : Variables} {rest : List Char}

lemma read_doublePercent (s : String) :
    read ((Emit.doublePercent s).toList ++ rest) = (read rest).map (s.toList.map .char ++ ·) := by
  rw [Emit.doublePercent, String.toList_ofList]
  induction s.toList with
  | nil => simp
  | cons c cs ih =>
    have hpiece : piece? ((if c = '%' then ['%', '%'] else [c]) ++ (cs.flatMap (fun c =>
        if c = '%' then ['%', '%'] else [c]) ++ rest)) = some (.char c, cs.flatMap (fun c =>
        if c = '%' then ['%', '%'] else [c]) ++ rest) := by
      split_ifs with hc
      · rw [hc]
        rfl
      · unfold piece?
        split <;> simp_all
    rw [List.flatMap_cons, List.append_assoc, read_of_piece? hpiece, ih, Option.map_map]
    rfl

lemma read_formatPiece {a : WriteArg} (h : a.WellTyped Γ) :
    read ((Emit.formatPiece true a).toList ++ rest) = (read rest).map (pieces a ++ ·) := by
  cases a with
  | literal s => exact read_doublePercent s
  | value e width =>
    obtain ⟨-, -, hwidth⟩ := h
    have htext : (Emit.formatPiece true (.value e width)).toList ++ rest =
        '%' :: ((Emit.widthText width).toList ++ Emit.conversion e.ty :: rest) := by
      simp [Emit.formatPiece, Emit.directive]
    have hpiece : piece? ('%' :: ((Emit.widthText width).toList ++ Emit.conversion e.ty :: rest)) =
        some (.directive (.ofWidth e.ty width), rest) :=
      piece?_of_directive (directive?_widthText hwidth)
    rw [htext, read_of_piece? hpiece]
    rfl

lemma read_formatPieces {args : List WriteArg} (h : ∀ a ∈ args, a.WellTyped Γ) :
    read ((String.join (args.map (Emit.formatPiece true))).toList ++ rest) =
      (read rest).map (args.flatMap pieces ++ ·) := by
  induction args with
  | nil => simp
  | cons a args ih =>
    obtain ⟨ha, hargs⟩ := List.forall_mem_cons.mp h
    rw [List.map_cons, String.join_cons, String.toList_append, List.append_assoc,
      read_formatPiece ha, ih hargs, Option.map_map, List.flatMap_cons]
    simp [Function.comp_def]

/-- The format text of a list of arguments is read as the arguments. -/
theorem read_formatText {line : Bool} {args : List WriteArg} (h : ∀ a ∈ args, a.WellTyped Γ)
    (hvalues : Emit.writtenValues args ≠ []) : read (Emit.formatText line args).toList =
      some (args.flatMap pieces ++ if line then [.char '\n'] else []) := by
  have hformatted : (!(Emit.writtenValues args).isEmpty) = true := by simpa using hvalues
  have hend : read (if line then "\n" else "").toList =
      some (if line then [.char '\n'] else []) := by
    cases line with
    | false => exact read_nil
    | true =>
      have hpiece : piece? "\n".toList = some (.char '\n', []) := rfl
      rw [if_pos rfl, read_of_piece? hpiece, read_nil]
      rfl
  simp only [Emit.formatText, hformatted, String.toList_append]
  rw [read_formatPieces h, hend, Option.map_some]

/-- Without values the text is printed as it is. -/
theorem formatText_of_literals {line : Bool} {args : List WriteArg}
    (hvalues : Emit.writtenValues args = []) : ∃ literals : List String,
      args = literals.map .literal ∧
      Emit.formatText line args = String.join literals ++ if line then "\n" else "" := by
  have hliterals : ∃ literals : List String, args = literals.map .literal := by
    induction args with
    | nil => exact ⟨[], rfl⟩
    | cons a args ih =>
      cases a with
      | literal s =>
        obtain ⟨literals, rfl⟩ := ih hvalues
        exact ⟨s :: literals, rfl⟩
      | value e width => cases hvalues
  obtain ⟨literals, rfl⟩ := hliterals
  refine ⟨literals, rfl, ?_⟩
  simp only [Emit.formatText, hvalues, List.isEmpty_nil, Bool.not_true, List.map_map]
  congr 2
  exact List.map_id literals

end

end PascalJvm.Formatted
