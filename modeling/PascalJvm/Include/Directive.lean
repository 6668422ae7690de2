import PascalJvm.Text.Blank
import PascalJvm.Text.Search

/-!
# Include directives

A text is cut from the left into plain text and comments. A comment starts at the first
opening mark and ends at the first closing mark of the same kind after it. The text from an
opening mark that is never closed is plain. A comment whose body begins with `$I` names a file to include.
-/
namespace PascalJvm.Include

inductive CommentStyle
  | paren
  | brace
deriving DecidableEq, Repr

namespace CommentStyle

def opening : CommentStyle → List Char
  | paren => ['(', '*']
  | brace => ['\x7b']

def closing : CommentStyle → List Char
  | paren => ['*', ')']
  | brace => ['\x7d']

end CommentStyle

inductive Piece
  | plain (text : List Char)
  | comment (style : CommentStyle) (body : List Char)
deriving DecidableEq, Repr

/-- The text that a piece stands for. -/
def Piece.text : Piece → List Char
  | plain t => t
  | comment style body => style.opening ++ body ++ style.closing

/-- The kind of comment that begins here, and the text after its opening mark. -/
def opened? (s : List Char) : Option (CommentStyle × List Char) :=
  match Text.after? CommentStyle.paren.opening s with
  | some rest => some (.paren, rest)
  | none => (Text.after? CommentStyle.brace.opening s).map (.brace, ·)

theorem eq_of_opened? {s rest : List Char} {style : CommentStyle}
    (h : opened? s = some (style, rest)) : s = style.opening ++ rest := by
  unfold opened? at h
  split at h
  next r hr =>
    simp only [Option.some.injEq, Prod.mk.injEq] at h
    obtain ⟨rfl, rfl⟩ := h
    exact Text.after?_eq_some.mp hr
  next =>
    simp only [Option.map_eq_some_iff, Prod.mk.injEq] at h
    obtain ⟨r, hr, rfl, rfl⟩ := h
    exact Text.after?_eq_some.mp hr

/-- The first place where a comment begins: what stands before it, its kind, and the text
after its opening mark. -/
def nextComment : List Char → Option (List Char × CommentStyle × List Char)
  | [] => none
  | c :: s =>
      match opened? (c :: s) with
      | some (style, rest) => some ([], style, rest)
      | none => (nextComment s).map fun (before, found) => (c :: before, found)

theorem eq_of_nextComment {s before rest : List Char} {style : CommentStyle}
    (h : nextComment s = some (before, style, rest)) : s = before ++ style.opening ++ rest := by
  induction s generalizing before with
  | nil => simp [nextComment] at h
  | cons c s ih =>
      rw [nextComment] at h
      split at h
      next st r hr =>
        simp only [Option.some.injEq, Prod.mk.injEq] at h
        obtain ⟨rfl, rfl, rfl⟩ := h
        simpa using eq_of_opened? hr
      next =>
        simp only [Option.map_eq_some_iff, Prod.mk.injEq] at h
        obtain ⟨⟨b, st, r⟩, hb, rfl, hst⟩ := h
        simp only [Prod.mk.injEq] at hst
        obtain ⟨rfl, rfl⟩ := hst
        simp [ih hb]

/-- What follows a comment is shorter than the text that the comment stands in. -/
theorem length_after_comment_lt {s before rest body after : List Char} {style : CommentStyle}
    (hn : nextComment s = some (before, style, rest))
    (hb : Text.breakOn style.closing rest = some (body, after)) : after.length < s.length := by
  have hs := congrArg List.length (eq_of_nextComment hn)
  have hrest := congrArg List.length (Text.eq_of_breakOn hb)
  have hopening : 0 < style.opening.length := by cases style <;> decide
  simp only [List.length_append] at hs hrest
  omega

/-- Cut a text into plain text and comments. -/
def pieces (s : List Char) : List Piece :=
  match hn : nextComment s with
  | none => [.plain s]
  | some (before, style, rest) =>
      match hb : Text.breakOn style.closing rest with
      | none => [.plain s]
      | some (body, after) =>
          have := length_after_comment_lt hn hb
          .plain before :: .comment style body :: pieces after
termination_by s.length

/-- Take off one kind of quotes around a text. -/
def unquote (s : List Char) : List Char :=
  let quotedBy (q : Char) : Bool := s.head? = some q && s.getLast? = some q
  if (quotedBy '\'' || quotedBy '"') && s.length ≥ 2 then (s.drop 1).dropLast else s

/-- The file that the body of a comment asks to include. A letter right after `$I` makes it
another directive. -/
def directive? (body : List Char) : Option (List Char) :=
  match Text.trim body with
  | '$' :: c :: rest =>
      if (c = 'I' || c = 'i') && !(rest.head?.any Char.isAlpha) then
        match unquote (Text.trim rest) with
        | [] => none
        | path => some path
      else none
  | _ => none

end PascalJvm.Include
