/-!
# Searching and cutting text

Texts are lists of characters. `breakOn` cuts at the first occurrence of a mark,
`lines` cuts at line ends, and `byteSize` measures a text in UTF-8 bytes.
-/
namespace PascalJvm.Text

/-- The rest of `s` after `mark`, when `s` begins with it. -/
def after? (mark s : List Char) : Option (List Char) :=
  match mark, s with
  | [], s => some s
  | _ :: _, [] => none
  | m :: mark, c :: s => if m = c then after? mark s else none

theorem after?_eq_some {mark s rest : List Char} :
    after? mark s = some rest ↔ s = mark ++ rest := by
  induction mark generalizing s with
  | nil => simp [after?]
  | cons m mark ih =>
      cases s with
      | nil => simp [after?]
      | cons c s =>
          by_cases h : m = c
          · simp [after?, h, ih]
          · simp [after?, h, Ne.symm h]

/-- What stands before and after the first occurrence of `mark`. -/
def breakOn (mark : List Char) : List Char → Option (List Char × List Char)
  | [] => (after? mark []).map ([], ·)
  | c :: s =>
      match after? mark (c :: s) with
      | some rest => some ([], rest)
      | none => (breakOn mark s).map fun (before, rest) => (c :: before, rest)

theorem eq_of_breakOn {mark s before rest : List Char} (h : breakOn mark s = some (before, rest)) :
    s = before ++ mark ++ rest := by
  induction s generalizing before with
  | nil =>
      simp only [breakOn, Option.map_eq_some_iff, Prod.mk.injEq] at h
      obtain ⟨r, hr, rfl, rfl⟩ := h
      simpa using after?_eq_some.mp hr
  | cons c s ih =>
      rw [breakOn] at h
      split at h
      next r hr =>
        simp only [Option.some.injEq, Prod.mk.injEq] at h
        obtain ⟨rfl, rfl⟩ := h
        simpa using after?_eq_some.mp hr
      next =>
        simp only [Option.map_eq_some_iff, Prod.mk.injEq] at h
        obtain ⟨⟨b, r⟩, hb, rfl, rfl⟩ := h
        simp [ih hb]

/-- Whether `mark` occurs in `s`. -/
def contains (mark s : List Char) : Bool := (breakOn mark s).isSome

/-- Cut at line feeds; `held` is the current line so far, last character first. -/
def cutLines (held : List Char) : List Char → List (List Char)
  | [] => if held.isEmpty then [] else [held.reverse]
  | '\n' :: s =>
      match held with
      | '\r' :: held => held.reverse :: cutLines [] s
      | held => held.reverse :: cutLines [] s
  | c :: s => cutLines (c :: held) s

/-- Lines end at a line feed; one carriage return right before it belongs to the
line end. A last line without a line feed keeps all its characters. -/
def lines (s : List Char) : List (List Char) := cutLines [] s

/-- Length in UTF-8 bytes. -/
def byteSize (s : List Char) : Nat := s.foldl (fun n c => n + c.utf8Size) 0

/-- Cut at every occurrence of a character. The result is never empty. -/
def split (mark : Char) : List Char → List (List Char)
  | [] => [[]]
  | c :: s =>
      if c = mark then [] :: split mark s
      else
        match split mark s with
        | [] => [[c]]
        | piece :: rest => (c :: piece) :: rest

/-- Join texts, with `mark` between any two. -/
def join (mark : String) : List String → String
  | [] => ""
  | [s] => s
  | s :: rest => s ++ mark ++ join mark rest

end PascalJvm.Text
