import Mathlib.Tactic
import PascalJvm.Jvm.Listing

/-!
# Text constants in listings

A text constant stands in a listing in quotes. Its quoted form never breaks the line: it has no
control characters, and a double quote between the two that enclose it is always escaped. Reading
undoes quoting one character at a time: what is written for a character is read as this character
whatever comes after it (`unescape?_escape_append`), because each escape has a fixed length that its
first two characters settle. So the constant can be read off its line.
-/
namespace PascalJvm.Jvm

section HexDigits

variable {n : Nat}

lemma hexValue?_hexDigit (h : n < 16) : hexValue? (hexDigit n) = some n := by
  revert n
  decide

lemma isControl_hexDigit (h : n < 16) : isControl (hexDigit n) = false := by
  revert n
  decide

lemma hexDigit_ne (h : n < 16) : hexDigit n ≠ '"' ∧ hexDigit n ≠ '\\' := by
  revert n
  decide

lemma mem_hex4 {c : Char} (h : c ∈ hex4 n) : ∃ d < 16, c = hexDigit d := by
  simp only [hex4, List.mem_cons, List.not_mem_nil, or_false] at h
  rcases h with rfl | rfl | rfl | rfl
  all_goals exact ⟨_, Nat.mod_lt _ (by decide), rfl⟩

/-- Four digits are read as the number they are written for. -/
lemma hex4Value?_hexDigits (h : n < 0x10000) :
    hex4Value? (hexDigit (n / 0x1000 % 16)) (hexDigit (n / 0x100 % 16)) (hexDigit (n / 0x10 % 16))
      (hexDigit (n % 16)) = some n := by
  have hdigit (k : Nat) : hexValue? (hexDigit (k % 16)) = some (k % 16) :=
    hexValue?_hexDigit (Nat.mod_lt k (by decide))
  have hsum : 0x1000 * (n / 0x1000 % 16) + 0x100 * (n / 0x100 % 16) + 0x10 * (n / 0x10 % 16) +
      n % 16 = n := by omega
  simp only [hex4Value?, hdigit, Option.bind_eq_bind, Option.bind_some, Option.pure_def, hsum]

end HexDigits

/-- The escapes of two characters: what stands after the backslash, and what it means. -/
def shortEscapes : List (Char × Char) :=
  [('"', '"'), ('\\', '\\'), ('n', '\n'), ('t', '\t'), ('r', '\r')]

/-- A character is written by a short escape, by its code, or as it is. -/
lemma escape_cases (c : Char) :
    (∃ x, (x, c) ∈ shortEscapes ∧ escape c = ['\\', x]) ∨
    (isControl c = true ∧ escape c = '\\' :: 'u' :: hex4 c.toNat) ∨
    (c ≠ '"' ∧ c ≠ '\\' ∧ isControl c = false ∧ escape c = [c]) := by
  unfold escape
  split_ifs with hquote hback hline htab hreturn hcontrol
  · exact .inl ⟨'"', by simp [hquote, shortEscapes], rfl⟩
  · exact .inl ⟨'\\', by simp [hback, shortEscapes], rfl⟩
  · exact .inl ⟨'n', by simp [hline, shortEscapes], rfl⟩
  · exact .inl ⟨'t', by simp [htab, shortEscapes], rfl⟩
  · exact .inl ⟨'r', by simp [hreturn, shortEscapes], rfl⟩
  · exact .inr (.inl ⟨hcontrol, rfl⟩)
  · exact .inr (.inr ⟨hquote, hback, by simpa using hcontrol, rfl⟩)

section Reading

variable {c x : Char}

lemma unescape?_short (h : (x, c) ∈ shortEscapes) (s : List Char) :
    unescape? ('\\' :: x :: s) = (unescape? s).map (c :: ·) := by
  simp only [shortEscapes, List.mem_cons, Prod.mk.injEq, List.not_mem_nil, or_false] at h
  rcases h with ⟨rfl, rfl⟩ | ⟨rfl, rfl⟩ | ⟨rfl, rfl⟩ | ⟨rfl, rfl⟩ | ⟨rfl, rfl⟩
  all_goals rw [unescape?]

lemma unescape?_code (h : isControl c = true) (s : List Char) :
    unescape? ('\\' :: 'u' :: hex4 c.toNat ++ s) = (unescape? s).map (c :: ·) := by
  have hlt : c.toNat < 0xA0 := by
    simp only [isControl, Bool.or_eq_true, Bool.and_eq_true, decide_eq_true_eq] at h
    omega
  have hvalid : c.toNat.isValidChar := .inl (by omega)
  simp only [hex4, List.cons_append, List.nil_append, unescape?, hex4Char?,
    hex4Value?_hexDigits (show c.toNat < 0x10000 by omega), Option.bind_eq_bind, Option.bind_some,
    if_pos hvalid, Char.ofNat_toNat]

lemma unescape?_plain (hquote : c ≠ '"') (hback : c ≠ '\\') (s : List Char) :
    unescape? (c :: s) = (unescape? s).map (c :: ·) := by
  simp [unescape?, hquote, hback]

/-- What is written for a character is read as this character, whatever comes after it. -/
lemma unescape?_escape_append (c : Char) (s : List Char) :
    unescape? (escape c ++ s) = (unescape? s).map (c :: ·) := by
  rcases escape_cases c with ⟨x, hx, he⟩ | ⟨hcontrol, he⟩ | ⟨hquote, hback, -, he⟩
  · rw [he]
    exact unescape?_short hx s
  · rw [he]
    exact unescape?_code hcontrol s
  · rw [he]
    exact unescape?_plain hquote hback s

lemma unescape?_flatMap_escape (s : List Char) :
    unescape? (s.flatMap escape ++ ['"']) = some s := by
  induction s with
  | nil => rfl
  | cons c s ih =>
    rw [List.flatMap_cons, List.append_assoc, unescape?_escape_append, ih, Option.map_some]

lemma unquote?_quote (s : List Char) : unquote? (quote s) = some s := by
  rw [quote, List.cons_append, unquote?, unescape?_flatMap_escape]

lemma quote_injective : Function.Injective quote := by
  intro s t h
  have hread : some s = some t := by rw [← unquote?_quote s, h, unquote?_quote]
  exact Option.some.inj hread

end Reading

section Printable

variable {c x : Char}

lemma isControl_of_mem_escape (h : x ∈ escape c) : isControl x = false := by
  rcases escape_cases c with ⟨y, hy, he⟩ | ⟨-, he⟩ | ⟨-, -, hplain, he⟩
  · have hletters : ∀ p ∈ shortEscapes, isControl p.1 = false := by decide
    rw [he, List.mem_cons, List.mem_singleton] at h
    rcases h with rfl | rfl
    · rfl
    · exact hletters _ hy
  · rw [he, List.mem_cons, List.mem_cons] at h
    rcases h with rfl | rfl | h
    · rfl
    · rfl
    · obtain ⟨d, hd, rfl⟩ := mem_hex4 h
      exact isControl_hexDigit hd
  · rw [he, List.mem_singleton] at h
    rw [h, hplain]

lemma isControl_of_mem_quote {s : List Char} (h : x ∈ quote s) : isControl x = false := by
  simp only [quote, List.cons_append, List.mem_cons, List.mem_append, List.mem_flatMap,
    List.not_mem_nil, or_false] at h
  rcases h with rfl | ⟨c, -, hc⟩ | rfl
  · rfl
  · exact isControl_of_mem_escape hc
  · rfl

lemma newline_notMem_quote (s : List Char) : '\n' ∉ quote s := by
  intro h
  cases isControl_of_mem_quote h

end Printable

section Quotes

/-- How many backslashes a text ends with. They escape what comes after the text if and only if
their number is odd: two of them are an escaped backslash. -/
def endingBackslashes (s : List Char) : Nat := (s.reverse.takeWhile (· = '\\')).length

lemma endingBackslashes_append (s t : List Char) :
    endingBackslashes (s ++ t) =
      endingBackslashes t + if endingBackslashes t = t.length then endingBackslashes s else 0 := by
  unfold endingBackslashes
  rw [List.reverse_append, List.takeWhile_append, List.length_reverse]
  split_ifs with h
  · rw [h, List.length_append, List.length_reverse]
  · rw [Nat.add_zero]

/-- After what is written for a character nothing is escaped. -/
lemma even_endingBackslashes_escape (c : Char) : Even (endingBackslashes (escape c)) := by
  rcases escape_cases c with ⟨x, hx, he⟩ | ⟨-, he⟩ | ⟨-, hback, -, he⟩
  · have hletters : ∀ p ∈ shortEscapes, Even (endingBackslashes ['\\', p.1]) := by decide
    rw [he]
    exact hletters _ hx
  · have hdigit := (hexDigit_ne (Nat.mod_lt c.toNat (show 0 < 16 by decide))).2
    simp [he, hex4, endingBackslashes, hdigit]
  · simp [he, endingBackslashes, hback]

lemma odd_endingBackslashes_escape_append (c : Char) (s : List Char) :
    Odd (endingBackslashes (escape c ++ s)) ↔ Odd (endingBackslashes s) := by
  rw [endingBackslashes_append]
  split_ifs
  · rw [Nat.odd_add, iff_true_right (even_endingBackslashes_escape c)]
  · rw [Nat.add_zero]

/-- A quote is only written after a backslash. -/
lemma eq_backslash_of_escape {c : Char} {before after : List Char}
    (h : escape c = before ++ '"' :: after) : before = ['\\'] := by
  have hmem : '"' ∈ escape c := by simp [h]
  rcases escape_cases c with ⟨x, -, he⟩ | ⟨-, he⟩ | ⟨hquote, -, -, he⟩
  · rw [he] at h
    cases before with
    | nil => cases h
    | cons y b =>
      obtain ⟨rfl, hb⟩ := List.cons.inj h
      rcases List.append_eq_singleton_iff.mp hb.symm with ⟨rfl, -⟩ | ⟨-, hnil⟩
      · rfl
      · cases hnil
  · rw [he, List.mem_cons, List.mem_cons] at hmem
    obtain ⟨d, hd, hdigit⟩ := mem_hex4 (hmem.resolve_left (by decide) |>.resolve_left (by decide))
    exact absurd hdigit.symm (hexDigit_ne hd).1
  · rw [he, List.mem_singleton] at hmem
    exact absurd hmem.symm hquote

/-- Every quote between the enclosing ones is escaped. -/
lemma odd_endingBackslashes_before_quote {s before after : List Char}
    (h : s.flatMap escape = before ++ '"' :: after) : Odd (endingBackslashes before) := by
  induction s generalizing before with
  | nil => simp at h
  | cons c s ih =>
    rw [List.flatMap_cons] at h
    rcases List.append_eq_append_iff.mp h with ⟨b, rfl, hrest⟩ | ⟨b, he, hrest⟩
    -- what is written for a later character
    · rw [odd_endingBackslashes_escape_append]
      exact ih hrest
    -- what is written for `c`, unless the quote only begins after it
    · cases b with
      | nil =>
        have hfirst : Odd (endingBackslashes []) := ih hrest.symm
        simp [endingBackslashes] at hfirst
      | cons q b =>
        obtain ⟨rfl, rfl⟩ := List.cons.inj hrest
        rw [eq_backslash_of_escape he]
        decide

end Quotes

/-- What a quoted form `q` of a text `s` has to be: enclosed in double quotes, with no other quote
that is not escaped and with no control character, so with no line break, and read as `s`. -/
structure QuotedForm (s q : List Char) : Prop where
  enclosed : ∃ inner, q = '"' :: inner ++ ['"'] ∧
    ∀ before after, inner = before ++ '"' :: after → Odd (endingBackslashes before)
  printable {c : Char} (hc : c ∈ q) : isControl c = false
  unbroken : '\n' ∉ q
  readBack : unquote? q = some s

lemma quotedForm_quote (s : List Char) : QuotedForm s (quote s) where
  enclosed := ⟨s.flatMap escape, rfl, fun _ _ => odd_endingBackslashes_before_quote⟩
  printable := isControl_of_mem_quote
  unbroken := newline_notMem_quote s
  readBack := unquote?_quote s

namespace Listing

/-- The lines that strings fill if a line break follows each of them. A string with breaks of its
own fills several. -/
def printed (ls : List String) : List (List Char) := ls.flatMap fun l => l.toList.splitOn '\n'

lemma printed_append (ls ls' : List String) : printed (ls ++ ls') = printed ls ++ printed ls' := by
  rw [printed, List.flatMap_append, ← printed, ← printed]

/-- The line of a text constant. -/
def textLine (s : String) : String := "    ldc " ++ String.ofList (quote s.toList)

lemma newline_notMem_textLine (s : String) : '\n' ∉ (textLine s).toList := by
  have hmnemonic : '\n' ∉ "    ldc ".toList := by simp
  have hquoted : '\n' ∉ (String.ofList (quote s.toList)).toList := by
    rw [String.toList_ofList]
    exact newline_notMem_quote s.toList
  rw [textLine, String.toList_append, List.mem_append, not_or]
  exact ⟨hmnemonic, hquoted⟩

lemma instr_pushText (program : String) (name : Label → String) (s : String) :
    instr program name (.pushText s) = [textLine s] := by
  have hline : "    " ++ pushText s = textLine s := by
    rw [pushText, textLine, ← String.append_assoc]
    rfl
  rw [← hline]
  rfl

lemma printed_textLine_cons (s : String) (ls : List String) :
    printed (textLine s :: ls) = (textLine s).toList :: printed ls := by
  rw [printed, List.flatMap_cons, ← printed, List.splitOn_eq_singleton (newline_notMem_textLine s)]
  rfl

/-- The text of a listing has the lines that its strings fill, and nothing after the last break. -/
lemma splitOn_listing (program : String) (c : ClassFile) :
    (c.listing program).2.toList.splitOn '\n' = printed (lines program c) ++ [[]] := by
  have htext : (c.listing program).2.toList =
      (lines program c).flatMap fun l => l.toList ++ ['\n'] := by
    simp [ClassFile.listing, String.toList_join, List.flatMap_map]
  rw [htext, printed]
  induction lines program c with
  | nil => rfl
  | cons l ls ih =>
    rw [List.flatMap_cons, List.append_assoc, List.singleton_append, List.splitOn_append_cons_self,
      ih, List.flatMap_cons, List.append_assoc]

/-- The lines of a method's code stand together in the listing of its class. -/
lemma lines_around_code (program : String) {c : ClassFile} {m : Method} (hm : m ∈ c.methods) :
    ∃ before after, lines program c = before ++ code program m.code ++ after := by
  have hcode : code program m.code <:+: "" :: method program m :=
    List.infix_cons (List.infix_append _ _ _)
  have hmethod : "" :: method program m <:+: c.methods.flatMap fun m => "" :: method program m :=
    List.infix_of_mem_flatten (List.mem_map.mpr ⟨m, hm, rfl⟩)
  have hmethods : (c.methods.flatMap fun m => "" :: method program m) <:+: lines program c :=
    (List.suffix_append _ _).isInfix
  obtain ⟨before, after, h⟩ := hcode.trans (hmethod.trans hmethods)
  exact ⟨before, after, h.symm⟩

lemma code_of_append (program : String) {c : Code} {xs ys : List Instr} {ins : Instr}
    (h : c.instrs = xs ++ ins :: ys) :
    code program c = xs.flatMap (instr program (labelName c.labels)) ++
      instr program (labelName c.labels) ins ++ ys.flatMap (instr program (labelName c.labels)) := by
  rw [code, h, List.flatMap_append, List.flatMap_cons, List.append_assoc]

end Listing

/-- Text constants survive the listing: the quoted form of a text can be read back, so no two texts
share one, and a constant takes exactly one line of the listing of its class, between the lines of
the instructions before and after it. -/
theorem text_constants_survive_listing :
    (∀ s, QuotedForm s (quote s)) ∧ Function.Injective quote ∧
    (∀ (program : String) (name : Label → String) (s : String),
      Listing.instr program name (.pushText s) = [Listing.textLine s] ∧
        '\n' ∉ (Listing.textLine s).toList) ∧
    ∀ (program : String) (c : ClassFile) (m : Method) (s : String) (xs ys : List Instr),
      m ∈ c.methods → m.code.instrs = xs ++ .pushText s :: ys →
      ∃ before after, Listing.lines program c = before ++ Listing.code program m.code ++ after ∧
        (c.listing program).2.toList.splitOn '\n' =
          Listing.printed (before ++
            xs.flatMap (Listing.instr program (Listing.labelName m.code.labels))) ++
          (Listing.textLine s).toList :: Listing.printed
            (ys.flatMap (Listing.instr program (Listing.labelName m.code.labels)) ++ after) ++
          [[]] := by
  refine ⟨quotedForm_quote, quote_injective, ?_, ?_⟩
  · intro program name s
    exact ⟨Listing.instr_pushText program name s, Listing.newline_notMem_textLine s⟩
  · intro program c m s xs ys hm hs
    obtain ⟨before, after, hlines⟩ := Listing.lines_around_code program hm
    refine ⟨before, after, hlines, ?_⟩
    rw [Listing.splitOn_listing, hlines, Listing.code_of_append program hs, Listing.instr_pushText]
    simp only [Listing.printed_append, Listing.printed_textLine_cons, List.append_assoc,
      List.cons_append, List.nil_append]

/-- A bell before a hexadecimal digit, a backslash before the letters u and n, a quote, two line
breaks, one of them past ASCII, and a letter past 16 bits. -/
def bellText : String := "\x07f\\u0041\\n\"\n\u0085😀"

/-- Code that prints the text. -/
def bellMethod : Method :=
  ⟨.main, ⟨[.invoke .standardOutput, .pushText bellText, .invoke .printPlain, .ret none], 2⟩, 1⟩

def bellClass : ClassFile := ⟨.program, [], [bellMethod]⟩

theorem bellClass_constant_survives :
    bellMethod ∈ bellClass.methods ∧ bellMethod.code.instrs =
      [.invoke .standardOutput] ++ .pushText bellText :: [.invoke .printPlain, .ret none] ∧
    Listing.textLine bellText = "    ldc \"\\u0007f\\\\u0041\\\\n\\\"\\n\\u0085😀\"" ∧
    QuotedForm bellText.toList (quote bellText.toList) ∧
    ∃ before after,
      Listing.lines "p" bellClass = before ++ Listing.code "p" bellMethod.code ++ after ∧
      (bellClass.listing "p").2.toList.splitOn '\n' =
        Listing.printed (before ++ ["    getstatic java/lang/System/out Ljava/io/PrintStream;"]) ++
        (Listing.textLine bellText).toList :: Listing.printed
          (["    invokevirtual java/io/PrintStream/print(Ljava/lang/String;)V", "    return"] ++
            after) ++ [[]] := by
  have hm : bellMethod ∈ bellClass.methods := List.mem_singleton.mpr rfl
  obtain ⟨hquoted, -, -, hline⟩ := text_constants_survive_listing
  exact ⟨hm, rfl, by decide +kernel, hquoted _,
    hline "p" bellClass bellMethod bellText [.invoke .standardOutput] _ hm rfl⟩

end PascalJvm.Jvm
