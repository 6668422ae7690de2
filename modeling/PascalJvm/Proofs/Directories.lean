import Mathlib.Tactic
import PascalJvm.Files.Store
import PascalJvm.Proofs.Outcome

/-!
# The directory of a file

A path is put together from its pieces, and what it leads to depends on its names only. So the
parent of a path that leads to a file stands for the directory that the file lies in: a relative
path taken from the parent leads to where it leads from that directory.
-/
namespace PascalJvm.Text

variable {mark : Char} {s t : List Char}

lemma split_ne_nil : split mark s ≠ [] := by
  cases s with
  | nil => simp [split]
  | cons c s =>
    rw [split]
    split_ifs
    · simp
    · split <;> simp

lemma split_mark_cons : split mark (mark :: s) = [] :: split mark s := by
  rw [split, if_pos rfl]

lemma split_cons_of_ne {c : Char} (h : c ≠ mark) :
    ∃ piece rest, split mark s = piece :: rest ∧ split mark (c :: s) = (c :: piece) :: rest := by
  obtain ⟨piece, rest, hs⟩ := List.exists_cons_of_ne_nil (split_ne_nil : split mark s ≠ [])
  exact ⟨piece, rest, hs, by rw [split, if_neg h, hs]⟩

lemma not_mem_of_mem_split {piece : List Char} (h : piece ∈ split mark s) : mark ∉ piece := by
  induction s generalizing piece with
  | nil => simp_all [split]
  | cons c s ih =>
    by_cases hc : c = mark
    · subst hc
      rw [split_mark_cons, List.mem_cons] at h
      obtain rfl | h := h
      · exact List.not_mem_nil
      · exact ih h
    · obtain ⟨first, rest, hs, hcs⟩ := split_cons_of_ne (s := s) hc
      rw [hs] at ih
      rw [hcs, List.mem_cons] at h
      obtain rfl | h := h
      · simpa [Ne.symm hc] using ih List.mem_cons_self
      · exact ih (List.mem_cons_of_mem first h)

lemma split_of_not_mem (h : mark ∉ s) : split mark s = [s] := by
  induction s with
  | nil => rfl
  | cons c s ih =>
    rw [List.mem_cons, not_or] at h
    rw [split, if_neg (Ne.symm h.1), ih h.2]

/-- A mark in a text cuts it. -/
lemma split_append : split mark (s ++ mark :: t) = split mark s ++ split mark t := by
  induction s with
  | nil => rw [List.nil_append, split_mark_cons]; rfl
  | cons c s ih =>
    by_cases hc : c = mark
    · subst hc
      rw [List.cons_append, split_mark_cons, split_mark_cons, ih, List.cons_append]
    · obtain ⟨first, rest, hs, hcs⟩ := split_cons_of_ne (s := s) hc
      rw [List.cons_append, split, if_neg hc, ih, hs, hcs]
      rfl

end PascalJvm.Text

namespace PascalJvm.Files.Path

open Text

variable {p q : String} {ps : List String}

lemma pieces_ne_nil : pieces p ≠ [] := by
  simpa [pieces] using split_ne_nil

/-- The text has no slash in it. -/
def Slashless (piece : String) : Prop := '/' ∉ piece.toList

lemma slashless_of_mem_pieces {piece : String} (h : piece ∈ pieces p) : Slashless piece := by
  obtain ⟨cs, hcs, rfl⟩ := List.mem_map.mp h
  simpa [Slashless] using not_mem_of_mem_split hcs

lemma pieces_of_slashless (h : Slashless p) : pieces p = [p] := by
  rw [pieces, split_of_not_mem h]
  simp

lemma pieces_append_slash : pieces (p ++ "/" ++ q) = pieces p ++ pieces q := by
  have htext : (p ++ "/" ++ q).toList = p.toList ++ '/' :: q.toList := by simp
  rw [pieces, htext, split_append, List.map_append]
  rfl

/-- A text that is put together from pieces has these pieces. -/
lemma pieces_join (hne : ps ≠ []) (h : ∀ piece ∈ ps, Slashless piece) :
    pieces (Text.join "/" ps) = ps := by
  induction ps with
  | nil => exact absurd rfl hne
  | cons piece rest ih =>
    have hpiece := pieces_of_slashless (h piece List.mem_cons_self)
    cases rest with
    | nil => exact hpiece
    | cons next rest =>
      rw [Text.join, pieces_append_slash, hpiece,
        ih (List.cons_ne_nil _ _) fun x hx => h x (List.mem_cons_of_mem _ hx)]
      · rfl
      · simp

/-- A path is absolute if nothing stands before its first slash. -/
lemma isAbsolute_iff : isAbsolute p = true ↔ ∃ piece rest, pieces p = "" :: piece :: rest := by
  rw [isAbsolute, pieces]
  cases p.toList with
  | nil => simp [split]
  | cons c s =>
    by_cases hc : c = '/'
    · subst hc
      obtain ⟨piece, rest, hs⟩ := List.exists_cons_of_ne_nil (split_ne_nil : split '/' s ≠ [])
      simp [split_mark_cons, hs]
    · obtain ⟨first, rest, -, hcs⟩ := split_cons_of_ne (s := s) hc
      simp [hcs, hc]

/-- A text in front of a slash does not end in one if its last piece is no empty text. -/
lemma getLast?_ne_slash (h : (pieces p).getLast? ≠ some "") : p.toList.getLast? ≠ some '/' := by
  intro hlast
  obtain ⟨s, hs⟩ := List.getLast?_eq_some_iff.mp hlast
  apply h
  rw [pieces, hs, split_append]
  simp [split]

lemma filter_upToName : (upToName ps).filter (!isIdle ·) = ps.filter (!isIdle ·) := by
  induction ps using List.reverseRecOn with
  | nil => rfl
  | append_singleton ps piece ih =>
    rw [upToName, List.reverse_concat, List.dropWhile_cons]
    split_ifs with hidle
    · simpa [hidle, upToName] using ih
    · rw [List.reverse_cons, List.reverse_reverse]

lemma upToName_concat {name : String} (h : isIdle name = false) :
    upToName (ps ++ [name]) = ps ++ [name] := by
  simp [upToName, h]

lemma upToName_subset : upToName ps ⊆ ps := by
  intro piece h
  have := (List.dropWhile_sublist isIdle).subset (List.mem_reverse.mp h)
  exact List.mem_reverse.mp this

lemma isIdle_of_getLast?_upToName {piece : String} (h : (upToName ps).getLast? = some piece) :
    isIdle piece = false := by
  rw [upToName, List.getLast?_reverse] at h
  have := List.head?_dropWhile_not isIdle ps.reverse
  simpa [h] using this

lemma isAbsolute_of_pieces {first : String} {rest : List String} (h : pieces p = first :: rest)
    (hne : rest ≠ []) : isAbsolute p = decide (first = "") := by
  obtain ⟨next, rest, rfl⟩ := List.exists_cons_of_ne_nil hne
  rw [Bool.eq_iff_iff, isAbsolute_iff, h]
  simp

/-- A relative path adds its pieces to a path that does not end in a slash. -/
lemma pieces_join_relative (hp : isAbsolute p = false) (hq : (pieces q).getLast? ≠ some "") :
    pieces (join q p) = pieces q ++ pieces p := by
  have hempty : q.isEmpty = false := by
    rw [String.isEmpty_eq_false_iff]
    rintro rfl
    exact hq rfl
  rw [join, hp, hempty, Bool.false_or, if_neg Bool.false_ne_true, if_neg (getLast?_ne_slash hq),
    pieces_append_slash]

/-- A relative path that is taken from the parent of a path has the pieces of the parent in
front. They are the ones before the last name, up to pieces that are no names. -/
lemma pieces_join_parent {path name : String} {before : List String}
    (h : pieces path = before ++ [name]) (hname : isIdle name = false)
    (hp : isAbsolute p = false) (base : String) :
    ∃ up, pieces (join ((parent? path).getD base) p) = up ++ pieces p ∧
      up.head? = before.head? ∧ up.filter (!isIdle ·) = before.filter (!isIdle ·) := by
  cases before with
  | nil =>
    have hparent : parent? path = some "" := by
      have hne : name ≠ "" := by
        rintro rfl
        cases hname
      simp [parent?, h, upToName, hne]
    refine ⟨[], ?_, rfl, rfl⟩
    simp [hparent, join]
  | cons first more =>
    have hslash : ∀ piece ∈ first :: more, Slashless piece := fun piece hmem =>
      slashless_of_mem_pieces (h ▸ List.mem_append_left _ hmem)
    have hkept : (upToName more).filter (!isIdle ·) = more.filter (!isIdle ·) := filter_upToName
    cases hup : upToName more with
    | nil =>
      have hidle : more.filter (!isIdle ·) = [] := by rw [← hkept, hup]; rfl
      refine ⟨[first], ?_, rfl, by simp [List.filter_cons, hidle]⟩
      by_cases hfirst : first = ""
      · have hparent : parent? path = some "/" := by
          simp [parent?, h, upToName_concat hname, hup, hfirst]
        have hjoin : join "/" p = "" ++ "/" ++ p := by simp [join, hp]
        rw [hparent, Option.getD_some, hjoin, pieces_append_slash, hfirst]
        rfl
      · have hparent : parent? path = some first := by
          simp [parent?, h, upToName_concat hname, hup, hfirst]
        have hpieces := pieces_of_slashless (hslash first List.mem_cons_self)
        rw [hparent, Option.getD_some, pieces_join_relative hp (by simpa [hpieces] using hfirst),
          hpieces]
    | cons second kept =>
      have hparent : parent? path = some (Text.join "/" (first :: second :: kept)) := by
        simp [parent?, h, upToName_concat hname, hup]
      have hpieces : pieces (Text.join "/" (first :: second :: kept)) =
          first :: second :: kept := by
        refine pieces_join (List.cons_ne_nil _ _) fun piece hmem => hslash piece ?_
        rw [← hup] at hmem
        exact List.cons_subset_cons first upToName_subset hmem
      refine ⟨first :: second :: kept, ?_, rfl, ?_⟩
      · rw [hparent, Option.getD_some, pieces_join_relative hp, hpieces]
        intro hlast
        rw [hpieces, List.getLast?_cons_cons, ← hup] at hlast
        cases isIdle_of_getLast?_upToName hlast
      · rw [← hup, List.filter_cons, List.filter_cons, hkept]

/-- It is absolute if the path is. -/
lemma isAbsolute_of_head? {path name : String} {before up : List String}
    (h : pieces path = before ++ [name]) (hp : isAbsolute p = false)
    (hq : pieces q = up ++ pieces p) (hhead : up.head? = before.head?) :
    isAbsolute q = isAbsolute path := by
  cases before with
  | nil =>
    obtain rfl := List.head?_eq_none_iff.mp hhead
    have hpath : isAbsolute path = false := by
      rw [← Bool.not_eq_true, isAbsolute_iff, h]
      simp
    rw [hpath, ← hp, Bool.eq_iff_iff, isAbsolute_iff, isAbsolute_iff, hq, List.nil_append]
  | cons first more =>
    obtain ⟨kept, rfl⟩ := List.head?_eq_some_iff.mp hhead
    rw [isAbsolute_of_pieces hq (by simp [pieces_ne_nil]), isAbsolute_of_pieces h (by simp)]

lemma join_ne_empty (hp : p ≠ "") : (join q p).isEmpty = false := by
  rw [join]
  split_ifs <;> simp [hp]

end PascalJvm.Files.Path

namespace PascalJvm.Files.Store

open Files.Path

variable {s : Store} {l m d : Location} {ps qs : List String}

/-- The path `base` stands for the directory that the entry lies in: what is taken from `base` is
looked for there. -/
def LiesIn (s : Store) (l : Location) (base : String) : Prop :=
  ∀ p, p ≠ "" → isAbsolute p = false → s.locate (join base p) = s.walk l.dropLast (pieces p)

lemma walk_append : s.walk l (ps ++ qs) = s.walk l ps >>= fun m => s.walk m qs := by
  induction ps generalizing l with
  | nil => rfl
  | cons piece ps ih =>
    rw [List.cons_append, walk, walk]
    split_ifs
    · rfl
    · exact ih
    · exact ih
    · rfl
    · exact ih
    · rfl

lemma isDirectory_of_walk_cons {piece : String} (h : s.walk l (piece :: ps) = .ok m) :
    s.isDirectory l = true := by
  rw [walk] at h
  split_ifs at h with hdir
  all_goals simpa using hdir

/-- The way to a directory begins in a directory. -/
lemma isDirectory_of_walk (h : s.walk l ps = .ok d) (hd : s.isDirectory d = true) :
    s.isDirectory l = true := by
  cases ps with
  | nil =>
    obtain rfl := Except.ok.inj h
    exact hd
  | cons piece ps => exact isDirectory_of_walk_cons h

/-- The way to a directory depends on the names only. -/
lemma walk_filter_names (hd : s.isDirectory d = true) :
    s.walk l (ps.filter (!isIdle ·)) = .ok d ↔ s.walk l ps = .ok d := by
  induction ps generalizing l with
  | nil => rfl
  | cons piece ps ih =>
    by_cases hidle : isIdle piece = true
    · rw [List.filter_cons_of_neg (by simp [hidle]), ih, walk, if_pos hidle]
      constructor
      · intro h
        simpa [isDirectory_of_walk h hd] using h
      · intro h
        split_ifs at h
        exact h
    · rw [List.filter_cons_of_pos (by simp [hidle]), walk, walk]
      split_ifs <;> simp [ih]

/-- All the directories on the way to the entry are there. -/
def Rooted (s : Store) (l : Location) : Prop := ∀ m, m <+: l → m ≠ l → s.isDirectory m = true

lemma rooted_nil : s.Rooted [] := fun _ hm hne => absurd (List.prefix_nil.mp hm) hne

lemma Rooted.dropLast (h : s.Rooted l) : s.Rooted l.dropLast := by
  intro m hm hne
  refine h m (hm.trans (List.dropLast_prefix l)) ?_
  rintro rfl
  exact hne (hm.eq_of_length_le (List.dropLast_prefix m).length_le)

lemma Rooted.concat (h : s.Rooted l) (hl : s.isDirectory l = true) (name : String) :
    s.Rooted (l ++ [name]) := by
  intro m hm hne
  obtain rfl | hm := List.prefix_concat_iff.mp hm
  · exact absurd rfl hne
  · by_cases hml : m = l
    · exact hml ▸ hl
    · exact h m hm hml

/-- Where a path leads from the root, it leads through directories. -/
lemma Rooted.walk (h : s.Rooted l) (hw : s.walk l ps = .ok m) : s.Rooted m := by
  induction ps generalizing l with
  | nil =>
    obtain rfl := Except.ok.inj hw
    exact h
  | cons piece ps ih =>
    have hl := isDirectory_of_walk_cons hw
    rw [Store.walk] at hw
    split_ifs at hw
    · exact ih h hw
    · exact ih h.dropLast hw
    · exact ih (h.concat hl piece) hw

lemma Rooted.isDirectory_dropLast (h : s.Rooted l) : s.isDirectory l.dropLast = true := by
  cases l with
  | nil => rfl
  | cons name l =>
    refine h _ (List.dropLast_prefix _) fun heq => ?_
    have := congrArg List.length heq
    simp at this

/-- The way from the root to an entry that is no directory ends with the name of the entry in a
directory. -/
lemma walk_concat {piece : String} (h : s.walk [] (ps ++ [piece]) = .ok m)
    (hm : s.isDirectory m = false) :
    ∃ d, s.walk [] ps = .ok d ∧ s.isDirectory d = true ∧ m = d ++ [piece] ∧
      isIdle piece = false := by
  rw [walk_append] at h
  obtain ⟨d, hd, hlast⟩ := bind_eq_ok.mp h
  have hdir := isDirectory_of_walk_cons hlast
  have hup := (rooted_nil.walk hd).isDirectory_dropLast
  rw [walk] at hlast
  split_ifs at hlast with h1 h2 h3 h4 h5
  all_goals obtain rfl := Except.ok.inj hlast
  · simp [hdir] at hm
  · simp [hup] at hm
  · exact ⟨d, hd, hdir, rfl, by simpa using h2⟩

/-- A file lies in the parent of its path. -/
theorem liesIn_parent {path : String} (h : s.locate path = .ok l) (hl : s.isDirectory l = false)
    (base : String) : s.LiesIn l ((parent? path).getD base) := by
  intro p hne hp
  rw [locate] at h
  split_ifs at h
  have hpath := (List.dropLast_concat_getLast (pieces_ne_nil (p := path))).symm
  generalize (pieces path).dropLast = before at hpath
  generalize (pieces path).getLast pieces_ne_nil = name at hpath
  -- the pieces in front of a path that is as absolute as this one
  have hroot : ∀ q, isAbsolute q = isAbsolute path →
      s.fromRoot q = (if isAbsolute path then [] else s.current) ++ pieces q := by
    intro q hq
    rw [fromRoot, hq]
    split_ifs <;> rfl
  rw [hroot path rfl, hpath, ← List.append_assoc] at h
  obtain ⟨d, hd, hdir, rfl, hname⟩ := walk_concat h hl
  obtain ⟨up, hup, hhead, hfilter⟩ := pieces_join_parent hpath hname hp base
  have hwalk : s.walk [] ((if isAbsolute path then [] else s.current) ++ up) = .ok d := by
    rw [← walk_filter_names hdir, List.filter_append, hfilter, ← List.filter_append,
      walk_filter_names hdir]
    exact hd
  rw [locate, join_ne_empty hne, if_neg Bool.false_ne_true,
    hroot _ (isAbsolute_of_head? hpath hp hup hhead), hup, ← List.append_assoc, walk_append, hwalk,
    List.dropLast_concat]
  rfl

end PascalJvm.Files.Store
