import PascalJvm.Files.Path

/-!
# A store of files

The directories and files that the compiler reads and writes. An entry is known by its
location, the names on the way to it from the root. Looking up a path follows its pieces:
a missing name and a step through a file are different errors. A path of any length leads to
a location (`locate`), but what is read or written is asked for by a path that is not too long
(`resolve`).
-/
namespace PascalJvm.Files

inductive FileError
  | notFound
  | alreadyExists
  | notDirectory
  | isDirectory
  | nameTooLong
  | nulInName
  | invalidText
deriving DecidableEq, Repr

def FileError.message : FileError → String
  | notFound => "No such file or directory (os error 2)"
  | alreadyExists => "File exists (os error 17)"
  | notDirectory => "Not a directory (os error 20)"
  | isDirectory => "Is a directory (os error 21)"
  | nameTooLong => "File name too long (os error 36)"
  | nulInName => "file name contained an unexpected NUL byte"
  | invalidText => "stream did not contain valid UTF-8"

/-- The names on the way to an entry, from the root. -/
abbrev Location := List String

/-- The absolute path of a location. -/
def Location.text (l : Location) : String := "/" ++ Text.join "/" l

/-- The location that an absolute path spells, whatever is there. -/
def Location.spelled? (path : String) : Option Location :=
  if Path.isAbsolute path then some (Path.names path) else none

/-- Refuse a path that nothing can be asked for by. -/
def vet (path : String) : Except FileError Unit :=
  if path.toList.contains '\x00' then .error .nulInName
  else if Path.maxBytes < path.utf8ByteSize then .error .nameTooLong
  else .ok ()

/-- The directories and files below one root. There are no symbolic links: an entry has one
location, so the absolute path of the location that a path leads to is its canonical form. -/
structure Store where
  /-- the directory that relative paths start from -/
  current : Location
  directories : List Location
  files : List (Location × ByteArray)

namespace Store

/-- The root always is a directory. -/
def isDirectory (s : Store) (l : Location) : Bool := l.isEmpty || s.directories.contains l

def isFile (s : Store) (l : Location) : Bool := (s.files.lookup l).isSome

/-- Whether there is an entry at a location. -/
def holds (s : Store) (l : Location) : Bool := s.isDirectory l || s.isFile l

/-- Follow pieces of a path from an entry. -/
def walk (s : Store) (l : Location) : List String → Except FileError Location
  | [] => .ok l
  | piece :: rest =>
      if !s.isDirectory l then .error .notDirectory
      else if Path.isIdle piece then walk s l rest
      else if piece = ".." then walk s l.dropLast rest
      else if Path.maxNameBytes < piece.utf8ByteSize then .error .nameTooLong
      else if s.holds (l ++ [piece]) then walk s (l ++ [piece]) rest
      else .error .notFound

/-- The pieces of a path from the root. -/
def fromRoot (s : Store) (path : String) : List String :=
  if Path.isAbsolute path then Path.pieces path else s.current ++ Path.pieces path

/-- The location of the entry that a path leads to. -/
def locate (s : Store) (path : String) : Except FileError Location :=
  if path.isEmpty then .error .notFound else s.walk [] (s.fromRoot path)

/-- The location of the entry that is asked for by a path. -/
def resolve (s : Store) (path : String) : Except FileError Location := do
  vet path
  s.locate path

/-- The text of the file at a location where there is an entry. -/
def textAt (s : Store) (l : Location) : Except FileError String :=
  match s.files.lookup l with
  | none => .error .isDirectory
  | some bytes =>
      match String.fromUTF8? bytes with
      | some text => .ok text
      | none => .error .invalidText

/-- The file that is asked for by a path: its location and its text. -/
def file (s : Store) (path : String) : Except FileError (Location × String) := do
  let l ← s.resolve path
  return (l, ← s.textAt l)

/-- A file that can be read lies where its path leads. -/
theorem locate_of_file {s : Store} {path : String} {l : Location} {text : String}
    (h : s.file path = .ok (l, text)) : s.locate path = .ok l ∧ s.textAt l = .ok text := by
  unfold file resolve at h
  cases ha : vet path with
  | error e => simp [ha, bind, Except.bind] at h
  | ok _ =>
      cases hl : s.locate path with
      | error e => simp [ha, hl, bind, Except.bind] at h
      | ok m =>
          cases ht : s.textAt m with
          | error e => simp [ha, hl, ht, bind, Except.bind] at h
          | ok t =>
              simp only [ha, hl, ht, bind, Except.bind, pure, Except.pure, Except.ok.injEq,
                Prod.mk.injEq] at h
              obtain ⟨rfl, rfl⟩ := h
              exact ⟨rfl, ht⟩

/-- The text of the file that is asked for by a path. -/
def read (s : Store) (path : String) : Except FileError String := do
  return (← s.file path).2

/-- The directory in which the pieces end, and the last piece. -/
def ending (s : Store) (pieces : List String) : Except FileError (Location × String) := do
  let l ← s.walk [] pieces.dropLast
  let name := pieces.getLastD ""
  if !s.isDirectory l then throw .notDirectory
  if Path.maxNameBytes < name.utf8ByteSize then throw .nameTooLong
  return (l, name)

/-- Pieces without the ones that slashes at the end leave. -/
def withoutSlashes (pieces : List String) : List String :=
  (pieces.reverse.dropWhile (· = "")).reverse

/-- Make a directory. Its parent must be there. -/
def makeDirectory (s : Store) (path : String) : Except FileError Store := do
  vet path
  match withoutSlashes (s.fromRoot path) with
  | [] => throw .alreadyExists
  | pieces =>
      let (l, name) ← s.ending pieces
      if name = "." || name = ".." || s.holds (l ++ [name]) then throw .alreadyExists
      return { s with directories := s.directories ++ [l ++ [name]] }

/-- Whether a path leads to a directory. -/
def leadsToDirectory (s : Store) (path : String) : Bool :=
  match s.resolve path with
  | .ok l => s.isDirectory l
  | .error _ => false

/-- Accept a failure to make a directory that is there. -/
def unlessThere (s : Store) (path : String) (e : FileError) : Except FileError Store :=
  if s.leadsToDirectory path then .ok s else .error e

/-- Make the first of these directories, each of which lies in the next one. -/
def makeChain (s : Store) : List String → Except FileError Store
  | [] => .error .notFound
  | path :: up =>
      if path.isEmpty then .ok s
      else
        match s.makeDirectory path with
        | .ok s => .ok s
        | .error .notFound => do
            let s ← makeChain s up
            match s.makeDirectory path with
            | .ok s => .ok s
            | .error e => s.unlessThere path e
        | .error e => s.unlessThere path e

/-- Make a directory and the directories that it lies in, as far as they are missing. -/
def makeDirectories (s : Store) (path : String) : Except FileError Store :=
  s.makeChain (Path.ancestors path)

/-- Put a file at a location, in place of the one that may be there. -/
def putFile (l : Location) (bytes : ByteArray) :
    List (Location × ByteArray) → List (Location × ByteArray)
  | [] => [(l, bytes)]
  | (m, old) :: rest => if m = l then (m, bytes) :: rest else (m, old) :: putFile l bytes rest

/-- Write a file. -/
def write (s : Store) (path : String) (bytes : ByteArray) : Except FileError Store := do
  vet path
  if path.isEmpty then throw .notFound
  let (l, name) ← s.ending (s.fromRoot path)
  if Path.isIdle name || name = ".." || s.isDirectory (l ++ [name]) then throw .isDirectory
  return { s with files := putFile (l ++ [name]) bytes s.files }

/-- The path from `base` to a location inside it. -/
def relative? (base l : Location) : Option String :=
  if base.isPrefixOf l then some (Text.join "/" (l.drop base.length)) else none

/-- The files that are new or different after a change. -/
def changed (before after : Store) : List (Location × ByteArray) :=
  after.files.filter fun (l, bytes) => !(before.files.lookup l).any (·.data = bytes.data)

/-- The changed files below the current directory, by their paths from there, sorted. -/
def changes (before after : Store) : List (String × ByteArray) :=
  let found := (changed before after).filterMap fun (l, bytes) =>
    (relative? after.current l).map fun path => (path, bytes)
  found.mergeSort fun a b => a.1 ≤ b.1

end Store
end PascalJvm.Files
