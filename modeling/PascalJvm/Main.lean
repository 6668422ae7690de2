import PascalJvm.Command.Run

/-!
# The command line program

The command works on a store. Here the store is filled from the disk with what the command
asks for: whenever it fails for want of a file, the entries on the way to that file are
fetched and the command runs again. What it changes in the store is then done on the disk.
-/
namespace PascalJvm.Main

open Files Command

/-- What the disk holds at a path: nothing, a directory, or a file with its bytes. -/
def probe (path : String) : IO (Option (Option ByteArray)) := do
  try
    return some (some (← IO.FS.readBinFile path))
  catch
    | .inappropriateType .. => return some none
    | _ => return none

/-- Fetch the entries on the way along the pieces of a path. -/
def fetchAlong (store : Store) (l : Location) : List String → IO Store
  | [] => return store
  | piece :: rest => do
      if Path.isIdle piece then fetchAlong store l rest
      else if piece = ".." then fetchAlong store l.dropLast rest
      else
        let next := l ++ [piece]
        if store.isDirectory next then fetchAlong store next rest
        else if store.isFile next then return store
        else
          match ← probe (Location.text next) with
          | none => return store
          | some (some bytes) => return { store with files := store.files ++ [(next, bytes)] }
          | some none =>
              fetchAlong { store with directories := store.directories ++ [next] } next rest

/-- Fetch the entries on the way to a path. -/
def fetch (store : Store) (path : String) : IO Store := fetchAlong store [] (store.fromRoot path)

def size (store : Store) : Nat := store.directories.length + store.files.length

/-- The paths that an outcome depends on and that may not have been fetched. -/
def wanted (store : Store) (r : Outcome) : List String :=
  (r.failure.bind CommandError.path?).toList ++
    (store.changed r.store).map fun f => Location.text f.1

/-- Run the command on a store that has all it asks for. -/
partial def settle (args : List String) (stdin : ByteArray) (store : Store) :
    IO (Store × Outcome) := do
  let r := run args stdin store
  let fetched ← (wanted store r).foldlM fetch store
  if size fetched = size store then return (store, r) else settle args stdin fetched

/-- Do on the disk what was done in the store. -/
def apply (before after : Store) : IO Unit := do
  for l in after.directories do
    unless before.isDirectory l do IO.FS.createDirAll (Location.text l)
  for (l, bytes) in before.changed after do
    IO.FS.writeBinFile (Location.text l) bytes

partial def readAll (input : IO.FS.Stream) (held : ByteArray) : IO ByteArray := do
  let bytes ← input.read 65536
  if bytes.isEmpty then return held else readAll input (held ++ bytes)

/-- Standard input, if the arguments ask for it. -/
def standardInput (args : List String) : IO ByteArray := do
  match Request.ofArguments args with
  | .compile ⟨none, _, _, _, _⟩ => readAll (← IO.getStdin) .empty
  | _ => return .empty

def usage : String := "usage: pascalc [OPTIONS] [INPUT]"

/-- What is told besides the outcome when nothing is compiled. -/
def advise (args : List String) : IO Unit :=
  match Request.ofArguments args with
  | .showHelp => IO.println usage
  | .misuse => IO.eprintln usage
  | _ => return ()

end PascalJvm.Main

open PascalJvm Main in
def main (args : List String) : IO UInt32 := do
  let current := toString (← IO.currentDir)
  let store ← fetch ⟨Files.Path.names current, [], []⟩ "."
  let (before, r) ← settle args (← standardInput args) store
  apply before r.store
  advise args
  IO.print r.stdout
  IO.eprint r.stderr
  return UInt32.ofNat r.exit
