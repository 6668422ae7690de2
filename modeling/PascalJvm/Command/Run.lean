import PascalJvm.Command.Options
import PascalJvm.Compile
import PascalJvm.Text.Plain

/-!
# Running the command

The command as a function: from its arguments, its standard input and the files that it
finds to an exit status, two texts and the files that it leaves.
-/
namespace PascalJvm.Command

open Files

inductive CommandError
  /-- standard input is no text -/
  | cannotReadInput
  | cannotRead (path : String) (e : FileError)
  | cannotCreate (path : String) (e : FileError)
  | cannotWrite (path : String) (e : FileError)
  | compile (e : CompileError)

def CommandError.message : CommandError → String
  | cannotReadInput => "cannot read standard input: " ++ FileError.invalidText.message
  | cannotRead path e => "cannot read " ++ path ++ ": " ++ e.message
  | cannotCreate path e => "cannot create " ++ path ++ ": " ++ e.message
  | cannotWrite path e => "cannot write " ++ path ++ ": " ++ e.message
  | compile e => e.message

/-- The file that was asked for in vain. -/
def CommandError.path? : CommandError → Option String
  | cannotRead path _ | cannotCreate path _ | cannotWrite path _ => some path
  | compile (.inclusion (.unreadable path _)) => some path
  | compile _ | cannotReadInput => none

structure Outcome where
  exit : Nat
  stdout : String
  stderr : String
  store : Store
  failure : Option CommandError := none

/-- The source text and the directory that its includes are taken from. -/
def source (store : Store) (input : Option String) (stdin : ByteArray) :
    Except CommandError (String × String) :=
  match input with
  | none =>
      match String.fromUTF8? stdin with
      | some text => .ok (text, store.current.text)
      | none => .error .cannotReadInput
  | some path =>
      match store.read path with
      | .ok text => .ok (text, (Path.parent? path).getD ".")
      | .error e => .error (.cannotRead path e)

/-- The listings that the options ask for. -/
def compile (o : Options) (store : Store) (stdin : ByteArray) :
    Traced CommandError (List (String × String)) := do
  let (text, base) ← Traced.ofExcept (source store o.input stdin)
  let p ← (Compile.front store base text.toList).mapError .compile
  Traced.report (.program p.name p.globals.length p.routines.length p.records.length)
  let classes ← (Compile.back o.policy p).mapError .compile
  return Compile.listings (Compile.className p o.className) classes

/-- A store, and the error that stopped work on it. -/
structure Progress where
  store : Store
  events : List Event
  failure : Option CommandError

/-- Write each listing to a file in a directory, up to the first failure. -/
def writeListings (dir : String) (store : Store) : List (String × String) → Progress
  | [] => ⟨store, [], none⟩
  | (name, text) :: rest =>
      let path := Path.join dir (name ++ ".j")
      match store.write path text.toUTF8 with
      | .error e => ⟨store, [], some (.cannotWrite path e)⟩
      | .ok store =>
          let after := writeListings dir store rest
          { after with events := .wrote path :: after.events }

/-- Make the directory and write the listings. -/
def writeInto (dir : String) (store : Store) (listings : List (String × String)) : Progress :=
  match store.makeDirectories dir with
  | .error e => ⟨store, [], some (.cannotCreate dir e)⟩
  | .ok store => writeListings dir store listings

/-- The level of an event in a line of the log. -/
def paddedLevel (l : Level) : String :=
  l.name ++ String.ofList (List.replicate (5 - l.name.length) ' ')

/-- A message in the log: its lines but the first are set in. -/
def indented (message : String) : String :=
  Text.join "\n    " ((Text.split '\n' message.toList).map String.ofList)

/-- The text of an event in the log, which is plain. -/
def logLine (e : Event) : String :=
  let line := "[" ++ paddedLevel e.level ++ " " ++ e.origin ++ "] " ++ indented e.message ++ "\n"
  String.ofList (Text.plain line.toList)

/-- The lines of the log. There is one only if it is asked for, without the finest events. -/
def logText (verbose : Bool) (events : List Event) : String :=
  if verbose then
    String.join ((events.filter fun e => e.level.rank ≤ Level.debug.rank).map logLine)
  else ""

/-- The outcome of work that ended like this. -/
def conclude (o : Options) (stdout : String) (p : Progress) : Outcome :=
  let log := logText o.verbose p.events
  match p.failure with
  | none => ⟨0, stdout, log, p.store, none⟩
  | some e => ⟨1, stdout, log ++ "error: " ++ e.message ++ "\n", p.store, some e⟩

def runCompile (o : Options) (store : Store) (stdin : ByteArray) : Outcome :=
  let work := compile o store stdin
  match work.outcome, o.outDir with
  | .error e, _ => conclude o "" ⟨store, work.events, some e⟩
  | .ok listings, none =>
      conclude o (String.join (listings.map Prod.snd)) ⟨store, work.events, none⟩
  | .ok listings, some dir =>
      let written := writeInto dir store listings
      conclude o "" { written with events := work.events ++ written.events }

def versionText : String := "pascalc 0.1.0\n"

/-- Run the command. A misused command line has the exit status 2. -/
def run (args : List String) (stdin : ByteArray) (store : Store) : Outcome :=
  match Request.ofArguments args with
  | .compile o => runCompile o store stdin
  | .showVersion => ⟨0, versionText, "", store, none⟩
  | .showHelp => ⟨0, "", "", store, none⟩
  | .misuse => ⟨2, "", "", store, none⟩

end PascalJvm.Command
