import PascalJvm.Emit.Supply

/-!
# Command line options

Arguments are read from left to right, and the first one that ends the reading decides: a
request for the version or for help, or an error. No option may be given twice, and a path
may not be empty. After `--` every argument is the source path.
-/
namespace PascalJvm.Command

structure Options where
  /-- the source file; standard input if there is none -/
  input : Option String := none
  /-- the directory for the listings; standard output if there is none -/
  outDir : Option String := none
  className : Option String := none
  casePolicy : Option Emit.CasePolicy := none
  verbose : Bool := false
deriving Repr

/-- What the arguments ask for. -/
inductive Request
  | compile (o : Options)
  | showVersion
  | showHelp
  | misuse
deriving Repr

/-- Options that take a value. -/
inductive ValueOption
  | outDir
  | className
  | caseDuplicates
deriving DecidableEq, Repr

/-- Options that take none. -/
inductive Flag
  | verbose
  | version
  | help
deriving DecidableEq, Repr

/-- An option by its name. -/
inductive Named
  | valued (o : ValueOption)
  | flag (f : Flag)
deriving DecidableEq, Repr

def long? : String → Option Named
  | "out-dir" => some (.valued .outDir)
  | "class-name" => some (.valued .className)
  | "case-duplicates" => some (.valued .caseDuplicates)
  | "verbose" => some (.flag .verbose)
  | "version" => some (.flag .version)
  | "help" => some (.flag .help)
  | _ => none

def short? : Char → Option Named
  | 'o' => some (.valued .outDir)
  | 'v' => some (.flag .verbose)
  | 'V' => some (.flag .version)
  | 'h' => some (.flag .help)
  | _ => none

def policy? : String → Option Emit.CasePolicy
  | "reject" => some .reject
  | "last-wins" => some .lastWins
  | _ => none

namespace Options

/-- The case policy; without an option constants may not be repeated. -/
def policy (o : Options) : Emit.CasePolicy := o.casePolicy.getD .reject

/-- The options with a source path. -/
def withInput? (o : Options) (path : String) : Option Options :=
  if o.input.isSome || path.isEmpty then none else some { o with input := some path }

/-- The options with a value for one of them. -/
def withValue? (o : Options) (option : ValueOption) (value : String) : Option Options :=
  match option with
  | .outDir =>
      if o.outDir.isSome || value.isEmpty then none else some { o with outDir := some value }
  | .className =>
      if o.className.isSome then none else some { o with className := some value }
  | .caseDuplicates =>
      if o.casePolicy.isSome then none
      else (policy? value).map fun p => { o with casePolicy := some p }

/-- The effect of a flag: a request that ends the reading, or changed options. -/
def withFlag (o : Options) : Flag → Request ⊕ Options
  | .version => .inl .showVersion
  | .help => .inl .showHelp
  | .verbose => if o.verbose then .inl .misuse else .inr { o with verbose := true }

end Options

/-- What one argument does. -/
inductive Reading
  | done (r : Request)
  | next (o : Options)
  /-- the value of the option is the argument that follows -/
  | pending (o : Options) (option : ValueOption)

def Reading.ofOption : Option Options → Reading
  | some o => .next o
  | none => .done .misuse

/-- A long option, with the value that an equals sign joins to it. -/
def readLong (o : Options) (name : String) (value : Option String) : Reading :=
  match long? name, value with
  | some (.valued option), some v => .ofOption (o.withValue? option v)
  | some (.valued option), none => .pending o option
  | some (.flag f), none =>
      match o.withFlag f with
      | .inl r => .done r
      | .inr o => .next o
  | _, _ => .done .misuse

/-- Short options behind one dash. The rest behind an option that takes a value is its
value; an equals sign between them does not count. -/
def readShort (o : Options) : List Char → Reading
  | [] => .next o
  | c :: rest =>
      match short? c with
      | some (.flag f) =>
          match o.withFlag f with
          | .inl r => .done r
          | .inr o => readShort o rest
      | some (.valued option) =>
          match rest with
          | [] => .pending o option
          | '=' :: value => .ofOption (o.withValue? option (String.ofList value))
          | value => .ofOption (o.withValue? option (String.ofList value))
      | none => .done .misuse

/-- A long option without its dashes, cut at the first equals sign. -/
def cutLong (cs : List Char) : String × Option String :=
  let name := String.ofList (cs.takeWhile (· ≠ '='))
  match cs.dropWhile (· ≠ '=') with
  | [] => (name, none)
  | _ :: value => (name, some (String.ofList value))

/-- Whether an argument looks like an option. A single dash does not. -/
def looksLikeOption (arg : String) : Bool :=
  match arg.toList with
  | '-' :: _ :: _ => true
  | _ => false

def readArgument (o : Options) (arg : String) : Reading :=
  match arg.toList with
  | '-' :: '-' :: cs =>
      let (name, value) := cutLong cs
      readLong o name value
  | '-' :: c :: cs => readShort o (c :: cs)
  | _ => .ofOption (o.withInput? arg)

/-- The arguments after `--`. -/
def readPaths (o : Options) : List String → Request
  | [] => .compile o
  | path :: rest =>
      match o.withInput? path with
      | some o => readPaths o rest
      | none => .misuse

/-- Read the arguments. -/
def readFrom (o : Options) : List String → Request
  | [] => .compile o
  | arg :: rest =>
      if arg = "--" then readPaths o rest
      else
        match readArgument o arg with
        | .done r => r
        | .next o => readFrom o rest
        | .pending o option =>
            match rest with
            | [] => .misuse
            | value :: rest =>
                if looksLikeOption value then .misuse
                else
                  match o.withValue? option value with
                  | some o => readFrom o rest
                  | none => .misuse

/-- What the arguments of the command ask for. -/
def Request.ofArguments (args : List String) : Request := readFrom {} args

end PascalJvm.Command
