import PascalJvm.Jvm.Class
import PascalJvm.Jvm.Quoted
import PascalJvm.Real.Text

/-!
# Listings

The assembler text of a class. Here instructions get their mnemonics and fields, methods
and types their descriptors, all relative to the name of the program class: the class of a
record is named after the program class and the record. Labels are numbered by their places
from the top of the method.
-/
namespace PascalJvm.Jvm

namespace Listing

def scanner : String := "java/util/Scanner"

def printStream : String := "java/io/PrintStream"

def recordClass (program record : String) : String := program ++ "$" ++ record

def ownerClass (program : String) : Owner → String
  | .program => program
  | .record r => recordClass program r

def descriptor (program : String) : Ty → String
  | .basic .integer | .enum _ => "I"
  | .basic .real => "F"
  | .basic .boolean => "Z"
  | .basic .char => "C"
  | .basic .string => "Ljava/lang/String;"
  | .record r _ => "L" ++ recordClass program r ++ ";"
  | .array _ _ elem => "[" ++ descriptor program elem

def paramDescriptor (program : String) : ParamDesc → String
  | .value t => descriptor program t
  | .cell t => "[" ++ descriptor program t

def resultDescriptor (program : String) : Option Ty → String
  | some t => descriptor program t
  | none => "V"

def methodDescriptor (program : String) (m : MethodRef) : String :=
  "(" ++ String.join (m.params.map (paramDescriptor program)) ++ ")" ++
    resultDescriptor program m.result

def fieldRef (program : String) (f : FieldRef) : String :=
  ownerClass program f.owner ++ "/" ++ f.name ++ " " ++ descriptor program f.ty

def relation : Relation → String
  | .eq => "eq"
  | .ne => "ne"
  | .lt => "lt"
  | .le => "le"
  | .gt => "gt"
  | .ge => "ge"

/-- The first letter of instructions on slots and on the operand stack. -/
def kindLetter : Kind → String
  | .int | .bool | .char => "i"
  | .float => "f"
  | .ref => "a"

/-- The first letter of instructions on array elements. -/
def elementLetter : Kind → String
  | .int => "i"
  | .float => "f"
  | .bool => "b"
  | .char => "c"
  | .ref => "a"

def arith : ArithOp → String
  | .add => "add"
  | .sub => "sub"
  | .mul => "mul"
  | .div => "div"
  | .rem => "rem"
  | .neg => "neg"
  | .and => "and"
  | .or => "or"
  | .xor => "xor"

/-- The first four slots have short forms. -/
def onSlot (mnemonic : String) (slot : Nat) : String :=
  mnemonic ++ (if slot ≤ 3 then "_" else " ") ++ toString slot

/-- The shortest instruction for an integer. -/
def pushInt (i : Int32) : String :=
  let n := i.toInt
  if n = -1 then "iconst_m1"
  else if 0 ≤ n && n ≤ 5 then "iconst_" ++ toString n
  else if -128 ≤ n && n ≤ 127 then "bipush " ++ toString n
  else if -32768 ≤ n && n ≤ 32767 then "sipush " ++ toString n
  else "ldc " ++ toString n

/-- Three reals have instructions of their own; a negative zero has none. -/
def pushReal (x : Single) : String :=
  if x = .zero then "fconst_0"
  else if x = .one then "fconst_1"
  else if x = .two then "fconst_2"
  else "ldc " ++ x.text

def pushText (s : String) : String := "ldc " ++ String.ofList (quote s.toList)

def newArray (program : String) : Ty → String
  | .basic .integer | .enum _ => "newarray int"
  | .basic .real => "newarray float"
  | .basic .boolean => "newarray boolean"
  | .basic .char => "newarray char"
  | .basic .string => "anewarray java/lang/String"
  | .record r _ => "anewarray " ++ recordClass program r
  | .array low len elem => "anewarray " ++ descriptor program (.array low len elem)

/-- A wrapper class and the descriptor of what it wraps. -/
def wrapper : Wrapper → String × String
  | .int => ("java/lang/Integer", "I")
  | .float => ("java/lang/Float", "F")
  | .bool => ("java/lang/Boolean", "Z")
  | .char => ("java/lang/Character", "C")

/-- The field of the program class that holds the shared scanner. -/
def scannerField (program : String) : String := program ++ "/_sysin L" ++ scanner ++ ";"

def primitive (program : String) : Primitive → List String
  | .standardOutput => ["getstatic java/lang/System/out L" ++ printStream ++ ";"]
  | .standardInput => ["getstatic " ++ scannerField program]
  | .openInput =>
      ["new " ++ scanner, "dup", "getstatic java/lang/System/in Ljava/io/InputStream;",
        "invokespecial " ++ scanner ++ "/<init>(Ljava/io/InputStream;)V",
        "putstatic " ++ scannerField program]
  | .objectInit => ["invokespecial java/lang/Object/<init>()V"]
  | .printPlain => ["invokevirtual " ++ printStream ++ "/print(Ljava/lang/String;)V"]
  | .printLine => ["invokevirtual " ++ printStream ++ "/println()V"]
  | .printFormatted =>
      ["invokevirtual " ++ printStream ++ "/printf(Ljava/lang/String;[Ljava/lang/Object;)L" ++
        printStream ++ ";"]
  | .readInt => ["invokevirtual " ++ scanner ++ "/nextInt()I"]
  | .readFloat => ["invokevirtual " ++ scanner ++ "/nextFloat()F"]
  | .readBool => ["invokevirtual " ++ scanner ++ "/nextBoolean()Z"]
  | .readToken => ["invokevirtual " ++ scanner ++ "/next()Ljava/lang/String;"]
  | .readLine => ["invokevirtual " ++ scanner ++ "/nextLine()Ljava/lang/String;"]
  | .useDelimiter =>
      ["invokevirtual " ++ scanner ++ "/useDelimiter(Ljava/lang/String;)L" ++ scanner ++ ";"]
  | .resetDelimiter => ["invokevirtual " ++ scanner ++ "/reset()L" ++ scanner ++ ";"]
  | .charAt => ["invokevirtual java/lang/String/charAt(I)C"]
  | .compareStrings => ["invokevirtual java/lang/String/compareTo(Ljava/lang/String;)I"]
  | .wrap w =>
      let (wrapperClass, wrapped) := wrapper w
      ["invokestatic " ++ wrapperClass ++ "/valueOf(" ++ wrapped ++ ")L" ++ wrapperClass ++ ";"]

/-- A number with at least three digits. -/
def threeDigits (n : Nat) : String :=
  let ds := toString n
  String.ofList (List.replicate (3 - ds.length) '0') ++ ds

/-- The name of a label, given the labels of the body from the top. -/
def labelName (labels : List Label) (l : Label) : String :=
  match labels.idxOf? l with
  | some n => "L" ++ threeDigits n
  | none => "L???"

/-- The lines of an instruction that is no label, without the margin. -/
def operation (program : String) (name : Label → String) : Instr → List String
  | .label _ => []
  | .goto l => ["goto " ++ name l]
  | .ifZero r l => ["if" ++ relation r ++ " " ++ name l]
  | .ifCompare r l => ["if_icmp" ++ relation r ++ " " ++ name l]
  | .lookupSwitch table default =>
      "lookupswitch" :: table.map (fun (k, l) => "  " ++ toString k.toInt ++ " : " ++ name l) ++
        ["  default : " ++ name default]
  | .ret none => ["return"]
  | .ret (some k) => [kindLetter k ++ "return"]
  | .pushInt i => [pushInt i]
  | .pushReal x => [pushReal x]
  | .pushText s => [pushText s]
  | .load k slot => [onSlot (kindLetter k ++ "load") slot]
  | .store k slot => [onSlot (kindLetter k ++ "store") slot]
  | .getStatic f => ["getstatic " ++ fieldRef program f]
  | .putStatic f => ["putstatic " ++ fieldRef program f]
  | .getField f => ["getfield " ++ fieldRef program f]
  | .putField f => ["putfield " ++ fieldRef program f]
  | .arrayLoad k => [elementLetter k ++ "aload"]
  | .arrayStore k => [elementLetter k ++ "astore"]
  | .newArray elem => [newArray program elem]
  | .newObjectArray => ["anewarray java/lang/Object"]
  | .newRecord r =>
      ["new " ++ recordClass program r, "dup",
        "invokespecial " ++ recordClass program r ++ "/<init>()V"]
  | .arith op k => [kindLetter k ++ arith op]
  | .intToFloat => ["i2f"]
  | .compareFloats => ["fcmpg"]
  | .dup => ["dup"]
  | .pop => ["pop"]
  | .invoke p => primitive program p
  | .invokeStatic m => ["invokestatic " ++ program ++ "/" ++ m.name ++ methodDescriptor program m]

/-- The lines of an instruction. Labels stand at the margin. -/
def instr (program : String) (name : Label → String) : Instr → List String
  | .label l => [name l ++ ":"]
  | i => (operation program name i).map ("    " ++ ·)

def code (program : String) (c : Code) : List String :=
  let labels := c.labels
  c.instrs.flatMap (instr program (labelName labels))

def methodHeader (program : String) : MethodRole → String
  | .constructor => "public <init>()V"
  | .main => "public static main([Ljava/lang/String;)V"
  | .routine m => "private static " ++ m.name ++ methodDescriptor program m

def method (program : String) (m : Method) : List String :=
  [".method " ++ methodHeader program m.role,
    "    .limit stack " ++ toString m.code.maxStack,
    "    .limit locals " ++ toString m.maxLocals, ""] ++
    code program m.code ++ [".end method"]

def fieldAccess : Owner → String
  | .program => "private static"
  | .record _ => "public"

def field (program : String) (owner : Owner) (f : FieldDecl) : String :=
  ".field " ++ fieldAccess owner ++ " " ++ f.name ++ " " ++ descriptor program f.ty

/-- The program class has a field for the scanner before its own. -/
def ownFields : Owner → List String
  | .program => [".field private static _sysin L" ++ scanner ++ ";"]
  | .record _ => []

def lines (program : String) (c : ClassFile) : List String :=
  [".class public " ++ ownerClass program c.role, ".super java/lang/Object", ""] ++
    ownFields c.role ++ c.fields.map (field program c.role) ++
    c.methods.flatMap fun m => "" :: method program m

end Listing

/-- The listing of a class, with its name. -/
def ClassFile.listing (program : String) (c : ClassFile) : String × String :=
  (Listing.ownerClass program c.role,
    String.join ((Listing.lines program c).map (· ++ "\n")))

end PascalJvm.Jvm
