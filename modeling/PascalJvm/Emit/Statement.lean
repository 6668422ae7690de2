import PascalJvm.Emit.Input
import PascalJvm.Emit.Output

/-!
# Code for statements

Each statement leaves the operand stack as it found it. The shapes are

* `if`: condition, jump to `then`, else part, jump to the end, `then`, end;
* `while`: top, condition, jump to the exit, body, jump to the top, exit;
* `repeat`: top, body, condition, jump to the exit, jump to the top, exit;
* `for`: assignment, top, limit, counter, jump to the exit, body, step, jump to the top, exit;
* `case`: selector, table, the branches with a jump to the end after each, default, end.
-/
namespace PascalJvm.Emit

open Jvm Typed

def asm (code : List Instr) : List Op := code.map .emit

/-- Report a statement before its code. -/
def entering (kind : String) (x : Gen (List Op)) : Gen (List Op) := do
  return .enter kind :: (← x)

/-- A table of a case statement, ascending by constant. -/
abbrev CaseTable := List (Int32 × Label)

/-- Add an entry in its place; an entry for the same constant is replaced. -/
def CaseTable.put (value : Int32) (l : Label) : CaseTable → CaseTable
  | [] => [(value, l)]
  | (v, m) :: rest =>
      if value < v then (value, l) :: (v, m) :: rest
      else if value = v then (value, l) :: rest
      else (v, m) :: put value l rest

/-- Add the constants of a branch. -/
def CaseTable.addBranch (policy : CasePolicy) (l : Label) (table : CaseTable) :
    List Int32 → Except EmitError CaseTable
  | [] => .ok table
  | v :: rest =>
      if policy = .reject && (table.lookup v).isSome then .error (.duplicateConstant v)
      else addBranch policy l (put v l table) rest

/-- A label for each branch, and the table with the constants of all. -/
def caseTable (policy : CasePolicy) (table : CaseTable) :
    List (List Int32) → Gen (List Label × CaseTable)
  | [] => return ([], table)
  | values :: rest => do
      if values.isEmpty then throw .branchWithoutConstants
      let l ← freshLabel
      let table ← (table.addBranch policy l values : Except EmitError CaseTable)
      let (labels, table) ← caseTable policy table rest
      return (l :: labels, table)

/-- Where control goes when no constant fits: to the default part if there is one. -/
def defaultLabel (done : Label) (hasDefault : Bool) : Gen Label :=
  if hasDefault then freshLabel else return done

/-- The counter steps by one. -/
def stepCounter (counter : Designator) (down : Bool) : Gen (List Instr) := do
  let codeAddress ← address counter.place
  let codeLoad ← load counter
  return codeAddress ++ codeLoad ++ [.pushInt 1, .arith (if down then .sub else .add) .int] ++
    store counter.ty counter.place

mutual

def stmt (policy : CasePolicy) : Stmt → Gen (List Op)
  | .empty => entering Stmt.empty.kind (return [])
  | .compound body => entering (Stmt.compound body).kind (stmts policy body)
  | .assign target value => entering (Stmt.assign target value).kind do
      return asm (← assign target value)
  | .ifThen cond yes no => entering (Stmt.ifThen cond yes no).kind do
      let yesLabel ← freshLabel
      let done ← freshLabel
      let codeCond ← expr cond
      let codeNo ← optional policy no
      let codeYes ← stmt policy yes
      return asm (codeCond ++ [.ifZero .ne yesLabel]) ++ codeNo ++
        asm [.goto done, .label yesLabel] ++ codeYes ++ asm [.label done]
  | .caseOf selector branches otherwise => entering (Stmt.caseOf selector branches otherwise).kind do
      let done ← freshLabel
      let (labels, table) ← caseTable policy [] (branches.map Prod.fst)
      let default ← defaultLabel done otherwise.isSome
      let codeSelector ← expr selector
      let codeBranches ← arms policy done labels branches
      let codeDefault ← optional policy otherwise
      return asm (codeSelector ++ [.lookupSwitch table default]) ++ codeBranches ++
        asm (if otherwise.isSome then [.label default] else []) ++ codeDefault ++
        asm [.label done]
  | .repeatUntil body cond => entering (Stmt.repeatUntil body cond).kind do
      let top ← freshLabel
      let exit ← freshLabel
      let codeBody ← stmts policy body
      let codeCond ← expr cond
      return asm [.label top] ++ codeBody ++
        asm (codeCond ++ [.ifZero .ne exit, .goto top, .label exit])
  | .whileDo cond body => entering (Stmt.whileDo cond body).kind do
      let top ← freshLabel
      let exit ← freshLabel
      let codeCond ← expr cond
      let codeBody ← stmt policy body
      return asm ([.label top] ++ codeCond ++ [.ifZero .eq exit]) ++ codeBody ++
        asm [.goto top, .label exit]
  | .forDo counter first last down body => entering (Stmt.forDo counter first last down body).kind do
      let top ← freshLabel
      let exit ← freshLabel
      let codeFirst ← assign counter first
      let codeLast ← expr last
      let codeCounter ← load counter
      let codeBody ← stmt policy body
      let codeStep ← stepCounter counter down
      return asm (codeFirst ++ [.label top] ++ codeLast ++ codeCounter ++
          [.ifCompare (if down then .gt else .lt) exit]) ++ codeBody ++
        asm (codeStep ++ [.goto top, .label exit])
  | .procedureCall callee args => entering (Stmt.procedureCall callee args).kind do
      return asm (← call callee args)
  | .functionCall callee args => entering (Stmt.functionCall callee args).kind do
      return asm ((← call callee args) ++ [.pop])
  | .write line args => entering (Stmt.write line args).kind do
      return asm (← write line args)
  | .read line targets => entering (Stmt.read line targets).kind do
      return asm (← read line targets)

def stmts (policy : CasePolicy) : List Stmt → Gen (List Op)
  | [] => return []
  | s :: rest => do
      let code ← stmt policy s
      return code ++ (← stmts policy rest)

/-- An optional part; without it there is no code. -/
def optional (policy : CasePolicy) : Option Stmt → Gen (List Op)
  | none => return []
  | some s => stmt policy s

/-- The branches of a case statement, each with its label before it and a jump after it. -/
def arms (policy : CasePolicy) (done : Label) :
    List Label → List (List Int32 × Stmt) → Gen (List Op)
  | l :: labels, (_, s) :: rest => do
      let code ← stmt policy s
      let more ← arms policy done labels rest
      return asm [.label l] ++ code ++ asm [.goto done] ++ more
  | _, _ => return []

end
end PascalJvm.Emit
