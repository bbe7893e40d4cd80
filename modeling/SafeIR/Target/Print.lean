import SafeIR.Target.Code
import SafeIR.Target.Literal
import SafeIR.Text.Blank
import SafeIR.Text.Quoted

/-!
# Text of generated code

The text of expressions and statements. Parentheses are part of the code and no printing rule adds
them, but for a minus sign before another one.
-/

namespace SafeIR.Target

def commas (xs : List String) : String := String.intercalate ", " xs

/-- The name of a variable. -/
def Var.text : Var → String
  | value id => id.text
  | exception => "__exception"
  | named name => name

/-- The symbol of an operator. -/
def BinaryOp.symbol : BinaryOp → String
  | and => "&"
  | or => "|"
  | xor => "^"
  | add => "+"
  | sub => "-"
  | mul => "*"
  | div => "/"
  | rem => "%"
  | eq => "=="
  | ne => "!="
  | lt => "<"
  | le => "<="
  | gt => ">"
  | ge => ">="
  | both => "&&"
  | either => "||"

/-- The method of an operation modulo the width. -/
def WrappingOp.method : WrappingOp → String
  | add => "wrapping_add"
  | sub => "wrapping_sub"
  | mul => "wrapping_mul"
  | shl => "wrapping_shl"
  | shr => "wrapping_shr"

namespace Expr

def print : Expr → String
  | var v => v.text
  | global name => name
  | int v s => intLiteral v s
  | float bits s => floatLiteral bits s
  | zero s => s.zeroLiteral
  | bool b => toString b
  | number v ty => toString v ++ ty.text
  | numeral n => toString n
  | text code => code
  | paren e => "(" ++ e.print ++ ")"
  | cast e ty => e.print ++ " as " ++ ty.text
  | not e => "!" ++ e.print
  | neg e => if e.print.startsWith "-" then "-(" ++ e.print ++ ")" else "-" ++ e.print
  | binary op l r => l.print ++ " " ++ op.symbol ++ " " ++ r.print
  | wrapping op l r => l.print ++ "." ++ op.method ++ "(" ++ r.print ++ ")"
  | wrappingNeg e => e.print ++ ".wrapping_neg()"
  | isNan e => e.print ++ ".is_nan()"
  | toBits e => e.print ++ ".to_bits()"
  | ofBits ty e => ty.text ++ "::from_bits(" ++ e.print ++ ")"
  | ifElse cond yes no =>
    "if " ++ cond.print ++ " \x7b " ++ yes.print ++ " \x7d else \x7b " ++ no.print ++ " \x7d"
  | resultValue => "__r.value"
  | outcomeValue => "__v"
  | clone v => v.text ++ ".clone()"
  | take v => v.text ++ ".take()"
  | none => "None"

end Expr

/-- A host call, without what becomes of its answer. -/
def externalCall (name : String) (args : List Expr) : String :=
  "ctx.call_external(" ++ Text.quote name ++ ", &["
    ++ commas (args.map fun a => "Value::from(" ++ a.print ++ ")") ++ "])"

/-- A call of a generated function. -/
def functionCall (name : String) (args : List Expr) : String :=
  name ++ "(" ++ commas ("ctx" :: args.map Expr.print) ++ ")"

namespace Call

/-- A call that ends the function with the fault of the callee. -/
def print : Call → String
  | function name args => functionCall name args ++ "?"
  | external name args none => externalCall name args ++ "?"
  | external name args (some ty) => externalCall name args ++ "?.get::<" ++ ty.text ++ ">()?"

/-- A call as an outcome to match on. -/
def outcome : Call → String
  | function name args => functionCall name args
  | external name args none => externalCall name args ++ ".map(|_| ())"
  | external name args (some ty) =>
    externalCall name args ++ ".and_then(|__v| __v.get::<" ++ ty.text ++ ">())"

end Call

/-- A function of the library of checked operations. -/
def checkedPath (s : Layout.Scalar) (name : String) : String :=
  "irbridge_runtime::ops::" ++ s.typeName ++ "::" ++ name

/-- The text of an action. -/
def Action.print : Action → String
  | pure e => e.print
  | checked s op l r => checkedPath s op.name ++ "(" ++ l.print ++ ", " ++ r.print ++ ")?"
  | toInt signed source target e =>
    checkedPath target ((if signed then "fptosi_" else "fptoui_") ++ source.typeName)
      ++ "(" ++ e.print ++ ")?"
  | alloca size align => "ctx.memory.alloca(" ++ size.print ++ ", " ++ toString align ++ ")?"
  | load s address => "ctx.memory.load_" ++ s.memorySuffix ++ "(" ++ address.print ++ ")?"
  | store s address value =>
    "ctx.memory.store_" ++ s.memorySuffix ++ "(" ++ address.print ++ ", " ++ value.print ++ ")?"
  | call c => c.print
  | intrinsic path args fallible memory =>
    path ++ "(" ++ commas ((if memory then ["&mut ctx.memory"] else []) ++ args.map Expr.print)
      ++ ")" ++ (if fallible then "?" else "")

/-- The text of a step. -/
def Step.print : Step → String
  | assign dest a => dest.text ++ " = " ++ a.print ++ ";"
  | run a => a.print ++ ";"
  | copies pairs =>
    "(" ++ commas (pairs.map fun p => p.1.text) ++ ") = ("
      ++ commas (pairs.map fun p => p.2.print) ++ ");"
  | hold => "__exception = Some(__e);"
  | goto b => "__current_block = Block::" ++ b.text ++ ";"
  | text code => code

/-- The lines of a text, each on a line of its own behind `depth` levels of indentation. -/
def indented (depth : Nat) (code : String) : String :=
  String.join ((Text.lines code).map fun line =>
    String.join (List.replicate depth "    ") ++ line ++ "\n")

/-- Steps, each on lines of its own. -/
def printSteps (depth : Nat) (steps : List Step) : String :=
  String.join (steps.map fun s => indented depth s.print)

/-- The text of a statement. -/
def Stmt.print : Stmt → String
  | step s => s.print
  | attempt path args => "let __r = " ++ path ++ "(" ++ commas (args.map Expr.print) ++ ");"
  | propagate =>
    "if let Status::Pending(__e) = __r.status \x7b\n    return Err(Fault::Exception(__e));\n\x7d"
  | ifRaised raised normal =>
    "if let Status::Pending(__e) = __r.status \x7b\n" ++ printSteps 1 raised ++ "\x7d else \x7b\n"
      ++ printSteps 1 normal ++ "\x7d"
  | matchOutcome c normal raised =>
    "match " ++ c.outcome ++ " \x7b\n    Ok(__v) => \x7b\n" ++ printSteps 2 normal
      ++ "    \x7d\n    Err(Fault::Exception(__e)) => \x7b\n" ++ printSteps 2 raised
      ++ "    \x7d\n    Err(__f) => return Err(__f),\n\x7d"
  | ifElse cond yes no =>
    "if " ++ cond.print ++ " \x7b\n" ++ printSteps 1 yes ++ "\x7d else \x7b\n" ++ printSteps 1 no
      ++ "\x7d"
  | switch value cases default =>
    "match " ++ value.print ++ " \x7b\n" ++ String.join (cases.map fun c =>
      "    " ++ c.1.print ++ " => \x7b\n" ++ printSteps 2 c.2 ++ "    \x7d\n")
      ++ "    _ => \x7b\n" ++ printSteps 2 default ++ "    \x7d\n\x7d"
  | next => "continue;"
  | ret none => "return Ok(());"
  | ret (some e) => "return Ok(" ++ e.print ++ ");"
  | resume pending => "return Err(Fault::resume(" ++ pending.print ++ "));"
  | unreachable => "return Err(Trap::Unreachable.into());"

namespace Local

def name : Local → String
  | scalar id _ => id.text
  | exception v => v.text
  | text name _ _ => name

/-- The declaration of a variable. -/
def print : Local → String
  | scalar id s => declare id.text s.typeName s.zeroLiteral
  | exception v => declare v.text Ty.exception.text Expr.none.print
  | text name ty init => declare name ty init
where
  declare (name ty init : String) : String :=
    "let mut " ++ name ++ ": " ++ ty ++ " = " ++ init ++ ";"

end Local

end SafeIR.Target
