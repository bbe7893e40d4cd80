import SafeIR.Failure
import SafeIR.Target.Print

/-!
# Text of functions

A function is written behind a line that marks it with its name in the source and the number of its
blocks. One that allocates on the stack is written as two functions, of which the outer releases
what the inner allocates, however that ends.
-/

namespace SafeIR.Artifact

open Target (Function)

/-- What a line that marks a function starts with. -/
def marker : String := "// irbridge: fn "

/-- The line before a function. -/
def markerLine (f : Function) : String :=
  marker ++ f.sourceName ++ " blocks=" ++ toString f.blocks.length ++ "\n"

/-- Warnings that generated code would give. -/
def allowances : String :=
  "#[allow(unused_mut, unused_variables, unused_assignments, unused_parens, unreachable_code, "
    ++ "unreachable_patterns, clippy::needless_return, clippy::never_loop, "
    ++ "clippy::unnecessary_cast, clippy::bool_comparison, clippy::nonminimal_bool, "
    ++ "clippy::identity_op, clippy::match_single_binding, clippy::let_and_return)]\n"

/-- The parameters as they are declared. -/
def params (f : Function) (mutability : String) : String :=
  Target.commas ("ctx: &mut Context" ::
    f.params.map fun p => mutability ++ p.1.text ++ ": " ++ p.2.text)

/-- The type of the result, or of the fault. -/
def returns (f : Function) : String := "Outcome<" ++ f.ret.text ++ ">"

/-- Statements on lines of their own. -/
def printStmts (depth : Nat) (stmts : List Target.Stmt) : String :=
  String.join (stmts.map fun s => Target.indented depth s.print)

/-- The blocks as the arms of a loop that runs the current one. -/
def stateMachine (blocks : List (List Target.Stmt)) : String :=
  "    #[derive(Clone, Copy)]\n    #[allow(dead_code)]\n    enum Block \x7b "
    ++ Target.commas ((List.range blocks.length).map fun i => "B" ++ toString i) ++ " \x7d\n"
    ++ "    let mut __current_block = Block::B0;\n    loop \x7b\n"
    ++ "        match __current_block \x7b\n"
    ++ String.join (blocks.zipIdx.map fun (stmts, i) =>
      "            Block::B" ++ toString i ++ " => \x7b\n" ++ printStmts 4 stmts
        ++ "            \x7d\n")
    ++ "        \x7d\n    \x7d\n"

/-- Declarations, then the blocks: in a row, or as the states of a loop. -/
def body (f : Function) : String :=
  String.join (f.locals.map fun l => "    " ++ l.print ++ "\n")
    ++ if f.flat then printStmts 1 f.blocks.flatten else stateMachine f.blocks

/-- The name of the inner of the two functions for one that allocates. -/
def bodyName (name : String) : String := "__" ++ name ++ "_body"

/-- The function that allocates, and the one around it that releases. -/
def framed (f : Function) : String :=
  let inner := bodyName f.name
  "pub fn " ++ f.name ++ "(" ++ params f "" ++ ") -> " ++ returns f ++ " \x7b\n"
    ++ "    let __frame = ctx.memory.enter_frame();\n"
    ++ "    let __result = " ++ inner ++ "("
    ++ Target.commas ("ctx" :: f.params.map fun p => p.1.text) ++ ");\n"
    ++ "    ctx.memory.leave_frame(__frame);\n    __result\n\x7d\n\n"
    ++ allowances ++ "fn " ++ inner

/-- A function in full. -/
def code (f : Function) : String :=
  markerLine f ++ (if f.usesFrame then framed f else allowances ++ "pub fn " ++ f.name)
    ++ "(" ++ params f "mut " ++ ") -> " ++ returns f ++ " \x7b\n" ++ body f ++ "\x7d\n"

/-- A function in full, unless it is too large. -/
def emit (f : Function) (limit : Nat) : Except Failure String :=
  if limit < f.statementCount then
    .error (.tooManyStatements f.sourceName f.statementCount limit)
  else return code f

/-- What takes the place of a function that is too large: it always traps. -/
def stub (f : Function) : String :=
  markerLine f ++ "#[allow(unused_variables)]\npub fn " ++ f.name ++ "(" ++ params f "" ++ ") -> "
    ++ returns f ++ " \x7b\n    Err(Trap::Untranslated.into())\n\x7d\n"

end SafeIR.Artifact
