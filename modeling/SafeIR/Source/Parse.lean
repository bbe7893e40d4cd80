import SafeIR.Power
import SafeIR.Source.Error
import SafeIR.Source.Escape
import SafeIR.Source.Grammar
import SafeIR.Source.Module
import SafeIR.Text.Blank
import SafeIR.Text.Utf8

/-!
# From text to module

`Module.parse` matches the bytes of a text against the grammar and reads the tree from left to
right. Numbers are checked on the way: a count or width that does not fit is a flaw of the text.
What the tree says about attributes is passed over, and numbers in it are not checked.
-/

namespace SafeIR.Source

open Peg (ParseTree)

/-- What reading a tree gives. -/
abbrev Read := Except Flaw

namespace Parse

/-- A tree of another shape than the grammar gives. -/
def unexpected {α : Type} (t : ParseTree Rule) : Read α := .error ⟨t.start, .unmatched⟩

/-- The name behind a sigil. -/
def identName (t : ParseTree Rule) : String := String.ofList (unquote (t.chars.drop 1))

/-- The text between quotes, decoded. -/
def unquoted (t : ParseTree Rule) : String := String.ofList (unquote t.chars)

/-- The children that a rule matched. -/
def parts (t : ParseTree Rule) (r : Rule) : List (ParseTree Rule) := t.children.filter (·.rule == r)

/-- A length or alignment. -/
def count (t : ParseTree Rule) : Read Nat :=
  match Decimal.unsigned? 64 t.chars with
  | some n => .ok n
  | none => .error ⟨t.start, .badCount t.text⟩

/-- The number of an alignment clause. -/
def alignment (t : ParseTree Rule) : Read Nat :=
  match t.children with
  | [n] => count n
  | _ => unexpected t

/-- The alignment of the last of several clauses. -/
def lastAlignment (ts : List (ParseTree Rule)) : Read (Option Nat) := do
  return (← ts.mapM alignment).getLast?

/-! ## Types -/

mutual

/-- A type; stars make it a pointer. -/
def type : ParseTree Rule → Read Ty
  | .node _ _ _ _ (base :: stars) => do
    let ty ← baseType base
    return if stars.isEmpty then ty else .ptr
  | t => unexpected t

/-- A type without stars. -/
def baseType : ParseTree Rule → Read Ty
  | .node .arrayType _ _ _ [len, elem] => return .array (← count len) (← type elem)
  | .node .vectorType _ _ _ [len, elem] => return .vector (← count len) (← type elem)
  | .node .structType _ _ _ fields => return .struct false (← types fields)
  | .node .packedStructType _ _ _ fields => return .struct true (← types fields)
  | .node .namedType _ _ _ [name] => return .named (identName name)
  | t => match t.rule with
    | .voidType => return .void
    | .intType =>
      match Decimal.unsigned? 32 (t.chars.drop 1) with
      | some bits => return .int bits
      | none => .error ⟨t.start, .badWidth⟩
    | .halfType => return .half
    | .floatType => return .float
    | .doubleType => return .double
    | .fp80Type => return .x86Fp80
    | .fp128Type => return .fp128
    | .ptrType => return .ptr
    | .labelType => return .label
    | .metadataType => return .metadata
    | _ => unexpected t

def types : List (ParseTree Rule) → Read (List Ty)
  | [] => return []
  | t :: ts => return (← type t) :: (← types ts)

end

/-! ## Values -/

/-- The bits of a float literal. -/
def float (t : ParseTree Rule) : Read Nat :=
  match t.chars with
  | '0' :: 'x' :: ds =>
    match (Decimal.hex? ds).filter (· < twoPow 64) with
    | some bits => return bits
    | none => .error ⟨t.start, .badHexFloat t.text⟩
  | cs =>
    match Decimal.double? cs with
    | some bits => return bits
    | none => unexpected t

/-- A literal that has no parts. -/
def literal (t : ParseTree Rule) : Read Value :=
  match t.rule with
  | .localIdent => return .local (identName t)
  | .globalIdent => return .global (identName t)
  | .boolLit => return .bool (t.text == "true")
  | .nullLit => return .null
  | .undefLit => return .undef
  | .poisonLit => return .poison
  | .zeroLit => return .zero
  | .intLit =>
    match Decimal.signed? 128 t.chars with
    | some v => return .int v
    | none => .error ⟨t.start, .badInteger t.text⟩
  | .floatLit => return .float (← float t)
  | .byteString => return .bytes (Escape.decode (Text.encode (unquote (t.chars.drop 1))))
  | _ => unexpected t

mutual

/-- A value. -/
def value : ParseTree Rule → Read Value
  | .node _ _ _ _ [.node .arrayConst _ _ _ items] => return .array (← operands items)
  | .node _ _ _ _ [.node .structConst _ _ _ fields] => return .struct (← operands fields)
  | .node _ _ _ _ [t] => literal t
  | t => unexpected t

/-- A type with a value. -/
def operand : ParseTree Rule → Read Operand
  | .node _ _ _ _ [ty, v] => return (← type ty, ← value v)
  | t => unexpected t

def operands : List (ParseTree Rule) → Read (List Operand)
  | [] => return []
  | t :: ts => return (← operand t) :: (← operands ts)

end

/-! ## Instructions -/

/-- The promises that stand before the operands. -/
def flags (t : ParseTree Rule) : WrapFlags :=
  let words := (parts t .instFlag).map ParseTree.text
  { nsw := words.contains "nsw", nuw := words.contains "nuw", exact := words.contains "exact" }

/-- The parameter types that a call spells out, for a callee that returns `ret`. -/
def signature (ret : Ty) (t : ParseTree Rule) : Read Ty := do
  return .function ret (← types (parts t .type)) ! (parts t .vararg).isEmpty

/-- An argument of a call. -/
def argument (t : ParseTree Rule) : Read Operand :=
  match t.children with
  | [] => unexpected t
  | first :: rest =>
    if first.rule = .metadataArg then return (.metadata, .metadata first.text)
    else match rest.getLast? with
      | some last => return (← type first, ← value last)
      | none => unexpected t

/-- A call, with its arguments. -/
def site (t : ParseTree Rule) : Read Call :=
  match parts t .type, parts t .value with
  | [ret], [callee] => do
    let ret ← type ret
    let signature ← (parts t .signature).mapM (signature ret)
    let callee ← value callee
    let args ← ((parts t .callArgs).flatMap ParseTree.children).mapM argument
    return { ret, signature := signature.head?, callee, args }
  | _, _ => unexpected t

/-- An operation between two values of one type. -/
def between (t : ParseTree Rule) (make : Ty → Value → Value → Op) : Read Op :=
  match parts t .type, parts t .value with
  | [ty], [lhs, rhs] => return make (← type ty) (← value lhs) (← value rhs)
  | _, _ => unexpected t

/-- A case of a switch. -/
def case (t : ParseTree Rule) : Read (Operand × String) :=
  match t.children with
  | [v, target] => return (← operand v, identName target)
  | _ => unexpected t

/-- An entry of a phi. -/
def arrival (t : ParseTree Rule) : Read (Value × String) :=
  match t.children with
  | [v, source] => return (← value v, identName source)
  | _ => unexpected t

/-- A clause of a landing pad. -/
def clause (t : ParseTree Rule) : Read Operand :=
  match t.children with
  | [v] => operand v
  | _ => unexpected t

/-- The operation that a tree spells. -/
def op (t : ParseTree Rule) : Read Op :=
  let word := (t.children.head?.map ParseTree.text).getD ""
  match t.rule, t.children with
  | .retInst, [v] =>
    if v.rule = .voidWord then return .ret none else return .ret (some (← operand v))
  | .brInst, [target] => return .br (identName target)
  | .condBrInst, [ty, cond, yes, no] =>
    return .condBr (← type ty, ← value cond) (identName yes) (identName no)
  | .switchInst, v :: default :: cases =>
    return .switch (← operand v) (identName default) (← cases.mapM case)
  | .unreachableInst, _ => return .unreachable
  | .resumeInst, [v] => return .resume (← operand v)
  | .binaryInst, _ =>
    match BinaryOp.ofWord? word with
    | some op => between t (.binary op (flags t))
    | none => unexpected t
  | .icmpInst, _ =>
    match (parts t .icmpWord).findSome? (IntPredicate.ofWord? ·.text) with
    | some pred => between t (.icmp pred (flags t))
    | none => unexpected t
  | .fcmpInst, _ =>
    match (parts t .fcmpWord).findSome? (FloatPredicate.ofWord? ·.text) with
    | some pred => between t (.fcmp pred (flags t))
    | none => unexpected t
  | .fnegInst, _ =>
    match parts t .typedValue with
    | [v] => return .fneg (flags t) (← operand v)
    | _ => unexpected t
  | .selectInst, _ =>
    match parts t .typedValue with
    | [cond, yes, no] => return .select (← operand cond) (← operand yes) (← operand no)
    | _ => unexpected t
  | .castInst, _ =>
    match CastOp.ofWord? word, parts t .typedValue, parts t .type with
    | some op, [v], [ty] => return .cast op (flags t) (← operand v) (← type ty)
    | _, _, _ => unexpected t
  | .allocaInst, ty :: _ => do
    let ty ← type ty
    let count ← operands (parts t .typedValue)
    return .alloca ty count.head? (← lastAlignment (parts t .alignClause))
  | .loadInst, _ =>
    match parts t .type, parts t .typedValue with
    | [ty], [address] =>
      return .load (! (parts t .volatileWord).isEmpty) (← type ty) (← operand address)
        (← lastAlignment (parts t .alignClause))
    | _, _ => unexpected t
  | .storeInst, _ =>
    match parts t .typedValue with
    | [v, address] =>
      return .store (! (parts t .volatileWord).isEmpty) (← operand v) (← operand address)
        (← lastAlignment (parts t .alignClause))
    | _ => unexpected t
  | .gepInst, _ =>
    match parts t .type, parts t .typedValue with
    | [ty], base :: indices =>
      return .gep (! (parts t .inboundsWord).isEmpty) (← type ty) (← operand base)
        (← operands indices)
    | _, _ => unexpected t
  | .phiInst, _ =>
    match parts t .type with
    | [ty] => return .phi (← type ty) (← (parts t .phiIncoming).mapM arrival)
    | _ => unexpected t
  | .callInst, _ => return .call (! (parts t .tailWord).isEmpty) (← site t)
  | .invokeInst, _ =>
    match parts t .localIdent with
    | [normal, unwind] => return .invoke (← site t) (identName normal) (identName unwind)
    | _ => unexpected t
  | .landingpadInst, ty :: _ =>
    return .landingpad (← type ty) (! (parts t .cleanupWord).isEmpty)
      (← (parts t .catchClause).mapM clause)
  | .otherInst, _ => return .other word
  | _, _ => unexpected t

/-- An instruction, with its text. -/
def instruction (t : ParseTree Rule) : Read Instruction :=
  match t.children.filter fun c => c.rule ≠ .localIdent ∧ c.rule ≠ .instTrailer with
  | [body] => do
    return { result := (parts t .localIdent).head?.map identName, op := ← op body
             text := String.ofList (Text.trim t.chars), offset := t.start }
  | _ => unexpected t

/-! ## Functions -/

/-- The number after a name, if the name is a number and not below: unnamed parameters, blocks
without a label and numbered results share one counter. It is a word, and behind the last one comes
zero, which is above nothing. -/
def observe (next : UInt64) (name : String) : UInt64 :=
  match Decimal.unsigned? 64 name.toList with
  | some n => max next (UInt64.ofNat (n + 1))
  | none => next

/-- The name given, or the next number; and the number after it. -/
def number (next : UInt64) : Option String → String × UInt64
  | some name => (name, observe next name)
  | none => (toString next.toNat, next + 1)

/-- A parameter, named by the counter if it has no name. -/
def param (next : UInt64) (t : ParseTree Rule) : Read (Param × UInt64) :=
  match t.children with
  | ty :: _ => do
    let ty ← type ty
    let (name, next) := number next ((parts t .localIdent).head?.map identName)
    return ({ ty, name }, next)
  | [] => unexpected t

/-- Parameters, numbered where they have no name. -/
def params : UInt64 → List (ParseTree Rule) → Read (List Param × UInt64)
  | next, [] => return ([], next)
  | next, t :: ts => do
    let (p, next) ← param next t
    let (ps, next) ← params next ts
    return (p :: ps, next)

/-- A block, which takes its number before the results in it. -/
def block (next : UInt64) (t : ParseTree Rule) : Read (Block × UInt64) := do
  let given := (parts t .blockLabel).head?.bind (·.children.head?.map unquoted)
  let (label, next) := number next given
  let instructions ← (parts t .instruction).mapM instruction
  let next := (instructions.filterMap Instruction.result).foldl observe next
  return ({ label, instructions, offset := t.start }, next)

/-- Blocks; one without a label takes the next number. -/
def blocks : UInt64 → List (ParseTree Rule) → Read (List Block)
  | _, [] => return []
  | next, t :: ts => do
    let (b, next) ← block next t
    return b :: (← blocks next ts)

/-- The global that a personality clause names. -/
def personality (t : ParseTree Rule) : Read (Option String) :=
  match parts t .value with
  | [v] => do
    match ← value v with
    | .global name => return some name
    | _ => return none
  | _ => return none

/-- A function. -/
def function (isDeclaration : Bool) (t : ParseTree Rule) : Read Function :=
  match parts t .type, parts t .globalIdent with
  | [ty], [name] => do
    let returnType ← type ty
    let list := (parts t .paramList).flatMap ParseTree.children
    let (params, next) ← params 0 (list.filter (·.rule == .param))
    let handlers ← ((parts t .functionSuffix).flatMap (parts · .personality)).mapM personality
    let blocks ← blocks next (parts t .block)
    return { name := identName name, returnType, params, isDeclaration, blocks
             varargs := list.any (·.rule == .vararg)
             linkage := (parts t .linkageWord).map ParseTree.text
             personality := (handlers.filterMap id).getLast?
             offset := t.start }
  | _, _ => unexpected t

/-! ## Modules -/

/-- A global. -/
def global (t : ParseTree Rule) : Read Global :=
  match parts t .globalIdent, parts t .type with
  | [name], [ty] => do
    let ty ← type ty
    let initial ← ((parts t .globalInit).flatMap ParseTree.children).mapM value
    let align ← lastAlignment ((parts t .globalSuffix).flatMap (parts · .alignClause))
    return { name := identName name, ty, align
             isConstant := (parts t .globalKind).any (·.text == "constant")
             initializer := initial.head?
             linkage := (parts t .linkageWord).map ParseTree.text
             offset := t.start }
  | _, _ => unexpected t

/-- A type definition; an opaque one has no body. -/
def typeDef (t : ParseTree Rule) : Read TypeDef :=
  match t.children with
  | [name, body] =>
    if body.rule = .opaqueType then return ⟨identName name, none⟩
    else return ⟨identName name, some (← type body)⟩
  | _ => unexpected t

/-- The module with one more item. -/
def item (m : Module) (t : ParseTree Rule) : Read Module :=
  match t.rule, t.children with
  | .sourceFilename, [name] => return { m with sourceFilename := some (unquoted name) }
  | .targetDecl, [key, text] =>
    if key.text = "triple" then return { m with triple := some (unquoted text) }
    else return { m with dataLayout := some (unquoted text) }
  | .typeDef, _ => return { m with types := m.types ++ [← typeDef t] }
  | .globalDef, _ => return { m with globals := m.globals ++ [← global t] }
  | .functionDef, _ => return { m with functions := m.functions ++ [← function false t] }
  | .functionDecl, _ => return { m with functions := m.functions ++ [← function true t] }
  | _, _ => return m

end Parse

/-- The module that a tree spells. -/
def Module.ofTree (t : ParseTree Rule) : Read Module := t.children.foldlM Parse.item {}

/-- The module that a text spells. -/
def Module.ofChars (text : List Char) : Read Module :=
  match grammar.parse .module text with
  | .ok t => Module.ofTree t
  | .error offset => .error ⟨offset, .unmatched⟩

/-- The module that bytes spell. -/
def Module.parse (bytes : List UInt8) : Except Error Module :=
  match Text.decode bytes with
  | .error offset => .error ⟨offset, Position.ofBytes (bytes.take offset), .notUtf8⟩
  | .ok text => (Module.ofChars text).mapError (Error.ofFlaw text)

end SafeIR.Source
