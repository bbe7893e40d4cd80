import SafeIR.Opcode
import SafeIR.Peg.Match

/-!
# Grammar of modules

The text form of a module. Instructions that lowering can handle are matched by their shape; any
other line that starts with a lower-case word is matched as `otherInst`, so that it can be refused
by its opcode. Keywords need no blank behind them.
-/

namespace SafeIR.Source

open Peg Peg.Expr

/-- The rules of the grammar. -/
inductive Rule where
  | module | endOfInput
  | sourceFilename | targetDecl | targetKey | attributeGroup | metadataDef | comdatDef
  | typeDef | opaqueType
  | globalDef | globalKind | globalInit | globalSuffix | linkageWord | alignClause | metadataRef
  | functionDef | functionDecl | paramList | param | vararg | functionSuffix | attributeRef
  | personality | paramAttribute
  | block | blockLabel | labelName | instruction | instTrailer
  | retInst | voidWord | brInst | condBrInst | switchInst | switchCase | unreachableInst
  | resumeInst | fnegInst | binaryInst | binaryWord | instFlag | icmpInst | icmpWord | fcmpInst
  | fcmpWord | selectInst | castInst | castWord | allocaInst | loadInst | storeInst | volatileWord
  | gepInst | inboundsWord | phiInst | phiIncoming | callInst | tailWord | invokeInst | signature
  | callArgs | callArg | metadataArg | metadataBlob | landingpadInst | cleanupWord | catchClause
  | otherInst | opcodeWord | restOfLine
  | type | pointerStar | voidType | intType | halfType | floatType | doubleType | fp80Type
  | fp128Type | ptrType | labelType | metadataType | arrayType | vectorType | structType
  | packedStructType | namedType
  | typedValue | value | boolLit | nullLit | undefLit | poisonLit | zeroLit | arrayConst
  | structConst | floatLit | intLit | byteString | stringLit | localIdent | globalIdent
  deriving DecidableEq, Repr

namespace Rule

/-- How a rule treats blanks and shows. -/
def kind : Rule → Kind
  | attributeGroup | metadataDef | comdatDef | linkageWord | metadataRef | attributeRef | labelName
  | binaryWord | instFlag | icmpWord | fcmpWord | castWord | metadataBlob | opcodeWord | restOfLine
  | intType | floatLit | intLit | byteString | stringLit | localIdent | globalIdent => .atomic
  | blockLabel | otherInst => .compound
  | _ => .normal

/-! ## Characters -/

def isWordChar (c : Char) : Bool := c.isAlphanum || c == '_' || c == '.'

def isIdentChar (c : Char) : Bool := isWordChar c || c == '$' || c == '-'

def isMetadataChar (c : Char) : Bool := isWordChar c || c == '-'

def isHexDigit (c : Char) : Bool := c.isDigit || 'a' ≤ c && c ≤ 'f' || 'A' ≤ c && c ≤ 'F'

/-! ## Parts without a tree of their own -/

/-- Text between double quotes. -/
def quoted : Expr Rule := all ["\"", span (except '"'), "\""]

/-- A name behind its sigil, bare or between quotes. -/
def identifier : Expr Rule := alt quoted (span1 isIdentChar)

/-- The rest of the line. -/
def toLineEnd : Expr Rule := span (except '\n')

/-- Anything between parentheses, where blanks and comments are passed over. -/
def parenthesized : Expr Rule := all ["(", star (all [not ")", one fun _ => true]), ")"]

def sectionClause : Expr Rule := all ["section", rule stringLit]

def comdatClause : Expr Rule := all ["comdat", opt (all ["(", rule globalIdent, ")"])]

def metadataAttachment : Expr Rule := all [rule metadataRef, rule metadataRef]

def labelRef : Expr Rule := all ["label", rule localIdent]

def alignment : Expr Rule := opt (all [",", rule alignClause])

def callConvention : Expr Rule := words ["fastcc", "ccc", "coldcc"]

def types : Expr Rule := sepBy (rule type) ","

def typedValues : Expr Rule := sepBy (rule typedValue) ","

/-- What a module consists of. -/
def topItem : Expr Rule :=
  any [rule sourceFilename, rule targetDecl, rule typeDef, rule globalDef, rule functionDef,
    rule functionDecl, rule attributeGroup, rule metadataDef, rule comdatDef]

/-- What an instruction may be, in the order of trial. -/
def instructionBody : Expr Rule :=
  any [rule retInst, rule brInst, rule condBrInst, rule switchInst, rule unreachableInst,
    rule resumeInst, rule invokeInst, rule fnegInst, rule binaryInst, rule icmpInst, rule fcmpInst,
    rule selectInst, rule castInst, rule allocaInst, rule loadInst, rule storeInst, rule gepInst,
    rule phiInst, rule callInst, rule landingpadInst, rule otherInst]

/-- A type without stars. -/
def baseType : Expr Rule :=
  any [rule voidType, rule intType, rule halfType, rule floatType, rule doubleType, rule fp80Type,
    rule fp128Type, rule ptrType, rule labelType, rule metadataType, rule arrayType,
    rule packedStructType, rule vectorType, rule structType, rule namedType]

/-- A constant. -/
def constant : Expr Rule :=
  any [rule boolLit, rule nullLit, rule undefLit, rule poisonLit, rule zeroLit, rule floatLit,
    rule intLit, rule byteString, rule arrayConst, rule structConst]

/-- What stands before the body of a function. -/
def heading (word : String) : Expr Rule :=
  all [word, star (rule linkageWord), star (rule paramAttribute), rule type, rule globalIdent, "(",
    opt (rule paramList), ")", star (rule functionSuffix)]

/-- A callee with its arguments. -/
def application : Expr Rule :=
  all [opt callConvention, star (rule paramAttribute), rule type, opt (rule signature), rule value,
    "(", opt (rule callArgs), ")", star (rule attributeRef)]

def functionWords : List String :=
  ["local_unnamed_addr", "unnamed_addr", "nounwind", "noinline", "optnone", "uwtable", "readnone",
    "readonly", "mustprogress", "norecurse", "willreturn", "nofree", "nosync", "noreturn",
    "alwaysinline"]

def linkageWords : List String :=
  ["private", "internal", "externally_initialized", "external", "extern_weak", "linkonce_odr",
    "linkonce", "weak_odr", "weak", "common", "appending", "available_externally", "dso_local",
    "dso_preemptable", "hidden", "protected", "default", "local_unnamed_addr", "unnamed_addr",
    "thread_local", "fastcc", "ccc", "coldcc"]

def paramWords : List String :=
  ["noundef", "signext", "zeroext", "nonnull", "noalias", "nocapture", "readonly", "writeonly",
    "readnone", "returned", "inreg", "immarg", "nofree", "nest"]

def flagWords : List String :=
  ["nuw", "nsw", "exact", "disjoint", "nneg", "samesign", "nnan", "ninf", "nsz", "arcp", "contract",
    "afn", "reassoc", "fast"]

/-! ## Rules -/

/-- What a rule matches. -/
def body : Rule → Expr Rule
  | module => all ["", star topItem, rule endOfInput]
  | endOfInput => done
  | sourceFilename => all ["source_filename", "=", rule stringLit]
  | targetDecl => all ["target", rule targetKey, "=", rule stringLit]
  | targetKey => words ["datalayout", "triple"]
  | attributeGroup => all ["attributes", toLineEnd]
  | metadataDef => all ["!", toLineEnd]
  | comdatDef => all ["$", toLineEnd]
  | typeDef => all [rule localIdent, "=", "type", alt (rule opaqueType) (rule type)]
  | opaqueType => "opaque"
  | globalDef =>
    all [rule globalIdent, "=", star (rule linkageWord), rule globalKind, rule type,
      opt (rule globalInit), star (rule globalSuffix)]
  | globalKind => words ["global", "constant"]
  | globalInit => all [not (all [rule globalIdent, "="]), rule value]
  | globalSuffix =>
    all [",", any [rule alignClause, sectionClause, comdatClause, metadataAttachment]]
  | linkageWord => words linkageWords
  | alignClause => all ["align", rule intLit]
  | metadataRef => all ["!", span1 isMetadataChar]
  | functionDef => all [heading "define", "\x7b", plus (rule block), "\x7d"]
  | functionDecl => heading "declare"
  | paramList =>
    alt (rule vararg) (all [sepBy1 (rule param) ",", opt (all [",", rule vararg])])
  | param => all [rule type, star (rule paramAttribute), opt (rule localIdent)]
  | vararg => "..."
  | functionSuffix =>
    any [rule attributeRef, rule personality, metadataAttachment, comdatClause, sectionClause,
      all ["align", rule intLit], all ["gc", rule stringLit], words functionWords,
      all ["memory", parenthesized]]
  | attributeRef => all ["#", span1 Char.isDigit]
  | personality => all ["personality", rule type, rule value]
  | paramAttribute =>
    any [words paramWords, all ["dereferenceable_or_null", "(", rule intLit, ")"],
      all ["dereferenceable", "(", rule intLit, ")"], all ["align", rule intLit],
      all [words ["sret", "byval", "elementtype"], "(", rule type, ")"],
      all ["captures", parenthesized],
      all ["range", "(", rule type, rule intLit, ",", rule intLit, ")"]]
  | block => all [opt (rule blockLabel), plus (rule instruction)]
  | blockLabel => all [rule labelName, ":"]
  | labelName => identifier
  | instruction => all [opt (all [rule localIdent, "="]), instructionBody, star (rule instTrailer)]
  | instTrailer => all [",", metadataAttachment]
  | retInst => all ["ret", alt (rule voidWord) (rule typedValue)]
  | voidWord => "void"
  | brInst => all ["br", labelRef]
  | condBrInst => all ["br", rule type, rule value, ",", labelRef, ",", labelRef]
  | switchInst =>
    all ["switch", rule typedValue, ",", labelRef, "[", star (rule switchCase), "]"]
  | switchCase => all [rule typedValue, ",", labelRef]
  | unreachableInst => all ["unreachable", not ":"]
  | resumeInst => all ["resume", rule typedValue]
  | fnegInst => all ["fneg", star (rule instFlag), rule typedValue]
  | binaryInst =>
    all [rule binaryWord, star (rule instFlag), rule type, rule value, ",", rule value]
  | binaryWord => words (BinaryOp.all.map BinaryOp.word)
  | instFlag => words flagWords
  | icmpInst =>
    all ["icmp", star (rule instFlag), rule icmpWord, rule type, rule value, ",", rule value]
  | icmpWord => words (IntPredicate.all.map IntPredicate.word)
  | fcmpInst =>
    all ["fcmp", star (rule instFlag), rule fcmpWord, rule type, rule value, ",", rule value]
  | fcmpWord => words (FloatPredicate.all.map FloatPredicate.word)
  | selectInst =>
    all ["select", star (rule instFlag), rule typedValue, ",", rule typedValue, ",",
      rule typedValue]
  | castInst => all [rule castWord, star (rule instFlag), rule typedValue, "to", rule type]
  | castWord => words (CastOp.all.map CastOp.word)
  | allocaInst =>
    all ["alloca", rule type, opt (all [",", not "align", rule typedValue]), alignment]
  | loadInst => all ["load", opt (rule volatileWord), rule type, ",", rule typedValue, alignment]
  | storeInst =>
    all ["store", opt (rule volatileWord), rule typedValue, ",", rule typedValue, alignment]
  | volatileWord => "volatile"
  | gepInst =>
    all ["getelementptr", opt (rule inboundsWord), star (words ["nusw", "nuw"]), rule type, ",",
      sepBy1 (rule typedValue) ","]
  | inboundsWord => "inbounds"
  | phiInst =>
    all ["phi", star (rule instFlag), rule type, sepBy1 (rule phiIncoming) ","]
  | phiIncoming => all ["[", rule value, ",", rule localIdent, "]"]
  | callInst => all [opt (rule tailWord), "call", star (rule instFlag), application]
  | tailWord => words ["tail", "musttail", "notail"]
  | invokeInst => all ["invoke", application, "to", labelRef, "unwind", labelRef]
  | signature =>
    all ["(", opt (alt (rule vararg) (all [sepBy1 (rule type) ",", opt (all [",", rule vararg])])),
      ")"]
  | callArgs => sepBy1 (rule callArg) ","
  | callArg => alt (rule metadataArg) (all [rule type, star (rule paramAttribute), rule value])
  | metadataArg => all ["metadata", alt (rule metadataBlob) (rule typedValue)]
  | metadataBlob =>
    all ["!", span isWordChar,
      opt (any [all ["(", span (except ')'), ")"], all ["\x7b", span (except '\x7d'), "\x7d"],
        quoted])]
  | landingpadInst =>
    all ["landingpad", rule type, star (alt (rule cleanupWord) (rule catchClause))]
  | cleanupWord => "cleanup"
  | catchClause => all [words ["catch", "filter"], rule typedValue]
  | otherInst => all [rule opcodeWord, not ":", rule restOfLine]
  | opcodeWord => all [one Char.isLower, span isWordChar]
  | restOfLine => toLineEnd
  | type => all [baseType, star (rule pointerStar)]
  | pointerStar => "*"
  | voidType => "void"
  | intType => all ["i", span1 Char.isDigit]
  | halfType => "half"
  | floatType => "float"
  | doubleType => "double"
  | fp80Type => "x86_fp80"
  | fp128Type => "fp128"
  | ptrType => all ["ptr", opt (all ["addrspace", "(", rule intLit, ")"])]
  | labelType => "label"
  | metadataType => "metadata"
  | arrayType => all ["[", rule intLit, "x", rule type, "]"]
  | vectorType => all ["<", rule intLit, "x", rule type, ">"]
  | structType => all ["\x7b", types, "\x7d"]
  | packedStructType => all ["<\x7b", types, "\x7d>"]
  | namedType => rule localIdent
  | typedValue => all [rule type, rule value]
  | value => any [rule localIdent, rule globalIdent, constant]
  | boolLit => words ["true", "false"]
  | nullLit => "null"
  | undefLit => "undef"
  | poisonLit => "poison"
  | zeroLit => "zeroinitializer"
  | arrayConst => all ["[", typedValues, "]"]
  | structConst => all ["\x7b", typedValues, "\x7d"]
  | floatLit =>
    alt (all ["0x", span1 isHexDigit])
      (all [opt "-", span1 Char.isDigit, ".", span Char.isDigit,
        opt (all [words ["e", "E"], opt (words ["+", "-"]), span1 Char.isDigit])])
  | intLit => all [opt "-", span1 Char.isDigit]
  | byteString => seq "c" quoted
  | stringLit => quoted
  | localIdent => seq "%" identifier
  | globalIdent => seq "@" identifier

end Rule

/-! ## Blanks -/

/-- Pass over blanks and comments, which run from a semicolon to the end of the line; `comment`
says whether the text starts inside one. -/
def skipFrom (comment : Bool) : List Char → Nat → Cursor
  | [], offset => ⟨[], offset⟩
  | c :: cs, offset =>
    if comment then
      skipFrom (c != '\n') cs (offset + c.utf8Size)
    else if c == ' ' || c == '\t' || c == '\r' || c == '\n' then
      skipFrom false cs (offset + 1)
    else if c == ';' then
      skipFrom true cs (offset + 1)
    else
      ⟨c :: cs, offset⟩

/-- The grammar of modules. -/
def grammar : Grammar Rule where
  body := Rule.body
  kind := Rule.kind
  skip c := skipFrom false c.rest c.offset

end SafeIR.Source
