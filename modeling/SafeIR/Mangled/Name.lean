/-!
# Names behind linker symbols

A linker symbol that starts with `_Z` spells a qualified name together with the types of its
parameters. This module has the syntax of what such a symbol spells and the text for it.

What a symbol names is a parameter of everything that tells names (`Demangler`), so nothing that is
said of modules depends on how symbols are read.
-/

/-- A way to read linker symbols: the text of what a symbol names, if it is one. -/
class SafeIR.Demangler where
  demangle : String → Option String

namespace SafeIR.Mangled

mutual

/-- A type in a mangled name. -/
inductive Ty where
  /-- A type, or a value among template arguments, that is plain text. -/
  | word (text : String)
  | name (path : List Part)
  /-- Qualifiers behind a type. -/
  | qualified (words : List String) (of : Ty)
  /-- A pointer or reference to a type. -/
  | marked (mark : String) (of : Ty)
  | function (ret : Ty) (args : List Ty)
  | array (length : String) (elem : Ty)

/-- A part of a qualified name. -/
inductive Part where
  | ident (text : String)
  | operator (text : String)
  | conversion (target : Ty)
  | constructor
  | destructor
  /-- Template arguments for what stands before. -/
  | applied (args : List Ty)

end

/-- A name with the names around it, the outermost first. -/
abbrev Path := List Part

/-- Whether the name of a function tells its return type too: the arguments of a template end it,
and it is no constructor, destructor or conversion. -/
def Path.tellsReturn (p : Path) : Bool :=
  match p.reverse with
  | .applied _ :: .ident _ :: _ => true
  | .applied _ :: .operator _ :: _ => true
  | _ => false

/-- The template arguments that end a name. -/
def Path.templateArgs (p : Path) : List Ty :=
  (p.reverse.findSome? fun
    | .applied args => some args
    | _ => none).getD []

mutual

/-- The text of a type, with the text of what it declares inside: `int` and `* const` make
`int* const`, a function or array type closes around it. -/
def Ty.render : Ty → String → String
  | .word text, inner => text ++ inner
  | .name path, inner => renderPath path "" "" ++ inner
  | .qualified words of, inner => of.render (String.join (words.map (" " ++ ·)) ++ inner)
  | .marked mark of, inner => of.render (mark ++ inner)
  | .function ret args, inner =>
    ret.render (" " ++ (if inner = "" then "" else "(" ++ inner ++ ")") ++ "(" ++ renderList args
      ++ ")")
  | .array length elem, inner =>
    if inner.startsWith " [" then elem.render (inner ++ "[" ++ length ++ "]")
    else if inner = "" then elem.render (" [" ++ length ++ "]")
    else elem.render (" (" ++ inner ++ ") [" ++ length ++ "]")

/-- The text of a name: `before` parts the next from what precedes it, and `last` is the
identifier that a constructor repeats. -/
def renderPath : List Part → (before last : String) → String
  | [], _, _ => ""
  | .ident text :: ps, before, _ => before ++ text ++ renderPath ps "::" text
  | .operator text :: ps, before, last => before ++ "operator" ++ text ++ renderPath ps "::" last
  | .conversion target :: ps, before, last =>
    before ++ "operator " ++ target.render "" ++ renderPath ps "::" last
  | .constructor :: ps, before, last => before ++ last ++ renderPath ps "::" last
  | .destructor :: ps, before, last => before ++ "~" ++ last ++ renderPath ps "::" last
  | .applied args :: ps, _, last =>
    let text := renderList args
    "<" ++ text ++ (if text.endsWith ">" then " >" else ">") ++ renderPath ps "::" last

def renderList : List Ty → String
  | [] => ""
  | [t] => t.render ""
  | t :: u :: ts => t.render "" ++ ", " ++ renderList (u :: ts)

end

/-- The text of a parameter list; `void` alone stands for no parameters. -/
def renderParams (args : List Ty) : String :=
  match args with
  | [.word "void"] => "()"
  | args => "(" ++ renderList args ++ ")"

/-- What a symbol names. -/
inductive Entity where
  | data (path : Path)
  | function (ret : Option Ty) (path : Path) (params : List Ty) (qualifiers : List String)
  /-- Data about a type, with the text around the type. -/
  | about (before : String) (ty : Ty) (after : String)

/-- The text of a demangled name. -/
def Entity.render : Entity → String
  | .data path => renderPath path "" ""
  | .function ret path params qualifiers =>
    (match ret with
      | some ty => ty.render "" ++ " "
      | none => "") ++ renderPath path "" "" ++ renderParams params
      ++ String.join (qualifiers.map (" " ++ ·))
  | .about before ty after => before ++ ty.render "" ++ after

end SafeIR.Mangled
