import SafeIR.Decimal.Read
import SafeIR.Mangled.Name

/-!
# Reading linker symbols

`demangle` reads a whole symbol and gives the text of what it names. Compound types and the
prefixes of qualified names are numbered as they are read, and `S_`, `S0_`, `S1_`, … refer back to
them; `T_`, `T0_`, … are the template arguments of the function whose parameters are read.

The recursion is on a bound that the length of the symbol gives: every level consumes a character
or ends.
-/

namespace SafeIR.Mangled

/-- How far a name is read. -/
structure State where
  rest : List Char
  /-- What was read so far and can be referred to. -/
  seen : List Ty := []
  templateArgs : List Ty := []

/-- A reader of a part of a name, which may fail. -/
abbrev Reader := StateT State Option

namespace Reader

def fail {α : Type} : Reader α := fun _ => none

/-- Consume these characters. -/
def eat (text : String) : Reader Unit := fun s =>
  if text.toList.isPrefixOf s.rest then some ((), { s with rest := s.rest.drop text.length })
  else none

/-- Consume these characters if they are next. -/
def eat? (text : String) : Reader Bool := fun s =>
  if text.toList.isPrefixOf s.rest then some (true, { s with rest := s.rest.drop text.length })
  else some (false, s)

def peek : Reader (Option Char) := fun s => some (s.rest.head?, s)

/-- Consume the longest run of characters of a class. -/
def span (p : Char → Bool) : Reader (List Char) := fun s =>
  some (s.rest.takeWhile p, { s with rest := s.rest.dropWhile p })

/-- Make a type available for reference. -/
def remember (t : Ty) : Reader Ty := fun s => some (t, { s with seen := s.seen ++ [t] })

/-- The first entry of a table whose key is next, which is consumed. -/
def lookUp : List (String × String) → Reader String
  | [] => fail
  | (key, text) :: table => do if ← eat? key then return text else lookUp table

end Reader

open Reader

/-! ## Tables -/

/-- The codes of built-in types. -/
def builtinTypes : List (String × String) :=
  [("v", "void"), ("w", "wchar_t"), ("b", "bool"), ("c", "char"), ("a", "signed char"),
    ("h", "unsigned char"), ("s", "short"), ("t", "unsigned short"), ("i", "int"),
    ("j", "unsigned int"), ("l", "long"), ("m", "unsigned long"), ("x", "long long"),
    ("y", "unsigned long long"), ("n", "__int128"), ("o", "unsigned __int128"), ("f", "float"),
    ("d", "double"), ("e", "long double"), ("g", "__float128"), ("z", "..."), ("Dd", "decimal64"),
    ("De", "decimal128"), ("Df", "decimal32"), ("Dh", "half"), ("Di", "char32_t"),
    ("Ds", "char16_t"), ("Du", "char8_t"), ("Da", "auto"), ("Dc", "decltype(auto)"),
    ("Dn", "std::nullptr_t")]

/-- The codes of operators. -/
def operators : List (String × String) :=
  [("nw", " new"), ("na", " new[]"), ("dl", " delete"), ("da", " delete[]"), ("ps", "+"),
    ("ng", "-"), ("ad", "&"), ("de", "*"), ("co", "~"), ("pl", "+"), ("mi", "-"), ("ml", "*"),
    ("dv", "/"), ("rm", "%"), ("an", "&"), ("or", "|"), ("eo", "^"), ("aS", "="), ("pL", "+="),
    ("mI", "-="), ("mL", "*="), ("dV", "/="), ("rM", "%="), ("aN", "&="), ("oR", "|="),
    ("eO", "^="), ("ls", "<<"), ("rs", ">>"), ("lS", "<<="), ("rS", ">>="), ("eq", "=="),
    ("ne", "!="), ("lt", "<"), ("gt", ">"), ("le", "<="), ("ge", ">="), ("ss", "<=>"), ("nt", "!"),
    ("aa", "&&"), ("oo", "||"), ("pp", "++"), ("mm", "--"), ("cm", ","), ("pm", "->*"),
    ("pt", "->"), ("cl", "()"), ("ix", "[]"), ("qu", "?")]

/-- The names in `std` that have a short form. -/
def standardNames : List (String × String) :=
  [("Sa", "std::allocator"), ("Sb", "std::basic_string"), ("Ss", "std::string"),
    ("Si", "std::basic_istream<char, std::char_traits<char> >"),
    ("So", "std::basic_ostream<char, std::char_traits<char> >"),
    ("Sd", "std::basic_iostream<char, std::char_traits<char> >")]

/-! ## Names -/

/-- Letters and digits of either case, and the given others. -/
def isNameChar (others : List Char) (c : Char) : Bool := c.isAlphanum || others.contains c

/-- A decimal number without a leading zero. -/
def number : Reader Nat := do
  match ← span Char.isDigit with
  | [] => fail
  | '0' :: _ :: _ => fail
  | ds => return Decimal.ofDigits ds

/-- An identifier behind its length; that of a namespace without a name has a form of its own. -/
def sourceName : Reader Part := do
  let length ← number
  let s ← get
  let text := s.rest.take length
  if length = 0 ∨ text.length < length ∨ ! text.all (isNameChar ['$', '_', '.']) then fail
  else
    set { s with rest := s.rest.drop length }
    match text with
    | '_' :: 'G' :: 'L' :: 'O' :: 'B' :: 'A' :: 'L' :: '_' :: c :: 'N' :: _ =>
      if c = '.' ∨ c = '_' ∨ c = '$' then return .ident "(anonymous namespace)"
      else return .ident (String.ofList text)
    | _ => return .ident (String.ofList text)

/-- A number in base 36 and an underscore; nothing before it is 0, `0` is 1, and so on. -/
def sequenceIndex : Reader Nat := do
  let ds ← span fun c => c.isDigit || c.isUpper
  eat "_"
  let digit (c : Char) := if c.isDigit then c.toNat - 48 else c.toNat - 55
  return if ds.isEmpty then 0 else ds.foldl (fun n c => 36 * n + digit c) 0 + 1

/-- What a back reference stands for. -/
def backReference : Reader Ty := do
  eat "S"
  match (← get).seen[← sequenceIndex]? with
  | some t => return t
  | none => fail

/-- The template argument that a parameter stands for. -/
def templateParam : Reader Ty := do
  eat "T"
  let ds ← span Char.isDigit
  eat "_"
  match (← get).templateArgs[if ds.isEmpty then 0 else Decimal.ofDigits ds + 1]? with
  | some t => return t
  | none => fail

/-- Constructors and destructors, of which there are several variants. -/
def structor : Reader Part := do
  let variant (kinds : List String) (part : Part) : Reader Part := do
    for kind in kinds do
      if ← eat? kind then return part
    fail
  variant ["C1", "C2", "C3", "C4", "C5"] .constructor <|>
    variant ["D0", "D1", "D2", "D4", "D5"] .destructor

/-- Qualifiers, in the order they are written behind a type. -/
def qualifiers : Reader (List String) := do
  let restrict ← eat? "r"
  let volatile ← eat? "V"
  let const ← eat? "K"
  return (if const then ["const"] else []) ++ (if volatile then ["volatile"] else [])
    ++ (if restrict then ["restrict"] else [])

mutual

/-- A type, with its qualifiers. -/
def type : Nat → Reader Ty
  | 0 => fail
  | depth + 1 => do
    match ← qualifiers with
    | [] => unqualifiedType depth
    | words => remember (.qualified words (← unqualifiedType depth))

/-- A type without qualifiers. -/
def unqualifiedType : Nat → Reader Ty
  | 0 => fail
  | depth + 1 => do
    if ← eat? "P" then remember (.marked "*" (← type depth))
    else if ← eat? "R" then remember (.marked "&" (← type depth))
    else if ← eat? "O" then remember (.marked "&&" (← type depth))
    else if ← eat? "F" then
      let _ ← eat? "Y"
      match ← types depth with
      | ret :: args =>
        eat "E"
        let args := match args with
          | [.word "void"] => []
          | args => args
        remember (.function ret args)
      | [] => fail
    else if ← eat? "A" then
      let length ← span Char.isDigit
      eat "_"
      remember (.array (String.ofList length) (← type depth))
    else match ← peek with
      | some 'T' => remember (← templateParam)
      | some 'S' =>
        (do
          let text ← lookUp standardNames
          instantiated depth (.name [.ident text])) <|>
        (do instantiated depth (← backReference)) <|>
        (do
          eat "St"
          let t ← remember (.name [.ident "std", ← sourceName])
          instantiated depth t)
      | some 'N' => remember (.name (← nestedName depth).1)
      | some c =>
        if c.isDigit then
          let t ← remember (.name [← sourceName])
          instantiated depth t
        else return .word (← lookUp builtinTypes)
      | none => fail

/-- A template with its arguments, if arguments follow. -/
def instantiated : Nat → Ty → Reader Ty
  | 0, _ => fail
  | depth + 1, t => do
    if (← peek) = some 'I' then
      match t with
      | .name path => remember (.name (path ++ [.applied (← templateArgList depth)]))
      | _ => fail
    else return t

/-- As many types as follow. -/
def types : Nat → Reader (List Ty)
  | 0 => fail
  | depth + 1 => (do
      let t ← type depth
      return t :: (← types depth)) <|> return []

def templateArgList : Nat → Reader (List Ty)
  | 0 => fail
  | depth + 1 => do
    eat "I"
    let args ← templateArgsUntil depth
    return args

/-- Template arguments up to the end mark. -/
def templateArgsUntil : Nat → Reader (List Ty)
  | 0 => fail
  | depth + 1 => do
    if ← eat? "E" then return []
    else
      let arg ← templateArg depth
      return arg :: (← templateArgsUntil depth)

/-- An argument: a type or a literal. -/
def templateArg : Nat → Reader Ty
  | 0 => fail
  | depth + 1 => do
    if ← eat? "L" then
      let ty ← type depth
      let negative ← eat? "n"
      let ds ← span Char.isDigit
      eat "E"
      let digits := (if negative then "-" else "") ++ String.ofList ds
      match ty with
      | .word "bool" => return .word (if digits = "0" then "false" else "true")
      | .word "int" => return .word digits
      | ty => return .word ("(" ++ ty.render "" ++ ")" ++ digits)
    else type depth

/-- One part of a name. -/
def unqualifiedName : Nat → Reader Part
  | 0 => fail
  | depth + 1 => do
    let _ ← eat? "L"
    match ← peek with
    | some c =>
      if c.isDigit then sourceName
      else structor <|>
        (do
          eat "cv"
          return .conversion (← type depth)) <|>
        (do return .operator (← lookUp operators))
    | none => fail

/-- A name between `N` and `E`, with the qualifiers of the function it names. -/
def nestedName : Nat → Reader (Path × List String)
  | 0 => fail
  | depth + 1 => do
    eat "N"
    let words ← qualifiers
    let reference ← (do eat "R"; return ["&"]) <|> (do eat "O"; return ["&&"]) <|> return []
    let start ← (do eat "St"; return [Part.ident "std"]) <|>
      (do return [Part.ident (← lookUp standardNames)]) <|>
      (do
        match ← backReference with
        | .name path => return path
        | _ => fail) <|> return []
    return (← nestedParts depth start, words ++ reference)

/-- The parts that follow the path read so far. Each path that another part follows can be
referred to. -/
def nestedParts : Nat → Path → Reader Path
  | 0, _ => fail
  | depth + 1, path => do
    let path ← (do
      if (← peek) = some 'I' then
        if path.isEmpty then fail
        else return path ++ [.applied (← templateArgList depth)]
      else return path ++ [← unqualifiedName depth])
    if ← eat? "E" then return path
    else
      let _ ← remember (.name path)
      nestedParts depth path

end

/-- The name of a symbol, with the qualifiers of the function it names. -/
def name (depth : Nat) : Reader (Path × List String) := do
  if (← peek) = some 'N' then nestedName depth
  else
    let std ← eat? "St"
    let part ← unqualifiedName depth
    let path := if std then [.ident "std", part] else [part]
    if (← peek) = some 'I' then
      let _ ← remember (.name path)
      return (path ++ [.applied (← templateArgList depth)], [])
    else return (path, [])

/-- A name, with the types of its parameters if it names a function; or data about a type. -/
def entity (depth : Nat) : Reader Entity := do
  if ← eat? "TI" then return .about "typeinfo for " (← type depth) ""
  else if ← eat? "TS" then return .about "typeinfo name for " (← type depth) ""
  else if ← eat? "TV" then return .about "\x7bvtable(" (← type depth) ")\x7d"
  else if ← eat? "TT" then return .about "\x7bvtt(" (← type depth) ")\x7d"
  else
    let (path, words) ← name depth
    modify fun s => { s with templateArgs := path.templateArgs }
    match ← types depth with
    | [] => return .data path
    | first :: params =>
      if path.tellsReturn then return .function (some first) path params words
      else return .function none path (first :: params) words

/-- The marks of copies that a compiler made of a function. -/
def copies : Nat → Reader (List String)
  | 0 => return []
  | depth + 1 => (do
      eat "."
      match ← span (isNameChar ['$', '_']) with
      | [] => fail
      | word =>
        let numbers ← copyNumbers depth
        return (" [clone ." ++ String.ofList word ++ numbers ++ "]") :: (← copies depth))
    <|> return []
where
  copyNumbers : Nat → Reader String
    | 0 => return ""
    | depth + 1 => (do
        eat "."
        let n ← number
        return "." ++ toString n ++ (← copyNumbers depth)) <|> return ""

/-- The text of what a symbol names; nothing for a name that is no such symbol. -/
def demangle (symbol : String) : Option String := do
  let depth := 8 * (symbol.length + 1)
  let reader : Reader String := do
    eat "_Z"
    let e ← entity depth
    return e.render ++ String.join (← copies depth)
  let (text, s) ← reader.run { rest := symbol.toList }
  if s.rest.isEmpty ∧ text ≠ symbol then some text else none

/-- The way that is used where no other is given. -/
instance : Demangler := ⟨demangle⟩

end SafeIR.Mangled
