/-!
# Identifiers of generated code

The names of functions and globals in the target language. A symbol is divided into words where its
letters change case and at every character that is no letter or digit, and the words are joined
by underscores: in lower case for functions, in upper case for the constants that hold addresses
of globals. `fresh` tells apart names that would be the same.
-/

namespace SafeIR.Artifact

/-! ## Words -/

/-- The case of the last letter of the word that is read. -/
inductive Mode where
  | none | lower | upper
  deriving DecidableEq, Repr

/-- The mode after one more character; digits change nothing. -/
def Mode.step (m : Mode) (c : Char) : Mode :=
  if c.isLower then .lower else if c.isUpper then .upper else m

/-- The words of letters and digits, where `word` is what came before in the current one, reversed.
A word ends before a capital that follows a small letter, and before a capital that stands between
a capital and a small letter. -/
def wordsFrom : Mode → List Char → List Char → List (List Char)
  | _, word, [] => if word.isEmpty then [] else [word.reverse]
  | _, word, [c] => [(c :: word).reverse]
  | mode, word, c :: next :: rest =>
    if mode.step c = .lower ∧ next.isUpper then
      (c :: word).reverse :: wordsFrom .none [] (next :: rest)
    else if mode = .upper ∧ c.isUpper ∧ next.isLower then
      word.reverse :: wordsFrom .none [c] (next :: rest)
    else wordsFrom (mode.step c) (c :: word) (next :: rest)

/-- The runs of letters and digits, where `run` is what came before in the current one, reversed. -/
def runsFrom : List Char → List Char → List (List Char)
  | run, [] => if run.isEmpty then [] else [run.reverse]
  | run, c :: cs =>
    if c.isAlphanum then runsFrom (c :: run) cs
    else if run.isEmpty then runsFrom [] cs
    else run.reverse :: runsFrom [] cs

/-- The words of a symbol. -/
def words (symbol : List Char) : List (List Char) :=
  (runsFrom [] symbol).flatMap (wordsFrom .none [])

/-- The words in one case, with underscores between them. -/
def joined (case : Char → Char) (ws : List (List Char)) : String :=
  String.intercalate "_" (ws.map fun w => String.ofList (w.map case))

/-! ## Functions and globals -/

/-- The words that the target language keeps for itself. -/
def keywords : List String := [
  "abstract", "as", "async", "await", "become", "box", "break", "const", "continue", "crate", "do",
  "dyn", "else", "enum", "extern", "false", "final", "fn", "for", "gen", "if", "impl", "in", "let",
  "loop", "macro", "match", "mod", "move", "mut", "override", "priv", "pub", "ref", "return",
  "self", "static", "struct", "super", "trait", "true", "try", "type", "typeof", "union", "unsafe",
  "unsized", "use", "virtual", "where", "while", "yield"]

/-- The identifier for a function: what its symbol says, without the parameters, or else the symbol
itself. -/
def functionIdent (index : Nat) (name : String) (demangled : Option String) : String :=
  let source := (demangled.getD name).toList.takeWhile (· != '(')
  let ident := joined Char.toLower (words source)
  let ident := if ident.isEmpty then "func_" ++ toString index else ident
  let ident := if (ident.toList.head?.map Char.isDigit).getD false then "f_" ++ ident else ident
  if keywords.contains ident then ident ++ "_" else ident

/-- The constant for the address of a global. -/
def globalIdent (index : Nat) (name : String) : String :=
  let ident := joined Char.toUpper (words name.toList)
  if ident.isEmpty then "GLOBAL_" ++ toString index else "GLOBAL_" ++ ident

/-! ## Different names -/

/-- The names that generated functions may not have. -/
def reserved : List String := ["new_context", "ctx"]

/-- The name itself, or with the first number behind it, from two on, that makes it different from
the names used. One of as many numbers as there are names, and one more, does. -/
def fresh (used : List String) (base : String) : String :=
  if used.contains base then
    (((List.range (used.length + 1)).map fun i => base ++ "_" ++ toString (i + 2)).find?
      (! used.contains ·)).getD base
  else base

/-- Names in order, each made different from those used before it. -/
def freshAll : List String → List String → List String
  | _, [] => []
  | used, base :: bases =>
    let name := fresh used base
    name :: freshAll (name :: used) bases

end SafeIR.Artifact
