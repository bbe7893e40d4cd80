import SafeIR.Decimal.Read

/-!
# Command lines

A command line is a list of words. Options come before, between or after the operands; `--` ends the
options. A long option takes its value from the next word or behind an equals sign, a short one
also from the rest of its word, and short switches may share a word.

`Command.parse?` gives the command that a command line asks for, or nothing if it asks for none.
-/

namespace SafeIR

/-- What an option takes. -/
inductive Arity where
  /-- Nothing, and it is given at most once. -/
  | switch
  /-- Nothing, and it may be given again. -/
  | counter
  /-- One value, and it is given at most once. -/
  | value
  deriving DecidableEq, Repr

/-- An option that a command knows. -/
structure Flag where
  long : String
  short : Option Char := none
  arity : Arity := .switch
  deriving DecidableEq, Repr

/-- The options of a command line, with their values, and its operands. -/
structure Arguments where
  options : List (Flag × String) := []
  operands : List String := []
  deriving DecidableEq, Repr

namespace Arguments

/-- A flag is given a value. -/
def give (a : Arguments) (f : Flag) (value : String) : Arguments :=
  { a with options := a.options ++ [(f, value)] }

/-- The value of a flag, if it is given. -/
def value? (a : Arguments) (long : String) : Option String :=
  (a.options.find? (·.1.long == long)).map Prod.snd

/-- The flag is given. -/
def has (a : Arguments) (long : String) : Bool := (a.value? long).isSome

/-- No option but a counter is given twice. -/
def isConsistent (a : Arguments) : Bool :=
  decide ((a.options.map Prod.fst).filter (·.arity ≠ .counter)).Nodup

/-- Whether a word is an option and so cannot be a value. A lone hyphen is not. -/
def isOption (word : String) : Bool := word.startsWith "-" && word != "-"

/-- The switches that share a word. The last option of the word may take a value: `inl` is the
arguments if it has none to take or takes the rest of the word, and `inr` the option that takes the
next word. -/
def cluster (flags : List Flag) (a : Arguments) : List Char → Option (Arguments ⊕ Arguments × Flag)
  | [] => some (.inl a)
  | c :: cs =>
    match flags.find? (·.short == some c) with
    | none => none
    | some f =>
      if f.arity = .value then
        match cs with
        | [] => some (.inr (a, f))
        | '=' :: value => some (.inl (a.give f (String.ofList value)))
        | value => some (.inl (a.give f (String.ofList value)))
      else cluster flags (a.give f "") cs

/-- A long option, of which the hyphens are dropped. -/
def long (flags : List Flag) (a : Arguments) (cs : List Char) :
    Option (Arguments ⊕ Arguments × Flag) :=
  match flags.find? (·.long == String.ofList (cs.takeWhile (· != '='))) with
  | none => none
  | some f =>
    match cs.dropWhile (· != '='), decide (f.arity = .value) with
    | _ :: value, true => some (.inl (a.give f (String.ofList value)))
    | [], true => some (.inr (a, f))
    | [], false => some (.inl (a.give f ""))
    | _, _ => none

/-- The options at a word, if it holds any. -/
def optionsAt (flags : List Flag) (a : Arguments) (word : String) :
    Option (Arguments ⊕ Arguments × Flag) :=
  match word.toList with
  | '-' :: '-' :: cs => long flags a cs
  | '-' :: c :: cs => cluster flags a (c :: cs)
  | _ => some (.inl { a with operands := a.operands ++ [word] })

/-- The arguments that words give, in addition to those given before. -/
def ofWords (flags : List Flag) : Arguments → List String → Option Arguments
  | a, [] => some a
  | a, word :: words =>
    if word = "--" then some { a with operands := a.operands ++ words }
    else
      match optionsAt flags a word with
      | none => none
      | some (.inl a) => ofWords flags a words
      | some (.inr (a, f)) =>
        match words with
        | [] => none
        | value :: words => if isOption value then none else ofWords flags (a.give f value) words

end Arguments

/-- What a request for generated code says. -/
structure Request where
  input : String
  output : Option String := none
  profile : Option String := none
  allowExternalCalls : Bool := false
  wrapOverflow : Bool := false
  maxStatements : Option Nat := none
  elideChecks : Bool := false
  noParallel : Bool := false
  deriving DecidableEq, Repr

/-- What a command line asks for. -/
inductive Command where
  /-- Generate code. -/
  | generate (request : Request)
  /-- List the functions of a generated file. -/
  | inspect (file : String)
  deriving DecidableEq, Repr

namespace Command

def verbose : Flag := { long := "verbose", short := some 'v', arity := .counter }

/-- The flags of a translation. -/
def generateFlags : List Flag :=
  [verbose, { long := "output", short := some 'o', arity := .value },
    { long := "profile", arity := .value }, { long := "allow-external-calls" },
    { long := "wrap-overflow" }, { long := "max-statements", arity := .value },
    { long := "elide-checks" }, { long := "no-parallel" }]

/-- A path that is given must not be empty. -/
def path? (p : Option String) : Option (Option String) := if p = some "" then none else some p

/-- A limit that is given must be a number. -/
def limit? : Option String → Option (Option Nat)
  | none => some none
  | some text => (Decimal.unsigned? 64 text.toList).map some

/-- A request to translate a file. -/
def generate? (words : List String) : Option Command := do
  let a ← Arguments.ofWords generateFlags {} words
  match a.operands with
  | [input] =>
    if ! a.isConsistent ∨ input.isEmpty then none
    else return .generate {
      input
      output := ← path? (a.value? "output")
      profile := ← path? (a.value? "profile")
      allowExternalCalls := a.has "allow-external-calls"
      wrapOverflow := a.has "wrap-overflow"
      maxStatements := ← limit? (a.value? "max-statements")
      elideChecks := a.has "elide-checks"
      noParallel := a.has "no-parallel" }
  | _ => none

/-- A request to inspect a file. -/
def inspect? (words : List String) : Option Command := do
  let a ← Arguments.ofWords [verbose] {} words
  match a.operands with
  | [file] => if file.isEmpty then none else return .inspect file
  | _ => none

/-- The command of a command line. Only the counter for messages may stand before its name. -/
def parse? : List String → Option Command
  | [] => none
  | word :: words =>
    if word = "translate" then generate? words
    else if word = "inspect" then inspect? words
    else if word = "--verbose" then parse? words
    else
      match word.toList with
      | '-' :: c :: cs => if (c :: cs).all (· = 'v') then parse? words else none
      | _ => none

end Command

end SafeIR
