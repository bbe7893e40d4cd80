/-!
# Parsing expressions

Parsing expressions over a type `R` of rule names, and grammars that give each name its body. A
choice takes the first alternative that matches and repetition is greedy, so every expression has
at most one match at a position.
-/

namespace SafeIR.Peg

/-- A parsing expression. -/
inductive Expr (R : Type) where
  /-- These characters. -/
  | lit (text : String)
  /-- One character of a class. -/
  | one (p : Char → Bool)
  /-- The longest run of characters of a class, which may be empty. -/
  | span (p : Char → Bool)
  /-- The end of the input. -/
  | done
  | rule (r : R)
  | seq (a b : Expr R)
  | alt (a b : Expr R)
  | opt (a : Expr R)
  | star (a : Expr R)
  /-- What follows the first item of a repetition: blanks and an item, any number of times. -/
  | more (a : Expr R)
  /-- Succeeds, and consumes nothing, where `a` does not match. -/
  | not (a : Expr R)

namespace Expr

variable {R : Type}

instance : Coe String (Expr R) := ⟨lit⟩

/-- One after the other. -/
def all : List (Expr R) → Expr R
  | [] => lit ""
  | [a] => a
  | a :: b :: as => seq a (all (b :: as))

/-- The first that matches. -/
def any : List (Expr R) → Expr R
  | [] => not (lit "")
  | [a] => a
  | a :: b :: as => alt a (any (b :: as))

/-- The first of several words that matches. -/
def words (ws : List String) : Expr R := any (ws.map lit)

/-- One or more. -/
def plus (a : Expr R) : Expr R := seq a (star a)

/-- Items with a separator between them. -/
def sepBy1 (a : Expr R) (separator : String) : Expr R := seq a (star (seq (lit separator) a))

/-- Items with a separator between them, or none. -/
def sepBy (a : Expr R) (separator : String) : Expr R := opt (sepBy1 a separator)

/-- The longest run of characters of a class, with at least one. -/
def span1 (p : Char → Bool) : Expr R := seq (one p) (span p)

/-- A character that is not `c`. -/
def except (c : Char) : Char → Bool := (· != c)

end Expr

/-- How a rule treats blanks between its parts, and whether it shows. -/
inductive Kind where
  /-- Blanks may stand between the parts. -/
  | normal
  /-- No blanks, and the rules inside leave no trace. -/
  | atomic
  /-- No blanks, but the rules inside show. -/
  | compound
  deriving DecidableEq, Repr

/-- What is left of the input, and the byte offset where it starts. -/
structure Cursor where
  rest : List Char
  offset : Nat

/-- What each rule matches, and what is passed over between its parts. -/
structure Grammar (R : Type) where
  body : R → Expr R
  kind : R → Kind
  /-- Pass over blanks and comments. -/
  skip : Cursor → Cursor

end SafeIR.Peg
