import SafeIR.Peg.Expr

/-!
# Matching

`run` matches an expression at a cursor. Success gives the trees of the rules that matched and the
cursor behind them. Success and failure both carry the furthest offset at which a rule was tried
in vain, which is where a syntax error is reported.

The recursion is on a depth bound; `stuck` says that it was too small, and `Grammar.parse` computes
one that suffices for a grammar in which every repeated item consumes something.
-/

namespace SafeIR.Peg

/-- A rule that matched: where it starts, the input from there on, where it ends, and the rules
that matched inside it. -/
inductive ParseTree (R : Type) where
  | node (rule : R) (start : Nat) (input : List Char) (stop : Nat) (children : List (ParseTree R))

namespace ParseTree

variable {R : Type}

def rule : ParseTree R → R
  | node r _ _ _ _ => r

/-- The byte offset of the first character. -/
def start : ParseTree R → Nat
  | node _ s _ _ _ => s

def children : ParseTree R → List (ParseTree R)
  | node _ _ _ _ cs => cs

/-- The leading characters that take `bytes` bytes. -/
def takeBytes : Nat → List Char → List Char
  | _, [] => []
  | bytes, c :: cs => if bytes = 0 then [] else c :: takeBytes (bytes - c.utf8Size) cs

/-- The characters matched. -/
def chars : ParseTree R → List Char
  | node _ start input stop _ => takeBytes (stop - start) input

def text (t : ParseTree R) : String := String.ofList t.chars

end ParseTree

/-- Inside which kind of look-ahead the match runs. -/
inductive Look where
  | none | positive | negative
  deriving DecidableEq, Repr

/-- How the match runs. -/
structure Mode where
  /-- Blanks are passed over between parts. -/
  blanks : Bool := true
  /-- Inside an atomic rule nothing shows. -/
  atomic : Bool := false
  look : Look := .none

namespace Mode

/-- The mode inside a rule. -/
def enter (m : Mode) : Kind → Mode
  | .normal => m
  | .atomic => { m with blanks := false, atomic := true }
  | .compound => { m with blanks := false }

/-- The mode inside a negated expression. -/
def negate (m : Mode) : Mode :=
  { m with look := match m.look with | .negative => .positive | _ => .negative }

end Mode

/-- What a match comes to, and the furthest place that was looked at. -/
inductive Reply (R : Type) where
  | stuck
  | fail (far : Nat)
  | ok (next : Cursor) (far : Nat) (trees : List (ParseTree R))

/-- Consume the characters of a literal. -/
def literal? : List Char → Cursor → Option Cursor
  | [], c => some c
  | x :: xs, ⟨y :: rest, offset⟩ => if x = y then literal? xs ⟨rest, offset + y.utf8Size⟩ else none
  | _ :: _, ⟨[], _⟩ => none

/-- Consume a run of characters of a class. -/
def spanFrom (p : Char → Bool) : List Char → Nat → Cursor
  | [], offset => ⟨[], offset⟩
  | c :: cs, offset => if p c then spanFrom p cs (offset + c.utf8Size) else ⟨c :: cs, offset⟩

namespace Grammar

variable {R : Type} (g : Grammar R)

/-- Pass over blanks if the mode says so. -/
def blanks (m : Mode) (c : Cursor) : Cursor := if m.blanks then g.skip c else c

/-- The answer of a rule, from the answer of its body: the rule shows as a tree, and the offset
where it was tried counts as furthest if it failed, or, inside a negative look-ahead, if it did
not. -/
def conclude (m : Mode) (r : R) (c : Cursor) : Reply R → Reply R
  | .stuck => .stuck
  | .fail far => .fail (if m.atomic || m.look = .negative then far else max far c.offset)
  | .ok next far trees =>
    .ok next (if ! m.atomic && m.look = .negative then max far c.offset else far)
      (if m.atomic || m.look ≠ .none then [] else [.node r c.offset c.rest next.offset trees])

/-- Match an expression at a cursor; `far` is the furthest offset so far. -/
def run : Nat → Mode → Expr R → Cursor → Nat → Reply R
  | 0, _, _, _, _ => .stuck
  | depth + 1, m, e, c, far =>
    match e with
    | .lit text =>
      match literal? text.toList c with
      | some next => .ok next far []
      | none => .fail far
    | .one p =>
      match c.rest with
      | x :: rest => if p x then .ok ⟨rest, c.offset + x.utf8Size⟩ far [] else .fail far
      | [] => .fail far
    | .span p => .ok (spanFrom p c.rest c.offset) far []
    | .done => if c.rest.isEmpty then .ok c far [] else .fail far
    | .rule r => conclude m r c (run depth (m.enter (g.kind r)) (g.body r) c far)
    | .seq a b =>
      match run depth m a c far with
      | .ok next far trees =>
        match run depth m b (g.blanks m next) far with
        | .ok last far more => .ok last far (trees ++ more)
        | reply => reply
      | reply => reply
    | .alt a b =>
      match run depth m a c far with
      | .fail far => run depth m b c far
      | reply => reply
    | .opt a =>
      match run depth m a c far with
      | .fail far => .ok c far []
      | reply => reply
    | .star a =>
      match run depth m a c far with
      | .fail far => .ok c far []
      | .ok next far trees =>
        match run depth m (.more a) next far with
        | .ok last far more => .ok last far (trees ++ more)
        | reply => reply
      | .stuck => .stuck
    | .more a =>
      match run depth m a (g.blanks m c) far with
      | .fail far => .ok c far []
      | .ok next far trees =>
        match run depth m (.more a) next far with
        | .ok last far more => .ok last far (trees ++ more)
        | reply => reply
      | .stuck => .stuck
    | .not a =>
      match run depth m.negate a c far with
      | .fail far => .ok c far []
      | .ok _ far _ => .fail far
      | .stuck => .stuck

/-- A bound on how deep the matching of an input nests: a constant number of levels between two
characters consumed. -/
def depth (input : List Char) : Nat := 128 * (input.length + 1)

/-- The tree of a rule that matches from the start of the input, or the furthest offset. -/
def parse (r : R) (input : List Char) : Except Nat (ParseTree R) :=
  match g.run (depth input) {} (.rule r) ⟨input, 0⟩ 0 with
  | .ok _ _ (t :: _) => .ok t
  | .ok _ far [] => .error far
  | .fail far => .error far
  | .stuck => .error 0

end Grammar

end SafeIR.Peg
