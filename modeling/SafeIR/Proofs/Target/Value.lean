import SafeIR.Fault
import SafeIR.Proofs.Word.Exact
import SafeIR.Target.Code

/-!
# Values of generated code

What an expression of generated code stands for. Words are read as signed or unsigned, as their
type says, and a conversion goes by the type it starts from: a signed word is extended by its sign,
an unsigned one by zeros, and what does not fit is cut off.

Floats, the guest memory and the routines of the support library are given by a `Support`, about
which nothing is assumed.
-/

namespace SafeIR.Target

open IR (BlockId)
open Layout (Scalar)

/-- What a variable can hold. -/
inductive Value where
  | unit
  | bool (b : Bool)
  | word (signed : Bool) (bits : Nat) (x : BitVec bits)
  /-- A float of a width, by its bits. -/
  | float (width bits : Nat)
  | exception (pending : Option Exception)
  /-- A number that takes the type of what it stands beside. -/
  | numeral (n : Nat)
  deriving DecidableEq

/-- What generated code is linked with. `σ` is all that can change outside of its variables. -/
structure Support (σ : Type) where
  /-- The addresses of the globals. -/
  global : String → BitVec 64
  /-- An operation on floats, by the expression that stands for it and its operands. -/
  float : Expr → List Value → Option Value
  /-- A routine that may raise. -/
  raising : String → List Value → Option (Emulated Value)
  /-- Any other action, by its operands. -/
  act : Action → List Value → σ → Option (Outcome Value × σ)
  /-- A function of the host, whose answer is to have a type. -/
  external : String → List Value → Option Ty → σ → Outcome Value × σ
  /-- What surrounds a function that allocates on the stack. -/
  enter : σ → σ
  leave : σ → σ

/-- The variables of a running function, and what its last call left behind. -/
structure Env (σ : Type) where
  world : σ
  store : Var → Value
  block : BlockId
  result : Option (Emulated Value) := none
  caught : Option Exception := none
  outcome : Option Value := none

namespace Env

variable {σ : Type}

/-- A variable takes a value. -/
def set (e : Env σ) (v : Var) (x : Value) : Env σ :=
  { e with store := fun v' => if v' = v then x else e.store v' }

/-- Assign to several variables; to one that occurs twice, the later value. -/
def setAll (e : Env σ) (pairs : List (Var × Value)) : Env σ :=
  pairs.foldl (fun e p => e.set p.1 p.2) e

@[simp] theorem set_store_self (e : Env σ) (v : Var) (x : Value) : (e.set v x).store v = x :=
  if_pos rfl

theorem set_store_of_ne {e : Env σ} {v v' : Var} {x : Value} (h : v' ≠ v) :
    (e.set v x).store v' = e.store v' := if_neg h

@[simp] theorem set_world (e : Env σ) (v : Var) (x : Value) : (e.set v x).world = e.world := rfl

@[simp] theorem set_block (e : Env σ) (v : Var) (x : Value) : (e.set v x).block = e.block := rfl

@[simp] theorem setAll_nil (e : Env σ) : e.setAll [] = e := rfl

@[simp] theorem setAll_cons (e : Env σ) (p : Var × Value) (ps : List (Var × Value)) :
    e.setAll (p :: ps) = (e.set p.1 p.2).setAll ps := rfl

theorem setAll_append (e : Env σ) (ps qs : List (Var × Value)) :
    e.setAll (ps ++ qs) = (e.setAll ps).setAll qs := List.foldl_append

/-- Variables that are not assigned to keep their values, and so does everything else. -/
theorem setAll_frame (e : Env σ) (pairs : List (Var × Value)) :
    (e.setAll pairs).world = e.world ∧ (e.setAll pairs).block = e.block ∧
      ∀ v, v ∉ pairs.map Prod.fst → (e.setAll pairs).store v = e.store v := by
  induction pairs generalizing e with
  | nil => exact ⟨rfl, rfl, fun _ _ => rfl⟩
  | cons p ps ih =>
    obtain ⟨hworld, hblock, hstore⟩ := ih (e.set p.1 p.2)
    refine ⟨hworld, hblock, fun v hv => ?_⟩
    rw [List.map_cons, List.mem_cons, not_or] at hv
    rw [setAll_cons, hstore v hv.2, set_store_of_ne hv.1]

end Env

/-! ## Literals -/

namespace Value

def floatLiteral (bits : Nat) : Scalar → Value
  | .f32 => .float 32 (Binary.narrow bits)
  | _ => .float 64 bits

/-- The value of the literal for an integer at a scalar. -/
def literal (v : Int) : Scalar → Value
  | .bool => .bool (v % 2 ≠ 0)
  | .int bits => .word true (Scalar.wordBits bits) (BitVec.ofInt _ (wrapTo bits v))
  | .ptr => .word false 64 (BitVec.ofInt 64 v)
  | s => floatLiteral (Binary.double.ofInt v) s

/-- The zero of a scalar. -/
def zero : Scalar → Value
  | .bool => .bool false
  | .int bits => .word true (Scalar.wordBits bits) 0
  | .ptr => .word false 64 0
  | .f32 => .float 32 0
  | .f64 => .float 64 0

/-- A number as a value of a type. -/
def number (v : Int) : Ty → Option Value
  | .signed w => some (.word true w (BitVec.ofInt w v))
  | .unsigned w => some (.word false w (BitVec.ofInt w v))
  | _ => none

/-! ## Operations on words and truth values -/

/-- A conversion between words, or from a truth value to a word. -/
def cast : Value → Ty → Option Value
  | .bool b, .bool => some (.bool b)
  | .bool b, .signed w => some (.word true w ((BitVec.ofBool b).setWidth w))
  | .bool b, .unsigned w => some (.word false w ((BitVec.ofBool b).setWidth w))
  | .word s _ x, .signed w => some (.word true w (if s then x.signExtend w else x.setWidth w))
  | .word s _ x, .unsigned w => some (.word false w (if s then x.signExtend w else x.setWidth w))
  | _, _ => none

/-- A numeral as a value of the type that the other side has. -/
def beside : Value → Value → Value
  | .numeral n, .word s w _ => .word s w (BitVec.ofNat w n)
  | v, _ => v

/-- Negation of the bits of a word, or of a truth value. -/
def not : Value → Option Value
  | .bool b => some (.bool !b)
  | .word s w x => some (.word s w (~~~x))
  | _ => none

end Value

/-- An operation on words of one type. Sums and the like are not among them: those on words are
all spelled as operations modulo the width. -/
def BinaryOp.onWords {w : Nat} (op : BinaryOp) (signed : Bool) (x y : BitVec w) : Option Value :=
  let less (x y : BitVec w) : Bool := if signed then x.slt y else x.ult y
  match op with
  | .and => some (.word signed w (x &&& y))
  | .or => some (.word signed w (x ||| y))
  | .xor => some (.word signed w (x ^^^ y))
  | .eq => some (.bool (x = y))
  | .ne => some (.bool (x ≠ y))
  | .lt => some (.bool (less x y))
  | .gt => some (.bool (less y x))
  | .le => some (.bool !(less y x))
  | .ge => some (.bool !(less x y))
  | _ => none

/-- An operation on truth values, of which `false` is the lesser. -/
def BinaryOp.onBools (op : BinaryOp) (a b : Bool) : Option Value :=
  match op with
  | .and | .both => some (.bool (a && b))
  | .or | .either => some (.bool (a || b))
  | .xor | .ne => some (.bool (a ^^ b))
  | .eq => some (.bool (a == b))
  | .lt => some (.bool (!a && b))
  | .gt => some (.bool (a && !b))
  | .le => some (.bool (!a || b))
  | .ge => some (.bool (a || !b))
  | _ => none

/-- What an operator computes. -/
def BinaryOp.eval (op : BinaryOp) (l r : Value) : Option Value :=
  match l.beside r, r.beside l with
  | .word s w x, .word s' w' y =>
    if h : w' = w then if s' = s then op.onWords s x (h ▸ y) else none else none
  | .bool a, .bool b => op.onBools a b
  | _, _ => none

/-- A shift takes its amount, a word of 32 bits without sign, modulo the width. -/
def WrappingOp.shift {w : Nat} (op : WrappingOp) (signed : Bool) (x : BitVec w) (amount : Nat) :
    Option (BitVec w) :=
  match op with
  | .shl => some (x <<< (amount % w))
  | .shr => some (if signed then x.sshiftRight (amount % w) else x >>> (amount % w))
  | _ => none

def WrappingOp.arithmetic {w : Nat} (op : WrappingOp) (x y : BitVec w) : Option (BitVec w) :=
  match op with
  | .add => some (x + y)
  | .sub => some (x - y)
  | .mul => some (x * y)
  | _ => none

/-- What an operation modulo the width computes. -/
def WrappingOp.eval (op : WrappingOp) (l r : Value) : Option Value :=
  match op, l, r with
  | .shl, .word s w x, .word false 32 y | .shr, .word s w x, .word false 32 y =>
    (op.shift s x y.toNat).map (.word s w)
  | _, .word s w x, .word s' w' y =>
    if h : w' = w then if s' = s then (op.arithmetic x (h ▸ y)).map (.word s w) else none else none
  | _, _, _ => none

/-! ## Expressions -/

/-- The value of an expression. To take a value out of a variable is no matter of expressions
alone, so `take` has none here. -/
def Expr.eval {σ : Type} (sup : Support σ) (e : Env σ) : Expr → Option Value
  | .var v | .clone v => some (e.store v)
  | .global name => some (.word false 64 (sup.global name))
  | .int v s => some (.literal v s)
  | .float bits s => some (.floatLiteral bits s)
  | .zero s => some (.zero s)
  | .bool b => some (.bool b)
  | .number v ty => Value.number v ty
  | .numeral n => some (.numeral n)
  | .text _ => Option.none
  | .paren x => x.eval sup e
  | .cast x ty => do
    let v ← x.eval sup e
    v.cast ty <|> sup.float (.cast x ty) [v]
  | .not x => do (← x.eval sup e).not
  | .neg x => do sup.float (.neg x) [← x.eval sup e]
  | .binary op l r => do
    let a ← l.eval sup e
    let b ← r.eval sup e
    op.eval a b <|> sup.float (.binary op l r) [a, b]
  | .wrapping op l r => do op.eval (← l.eval sup e) (← r.eval sup e)
  | .wrappingNeg x => do
    match ← x.eval sup e with
    | .word true w x => some (.word true w (-x))
    | _ => Option.none
  | .isNan x => do sup.float (.isNan x) [← x.eval sup e]
  | .toBits x => do sup.float (.toBits x) [← x.eval sup e]
  | .ofBits ty x => do sup.float (.ofBits ty x) [← x.eval sup e]
  | .ifElse cond yes no => do
    match ← cond.eval sup e with
    | .bool b => if b then yes.eval sup e else no.eval sup e
    | _ => Option.none
  | .resultValue => e.result.map Emulated.value
  | .outcomeValue => e.outcome
  | .take _ => Option.none
  | .none => some (.exception Option.none)

end SafeIR.Target
