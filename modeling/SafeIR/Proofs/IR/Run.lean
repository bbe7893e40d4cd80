import SafeIR.Fault
import SafeIR.IR.Module
import SafeIR.Profile
import SafeIR.Proofs.Word.Exact

/-!
# Running functions on integers

What a function means that computes with integers and branches. A value is a word of the width of
its type, and arithmetic is said in terms of exact results: a word stands for an integer in two's
complement or for a natural number, and a result that does not fit wraps or, where the operation
promised that it fits and broken promises are to trap, stops the run.

The phis of a block take their values when it is entered, all at once, from where control comes. A
state is thus a block and the values computed so far, the phis of that block included. A run gets
stuck, with no next state, on a value that is not there yet, on operands whose widths do not match
and on whatever is not about integers.
-/

namespace SafeIR.IR

open Word (FitsSigned FitsUnsigned)

/-! ## Arithmetic -/

section Arithmetic

variable {w : Nat}

/-- Let a result through unless a promise about it is broken. -/
def unlessBroken (broken : Prop) [Decidable broken] (result : BitVec w) :
    Except Trap (BitVec w) :=
  if broken then .error .integerOverflow else .ok result

/-- A sum, a difference or a product. -/
def exactly (f : Int → Int → Int) (nsw nuw : Bool) (a b : BitVec w) : Except Trap (BitVec w) :=
  unlessBroken
    ((nsw ∧ ¬ FitsSigned w (f a.toInt b.toInt)) ∨ (nuw ∧ ¬ FitsUnsigned w (f a.toNat b.toNat)))
    (BitVec.ofInt w (f a.toInt b.toInt))

/-- The amount counts modulo the width, but by more than that no promise can be kept. -/
def shiftLeft (nsw nuw : Bool) (a b : BitVec w) : Except Trap (BitVec w) :=
  unlessBroken
    ((nsw ∧ (w ≤ b.toNat ∨ ¬ FitsSigned w (a.toInt * 2 ^ b.toNat))) ∨
      (nuw ∧ (w ≤ b.toNat ∨ ¬ FitsUnsigned w (a.toNat * 2 ^ b.toNat))))
    (BitVec.ofInt w (a.toInt * 2 ^ (b.toNat % w)))

/-- A right shift is exact if only zeros are shifted out. -/
def shiftRight (signed exact : Bool) (a b : BitVec w) : Except Trap (BitVec w) :=
  unlessBroken (exact ∧ a.toNat % 2 ^ (b.toNat % w) ≠ 0)
    (if signed then BitVec.ofInt w (a.toInt / 2 ^ (b.toNat % w))
      else BitVec.ofNat w (a.toNat / 2 ^ (b.toNat % w)))

/-- Signed division rounds toward zero. That the quotient fits is not a promise but has to hold. -/
def divideSigned (exact : Bool) (a b : BitVec w) : Except Trap (BitVec w) :=
  if b.toInt = 0 then .error .divisionByZero
  else unlessBroken
    (¬ FitsSigned w (a.toInt.tdiv b.toInt) ∨ (exact ∧ a.toInt.tmod b.toInt ≠ 0))
    (BitVec.ofInt w (a.toInt.tdiv b.toInt))

def divideUnsigned (exact : Bool) (a b : BitVec w) : Except Trap (BitVec w) :=
  if b.toNat = 0 then .error .divisionByZero
  else unlessBroken (exact ∧ a.toNat % b.toNat ≠ 0) (BitVec.ofNat w (a.toNat / b.toNat))

/-- The result of an operation on integers; there is none for operations on floats. -/
def arithmetic (overflow : Overflow) (op : BinaryOp) (flags : WrapFlags) (a b : BitVec w) :
    Option (Except Trap (BitVec w)) :=
  let nsw := overflow = .trap ∧ flags.nsw
  let nuw := overflow = .trap ∧ flags.nuw
  let exact := overflow = .trap ∧ flags.exact
  match op with
  | .add => some (exactly (· + ·) nsw nuw a b)
  | .sub => some (exactly (· - ·) nsw nuw a b)
  | .mul => some (exactly (· * ·) nsw nuw a b)
  | .shl => some (shiftLeft nsw nuw a b)
  | .lshr => some (shiftRight false exact a b)
  | .ashr => some (shiftRight true exact a b)
  | .sdiv => some (divideSigned exact a b)
  | .udiv => some (divideUnsigned exact a b)
  | .srem =>
    some (if b.toInt = 0 then .error .divisionByZero
      else .ok (BitVec.ofInt w (a.toInt.tmod b.toInt)))
  | .urem =>
    some (if b.toNat = 0 then .error .divisionByZero
      else .ok (BitVec.ofNat w (a.toNat % b.toNat)))
  | .and => some (.ok (a &&& b))
  | .or => some (.ok (a ||| b))
  | .xor => some (.ok (a ^^^ b))
  | .fadd | .fsub | .fmul | .fdiv | .frem => none

/-- A comparison of exact numbers. -/
def compare (pred : IntPredicate) (a b : BitVec w) : Bool :=
  match pred with
  | .eq => a = b
  | .ne => a ≠ b
  | .ugt => b.toNat < a.toNat
  | .uge => b.toNat ≤ a.toNat
  | .ult => a.toNat < b.toNat
  | .ule => a.toNat ≤ b.toNat
  | .sgt => b.toInt < a.toInt
  | .sge => b.toInt ≤ a.toInt
  | .slt => a.toInt < b.toInt
  | .sle => a.toInt ≤ b.toInt

end Arithmetic

/-! ## Values -/

/-- A word with its width. -/
structure Datum where
  bits : Nat
  value : BitVec bits
  deriving DecidableEq

/-- The values computed so far. -/
abbrev Env := ValueId → Option Datum

namespace Env

def set (env : Env) (v : ValueId) (x : Datum) : Env := fun v' => if v' = v then some x else env v'

def setAll (env : Env) (pairs : List (ValueId × Datum)) : Env :=
  pairs.foldl (fun env p => env.set p.1 p.2) env

end Env

/-- An unspecified integer is zero. -/
def Constant.datum? : Constant → Ty → Option Datum
  | .int v, .int bits => some ⟨bits, BitVec.ofInt bits v⟩
  | .bool b, .int bits => some ⟨bits, BitVec.ofInt bits (if b then 1 else 0)⟩
  | .undef, .int bits | .zero, .int bits => some ⟨bits, 0⟩
  | _, _ => none

/-- What an operand stands for. -/
def Operand.datum? (env : Env) (ty : Ty) : Operand → Option Datum
  | .value v => env v
  | .const c => c.datum? ty
  | _ => none

/-- Apply an operation to two words of one width. -/
def Datum.both {α : Type} (f : ∀ {w : Nat}, BitVec w → BitVec w → Option α) (a b : Datum) :
    Option α :=
  if h : b.bits = a.bits then f a.value (h ▸ b.value) else none

/-- A conversion between widths. -/
def Datum.convert (op : CastOp) (a : Datum) : Ty → Option Datum
  | .int bits =>
    match op with
    | .trunc | .zext => some ⟨bits, BitVec.ofNat bits a.value.toNat⟩
    | .sext => some ⟨bits, BitVec.ofInt bits a.value.toInt⟩
    | _ => none
  | _ => none

/-- Whether a truth value holds; it is a word of one bit. -/
def Datum.isTrue? : Datum → Option Bool
  | ⟨1, x⟩ => some (x = 1)
  | _ => none

/-! ## Instructions -/

/-- The value of an operation, or why it traps. -/
def Op.eval (overflow : Overflow) (env : Env) : Op → Option (Except Trap Datum)
  | .binary op flags ty l r => do
    let a ← l.datum? env ty
    let b ← r.datum? env ty
    a.both (fun x y => (arithmetic overflow op flags x y).map (·.map (⟨_, ·⟩))) b
  | .icmp pred ty l r => do
    let a ← l.datum? env ty
    let b ← r.datum? env ty
    let holds ← a.both (fun x y => some (compare pred x y)) b
    return .ok ⟨1, BitVec.ofBool holds⟩
  | .select ty cond yes no => do
    let holds ← (← cond.datum? env (.int 1)).isTrue?
    return .ok (← (if holds then yes else no).datum? env ty)
  | .cast op source target v => do
    return .ok (← (← v.datum? env source).convert op target)
  | _ => none

/-- What a phi takes on entry to its block. -/
structure Phi where
  dest : ValueId
  ty : Ty
  incoming : List (Operand × BlockId)

/-- The instruction as a phi. -/
def Instruction.phi? (i : Instruction) : Option Phi :=
  match i.op, i.result with
  | .phi ty incoming, some dest => some ⟨dest, ty, incoming⟩
  | _, _ => none

theorem Instruction.eq_of_phi? {i : Instruction} {p : Phi} (h : i.phi? = some p) :
    i.op = .phi p.ty p.incoming ∧ i.result = some p.dest := by
  unfold Instruction.phi? at h
  split at h
  next hop hresult =>
    cases h
    exact ⟨hop, hresult⟩
  next => cases h

/-- The phis of a block. -/
def Block.phis (b : Block) : List Phi := b.instructions.filterMap Instruction.phi?

/-- The values after an instruction. Phis have theirs already. -/
def Instruction.eval (overflow : Overflow) (env : Env) (i : Instruction) :
    Option (Except Trap Env) :=
  match i.op, i.result with
  | .phi .., _ => some (.ok env)
  | op, some dest => (op.eval overflow env).map (·.map (env.set dest))
  | _, none => none

/-- The values after several instructions, up to the first that traps. -/
def evalInstructions (overflow : Overflow) : List Instruction → Env → Option (Except Trap Env)
  | [], env => some (.ok env)
  | i :: is, env => do
    match ← i.eval overflow env with
    | .ok env => evalInstructions overflow is env
    | .error t => return .error t

/-! ## Blocks -/

/-- How a block is left. -/
inductive Transfer where
  | goto (target : BlockId)
  | ret (v : Option Datum)
  | trap (t : Trap)

/-- The target of the first case whose value is a word's. -/
def caseTarget (v : Datum) (default : BlockId) (cases : List (Int × BlockId)) : BlockId :=
  ((cases.find? fun c => BitVec.ofInt v.bits c.1 = v.value).map Prod.snd).getD default

/-- Where a terminator leads. -/
def Terminator.transfer (env : Env) : Terminator → Option Transfer
  | .ret none => some (.ret none)
  | .ret (some (ty, v)) => (v.datum? env ty).map fun x => .ret (some x)
  | .br target => some (.goto target)
  | .condBr cond yes no => do
    let holds ← (← cond.datum? env (.int 1)).isTrue?
    return .goto (if holds then yes else no)
  | .switch ty v default cases => (v.datum? env ty).map fun x => .goto (caseTarget x default cases)
  | .unreachable => some (.trap .unreachable)
  | .invoke .. | .resume _ => none

/-- A function that runs, or how it ended. -/
inductive State where
  | running (block : BlockId) (env : Env)
  | returned (v : Option Datum)
  | trapped (t : Trap)

/-- The value that a phi takes when control comes from a block. -/
def Phi.arrive (source : BlockId) (env : Env) (p : Phi) : Option (ValueId × Datum) := do
  let (v, _) ← p.incoming.find? (·.2 = source)
  return (p.dest, ← v.datum? env p.ty)

namespace Function

def enter (f : Function) (source target : BlockId) (env : Env) : Option State := do
  let block ← f.blocks[target.index]?
  let values ← block.phis.mapM (Phi.arrive source env)
  return .running target (env.setAll values)

/-- Run one block. A run that has ended stays where it is. -/
def step (f : Function) (overflow : Overflow) : State → Option State
  | .running b env => do
    let block ← f.blocks[b.index]?
    match ← evalInstructions overflow block.instructions env with
    | .error t => return .trapped t
    | .ok env =>
      match ← block.terminator.transfer env with
      | .goto target => f.enter b target env
      | .ret v => return .returned v
      | .trap t => return .trapped t
  | s => some s

/-- The first block, with the arguments in the parameters. -/
def start (f : Function) (args : List Datum) : State :=
  .running ⟨0⟩ (Env.setAll (fun _ => none) (f.params.zip args))

/-- The state after a number of blocks. -/
def run (f : Function) (overflow : Overflow) (args : List Datum) : Nat → Option State
  | 0 => some (f.start args)
  | n + 1 => f.run overflow args n >>= f.step overflow

end Function

end SafeIR.IR
