import SafeIR.Failure
import SafeIR.Power
import SafeIR.Profile
import SafeIR.Target.Code

/-!
# Lowering of single operations

The code for one operation on operands that are code already.

Operations that promise not to wrap, or to be exact, become checked operations when broken promises
trap; otherwise they wrap. Division is always checked. Arithmetic on truth values is modulo two,
and their signed order is the reverse of the unsigned one, since true is minus one.
-/

namespace SafeIR.Lower

open Layout (Scalar)
open Target (Action Expr Step Var)

/-! ## Arithmetic -/

/-- An operation that may promise not to wrap: with both promises the unsigned one is checked
first and the result is that of the signed one. -/
def promised (dest : Var) (s : Scalar) (l r : Expr) (nsw nuw : Bool) (signed unsigned : CheckedOp)
    (plain : Expr) : List Step :=
  match nsw, nuw with
  | false, false => [.assign dest (.pure plain)]
  | true, false => [.assign dest (.checked s signed l r)]
  | false, true => [.assign dest (.checked s unsigned l r)]
  | true, true => [.run (.checked s unsigned l r), .assign dest (.checked s signed l r)]

def u32 : Target.Ty := .unsigned 32

/-- Arithmetic on integers. -/
def intBinary (dest : Var) (op : BinaryOp) (s : Scalar) (l r : Expr) (flags : WrapFlags)
    (checked : Bool) : Except NoArithmetic (List Step) :=
  let nsw := checked && flags.nsw
  let nuw := checked && flags.nuw
  let exact := checked && flags.exact
  let pure (e : Expr) : List Step := [.assign dest (.pure e)]
  let call (op : CheckedOp) : List Step := [.assign dest (.checked s op l r)]
  match op with
  | .add => .ok (promised dest s l r nsw nuw .addNsw .addNuw (.wrapping .add l r))
  | .sub => .ok (promised dest s l r nsw nuw .subNsw .subNuw (.wrapping .sub l r))
  | .mul => .ok (promised dest s l r nsw nuw .mulNsw .mulNuw (.wrapping .mul l r))
  | .shl => .ok (promised dest s l r nsw nuw .shlNsw .shlNuw (.wrapping .shl l (.cast r u32)))
  | .sdiv => .ok (call (if exact then .sdivExact else .sdiv))
  | .udiv => .ok (call (if exact then .udivExact else .udiv))
  | .srem => .ok (call .srem)
  | .urem => .ok (call .urem)
  | .lshr =>
    if exact then .ok (call .lshrExact)
    else .ok (pure (.cast (.wrapping .shr (.paren (.cast l s.unsignedTy)) (.cast r u32)) s.ty))
  | .ashr =>
    if exact then .ok (call .ashrExact) else .ok (pure (.wrapping .shr l (.cast r u32)))
  | .and => .ok (pure (.binary .and l r))
  | .or => .ok (pure (.binary .or l r))
  | .xor => .ok (pure (.binary .xor l r))
  | op => .error (.onInt op s)

/-- Arithmetic at a scalar. -/
def binary (dest : Var) (op : BinaryOp) (s : Scalar) (l r : Expr) (flags : WrapFlags)
    (overflow : Overflow) : Except NoArithmetic (List Step) :=
  let infixed (op : Target.BinaryOp) : Except NoArithmetic (List Step) :=
    .ok [.assign dest (.pure (.binary op l r))]
  match s with
  | .int _ => intBinary dest op s l r flags (overflow = .trap)
  | .bool =>
    match op with
    | .add | .sub | .xor => infixed .xor
    | .mul | .and => infixed .and
    | .or => infixed .or
    | op => .error (.onBool op)
  | .f32 | .f64 =>
    match op with
    | .fadd => infixed .add
    | .fsub => infixed .sub
    | .fmul => infixed .mul
    | .fdiv => infixed .div
    | .frem => infixed .rem
    | op => .error (.onFloat op)
  | .ptr => .error (.onPtr op)

/-! ## Comparison -/

/-- The operator of a predicate. -/
def comparison : IntPredicate → Target.BinaryOp
  | .eq => .eq
  | .ne => .ne
  | .ugt | .sgt => .gt
  | .uge | .sge => .ge
  | .ult | .slt => .lt
  | .ule | .sle => .le

def isSigned : IntPredicate → Bool
  | .sgt | .sge | .slt | .sle => true
  | _ => false

def isUnsigned : IntPredicate → Bool
  | .ugt | .uge | .ult | .ule => true
  | _ => false

/-- The comparison with its sides exchanged. -/
def flipped : Target.BinaryOp → Target.BinaryOp
  | .gt => .lt
  | .ge => .le
  | .lt => .gt
  | .le => .ge
  | op => op

/-- A comparison, unsigned through a cast. -/
def icmp (pred : IntPredicate) (s : Scalar) (l r : Expr) : Expr :=
  let op := comparison pred
  let reading (ty : Target.Ty) : Expr := .binary op (.paren (.cast l ty)) (.paren (.cast r ty))
  match s with
  | .bool => .binary (if isSigned pred then flipped op else op) l r
  | .int _ => if isUnsigned pred then reading s.unsignedTy else .binary op l r
  | .ptr => if isSigned pred then reading (.signed 64) else .binary op l r
  | _ => .binary op l r

/-- Comparisons of floats are false, and `!=` is true, when a side is no number, so the predicates
that are true then are the negations of the opposite ones. -/
def fcmp (pred : FloatPredicate) (l r : Expr) : Expr :=
  let differ : Expr := .paren (.binary .either (.binary .lt l r) (.binary .gt l r))
  let negated (op : Target.BinaryOp) : Expr := .not (.paren (.binary op l r))
  match pred with
  | .never => .bool false
  | .always => .bool true
  | .oeq => .binary .eq l r
  | .ogt => .binary .gt l r
  | .oge => .binary .ge l r
  | .olt => .binary .lt l r
  | .ole => .binary .le l r
  | .one => differ
  | .ord => .paren (.binary .both (.not (.isNan l)) (.not (.isNan r)))
  | .ueq => .not differ
  | .ugt => negated .le
  | .uge => negated .lt
  | .ult => negated .ge
  | .ule => negated .gt
  | .une => .binary .ne l r
  | .uno => .paren (.binary .either (.isNan l) (.isNan r))

/-! ## Conversion -/

/-- The lowest bit of an integer. -/
def lowBit (e : Expr) : Expr := .binary .ne (.paren (.binary .and e (.numeral 1))) (.numeral 0)

/-- A value read as unsigned and then converted. -/
def viaUnsigned (e : Expr) (source : Scalar) (ty : Target.Ty) : Expr :=
  .cast (.paren (.cast e source.unsignedTy)) ty

/-- The code of a conversion, if it has one. -/
def cast? (op : CastOp) (source target : Scalar) (e : Expr) : Option Action :=
  let pure (e : Expr) : Option Action := some (.pure e)
  match op, source, target with
  | .trunc, .int _, .bool => pure (lowBit e)
  | .trunc, .int a, .int b => if b ≤ a then pure (.cast e target.ty) else none
  | .zext, .bool, .int _ => pure (.cast e target.ty)
  | .zext, .int a, .int b => if a ≤ b then pure (viaUnsigned e source target.ty) else none
  | .sext, .bool, .int _ => pure (.wrappingNeg (.paren (.cast e target.ty)))
  | .sext, .int a, .int b => if a ≤ b then pure (.cast e target.ty) else none
  | .fptrunc, .f64, .f32 => pure (.cast e .f32)
  | .fpext, .f32, .f64 => pure (.cast e .f64)
  | .fptosi, .f32, .int _ | .fptosi, .f64, .int _ => some (.toInt true source target e)
  | .fptoui, .f32, .int _ | .fptoui, .f64, .int _ => some (.toInt false source target e)
  | .sitofp, .bool, .f32 | .sitofp, .bool, .f64 =>
    pure (.cast (.wrappingNeg (.paren (.cast e (.signed 8)))) target.ty)
  | .sitofp, .int _, .f32 | .sitofp, .int _, .f64 => pure (.cast e target.ty)
  | .uitofp, .bool, .f32 | .uitofp, .bool, .f64 =>
    pure (.cast (.paren (.cast e (.unsigned 8))) target.ty)
  | .uitofp, .int _, .f32 | .uitofp, .int _, .f64 => pure (viaUnsigned e source target.ty)
  | .ptrtoint, .ptr, .bool => pure (lowBit e)
  | .ptrtoint, .ptr, .int _ => pure (.cast e target.ty)
  | .inttoptr, .bool, .ptr => pure (.cast e (.unsigned 64))
  | .inttoptr, .int _, .ptr => pure (viaUnsigned e source (.unsigned 64))
  | .bitcast, .int 32, .f32 => pure (.ofBits .f32 (.cast e (.unsigned 32)))
  | .bitcast, .int 64, .f64 => pure (.ofBits .f64 (.cast e (.unsigned 64)))
  | .bitcast, .f32, .int 32 => pure (.cast (.toBits e) (.signed 32))
  | .bitcast, .f64, .int 64 => pure (.cast (.toBits e) (.signed 64))
  | .bitcast, source, target => if source = target then pure e else none
  | .addrspacecast, .ptr, .ptr => pure e
  | _, _, _ => none

/-! ## Addresses -/

/-- The number of bytes to allocate for `count` elements of a size, when the count is a number: it
wraps like the addresses it is for. -/
def constantSize (size : Nat) (count : Int) : Nat := (size * count % (twoPow 64 : Int)).toNat

/-- The number of bytes to allocate for as many elements as a variable says. -/
def dynamicSize (size : Nat) (count : Expr) : Expr :=
  .wrapping .mul (.number size (.unsigned 64)) (.cast count (.unsigned 64))

/-- `base` moved by `offset` bytes and by `index * stride` for each term. -/
def address (base : Expr) (offset : Int) (terms : List (Expr × Int)) : Expr :=
  let moved : Expr :=
    if 0 < offset then .wrapping .add base (.number offset (.unsigned 64))
    else if offset < 0 then .wrapping .sub base (.number (-offset) (.unsigned 64))
    else base
  terms.foldl (fun e (index, stride) =>
    .wrapping .add e (.cast (.wrapping .mul (.paren (.cast index (.signed 64)))
      (.number stride (.signed 64))) (.unsigned 64))) moved

/-- Assign to several variables at once, if there are any. -/
def copies : List (Var × Expr) → List Step
  | [] => []
  | [(dest, e)] => [.assign dest (.pure e)]
  | pairs => [.copies pairs]

/-- An action with its result in a variable, or for its effect. -/
def into : Option Var → Action → Step
  | some dest, a => .assign dest a
  | none, a => .run a

end SafeIR.Lower
