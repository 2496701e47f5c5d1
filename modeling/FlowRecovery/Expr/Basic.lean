import FlowRecovery.Expr.Operator
import FlowRecovery.Register

/-!
Bit-vector expressions over variables, registers and memory cells.

An expression is well formed when the operands of each of its nodes fit together. The functions
named `mk...` build a node from well formed operands and fail with a fault when they do not fit.
-/

namespace FlowRecovery

/-- A bit-vector expression. -/
inductive Expr where
  | const (value : Word)
  | var (name : String) (width : Nat)
  | reg (register : Register)
  /-- The bits stored in memory at an address plus an offset in bytes. -/
  | mem (address : Expr) (offset : UInt64) (width : Nat)
  | unary (op : UnaryOp) (a : Expr)
  | binary (op : BinaryOp) (a b : Expr)
  | ite (condition a b : Expr)
deriving DecidableEq

namespace Expr

def width : Expr → Nat
  | const value => value.width
  | var _ width => width
  | reg register => register.size
  | mem _ _ width => width
  | unary op a => op.resultWidth a.width
  | binary .concat a b => a.width + b.width
  | binary op a _ => if op.isComparison then 1 else a.width
  | ite _ a _ => a.width

/-- The text of an expression; variables and registers show their name only. -/
def render : Expr → String
  | const value => value.render
  | var name _ => name
  | reg register => register.render
  | mem address offset width =>
    let place :=
      if offset = 0 then address.render else address.render ++ "+" ++ Text.hex offset.toNat
    "[" ++ place ++ "]:" ++ toString width
  | unary .not a => "(!" ++ a.render ++ ")"
  | unary .neg a => "(-" ++ a.render ++ ")"
  | unary (.extract offset size) a =>
    a.render ++ "[" ++ toString offset ++ ".." ++ toString (offset + size) ++ "]"
  | unary (.zeroExtend width) a => "zext" ++ toString width ++ "(" ++ a.render ++ ")"
  | unary (.signExtend width) a => "sext" ++ toString width ++ "(" ++ a.render ++ ")"
  | binary op a b => "(" ++ a.render ++ " " ++ op.symbol ++ " " ++ b.render ++ ")"
  | ite condition a b => "(" ++ condition.render ++ " ? " ++ a.render ++ " : " ++ b.render ++ ")"

/-- The memory cell at an address plus an offset, which holds whole bytes. -/
def mkMem (address : Expr) (offset : UInt64) (width : Nat) : Checked Expr := do
  require (0 < width ∧ width % 8 = 0) (.cellWidth width)
  return mem address offset width

def mkUnary (op : UnaryOp) (a : Expr) : Checked Expr := do
  match op with
  | .not | .neg => pure ()
  | .extract offset size =>
    require (0 < size) (.sliceRange offset size a.width)
    require ((← addWidths offset size) ≤ a.width) (.sliceRange offset size a.width)
  | .zeroExtend width | .signExtend width =>
    require (a.width ≤ width ∧ width ≤ 64) (.extensionWidth width)
  return unary op a

def mkBinary (op : BinaryOp) (a b : Expr) : Checked Expr := do
  match op with
  | .concat => require ((← addWidths a.width b.width) ≤ 64) .concatWidth
  | _ => require (a.width = b.width) (.operandWidths op.name a.render b.render)
  return binary op a b

/-- The choice between two expressions of one width. -/
def mkIte (condition a b : Expr) : Checked Expr := do
  require (condition.width = 1) .conditionWidth
  require (a.width = b.width) .branchWidths
  return ite condition a b

def constant (width value : Nat) : Checked Expr :=
  return const (← Word.ofNat width value)

def bool (value : Bool) : Expr :=
  const (.ofBool value)

def not (a : Expr) : Expr :=
  unary .not a

def neg (a : Expr) : Expr :=
  unary .neg a

def const? : Expr → Option Word
  | const value => some value
  | _ => none

/-- The truth value of a one-bit constant. -/
def bool? (e : Expr) : Option Bool :=
  if e.width = 1 then e.const?.map Word.isTrue else none

/-- Whether an expression is the one-bit constant true. -/
def isTrue (e : Expr) : Bool :=
  e.bool? == some true

/-- Whether an expression is the one-bit constant false. -/
def isFalse (e : Expr) : Bool :=
  e.bool? == some false

/-- The direct operands from left to right. -/
def children : Expr → List Expr
  | const _ | var _ _ | reg _ => []
  | mem address _ _ => [address]
  | unary _ a => [a]
  | binary _ a b => [a, b]
  | ite condition a b => [condition, a, b]

/-- The same node over other operands. -/
def withChildren : Expr → List Expr → Checked Expr
  | e@(const _), [] | e@(var _ _), [] | e@(reg _), [] => return e
  | mem _ offset width, [address] => mkMem address offset width
  | unary op _, [a] => mkUnary op a
  | binary op _ _, [a, b] => mkBinary op a b
  | ite _ _ _, [condition, a, b] => mkIte condition a b
  | _, _ => .error .arity

def size : Expr → Nat
  | const _ | var _ _ | reg _ => 1
  | mem address _ _ => 1 + address.size
  | unary _ a => 1 + a.size
  | binary _ a b => 1 + a.size + b.size
  | ite condition a b => 1 + condition.size + a.size + b.size

/-- All subexpressions, each before its operands. -/
def subterms : Expr → List Expr
  | e@(const _) | e@(var _ _) | e@(reg _) => [e]
  | e@(mem address _ _) => e :: address.subterms
  | e@(unary _ a) => e :: a.subterms
  | e@(binary _ a b) => e :: (a.subterms ++ b.subterms)
  | e@(ite condition a b) => e :: (condition.subterms ++ a.subterms ++ b.subterms)

/-- The value of an expression under values of its variables, registers and memory cells, which
stand as leaves. There is none if a leaf that is reached has none. -/
def evaluate (leaf : Expr → Option Word) : Expr → Checked (Option Word)
  | const value => return some value
  | e@(var _ _) | e@(reg _) | e@(mem _ _ _) => return leaf e
  | unary op a => do
    let some x ← evaluate leaf a | return none
    return some (← op.apply x)
  | binary op a b => do
    let some x ← evaluate leaf a | return none
    let some y ← evaluate leaf b | return none
    return some (← op.apply x y)
  | ite condition a b => do
    let some c ← evaluate leaf condition | return none
    if c.isTrue then evaluate leaf a else evaluate leaf b

end Expr

end FlowRecovery
