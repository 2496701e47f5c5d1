import FlowRecovery.Expr.Substitution

namespace FlowRecovery.Expr

/-- The comparison that holds exactly when a given one does not, over the same operands or over
the exchanged ones. -/
def complement : BinaryOp → Expr → Expr → Checked (Option Expr)
  | .eq, x, y => return some (← mkBinary .ne x y)
  | .ne, x, y => return some (← mkBinary .eq x y)
  | .ult, x, y => return some (← mkBinary .ule y x)
  | .ule, x, y => return some (← mkBinary .ult y x)
  | .slt, x, y => return some (← mkBinary .sle y x)
  | .sle, x, y => return some (← mkBinary .slt y x)
  | _, _, _ => return none

/-- Whether taking the low bits of an expression removes a node, which keeps pushing extractions
through arithmetic from growing the tree without end. -/
def isNarrowable (size : Nat) : Expr → Bool
  | const _ => true
  | unary (.zeroExtend _) x | unary (.signExtend _) x => size ≤ x.width
  | binary .concat _ low => size ≤ low.width
  | _ => false

/-- The rules for some bits of an expression that is not constant. -/
def simplifyExtract (offset size : Nat) : Expr → Checked (Option Expr)
  | unary (.extract first _) x => return some (← mkUnary (.extract (first + offset) size) x)
  | binary .concat high low => do
    if offset + size ≤ low.width then return some (← mkUnary (.extract offset size) low)
    else if low.width ≤ offset then
      return some (← mkUnary (.extract (offset - low.width) size) high)
    else return none
  | unary (.zeroExtend _) x => do
    if offset + size ≤ x.width then return some (← mkUnary (.extract offset size) x)
    else if x.width ≤ offset then return some (← constant size 0)
    else return none
  | unary (.signExtend _) x => do
    if offset + size ≤ x.width then return some (← mkUnary (.extract offset size) x)
    else return none
  | binary op x y => do
    let commutes := match op with
      | .and | .or | .xor => true
      | .add | .sub | .mul => offset == 0 && x.isNarrowable size && y.isNarrowable size
      | _ => false
    if commutes then
      let low ← mkUnary (.extract offset size) x
      return some (← mkBinary op low (← mkUnary (.extract offset size) y))
    else return none
  | _ => return none

/-- The rules for a unary operator over a simplified operand. -/
def simplifyUnary (op : UnaryOp) (a : Expr) : Checked (Option Expr) := do
  if let some value := a.const? then return some (const (← op.apply value))
  match op, a with
  | .not, unary .not x => return some x
  | .neg, unary .neg x => return some x
  | .not, binary comparison x y => complement comparison x y
  | .extract offset size, _ =>
    if offset = 0 ∧ size = a.width then return some a else simplifyExtract offset size a
  | .zeroExtend width, _ =>
    if width = a.width then return some a
    else match a with
      | unary (.zeroExtend _) x => return some (← mkUnary (.zeroExtend width) x)
      | _ => return none
  | .signExtend width, _ =>
    if width = a.width then return some a
    else match a with
      | unary (.signExtend _) x => return some (← mkUnary (.signExtend width) x)
      | _ => return none
  | _, _ => return none

/-- The rules for sums with a constant on the right. -/
def simplifyAdd (a : Expr) (c : Word) : Checked (Option Expr) := do
  if c = .zero a.width then return some a
  match a with
  | binary .add x (const c') => return some (← mkBinary .add x (const (← c'.add c)))
  | _ => return none

/-- The rules for a binary operator over simplified operands, not both of them constant. -/
def simplifyOperator (op : BinaryOp) (a b : Expr) : Checked (Option Expr) := do
  let zero := Word.zero a.width
  let one ← Word.ofNat a.width 1
  let left := a.const?
  let right := b.const?
  match op with
  | .add => match right with
    | some c => simplifyAdd a c
    | none => return none
  | .sub =>
    if a = b then return some (const zero)
    else if right = some zero then return some a
    else match right with
      | some c => return some (← mkBinary .add a (const (← c.neg)))
      | none => return if left = some zero then some b.neg else none
  | .mul =>
    return if right = some zero then some (const zero)
    else if right = some one then some a
    else none
  | .udiv => return if right = some one then some a else none
  | .urem => return if right = some one then some (const zero) else none
  | .and =>
    if a = b then return some a
    match right with
    | some c =>
      if ← c.isOnes then return some a
      return if c = zero then some (const zero) else none
    | none => return none
  | .or =>
    if a = b ∨ right = some zero then return some a
    match right with
    | some c => return if ← c.isOnes then some b else none
    | none => return none
  | .xor =>
    return if a = b then some (const zero)
    else if right = some zero then some a
    else if a.width = 1 ∧ right = some one then some a.not
    else none
  | .shl | .shr | .sar =>
    return if right = some zero ∨ left = some zero then some a else none
  | .concat => match a, b with
    | unary (.extract high highSize) x, unary (.extract low lowSize) y =>
      if x = y ∧ low + lowSize = high then
        return some (← mkUnary (.extract low (lowSize + highSize)) x)
      else return none
    | _, _ => return none
  | .eq | .ne =>
    if a = b then return some (bool (op == .eq))
    if a.width = 1 then
      let some c := right | return none
      return some (if c.isTrue == (op == .eq) then a else a.not)
    return none
  | .ult =>
    return if a = b ∨ right = some zero then some (bool false) else none
  | .ule =>
    return if a = b ∨ left = some zero then some (bool true) else none
  | .slt => return if a = b then some (bool false) else none
  | .sle => return if a = b then some (bool true) else none

/-- The rules for a binary operator over simplified operands. A constant goes to the right of a
commutative operator. -/
def simplifyBinary (op : BinaryOp) (a b : Expr) : Checked (Option Expr) := do
  require (Word.ValidWidth a.width) (.invalidWidth a.width)
  match a, b with
  | const x, const y => return some (const (← op.apply x y))
  | const _, _ =>
    if op.isCommutative then return some (← mkBinary op b a) else simplifyOperator op a b
  | _, _ => simplifyOperator op a b

/-- The rules for one node over simplified operands; nothing if none applies. -/
def simplifyNode : Expr → Checked (Option Expr)
  | unary op a => simplifyUnary op a
  | binary op a b => simplifyBinary op a b
  | ite condition a b =>
    return match condition.const? with
    | some c => some (if c.isTrue then a else b)
    | none => if a = b then some a else none
  | _ => return none

/-- One pass of the rules from the leaves to the root. -/
def simplifyPass (e : Expr) : Checked Expr :=
  e.transformM simplifyNode

/-- A measure that every rule decreases: an extraction weighs more than what it is pushed into, a
difference more than a sum, and a commutative operator more with a constant on its left. -/
def weight : Expr → Nat
  | const _ => 1
  | var _ _ | reg _ => 3
  | mem address _ _ => address.weight + 2
  | unary (.extract _ _) a => 2 * a.weight + 1
  | unary _ a => a.weight + 2
  | binary op a b =>
    a.weight + b.weight + (if op = .sub then 3 else 2) +
      (if op.isCommutative ∧ a.const?.isSome then 1 else 0)
  | ite condition a b => condition.weight + a.weight + b.weight + 1

/-- Repeats the pass until it changes nothing, a bounded number of times. -/
def settle : Nat → Expr → Checked Expr
  | 0, e => return e
  | n + 1, e => do
    let next ← e.simplifyPass
    if next = e then return e else settle n next

/-- Simplifies an expression until a pass leaves it unchanged. -/
def simplify (e : Expr) : Checked Expr :=
  settle e.weight e

end FlowRecovery.Expr
