import FlowRecovery.Word

namespace FlowRecovery

/-- Operators of one operand. -/
inductive UnaryOp where
  | not
  | neg
  /-- The bits from an offset on, as many as the size says. -/
  | extract (offset size : Nat)
  | zeroExtend (width : Nat)
  | signExtend (width : Nat)
deriving DecidableEq

/-- Operators of two operands. On one-bit operands `and`, `or` and `xor` are the boolean
connectives. -/
inductive BinaryOp where
  | add | sub | mul | udiv | urem
  | and | or | xor
  | shl | shr | sar
  /-- Concatenation with the left operand as the high part. -/
  | concat
  | eq | ne | ult | ule | slt | sle
deriving DecidableEq

namespace UnaryOp

def apply : UnaryOp → Word → Checked Word
  | not, a => a.not
  | neg, a => a.neg
  | extract offset size, a => a.extract offset size
  | zeroExtend width, a => a.zeroExtend width
  | signExtend width, a => a.signExtend width

def resultWidth : UnaryOp → Nat → Nat
  | not, width | neg, width => width
  | extract _ size, _ => size
  | zeroExtend width, _ | signExtend width, _ => width

end UnaryOp

namespace BinaryOp

def apply : BinaryOp → Word → Word → Checked Word
  | add => Word.add
  | sub => Word.sub
  | mul => Word.mul
  | udiv => Word.udiv
  | urem => Word.urem
  | and => Word.and
  | or => Word.or
  | xor => Word.xor
  | shl => Word.shl
  | shr => Word.shr
  | sar => Word.sar
  | concat => Word.concat
  | eq => Word.eq
  | ne => Word.ne
  | ult => Word.ult
  | ule => Word.ule
  | slt => Word.slt
  | sle => Word.sle

/-- Whether the operator yields a truth value. -/
def isComparison : BinaryOp → Bool
  | eq | ne | ult | ule | slt | sle => true
  | _ => false

def isCommutative : BinaryOp → Bool
  | add | mul | and | or | xor | eq | ne => true
  | _ => false

/-- The sign of the operator between its operands. -/
def symbol : BinaryOp → String
  | add => "+" | sub => "-" | mul => "*" | udiv => "/u" | urem => "%u"
  | and => "&" | or => "|" | xor => "^"
  | shl => "<<" | shr => ">>" | sar => ">>s"
  | concat => "::"
  | eq => "==" | ne => "!=" | ult => "<u" | ule => "<=u" | slt => "<s" | sle => "<=s"

def name : BinaryOp → String
  | add => "Add" | sub => "Sub" | mul => "Mul" | udiv => "UDiv" | urem => "URem"
  | and => "And" | or => "Or" | xor => "Xor"
  | shl => "Shl" | shr => "Shr" | sar => "Sar"
  | concat => "Concat"
  | eq => "Eq" | ne => "Ne" | ult => "Ult" | ule => "Ule" | slt => "Slt" | sle => "Sle"

end BinaryOp

end FlowRecovery
