import FlowRecovery.Expr.Substitution
import FlowRecovery.X86.Parser

/-!
Lowering of x86 instructions into microcode. The micro steps of an instruction are emitted in
order, each assignment leading to the next step; the flags that are not modelled, adjust and
direction, are left alone.
-/

namespace FlowRecovery.X86

def Gpr.expr (r : Gpr) : Expr :=
  .reg r.register

def Flag.expr (f : Flag) : Expr :=
  .reg f.register

/-- The base, scaled index and displacement of a memory operand added up, without what is
absent. -/
def effectiveAddress (base : Option Gpr) (index : Option (Gpr × Nat)) (displacement : Int) :
    Checked Expr := do
  let index ← index.mapM fun (r, scale) => do
    if scale = 1 then return r.expr else Expr.mkBinary .mul r.expr (← Expr.constant 32 scale)
  let displacement ← if displacement = 0 then pure none
    else (some ∘ Expr.const) <$> Word.ofInt 32 displacement
  match (base.map Gpr.expr).toList ++ index.toList ++ displacement.toList with
  | [] => Expr.constant 32 0
  | term :: terms => terms.foldlM (Expr.mkBinary .add) term

namespace Operand

def value : Operand → Checked Expr
  | register r => return r.expr
  | memory size base index displacement => do
    Expr.mkMem (← effectiveAddress base index displacement) 0 size.bits
  | immediate value => return .const value
  | target address => Expr.constant 32 address.toNat

/-- The register or memory cell an operand is. -/
def place? (operand : Operand) : Checked (Option Expr) :=
  match operand with
  | register _ | memory .. => return some (← operand.value)
  | _ => return none

def address? : Operand → Checked (Option Expr)
  | memory _ base index displacement => return some (← effectiveAddress base index displacement)
  | _ => return none

def target? : Operand → Option UInt64
  | target address => some address
  | _ => none

end Operand

/-- The graph under construction and the step that is emitted next. -/
structure Emission where
  graph : Microcode
  here : Location

/-- A computation that emits micro steps and may fail; the steps stay emitted. -/
abbrev LowerM := ExceptT DecodeError (StateT Emission Checked)

namespace Lowering

/-- Changes the graph at the current step. -/
def emit (f : Microcode → Location → Checked Microcode) : LowerM Unit := do
  let e ← get
  set { e with graph := ← f e.graph e.here }

/-- Emits an assignment and moves to the next step. -/
def assign (place value : Expr) : LowerM Unit := do
  let e ← get
  let (here, graph) ← e.graph.addAssignment e.here place value none
  set { graph, here : Emission }

def setFlag (f : Flag) (value : Expr) : LowerM Unit :=
  assign f.expr value

/-- Ends the instruction with a jump to a location. -/
def goto (target : Location) : LowerM Unit :=
  emit fun mc here => mc.addFallthrough here target

/-- Ends the instruction with a jump to a computed address. -/
def jump (address : Expr) : LowerM Unit :=
  emit fun mc here => mc.addJump here address

/-- Emits an arrow that is taken under a guard. -/
def skip (target : Location) (guard : Expr) : LowerM Unit :=
  emit fun mc here => mc.addSkip here target guard

/-- The exclusive disjunction of the eight lowest bits, which is set when their number is odd. -/
def oddParity (result : Expr) : Checked Expr := do
  [1, 2, 3, 4, 5, 6, 7].foldlM
    (fun acc i => do Expr.mkBinary .xor acc (← Expr.mkUnary (.extract i 1) result))
    (← Expr.mkUnary (.extract 0 1) result)

/-- Sets the zero, sign and parity flags of a result. -/
def resultFlags (result : Expr) : LowerM Unit := do
  setFlag .zero (← Expr.mkBinary .eq result (← Expr.constant result.width 0))
  setFlag .sign (← Expr.mkUnary (.extract (result.width - 1) 1) result)
  setFlag .parity (← oddParity result).not

/-- The sign bit of the conjunction of two exclusive disjunctions. -/
def signOfBoth (a b c d : Expr) : Checked Expr := do
  let both ← Expr.mkBinary .and (← Expr.mkBinary .xor a b) (← Expr.mkBinary .xor c d)
  Expr.mkUnary (.extract (both.width - 1) 1) both

def addFlags (a b result : Expr) : LowerM Unit := do
  setFlag .carry (← Expr.mkBinary .ult result a)
  setFlag .overflow (← signOfBoth a result b result)
  resultFlags result

def subFlags (a b result : Expr) : LowerM Unit := do
  setFlag .carry (← Expr.mkBinary .ult a b)
  setFlag .overflow (← signOfBoth a b a result)
  resultFlags result

def logicFlags (result : Expr) : LowerM Unit := do
  setFlag .carry (.bool false)
  setFlag .overflow (.bool false)
  resultFlags result

def push (value : Expr) : LowerM Unit := do
  let esp := Gpr.esp.expr
  let lowered ← Expr.mkBinary .sub esp (← Expr.constant 32 (value.width / 8))
  assign (← Expr.mkMem lowered 0 value.width) value
  assign esp lowered

def testFormula : FlagTest → Checked Expr
  | .overflow => return Flag.overflow.expr
  | .below => return Flag.carry.expr
  | .equal => return Flag.zero.expr
  | .belowOrEqual => Expr.mkBinary .or Flag.carry.expr Flag.zero.expr
  | .sign => return Flag.sign.expr
  | .parity => return Flag.parity.expr
  | .less => Expr.mkBinary .xor Flag.sign.expr Flag.overflow.expr
  | .lessOrEqual => do
    Expr.mkBinary .or Flag.zero.expr (← Expr.mkBinary .xor Flag.sign.expr Flag.overflow.expr)

def conditionFormula (c : Condition) : Checked Expr := do
  let formula ← testFormula c.test
  return if c.negated then formula.not else formula

/-- The complement of a formula, where two complements in a row vanish. -/
def opposite : Expr → Expr
  | .unary .not formula => formula
  | formula => formula.not

/-- Ends the instruction with a branch under a formula. A branch to the next instruction is no
branch. -/
def branch (next target : Location) (formula : Expr) : LowerM Unit := do
  if target = next then goto next
  else
    skip target formula
    skip next (opposite formula)

/-- Emits one iteration of a string instruction, upward in memory. -/
def stringStep (loads : Bool) : LowerM Unit := do
  let edi := Gpr.edi.expr
  let esi := Gpr.esi.expr
  let one ← Expr.constant 32 1
  let value ← if loads then Expr.mkMem esi 0 8 else pure Gpr.al.expr
  assign (← Expr.mkMem edi 0 8) value
  if loads then assign esi (← Expr.mkBinary .add esi one)
  assign edi (← Expr.mkBinary .add edi one)

/-- Emits a string instruction. A repeated one tests its counter at the boundary and goes back
there after each iteration. -/
def string (i : Instruction) (next : Location) (loads : Bool) : LowerM Unit := do
  if i.repetition.isNone then
    stringStep loads
    goto next
  else
    let ecx := Gpr.ecx.expr
    let finished ← Expr.mkBinary .eq ecx (← Expr.constant 32 0)
    let body ← (← get).here.advance 1
    skip next finished
    skip body finished.not
    modify fun e => { e with here := body }
    stringStep loads
    let fewer ← Expr.mkBinary .sub ecx (← Expr.constant 32 1)
    emit fun mc here => return (← mc.addAssignment here ecx fewer (some (.boundary i.address))).2

/-- Emits an arithmetic operation of two operands. The flags come first, so that they see the old
operands. -/
def arithmetic (op : BinaryOp) (a b : Expr) : LowerM Expr := do
  let result ← Expr.mkBinary op a b
  match op with
  | .add => addFlags a b result
  | .sub => subFlags a b result
  | _ => logicFlags result
  return result

/-- Emits an increment or decrement, which keeps the carry flag. It overflows when the result is
the least, or the greatest, signed number. -/
def countFlags (op : BinaryOp) (a : Expr) : LowerM Expr := do
  let result ← Expr.mkBinary op a (← Expr.constant a.width 1)
  let least := Word.modulus (a.width - 1)
  let overflow := if op = .add then least else least - 1
  resultFlags result
  setFlag .overflow (← Expr.mkBinary .eq result (← Expr.constant a.width overflow))
  return result

def operand (i : Instruction) (n : Nat) : LowerM Operand :=
  match i.operands[n]? with
  | some operand => return operand
  | none => throw (.malformed i.address i.bytes)

def value (i : Instruction) (n : Nat) : LowerM Expr := do
  (← operand i n).value

/-- The register or cell that an operand has to be. -/
def place (i : Instruction) (n : Nat) : LowerM Expr := do
  let some place ← (← operand i n).place? | throw (.malformed i.address i.bytes)
  return place

def target (i : Instruction) : LowerM Location := do
  let some address := (← operand i 0).target? | throw (.malformed i.address i.bytes)
  return .boundary address

/-- Lowers an operation of two operands that keeps only the flags. -/
def compareOperands (i : Instruction) (next : Location) (op : BinaryOp) : LowerM Unit := do
  let a ← value i 0
  let _ ← arithmetic op a (← value i 1)
  goto next

/-- Lowers an operation of two operands that stores its result in the first one. -/
def combineOperands (i : Instruction) (next : Location) (op : BinaryOp) : LowerM Unit := do
  let a ← value i 0
  let result ← arithmetic op a (← value i 1)
  assign (← place i 0) result
  goto next

def countOperand (i : Instruction) (next : Location) (op : BinaryOp) : LowerM Unit := do
  let result ← countFlags op (← value i 0)
  assign (← place i 0) result
  goto next

def move (i : Instruction) (next : Location) : LowerM Unit := do
  let destination ← place i 0
  assign destination (← value i 1)
  goto next

def moveExtended (i : Instruction) (next : Location) (extension : Nat → UnaryOp) :
    LowerM Unit := do
  let destination ← place i 0
  assign destination (← Expr.mkUnary (extension destination.width) (← value i 1))
  goto next

/-- Lowers the computation of an address, which is cut to the size of the destination. -/
def loadAddress (i : Instruction) (next : Location) : LowerM Unit := do
  let destination ← place i 0
  let some address ← (← operand i 1).address? | throw (.malformed i.address i.bytes)
  let address ← if destination.width < 32 then
      Expr.mkUnary (.extract 0 destination.width) address
    else pure address
  assign destination address
  goto next

def pushOperand (i : Instruction) (next : Location) : LowerM Unit := do
  push (← value i 0)
  goto next

/-- Lowers a pop. The stack pointer itself just takes the popped value. -/
def popOperand (i : Instruction) (next : Location) : LowerM Unit := do
  let esp := Gpr.esp.expr
  let destination ← place i 0
  if destination = esp then assign esp (← Expr.mkMem esp 0 32)
  else
    assign destination (← Expr.mkMem esp 0 destination.width)
    assign esp (← Expr.mkBinary .add esp (← Expr.constant 32 (destination.width / 8)))
  goto next

def jumpToOperand (i : Instruction) : LowerM Unit := do
  match ← operand i 0 with
  | .target address => goto (.boundary address)
  | operand => jump (← operand.value)

/-- Lowers a call. The target is computed after the return address was pushed, from the stack
pointer as it was before: an operand that is read from the bytes under the return address yields
the pushed bytes. -/
def call (i : Instruction) (next : Location) : LowerM Unit := do
  let esp := Gpr.esp.expr
  let target ← operand i 0
  push (← Expr.constant 32 next.instruction.toNat)
  match target with
  | .target address => goto (.boundary address)
  | target =>
    let before ← Expr.mkBinary .add esp (← Expr.constant 32 4)
    jump (← (← target.value).replace esp before)

/-- Lowers a return, which may drop further bytes from the stack. -/
def returnToCaller (i : Instruction) : LowerM Unit := do
  let esp := Gpr.esp.expr
  let extra := match i.operands with
    | .immediate bytes :: _ => bytes.value
    | _ => 0
  let popped ← Expr.constant 32 (4 + extra)
  assign esp (← Expr.mkBinary .add esp popped)
  jump (← Expr.mkMem (← Expr.mkBinary .sub esp popped) 0 32)

def conditionalJump (i : Instruction) (next : Location) (formula : Checked Expr) :
    LowerM Unit := do
  let target ← target i
  branch next target (← formula)

/-- Emits the micro steps of an instruction that is followed by another one. -/
def lower (i : Instruction) (next : Location) : LowerM Unit :=
  match i.mnemonic with
  | .add => combineOperands i next .add
  | .or => combineOperands i next .or
  | .and => combineOperands i next .and
  | .sub => combineOperands i next .sub
  | .xor => combineOperands i next .xor
  | .cmp => compareOperands i next .sub
  | .test => compareOperands i next .and
  | .inc => countOperand i next .add
  | .dec => countOperand i next .sub
  | .mov => move i next
  | .movzx => moveExtended i next .zeroExtend
  | .movsx => moveExtended i next .signExtend
  | .lea => loadAddress i next
  | .push => pushOperand i next
  | .pop => popOperand i next
  | .jmp => jumpToOperand i
  | .jcc condition => conditionalJump i next (conditionFormula condition)
  | .jecxz => conditionalJump i next do Expr.mkBinary .eq Gpr.ecx.expr (← Expr.constant 32 0)
  | .call => call i next
  | .ret => returnToCaller i
  | .stosb => string i next false
  | .movsb => string i next true
  | .nop => goto next
  | .hlt => emit fun mc here => return mc.addNode here

end Lowering

end FlowRecovery.X86
