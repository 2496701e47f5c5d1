import Mathlib
import FlowRecovery.Proofs.X86.Flags
import FlowRecovery.Proofs.X86.Strings

namespace FlowRecovery.X86

section Operands

variable {start : Start} {e : Emission} {i : Instruction} {next : Location} {size smaller : Size}
  {o o' : Operand} {x y z : BitVec size.bits} {op : BinaryOp} {m m₀ : Memory} {place value : Expr}
  {n : Nat}

namespace Emission.Ran

theorem assignTo (h : e.Ran start n m₀) (hn : n < maxSteps) (hsame : SameData start.memory m₀)
    (hassigns : o.Assigns start.order start.Data z m₀ m place)
    (hvalue : Denotes start.order start.Data z value) :
    Emits (Lowering.assign place value) e fun _ => Emission.Ran start (n + 1) m := by
  have hbranchless : place.Branchless ∧ value.Branchless :=
    ⟨hassigns.branchless, hvalue.branchless⟩
  exact h.assign hn hassigns.term hassigns.isPlace hvalue.term hbranchless fun hexecuted =>
    hassigns.exec ⟨hexecuted, hsame⟩ hvalue

theorem store (h : e.Ran start n m₀) (hn : n < maxSteps) (hsame : SameData start.memory m₀)
    (hassigns : o.Assigns start.order start.Data z m₀ m place)
    (hvalue : Denotes start.order start.Data z value) :
    Emits (do Lowering.assign place value; Lowering.goto next) e fun _ =>
      Emission.Ended start (n + 1) m (Microcode.leadsTo next) :=
  (h.assignTo hn hsame hassigns hvalue).bind fun _ _ h => h.goto next

variable (h : e.Ran start 0 start.memory)
include h

theorem compareOperands (hops : i.operands = [o, o'])
    (hx : Builds start.order start.Data x o.value) (hy : Builds start.order start.Data y o'.value)
    (hop : op.Admits size.bits size.bits) (hz : op.onBits x y = .ofBits z) :
    Emits (Lowering.compareOperands i next op) e fun _ =>
      Emission.Ended start 5 (start.memory.setFlags (operationStatus x y op z))
        (Microcode.leadsTo next) := by
  refine .value (by rw [hops]; rfl) hx fun a ha => .value (by rw [hops]; rfl) hy fun b hb => ?_
  refine (h.arithmetic ha hb size.byte_le hop hz).bind ?_
  rintro _ e ⟨-, h⟩
  exact h.goto next

theorem combineOperands (hops : i.operands = [o, o'])
    (hx : Builds start.order start.Data x o.value) (hy : Builds start.order start.Data y o'.value)
    (hop : op.Admits size.bits size.bits) (hz : op.onBits x y = .ofBits z)
    (hassigns : o.Assigns start.order start.Data z
      (start.memory.setFlags (operationStatus x y op z)) m place) :
    Emits (Lowering.combineOperands i next op) e fun _ =>
      Emission.Ended start 6 m (Microcode.leadsTo next) := by
  refine .value (by rw [hops]; rfl) hx fun a ha => .value (by rw [hops]; rfl) hy fun b hb => ?_
  refine (h.arithmetic ha hb size.byte_le hop hz).bind ?_
  rintro result e ⟨hresult, h⟩
  refine .place (by rw [hops]; rfl) hassigns.eq_place ?_
  exact h.store (by decide) (sameData_setFlags _ _) hassigns hresult

theorem countOperand {overflow : Bool} (hops : i.operands = [o])
    (hx : Builds start.order start.Data x o.value) (hop : op.Admits size.bits size.bits)
    (hz : op.onBits x (BitVec.ofNat size.bits 1) = .ofBits z)
    (hoverflow : (z == BitVec.ofNat size.bits
      (if op = .add then 2 ^ (size.bits - 1) else 2 ^ (size.bits - 1) - 1)) = overflow)
    (hassigns : o.Assigns start.order start.Data z
      (start.memory.setFlags (resultStatus z ++ [(.overflow, overflow)])) m place) :
    Emits (Lowering.countOperand i next op) e fun _ =>
      Emission.Ended start 5 m (Microcode.leadsTo next) := by
  refine .value (by rw [hops]; rfl) hx fun a ha => ?_
  refine (h.countFlags ha size.byte_le hop hz hoverflow).bind ?_
  rintro result e ⟨hresult, h⟩
  refine .place (by rw [hops]; rfl) hassigns.eq_place ?_
  exact h.store (by decide) (sameData_setFlags _ _) hassigns hresult

theorem move (hops : i.operands = [o, o']) (hx : Builds start.order start.Data x o'.value)
    (hassigns : o.Assigns start.order start.Data x start.memory m place) :
    Emits (Lowering.move i next) e fun _ =>
      Emission.Ended start 1 m (Microcode.leadsTo next) := by
  refine .place (by rw [hops]; rfl) hassigns.eq_place
    (.value (by rw [hops]; rfl) hx fun b hb => ?_)
  exact h.store (by decide) (.refl _) hassigns hb

theorem moveExtended {extension : Nat → UnaryOp} {y : BitVec smaller.bits}
    (hops : i.operands = [o, o']) (hy : Builds start.order start.Data y o'.value)
    (hop : (extension size.bits).Admits smaller.bits)
    (hz : (extension size.bits).onBits y = .ofBits z)
    (hassigns : o.Assigns start.order start.Data z start.memory m place) :
    Emits (Lowering.moveExtended i next extension) e fun _ =>
      Emission.Ended start 1 m (Microcode.leadsTo next) := by
  refine .place (by rw [hops]; rfl) hassigns.eq_place
    (.value (by rw [hops]; rfl) hy fun b hb => ?_)
  rw [hassigns.term.width]
  exact .build (hb.unary hop hz) fun value hvalue => h.store (by decide) (.refl _) hassigns hvalue

theorem loadAddress {stored : Size} {base : Option Gpr} {index : Option (Gpr × Nat)}
    {displacement : Int} {a : BitVec 32}
    (hops : i.operands = [o, .memory stored base index displacement])
    (ha : Builds start.order start.Data a (effectiveAddress base index displacement))
    (hassigns : o.Assigns start.order start.Data (a.extractLsb' 0 size.bits)
      start.memory m place) :
    Emits (Lowering.loadAddress i next) e fun _ =>
      Emission.Ended start 1 m (Microcode.leadsTo next) := by
  obtain ⟨address, heq, haddress⟩ := ha
  refine .place (by rw [hops]; rfl) hassigns.eq_place (.operand (by rw [hops]; rfl) ?_)
  refine .checked (congrArg (fun c => c >>= fun a => pure (some a)) heq) ?_
  dsimp only
  rw [hassigns.term.width]
  split
  case isTrue hlt =>
    have hadmits : (UnaryOp.extract 0 size.bits).Admits 32 := ⟨size.valid.1.1, by omega⟩
    refine .build (haddress.unary hadmits rfl) fun low hlow => ?_
    exact h.store (by decide) (.refl _) hassigns hlow
  case isFalse hge =>
    cases size with
    | dword =>
        refine h.store (by decide) (.refl _) hassigns (haddress.change fun _ => ?_)
        exact BitVec.extractLsb'_eq_self.symm
    | byte | word => exact absurd (by decide) hge

end Emission.Ran

end Operands

section Stack

/-- The address below the top of the stack that a number of bytes is pushed to. -/
def slotBelow (top : BitVec 32) (bytes : Nat) : UInt64 :=
  UInt64.ofNat (top - BitVec.ofNat 32 bytes).toNat

/-- A memory whose stack pointer is lowered by a number of bytes. -/
def lowered (m : Memory) (top : BitVec 32) (bytes : Nat) : Memory :=
  m.setPhysical "esp" (.ofBits (top - BitVec.ofNat 32 bytes))

/-- The stack pointer of before something of four bytes was pushed. -/
def raised : Expr :=
  .binary .add Gpr.esp.expr (.const (.ofBits 4#32))

/-- The cell that the stack pointer pointed to before it was raised. -/
def slotBefore (popped : BitVec 32) : Expr :=
  .mem (.binary .sub Gpr.esp.expr (.const (.ofBits popped))) 0 32

theorem denotes_raised (order : ByteOrder) (top : BitVec 32) :
    Denotes order (fun m => m.readRegister Gpr.esp.register = .ok (.ofBits (top - 4#32))) top
      raised := by
  refine (Gpr.denotes_dword rfl id).node (denotes_const (by decide) 4#32) rfl ?_
  rw [BinaryOp.onBits, BitVec.setWidth_eq, BitVec.sub_add_cancel]

theorem denotes_slotBefore (order : ByteOrder) (top popped back : BitVec 32) :
    Denotes order (fun m => m.readRegister Gpr.esp.register = .ok (.ofBits (top + popped)) ∧
      m.read (UInt64.ofNat top.toNat) 32 order = .ok (.ofBits back)) back
        (slotBefore popped) := by
  let M (m : Memory) : Prop := m.readRegister Gpr.esp.register = .ok (.ofBits (top + popped)) ∧
    m.read (UInt64.ofNat top.toNat) 32 order = .ok (.ofBits back)
  have hvalid : Word.ValidWidth 32 := by decide
  have hraised : Denotes order M (top + popped) Gpr.esp.expr := Gpr.denotes_dword rfl And.left
  have htop : Denotes order M top (.binary .sub Gpr.esp.expr (.const (.ofBits popped))) := by
    refine hraised.node (denotes_const hvalid popped) rfl ?_
    rw [BinaryOp.onBits, BitVec.setWidth_eq, BitVec.add_sub_cancel]
  exact htop.cellNode hvalid rfl And.right

/-- Where an operand leads to as a target: to a fixed location, or to an address that is computed
from the expression of the operand. -/
inductive Operand.LeadsTo (compute : Expr → Checked Expr) :
    Operand → (Location → List Arrow) → Prop
  | direct (address : UInt64) :
      LeadsTo compute (.target address) (Microcode.leadsTo (.boundary address))
  | computed {o : Operand} {value target : Expr} (hnot : o.target? = none)
      (hvalue : o.value = .ok value) (htarget : compute value = .ok target) :
      LeadsTo compute o (Microcode.jumpsTo target)

variable {start : Start} {e : Emission} {i : Instruction} {next : Location} {size : Size}
  {o : Operand} {x : BitVec size.bits} {n : Nat} {m stored : Memory} {top : BitVec 32}
  {place value : Expr} {last : Location → List Arrow}

namespace Emission.Ran

theorem push (h : e.Ran start n m) (hn : n + 1 < maxSteps)
    (htop : start.executed → m.readRegister Gpr.esp.register = .ok (.ofBits top))
    (hvalue : Denotes start.order (start.On m) x value)
    (hwrite : m.write (slotBelow top size.bytes) (.ofBits x) start.order = .ok stored)
    (hregister : ∀ name, stored.physical? name = m.physical? name) :
    Emits (Lowering.push value) e fun _ =>
      Emission.Ran start (n + 2) (lowered stored top size.bytes) := by
  let M (m : Memory) : Prop := m.readRegister Gpr.esp.register = .ok (.ofBits top)
  have hstored (hexecuted : start.executed) : M stored :=
    (Memory.readRegister_congr (hregister _)).trans (htop hexecuted)
  have hesp : Denotes start.order M top Gpr.esp.expr := Gpr.denotes id
  have hcount : Builds start.order M (BitVec.ofNat 32 size.bytes)
      (Expr.constant 32 (value.width / 8)) := by
    rw [hvalue.term.width, size.bits_div]
    exact builds_constant (by decide) size.bytes
  refine .build hcount fun bytes hbytes => ?_
  have hdifference : Builds start.order M (top - BitVec.ofNat 32 size.bytes)
      (Expr.mkBinary .sub Gpr.esp.expr bytes) := hesp.binary hbytes rfl rfl
  refine .build hdifference fun below hbelow => ?_
  rw [hvalue.term.width]
  refine .checked (Expr.mkMem_of_bytes below 0 size.valid.1 size.valid.2) ?_
  have hcell : Term size.bits (.mem below 0 size.bits) :=
    ⟨⟨hbelow.term.wellFormed, size.valid.1, size.valid.2, trivial⟩, rfl⟩
  have hbranchless : (Expr.mem below 0 size.bits).Branchless ∧ value.Branchless :=
    ⟨hbelow.branchless, hvalue.branchless⟩
  have hexec (hexecuted : start.executed) :
      m.exec start.order default (.assign (.mem below 0 size.bits) value) = .ok stored := by
    rw [Memory.exec, hvalue.eval ⟨hexecuted, rfl⟩, ok_bind, hbelow.eval (htop hexecuted), ok_bind,
      cellAddress_ofBits, liftM_ok, ok_bind, ← slotBelow, hwrite]
    rfl
  refine (h.assign (Nat.lt_of_succ_lt hn) hcell rfl hvalue.term hbranchless hexec).bind
    fun _ e h => ?_
  -- the difference is computed again, after the cell was written
  exact h.assign hn Gpr.esp.term rfl hbelow.term ⟨trivial, hbelow.branchless⟩ fun hexecuted =>
    hbelow.exec_register (r := .esp) rfl (hstored hexecuted)

variable (h : e.Ran start 0 start.memory)
include h

theorem jumpToOperand (hops : i.operands = [o]) (hlast : o.LeadsTo pure last) :
    Emits (Lowering.jumpToOperand i) e fun _ => Emission.Ended start 0 start.memory last := by
  refine .operand (by rw [hops]; rfl) ?_
  cases hlast with
  | direct address => exact h.goto _
  | computed hnot hvalue htarget =>
      cases htarget
      cases o with
      | target address => cases hnot
      | _ => exact .checked hvalue (h.jump _)

variable (top) (htop : start.executed →
  start.memory.readRegister Gpr.esp.register = .ok (.ofBits top))
include htop

theorem pushOperand (hops : i.operands = [o]) (hx : Builds start.order start.Data x o.value)
    (hwrite : start.memory.write (slotBelow top size.bytes) (.ofBits x) start.order = .ok stored)
    (hregister : ∀ name, stored.physical? name = start.memory.physical? name) :
    Emits (Lowering.pushOperand i next) e fun _ =>
      Emission.Ended start 2 (lowered stored top size.bytes) (Microcode.leadsTo next) := by
  refine .value (by rw [hops]; rfl) hx fun value hvalue => ?_
  have hvalue : Denotes start.order (start.On start.memory) x value :=
    hvalue.mono fun hm => ⟨hm.1, hm.2 ▸ .refl _⟩
  exact (h.push (by decide) htop hvalue hwrite hregister).bind fun _ e h => h.goto next

theorem call (hops : i.operands = [o])
    (hlast : o.LeadsTo (Expr.replace · Gpr.esp.expr raised) last)
    (hwrite : start.memory.write (slotBelow top 4)
      (.ofBits (BitVec.ofNat 32 next.instruction.toNat)) start.order = .ok stored)
    (hregister : ∀ name, stored.physical? name = start.memory.physical? name) :
    Emits (Lowering.call i next) e fun _ =>
      Emission.Ended start 2 (lowered stored top 4) last := by
  have hback : Builds start.order (start.On start.memory)
      (BitVec.ofNat Size.dword.bits next.instruction.toNat)
      (Expr.constant 32 next.instruction.toNat) := builds_constant (by decide) _
  refine .operand (by rw [hops]; rfl) (.build hback fun back hback => ?_)
  refine (h.push (by decide) htop hback hwrite hregister).bind fun _ e h => ?_
  cases hlast with
  | direct address => exact h.goto _
  | @computed _ value target hnot hvalue htarget =>
      have hfour : Expr.constant 32 4 = .ok (.const (.ofBits 4#32)) := rfl
      have hraised : Expr.mkBinary .add Gpr.esp.expr (.const (.ofBits 4#32)) = .ok raised := rfl
      have hjump : Emits (do
          let before ← Expr.mkBinary .add Gpr.esp.expr (← Expr.constant 32 4)
          Lowering.jump (← (← o.value).replace Gpr.esp.expr before)) e fun _ =>
            Emission.Ended start 2 (lowered stored top 4) (Microcode.jumpsTo target) :=
        .checked hfour (.checked hraised (.checked hvalue (.checked htarget (h.jump target))))
      cases o with
      | target address => cases hnot
      | _ => exact hjump

theorem returnSteps (bytes : Nat) :
    let popped := BitVec.ofNat 32 (4 + bytes)
    Emits (do
        let popped ← Expr.constant 32 (4 + bytes)
        Lowering.assign Gpr.esp.expr (← Expr.mkBinary .add Gpr.esp.expr popped)
        Lowering.jump (← Expr.mkMem (← Expr.mkBinary .sub Gpr.esp.expr popped) 0 32)) e fun _ =>
      Emission.Ended start 1 (start.memory.setPhysical "esp" (.ofBits (top + popped)))
        (Microcode.jumpsTo (slotBefore popped)) := by
  intro popped
  have hesp : Denotes start.order (start.On start.memory) top Gpr.esp.expr :=
    Gpr.denotes_dword rfl fun hm => hm.2 ▸ htop hm.1
  have hsum : Builds start.order (start.On start.memory) (top + popped)
      (Expr.mkBinary .add Gpr.esp.expr (.const (.ofBits popped))) :=
    hesp.binary (denotes_const (by decide) popped) rfl rfl
  have hbelow : Expr.mkBinary .sub Gpr.esp.expr (.const (.ofBits popped)) =
      .ok (.binary .sub Gpr.esp.expr (.const (.ofBits popped))) := rfl
  refine .checked (Expr.constant_eq (by decide) (4 + bytes)) (.build hsum fun sum hsum => ?_)
  refine (h.setRegister (by decide) rfl hsum).bind fun _ e h => ?_
  exact .checked hbelow (.checked (Expr.mkMem_of_bytes _ 0 (by decide) rfl) (h.jump _))

theorem popOperand (hops : i.operands = [o]) (hother : place ≠ Gpr.esp.expr)
    (hassigns : o.Assigns start.order start.Data x start.memory m place)
    (hx : start.executed →
      start.memory.read (UInt64.ofNat top.toNat) size.bits start.order = .ok (.ofBits x))
    (hkept : start.executed → m.readRegister Gpr.esp.register = .ok (.ofBits top)) :
    Emits (Lowering.popOperand i next) e fun _ =>
      Emission.Ended start 2 (m.setPhysical "esp" (.ofBits (top + BitVec.ofNat 32 size.bytes)))
        (Microcode.leadsTo next) := by
  have hesp : Denotes start.order start.Data top Gpr.esp.expr :=
    Gpr.denotes_dword rfl fun hm => (hm.2.readRegister _).trans (htop hm.1)
  have hcell : Builds start.order start.Data x (Expr.mkMem Gpr.esp.expr 0 size.bits) :=
    hesp.cell size.valid.1 size.valid.2 fun hm => (hm.2.read _ _).trans (hx hm.1)
  refine .place (by rw [hops]; rfl) hassigns.eq_place ?_
  dsimp only
  rw [if_neg hother, hassigns.term.width, size.bits_div]
  refine .build hcell fun value hvalue => ?_
  refine (h.assignTo (by decide) (.refl _) hassigns hvalue).bind fun _ e h => ?_
  have hesp : Denotes start.order (start.On m) top Gpr.esp.expr :=
    Gpr.denotes_dword rfl fun hm => hm.2 ▸ hkept hm.1
  have hcount : Builds start.order (start.On m) (BitVec.ofNat 32 size.bytes)
      (Expr.constant 32 size.bytes) := builds_constant (by decide) size.bytes
  refine .build hcount fun bytes hbytes => ?_
  have hsum : Builds start.order (start.On m) (top + BitVec.ofNat 32 size.bytes)
      (Expr.mkBinary .add Gpr.esp.expr bytes) := hesp.binary hbytes rfl rfl
  refine .build hsum fun sum hsum => ?_
  exact (h.setRegister (by decide) rfl hsum).bind fun _ e h => h.goto next

theorem popStackPointer {x : BitVec 32} (hops : i.operands = [o])
    (hplace : o.place? = .ok (some Gpr.esp.expr))
    (hx : start.executed →
      start.memory.read (UInt64.ofNat top.toNat) 32 start.order = .ok (.ofBits x)) :
    Emits (Lowering.popOperand i next) e fun _ =>
      Emission.Ended start 1 (start.memory.setPhysical "esp" (.ofBits x))
        (Microcode.leadsTo next) := by
  have hesp : Denotes start.order (start.On start.memory) top Gpr.esp.expr :=
    Gpr.denotes_dword rfl fun hm => hm.2 ▸ htop hm.1
  have hcell : Builds start.order (start.On start.memory) x (Expr.mkMem Gpr.esp.expr 0 32) :=
    hesp.cell (by decide) rfl fun hm => hm.2 ▸ hx hm.1
  refine .place (by rw [hops]; rfl) hplace ?_
  dsimp only
  rw [if_pos rfl]
  refine .build hcell fun value hvalue => ?_
  exact (h.setRegister (by decide) rfl hvalue).bind fun _ e h => h.goto next

end Emission.Ran

end Stack

section Branches

def Flag.tested : List Flag :=
  [.carry, .overflow, .zero, .sign, .parity]

def FlagTest.holds (flags : Flag → Bool) : FlagTest → Bool
  | overflow => flags .overflow
  | below => flags .carry
  | equal => flags .zero
  | belowOrEqual => flags .carry || flags .zero
  | sign => flags .sign
  | parity => flags .parity
  | less => flags .sign ^^ flags .overflow
  | lessOrEqual => flags .zero || (flags .sign ^^ flags .overflow)

def Condition.holds (flags : Flag → Bool) (c : Condition) : Bool :=
  if c.negated then !c.test.holds flags else c.test.holds flags

section Formulas

variable {order : ByteOrder} {M : Memory → Prop} {p q : Bool} {a b : Expr}

theorem Denotes.or_bool (ha : Denotes order M (BitVec.ofBool p) a)
    (hb : Denotes order M (BitVec.ofBool q) b) :
    Builds order M (BitVec.ofBool (p || q)) (Expr.mkBinary .or a b) :=
  ha.binary hb rfl (by rw [BinaryOp.onBits, BitVec.setWidth_eq, BitVec.ofBool_or_ofBool])

theorem Denotes.xor_bool (ha : Denotes order M (BitVec.ofBool p) a)
    (hb : Denotes order M (BitVec.ofBool q) b) :
    Builds order M (BitVec.ofBool (p ^^ q)) (Expr.mkBinary .xor a b) := by
  rw [← BitVec.ofBool_xor_ofBool]
  exact ha.xor hb

theorem Denotes.not_bool (ha : Denotes order M (BitVec.ofBool p) a) :
    Denotes order M (BitVec.ofBool !p) a.not := by
  rw [← BitVec.not_ofBool]
  exact ha.not

theorem opposite_of_mkBinary {op : BinaryOp} {f : Expr} (h : Expr.mkBinary op a b = .ok f) :
    Lowering.opposite f = f.not := by
  obtain ⟨-, rfl⟩ := Expr.admits_of_mkBinary h
  rfl

theorem opposite_complements (f : Expr) :
    Lowering.opposite f = f.not ∨ f = (Lowering.opposite f).not := by
  unfold Lowering.opposite
  split
  · exact .inr rfl
  · exact .inl rfl

theorem width_opposite (f : Expr) : (Lowering.opposite f).width = f.width := by
  rcases opposite_complements f with heq | heq
  · rw [heq]
    rfl
  · exact (congrArg Expr.width heq).symm

theorem exists_testFormula {flags : Flag → Bool}
    (h : ∀ f ∈ Flag.tested, Denotes order M (BitVec.ofBool (flags f)) f.expr) (test : FlagTest) :
    ∃ f, Lowering.testFormula test = .ok f ∧
      Denotes order M (BitVec.ofBool (test.holds flags)) f ∧ Lowering.opposite f = f.not := by
  have hzero := h .zero (by decide)
  have hless := (h .sign (by decide)).xor_bool (h .overflow (by decide))
  cases test with
  | overflow | below | equal | sign | parity => exact ⟨_, rfl, h _ (by decide), rfl⟩
  | belowOrEqual =>
      obtain ⟨f, hf, hdenotes⟩ := (h .carry (by decide)).or_bool hzero
      exact ⟨f, hf, hdenotes, opposite_of_mkBinary hf⟩
  | less =>
      obtain ⟨f, hf, hdenotes⟩ := hless
      exact ⟨f, hf, hdenotes, opposite_of_mkBinary hf⟩
  | lessOrEqual =>
      obtain ⟨less, hless, hdenotes⟩ := hless
      obtain ⟨f, hf, hdenotes⟩ := hzero.or_bool hdenotes
      refine ⟨f, ?_, hdenotes, opposite_of_mkBinary hf⟩
      rw [Lowering.testFormula, hless, ok_bind, hf]

theorem exists_conditionFormula {flags : Flag → Bool}
    (h : ∀ f ∈ Flag.tested, Denotes order M (BitVec.ofBool (flags f)) f.expr) (c : Condition) :
    ∃ f, Lowering.conditionFormula c = .ok f ∧
      Denotes order M (BitVec.ofBool (c.holds flags)) f ∧
      Denotes order M (BitVec.ofBool !c.holds flags) (Lowering.opposite f) := by
  obtain ⟨test, negated⟩ := c
  obtain ⟨f, hf, hdenotes, hopposite⟩ := exists_testFormula h test
  rw [Lowering.conditionFormula, hf, ok_bind]
  cases negated with
  | true =>
      refine ⟨f.not, rfl, hdenotes.not_bool, ?_⟩
      show Denotes order M (BitVec.ofBool !!test.holds flags) f
      rw [Bool.not_not]
      exact hdenotes
  | false =>
      refine ⟨f, rfl, hdenotes, ?_⟩
      rw [hopposite]
      exact hdenotes.not_bool

end Formulas

/-- The arrows of a branch, or the one arrow if both ways are the same. -/
def branchArrows (next target : Location) (formula : Expr) : Location → List Arrow :=
  if target = next then Microcode.leadsTo next
  else Microcode.branchesTo target next formula (Lowering.opposite formula)

theorem Emission.Ran.conditionalJump {start : Start} {e : Emission} {i : Instruction}
    {next : Location} {t : UInt64} {formula : Checked Expr} {f : Expr}
    (h : e.Ran start 0 start.memory) (hops : i.operands = [.target t])
    (hformula : formula = .ok f) (hwidth : f.width = 1)
    (hopposite : (Lowering.opposite f).width = 1) :
    Emits (Lowering.conditionalJump i next formula) e fun _ =>
      Emission.Ended start 0 start.memory (branchArrows next (.boundary t) f) := by
  have htarget : Emits (Lowering.target i) e fun l e' => e' = e ∧ l = .boundary t := by
    refine .operand (by rw [hops]; rfl) ?_
    exact .pure ⟨rfl, rfl⟩
  refine htarget.bind ?_
  rintro _ _ ⟨rfl, rfl⟩
  refine .checked hformula ?_
  rw [Lowering.branch, branchArrows]
  split
  case isTrue => exact h.goto next
  case isFalse hne => exact h.skips hne hwidth hopposite

end Branches

section Steps

/-- The steps of an instruction were added to a graph without them, fewer than the limit, and all
of them have arrows unless the instruction halts. -/
def Emission.Done (i : Instruction) (mc : Microcode) (e : Emission) : Prop :=
  (∀ k, mc.node? ⟨i.address, k⟩ = none) → ∃ n < maxSteps,
    Microcode.Extends scope i.address (n + 1) mc e.graph ∧
      ∀ k ≤ n, e.graph.arrowsAt ⟨i.address, k⟩ = [] → i.mnemonic = .hlt

def Start.still (address : UInt64) (mc : Microcode) : Start :=
  ⟨address, .little, mc, .empty, False⟩

variable {i : Instruction} {mc : Microcode} {e : Emission} {next : Location}
  {n w : Nat} {m : Memory} {last : Location → List Arrow} {op : BinaryOp} {f : Expr}

namespace Start

variable {address : UInt64} {size : Size} {o : Operand}

theorem ran_still (address : UInt64) (mc : Microcode) :
    Emission.Ran (.still address mc) 0 .empty ⟨mc, .boundary address⟩ :=
  (Start.still address mc).ran

theorem builds_still (ho : o.Has size) (x : BitVec size.bits) :
    Builds .little (Start.still address mc).Data x o.value :=
  Operand.builds_of_empty (fun _ => And.left) ho x

theorem exists_assigns_still (ho : o.Has size) (hplace : o.isPlace = true) (x : BitVec size.bits)
    (m : Memory) : ∃ place, o.Assigns .little (Start.still address mc).Data x m m place :=
  Operand.exists_assigns_of_empty (fun _ => And.left) ho hplace x

end Start

theorem Emission.Ended.done (h : e.Ended (.still i.address mc) n m last) (hn : n < maxSteps)
    (hlast : ∀ l, Deterministic scope l (last l)) (hhalt : ∀ l, last l = [] → i.mnemonic = .hlt) :
    e.Done i mc := by
  intro hfree
  refine ⟨n, hn, h.extends_graph hfree (hlast _), fun k hk hempty => ?_⟩
  obtain ⟨statements, rfl, -, hchain, harrows⟩ := h.steps hfree
  rcases Nat.lt_or_eq_of_le hk with hlt | rfl
  · exact absurd hempty (hchain.ne_nil (Nat.zero_le k) (by rwa [Nat.zero_add]))
  · exact hhalt _ (harrows.symm.trans hempty)

theorem Emission.Ended.done_leadsTo
    (h : e.Ended (.still i.address mc) n m (Microcode.leadsTo next)) (hn : n < maxSteps)
    (hnext : next.isBoundary = true) : e.Done i mc :=
  h.done hn (fun _ => .only rfl rfl trivial (.inr hnext)) fun _ hempty => by cases hempty

theorem Emission.Ended.done_jumpsTo (h : e.Ended (.still i.address mc) n m (Microcode.jumpsTo f))
    (hn : n < maxSteps) (hf : Term w f) : e.Done i mc :=
  h.done hn (fun _ => .only rfl rfl trivial hf.wellFormed) fun _ hempty => by cases hempty

theorem Emission.Loops.done {loop : Loop} (h : e.Loops i.address mc loop)
    (hn : 1 + loop.body.length < maxSteps) (hWF : loop.WellFormed scope)
    (hwidth : loop.finished.width = 1) (hunfinished : loop.unfinished = loop.finished.not)
    (hnext : loop.next.isBoundary = true) : e.Done i mc := by
  intro hfree
  refine ⟨_, hn, h.extends_graph hfree hWF hwidth hunfinished hnext, fun k hk hempty => ?_⟩
  obtain ⟨htest, hchain, hback⟩ := h.steps hfree
  rcases Nat.eq_zero_or_pos k with rfl | hpos
  · cases htest.symm.trans hempty
  · rcases Nat.lt_or_eq_of_le hk with hlt | rfl
    · exact absurd hempty (hchain.ne_nil hpos hlt)
    · cases hback.symm.trans hempty

namespace Lowering

variable (mc) (hnext : next.isBoundary = true)

section Arithmetic

variable (hop : ∀ w, op.Admits w w)
  (hresult : ∀ {w} (x y : BitVec w), ∃ z : BitVec w, op.onBits x y = .ofBits z)
include hnext hop hresult

theorem emits_compareOperands (hmet : Demand.pair.Met i.operands) :
    Emits (compareOperands i next op) ⟨mc, .boundary i.address⟩ fun _ => Emission.Done i mc := by
  obtain ⟨a, b, size, hops, -, ha, hb⟩ := hmet
  obtain ⟨z, hz⟩ := hresult (0 : BitVec size.bits) 0
  refine Emits.imp ((Start.ran_still i.address mc).compareOperands hops (Start.builds_still ha 0)
    (Start.builds_still hb 0) (hop _) hz) fun h => ?_
  exact h.done_leadsTo (by decide) hnext

theorem emits_combineOperands (hmet : Demand.pair.Met i.operands) :
    Emits (combineOperands i next op) ⟨mc, .boundary i.address⟩ fun _ => Emission.Done i mc := by
  obtain ⟨a, b, size, hops, hplace, ha, hb⟩ := hmet
  obtain ⟨z, hz⟩ := hresult (0 : BitVec size.bits) 0
  obtain ⟨place, hassigns⟩ := Start.exists_assigns_still ha hplace z _
  refine Emits.imp ((Start.ran_still i.address mc).combineOperands hops (Start.builds_still ha 0)
    (Start.builds_still hb 0) (hop _) hz hassigns) fun h => ?_
  exact h.done_leadsTo (by decide) hnext

theorem emits_countOperand (hmet : Demand.place.Met i.operands) :
    Emits (countOperand i next op) ⟨mc, .boundary i.address⟩ fun _ => Emission.Done i mc := by
  obtain ⟨a, size, hops, hplace, ha⟩ := hmet
  obtain ⟨z, hz⟩ := hresult (0 : BitVec size.bits) (BitVec.ofNat size.bits 1)
  obtain ⟨place, hassigns⟩ := Start.exists_assigns_still ha hplace z _
  refine Emits.imp ((Start.ran_still i.address mc).countOperand hops (Start.builds_still ha 0)
    (hop _) hz rfl hassigns) fun h => ?_
  exact h.done_leadsTo (by decide) hnext

end Arithmetic

section Moves

include hnext

theorem emits_move (hmet : Demand.pair.Met i.operands) :
    Emits (move i next) ⟨mc, .boundary i.address⟩ fun _ => Emission.Done i mc := by
  obtain ⟨a, b, size, hops, hplace, ha, hb⟩ := hmet
  obtain ⟨place, hassigns⟩ := Start.exists_assigns_still ha hplace 0 _
  refine Emits.imp ((Start.ran_still i.address mc).move hops (Start.builds_still hb 0) hassigns)
    fun h => ?_
  exact h.done_leadsTo (by decide) hnext

theorem emits_moveExtended {extension : Nat → UnaryOp} (hmet : Demand.extension.Met i.operands)
    (hadmits : ∀ {v w}, v ≤ w → w ≤ 64 → (extension w).Admits v)
    (hextended : ∀ {v} w (x : BitVec v), ∃ z : BitVec w, (extension w).onBits x = .ofBits z) :
    Emits (moveExtended i next extension) ⟨mc, .boundary i.address⟩ fun _ =>
      Emission.Done i mc := by
  obtain ⟨a, b, size, smaller, hops, hplace, ha, hb, hle⟩ := hmet
  obtain ⟨z, hz⟩ := hextended size.bits (0 : BitVec smaller.bits)
  obtain ⟨place, hassigns⟩ := Start.exists_assigns_still ha hplace z _
  refine Emits.imp ((Start.ran_still i.address mc).moveExtended hops (Start.builds_still hb 0)
    (hadmits hle size.valid.1.2) hz hassigns) fun h => ?_
  exact h.done_leadsTo (by decide) hnext

theorem emits_loadAddress (hmet : Demand.address.Met i.operands) :
    Emits (loadAddress i next) ⟨mc, .boundary i.address⟩ fun _ => Emission.Done i mc := by
  obtain ⟨a, b, size, stored, hops, hplace, ha, hmemory, hb⟩ := hmet
  cases b with
  | memory _ base index displacement =>
      obtain ⟨-, hbase, hindex⟩ := hb
      obtain ⟨address, haddress, hdenotes, -⟩ : ∃ e,
          effectiveAddress base index displacement = .ok e ∧
            Denotes .little (Start.still i.address mc).Data 0 e ∧ True :=
        exists_effectiveAddress (fun _ _ hm => hm.1.elim) inherited_true hbase hindex
          fun hm => hm.1.elim
      obtain ⟨place, hassigns⟩ := Start.exists_assigns_still ha hplace _ _
      refine Emits.imp ((Start.ran_still i.address mc).loadAddress hops
        ⟨address, haddress, hdenotes⟩ hassigns) fun h => ?_
      exact h.done_leadsTo (by decide) hnext
  | _ => cases hmemory

end Moves

section Stack

theorem exists_leadsTo {o : Operand} {size : Size} (compute : Expr → Checked Expr)
    (ho : o.Has size) (hcompute : ∀ {value}, Term size.bits value →
      ∃ target, compute value = .ok target ∧ Term size.bits target) :
    ∃ last, o.LeadsTo compute last ∧ ∀ l, Deterministic scope l (last l) ∧ last l ≠ [] := by
  have hcomputed (hnot : o.target? = none) :
      ∃ last, o.LeadsTo compute last ∧ ∀ l, Deterministic scope l (last l) ∧ last l ≠ [] := by
    obtain ⟨value, hvalue, hdenotes⟩ : Builds .little (fun _ => False)
        (0 : BitVec size.bits) o.value :=
      Operand.builds_of_empty (fun _ => id) ho 0
    obtain ⟨target, htarget, hterm⟩ := hcompute hdenotes.term
    exact ⟨_, .computed hnot hvalue htarget, fun l =>
      ⟨.only rfl rfl trivial hterm.wellFormed, List.cons_ne_nil _ _⟩⟩
  cases o with
  | target address =>
      exact ⟨_, .direct address, fun l =>
        ⟨.only rfl rfl trivial (.inr rfl), List.cons_ne_nil _ _⟩⟩
  | _ => exact hcomputed rfl

theorem emits_jumpToOperand (hmet : Demand.operand.Met i.operands) :
    Emits (jumpToOperand i) ⟨mc, .boundary i.address⟩ fun _ => Emission.Done i mc := by
  obtain ⟨a, size, hops, ha⟩ := hmet
  obtain ⟨last, hlast, harrows⟩ := exists_leadsTo pure ha fun hvalue => ⟨_, rfl, hvalue⟩
  refine ((Start.ran_still i.address mc).jumpToOperand hops hlast).imp fun h => ?_
  exact h.done (by decide) (fun l => (harrows l).1) fun l hempty => absurd hempty (harrows l).2

theorem emits_call (hmet : Demand.operand.Met i.operands) :
    Emits (call i next) ⟨mc, .boundary i.address⟩ fun _ => Emission.Done i mc := by
  obtain ⟨a, size, hops, ha⟩ := hmet
  obtain ⟨last, hlast, harrows⟩ :=
    exists_leadsTo (Expr.replace · Gpr.esp.expr raised) ha fun hvalue => by
      have htarget := Gpr.esp.term.replace (denotes_raised .little 0).term hvalue.wellFormed
      rwa [hvalue.width] at htarget
  obtain ⟨stored, hwrite, -, hregister, -⟩ := Memory.exists_write .empty (slotBelow 0 4) .little
    Size.dword.valid.1 Size.dword.valid.2 (BitVec.ofNat 32 next.instruction.toNat)
  refine ((Start.ran_still i.address mc).call 0 False.elim hops hlast hwrite hregister).imp
    fun h => ?_
  exact h.done (by decide) (fun l => (harrows l).1) fun l hempty => absurd hempty (harrows l).2

theorem emits_returnToCaller :
    Emits (returnToCaller i) ⟨mc, .boundary i.address⟩ fun _ => Emission.Done i mc := by
  unfold returnToCaller
  refine ((Start.ran_still i.address mc).returnSteps 0 False.elim _).imp fun h => ?_
  exact h.done_jumpsTo (by decide) (denotes_slotBefore .little 0 _ 0).term

include hnext

theorem emits_pushOperand (hmet : Demand.operand.Met i.operands) :
    Emits (pushOperand i next) ⟨mc, .boundary i.address⟩ fun _ => Emission.Done i mc := by
  obtain ⟨a, size, hops, ha⟩ := hmet
  obtain ⟨stored, hwrite, -, hregister, -⟩ := Memory.exists_write .empty (slotBelow 0 size.bytes)
    .little size.valid.1 size.valid.2 (0 : BitVec size.bits)
  refine ((Start.ran_still i.address mc).pushOperand 0 False.elim hops (Start.builds_still ha 0)
    hwrite hregister).imp fun h => ?_
  exact h.done_leadsTo (by decide) hnext

theorem emits_popOperand (hmet : Demand.place.Met i.operands) :
    Emits (popOperand i next) ⟨mc, .boundary i.address⟩ fun _ => Emission.Done i mc := by
  obtain ⟨a, size, hops, hplace, ha⟩ := hmet
  obtain ⟨place, hassigns⟩ := Start.exists_assigns_still ha hplace (0 : BitVec size.bits) .empty
  have hran := Start.ran_still i.address mc
  by_cases hesp : place = Gpr.esp.expr
  · have hplace := hassigns.eq_place
    rw [hesp] at hplace
    refine (hran.popStackPointer 0 False.elim (x := 0) hops hplace False.elim).imp fun h => ?_
    exact h.done_leadsTo (by decide) hnext
  · refine (hran.popOperand 0 False.elim hops hesp hassigns False.elim False.elim).imp fun h => ?_
    exact h.done_leadsTo (by decide) hnext

end Stack

section Jumps

include hnext

theorem emits_conditionalJump (hmet : Demand.target.Met i.operands) {formula : Checked Expr}
    (hformula : formula = .ok f) (hf : Term 1 f) :
    Emits (conditionalJump i next formula) ⟨mc, .boundary i.address⟩ fun _ =>
      Emission.Done i mc := by
  obtain ⟨address, hops⟩ := hmet
  have hopposite : (opposite f).width = 1 := (width_opposite f).trans hf.width
  refine ((Start.ran_still i.address mc).conditionalJump hops hformula hf.width hopposite).imp
    fun h => ?_
  refine h.done (by decide) (fun l => ?_) fun l hempty => ?_
  · unfold branchArrows
    split
    case isTrue => exact .only rfl rfl trivial (.inr hnext)
    case isFalse hne =>
      exact .branch hne hf.wellFormed hf.width (opposite_complements f) (.inr rfl) (.inr hnext)
  · unfold branchArrows at hempty
    split at hempty <;> cases hempty

theorem emits_string (source : StringSource) :
    Emits (string i next source.loads) ⟨mc, .boundary i.address⟩ fun _ => Emission.Done i mc := by
  have hlength := source.length_body_lt
  by_cases honce : i.repetition.isNone = true
  · have hran := Start.ran_still i.address mc
    refine (source.emits_once (m := .empty) honce hran False.elim).imp fun h => ?_
    exact h.done_leadsTo (by omega) hnext
  · exact (source.emits_loop honce hnext mc).imp fun h =>
      h.done hlength (source.wellFormed_loop next) rfl rfl hnext

end Jumps

/-- Instructions with the operands that their operation asks for are lowered completely. -/
theorem emits_lower (hnext : next.isBoundary = true) (hmet : i.mnemonic.demand.Met i.operands)
    (mc : Microcode) :
    Emits (lower i next) ⟨mc, .boundary i.address⟩ fun _ => Emission.Done i mc := by
  unfold lower
  cases hm : i.mnemonic with
  | add | or | and | sub | xor =>
      rw [hm] at hmet
      exact emits_combineOperands mc hnext (fun _ => rfl) (fun _ _ => ⟨_, rfl⟩) hmet
  | cmp | test =>
      rw [hm] at hmet
      exact emits_compareOperands mc hnext (fun _ => rfl) (fun _ _ => ⟨_, rfl⟩) hmet
  | inc | dec =>
      rw [hm] at hmet
      exact emits_countOperand mc hnext (fun _ => rfl) (fun _ _ => ⟨_, rfl⟩) hmet
  | mov =>
      rw [hm] at hmet
      exact emits_move mc hnext hmet
  | movzx | movsx =>
      rw [hm] at hmet
      exact emits_moveExtended mc hnext hmet And.intro fun _ _ => ⟨_, rfl⟩
  | lea =>
      rw [hm] at hmet
      exact emits_loadAddress mc hnext hmet
  | push =>
      rw [hm] at hmet
      exact emits_pushOperand mc hnext hmet
  | pop =>
      rw [hm] at hmet
      exact emits_popOperand mc hnext hmet
  | jmp =>
      rw [hm] at hmet
      exact emits_jumpToOperand mc hmet
  | call =>
      rw [hm] at hmet
      exact emits_call mc hmet
  | jcc condition =>
      rw [hm] at hmet
      have hflags (f : Flag) : Denotes .little (fun _ => False) (BitVec.ofBool false) f.expr :=
        Flag.denotes False.elim
      obtain ⟨f, hf, hdenotes, -⟩ := exists_conditionFormula (fun f _ => hflags f) condition
      exact emits_conditionalJump mc hnext hmet hf hdenotes.term
  | jecxz =>
      rw [hm] at hmet
      exact emits_conditionalJump mc hnext hmet rfl (denotes_countedDown .little 0).term
  | ret => exact emits_returnToCaller mc
  | stosb => exact emits_string mc hnext (.accumulator 0)
  | movsb => exact emits_string mc hnext (.cells 0)
  | nop => exact ((Start.ran_still i.address mc).goto next).imp fun h =>
      h.done_leadsTo (by decide) hnext
  | hlt =>
      have hnone : Emits (emit fun mc here => return mc.addNode here) ⟨mc, .boundary i.address⟩
          fun _ => Emission.Ended (.still i.address mc) 0 .empty fun _ => [] :=
        (Start.ran_still i.address mc).emit rfl rfl
      exact hnone.imp fun h => h.done (by decide) (fun _ => .halt) fun _ _ => hm

end Lowering

end Steps

end FlowRecovery.X86
