import Mathlib
import FlowRecovery.Proofs.X86.Execution
import FlowRecovery.Proofs.X86.Recovery

namespace FlowRecovery

namespace Memory

variable {registers : List Register}

theorem storesPhysical_ofBytes (registers : List Register) (bytes : Std.ExtTreeMap UInt64 UInt8) :
    StoresPhysical registers ⟨{ bytes }, []⟩ := by
  intro name x hx
  simp [physical?, layers] at hx

theorem StoresPhysical.setPhysical {m : Memory} (h : m.StoresPhysical registers)
    {name : String} {x : Word} (hx : x.Canonical)
    (hwidth : ∀ r ∈ registers, r.base = name → x.width = r.baseSize) :
    (m.setPhysical name x).StoresPhysical registers := by
  intro other y hy
  rw [physical?_setPhysical] at hy
  split at hy
  case isTrue heq =>
    cases hy
    exact heq ▸ ⟨hx, hwidth⟩
  case isFalse => exact h other y hy

end Memory

namespace X86

/-- What an arithmetic instruction computes from the values of its operands: its result, and the
flags it sets. -/
structure Outcome (w : Nat) where
  result : BitVec w
  flags : List (Flag × Bool)

def Mnemonic.outcome? {w : Nat} : Mnemonic → List (BitVec w) → Option (Outcome w)
  | add, [x, y] => some ⟨x + y, addStatus x y⟩
  | sub, [x, y] | cmp, [x, y] => some ⟨x - y, subStatus x y⟩
  | and, [x, y] | test, [x, y] => some ⟨x &&& y, logicStatus (x &&& y)⟩
  | or, [x, y] => some ⟨x ||| y, logicStatus (x ||| y)⟩
  | xor, [x, y] => some ⟨x ^^^ y, logicStatus (x ^^^ y)⟩
  | inc, [x] => some ⟨x + 1#w, resultStatus (x + 1#w) ++ [(.overflow, x.saddOverflow 1#w)]⟩
  | dec, [x] => some ⟨x - 1#w, resultStatus (x - 1#w) ++ [(.overflow, x.ssubOverflow 1#w)]⟩
  | _, _ => none

/-- The operand that gets the result. Comparisons have none. -/
def Instruction.destination? (i : Instruction) : Option Operand :=
  if i.mnemonic = .cmp ∨ i.mnemonic = .test then none else i.operands.head?

/-- A memory holds the outcome of an operation, and is another one otherwise. -/
structure Outcome.Applied {w : Nat} (effect : Outcome w) (destination : Option Operand)
    (order : ByteOrder) (m m' : Memory) : Prop where
  result {o : Operand} : destination = some o → o.read m' order = .ok (.ofBits effect.result)
  flag {f : Flag} {b : Bool} : (f, b) ∈ effect.flags →
    m'.readRegister f.register = .ok (.ofBool b)
  bit {name : String} {k : Nat} : (∀ p ∈ effect.flags, p.1.name ≠ name) →
    (∀ o ∈ destination, ¬ o.HoldsBit name k) → m'.bit? name k = m.bit? name k
  byte {a : UInt64} : (∀ o ∈ destination, ¬ o.HoldsByte m a) → m'.byte? a = m.byte? a

section Outcomes

variable {w : Nat} {effect : Outcome w} {order : ByteOrder} {m m' : Memory} {o : Operand}

theorem Flag.readRegister {f : Flag} {b : Bool} (h : m.physical? f.name = some (.ofBool b)) :
    m.readRegister f.register = .ok (.ofBool b) := by
  rw [Word.ofBool_eq] at h ⊢
  exact Memory.readRegister_physical (by decide) h

theorem Outcome.applied_of_flags (hdistinct : (effect.flags.map (·.1.name)).Nodup) :
    effect.Applied none order m (m.setFlags effect.flags) := by
  constructor
  · rintro o ⟨⟩
  · intro f b hf
    exact Flag.readRegister (Memory.physical?_setFlags hdistinct hf)
  · intro name k hname _
    rw [Memory.bit?, Memory.physical?_setFlags_of_ne hname, Memory.bit?]
  · intro a _
    exact Memory.byte?_setFlags m effect.flags a

theorem Operand.not_holdsBit_flag (o : Operand) (f : Flag) (k : Nat) : ¬ o.HoldsBit f.name k := by
  cases o with
  | register r => exact fun h => r.base_ne_name f h.1
  | _ => exact id

theorem Operand.holdsByte_setFlags {flags : List (Flag × Bool)} {a : UInt64}
    (h : o.HoldsByte (m.setFlags flags) a) :
    o.HoldsByte m a := by
  cases o with
  | memory size base index displacement =>
      obtain ⟨address, haddress, hin⟩ := h
      rw [addressOf_congr (sameData_setFlags m flags).register] at haddress
      exact ⟨address, haddress, hin⟩
  | _ => cases h

theorem Outcome.applied_of_stored (hdistinct : (effect.flags.map (·.1.name)).Nodup)
    (h : o.Stored order (m.setFlags effect.flags) (.ofBits effect.result) m') :
    effect.Applied (some o) order m m' := by
  constructor
  · rintro o ⟨⟩
    exact h.value
  · intro f b hf
    refine Flag.readRegister ((h.register fun k => o.not_holdsBit_flag f k).trans ?_)
    exact Memory.physical?_setFlags hdistinct hf
  · intro name k hname hk
    rw [h.bit (hk o rfl), Memory.bit?, Memory.physical?_setFlags_of_ne hname, Memory.bit?]
  · intro a ha
    rw [h.byte fun hin => ha o rfl (Operand.holdsByte_setFlags hin), Memory.byte?_setFlags]

theorem nodup_operationStatus (x y : BitVec w) (op : BinaryOp) (z : BitVec w) :
    ((operationStatus x y op z).map (·.1.name)).Nodup := by
  have hnames : (operationStatus x y op z).map (·.1.name) = ["cf", "of", "zf", "sf", "pf"] := by
    cases op <;> rfl
  rw [hnames]
  decide

theorem nodup_countStatus (x : BitVec w) (overflow : Bool) :
    ((resultStatus x ++ [(Flag.overflow, overflow)]).map (·.1.name)).Nodup := by
  show ["zf", "sf", "pf", "of"].Nodup
  decide

end Outcomes

/-- Executing an instruction up to the next one applies an outcome, and adds no steps but its
own. -/
def Applies (widths : String → Nat) (sim : Simulator) (d : Discovery) (s : State)
    (i : Instruction) {w : Nat} (effect : Outcome w) : Prop :=
  ∃ d' s', sim.Executes d s d' s' ∧
    s.Reaches widths (.boundary (following i.address i.bytes.length)) s'.machine s' ∧
    effect.Applied i.destination? s.memory.order s.machine s'.machine ∧
    ∀ l, l.instruction ≠ i.address → d'.program.node? l = d.program.node? l

namespace Faces

variable {widths : String → Nat} {sim : Simulator} {d : Discovery} {s : State}
  {i : Instruction} {size : Size} {o o' : Operand} {x y z : BitVec size.bits}

theorem applies_compare (h : Faces widths sim d s i) (op : BinaryOp)
    (hdestination : i.destination? = none)
    (hlower : ∀ next, Lowering.lower i next = Lowering.compareOperands i next op)
    (hops : i.operands = [o, o']) (ho : o.Has size) (ho' : o'.Has size)
    (hx : o.read s.machine s.memory.order = .ok (.ofBits x))
    (hy : o'.read s.machine s.memory.order = .ok (.ofBits y))
    (hop : op.Admits size.bits size.bits) (hz : op.onBits x y = .ofBits z) :
    Applies widths sim d s i ⟨z, operationStatus x y op z⟩ := by
  obtain ⟨d', s', hexecutes, hreaches, hother⟩ :=
    h.exists_executes (s.machine.setFlags (operationStatus x y op z)) _ rfl fun mc e he => by
      rw [hlower]
      have hx := (Start.ofState s i.address mc).builds_value ho hx
      have hy := (Start.ofState s i.address mc).builds_value ho' hy
      exact he.compareOperands hops hx hy hop hz
  have hmachine := hreaches.machine
  rw [← hmachine] at hreaches
  refine ⟨d', s', hexecutes, hreaches, ?_, hother⟩
  rw [hdestination, hmachine]
  exact Outcome.applied_of_flags (nodup_operationStatus x y op z)

theorem applies_combine (h : Faces widths sim d s i) (op : BinaryOp)
    (hdestination : i.destination? = some o)
    (hlower : ∀ next, Lowering.lower i next = Lowering.combineOperands i next op)
    (hops : i.operands = [o, o']) (hplace : o.isPlace = true) (ho : o.Has size)
    (ho' : o'.Has size) (hx : o.read s.machine s.memory.order = .ok (.ofBits x))
    (hy : o'.read s.machine s.memory.order = .ok (.ofBits y))
    (hop : op.Admits size.bits size.bits) (hz : op.onBits x y = .ofBits z) :
    Applies widths sim d s i ⟨z, operationStatus x y op z⟩ := by
  obtain ⟨place, m, hassigns, hstored⟩ :=
    h.exists_assigns ho hplace hx (sameData_setFlags s.machine (operationStatus x y op z)) z
  obtain ⟨d', s', hexecutes, hreaches, hother⟩ := h.exists_executes m _ rfl fun mc e he => by
    rw [hlower]
    have hx := (Start.ofState s i.address mc).builds_value ho hx
    have hy := (Start.ofState s i.address mc).builds_value ho' hy
    exact he.combineOperands hops hx hy hop hz (hassigns mc)
  obtain rfl := hreaches.machine
  refine ⟨d', s', hexecutes, hreaches, ?_, hother⟩
  rw [hdestination]
  exact Outcome.applied_of_stored (nodup_operationStatus x y op z) hstored

theorem applies_count {overflow : Bool} (h : Faces widths sim d s i) (op : BinaryOp)
    (hdestination : i.destination? = some o)
    (hlower : ∀ next, Lowering.lower i next = Lowering.countOperand i next op)
    (hops : i.operands = [o]) (hplace : o.isPlace = true) (ho : o.Has size)
    (hx : o.read s.machine s.memory.order = .ok (.ofBits x)) (hop : op.Admits size.bits size.bits)
    (hz : op.onBits x (BitVec.ofNat size.bits 1) = .ofBits z)
    (hoverflow : (z == BitVec.ofNat size.bits
      (if op = .add then 2 ^ (size.bits - 1) else 2 ^ (size.bits - 1) - 1)) = overflow) :
    Applies widths sim d s i ⟨z, resultStatus z ++ [(.overflow, overflow)]⟩ := by
  obtain ⟨place, m, hassigns, hstored⟩ := h.exists_assigns ho hplace hx
    (sameData_setFlags s.machine (resultStatus z ++ [(.overflow, overflow)])) z
  obtain ⟨d', s', hexecutes, hreaches, hother⟩ := h.exists_executes m _ rfl fun mc e he => by
    rw [hlower]
    have hx := (Start.ofState s i.address mc).builds_value ho hx
    exact he.countOperand hops hx hop hz hoverflow (hassigns mc)
  obtain rfl := hreaches.machine
  refine ⟨d', s', hexecutes, hreaches, ?_, hother⟩
  rw [hdestination]
  exact Outcome.applied_of_stored (nodup_countStatus z overflow) hstored

end Faces

section Operations

def Mnemonic.operation? : Mnemonic → Option BinaryOp
  | add => some .add
  | sub | cmp => some .sub
  | and | test => some .and
  | or => some .or
  | xor => some .xor
  | _ => none

variable {i : Instruction} {op : BinaryOp} {w : Nat}

theorem Mnemonic.outcome_of_operation {mnemonic : Mnemonic} (h : mnemonic.operation? = some op)
    (x y : BitVec w) :
    ∃ z, op.onBits x y = .ofBits z ∧ op.Admits w w ∧
      mnemonic.outcome? [x, y] = some ⟨z, operationStatus x y op z⟩ := by
  cases mnemonic with
  | add | sub | cmp | and | test | or | xor =>
      cases h
      exact ⟨_, by rw [BinaryOp.onBits, BitVec.setWidth_eq], rfl, rfl⟩
  | _ => cases h

theorem Mnemonic.demand_of_operation {mnemonic : Mnemonic} (h : mnemonic.operation? = some op) :
    mnemonic.demand = .pair := by
  cases mnemonic with
  | add | sub | cmp | and | test | or | xor => rfl
  | _ => cases h

theorem lower_of_operation (h : i.mnemonic.operation? = some op) :
    (i.destination? = none ∧ ∀ next, Lowering.lower i next = Lowering.compareOperands i next op) ∨
      i.destination? = i.operands.head? ∧
      ∀ next, Lowering.lower i next = Lowering.combineOperands i next op := by
  cases hm : i.mnemonic with
  | cmp | test =>
      rw [hm] at h
      cases h
      refine .inl ⟨by rw [Instruction.destination?, hm]; rfl,
        fun next => by rw [Lowering.lower, hm]⟩
  | add | sub | and | or | xor =>
      rw [hm] at h
      cases h
      refine .inr ⟨by rw [Instruction.destination?, hm]; rfl,
        fun next => by rw [Lowering.lower, hm]⟩
  | _ =>
      rw [hm] at h
      cases h

end Operations

section Instructions

variable {widths : String → Nat} {sim : Simulator} {d : Discovery} {s : State} {i : Instruction}

theorem Faces.exists_applies_operation (h : Faces widths sim d s i) {op : BinaryOp}
    (hop : i.mnemonic.operation? = some op)
    (hdefined : ∀ o ∈ i.operands, ∃ x, o.read s.machine s.memory.order = .ok x) :
    ∃ (size : Size) (values : List (BitVec size.bits)) (effect : Outcome size.bits),
      List.Forall₂ (fun o x => o.read s.machine s.memory.order = .ok (.ofBits x))
        i.operands values ∧
        i.mnemonic.outcome? values = some effect ∧ Applies widths sim d s i effect := by
  obtain ⟨-, hmet⟩ := Instruction.met_of_decode h.parsed
  rw [Mnemonic.demand_of_operation hop] at hmet
  obtain ⟨o, o', size, hops, hplace, ho, ho'⟩ := hmet
  rw [hops, List.forall_mem_cons, List.forall_mem_singleton] at hdefined
  obtain ⟨⟨_, hx⟩, _, hy⟩ := hdefined
  obtain ⟨x, rfl⟩ := Operand.exists_bits_of_read ho hx
  obtain ⟨y, rfl⟩ := Operand.exists_bits_of_read ho' hy
  obtain ⟨z, hz, hadmits, houtcome⟩ := Mnemonic.outcome_of_operation hop x y
  refine ⟨size, [x, y], _, ?_, houtcome, ?_⟩
  · rw [hops]
    exact .cons hx (.cons hy .nil)
  · rcases lower_of_operation hop with ⟨hdestination, hlower⟩ | ⟨hdestination, hlower⟩
    · exact h.applies_compare op hdestination hlower hops ho ho' hx hy hadmits hz
    · rw [hops] at hdestination
      exact h.applies_combine op hdestination hlower hops hplace ho ho' hx hy hadmits hz

theorem Faces.exists_applies_count (h : Faces widths sim d s i)
    (hm : i.mnemonic = .inc ∨ i.mnemonic = .dec)
    (hdefined : ∀ o ∈ i.operands, ∃ x, o.read s.machine s.memory.order = .ok x) :
    ∃ (size : Size) (values : List (BitVec size.bits)) (effect : Outcome size.bits),
      List.Forall₂ (fun o x => o.read s.machine s.memory.order = .ok (.ofBits x))
        i.operands values ∧
        i.mnemonic.outcome? values = some effect ∧ Applies widths sim d s i effect := by
  obtain ⟨-, hmet⟩ := Instruction.met_of_decode h.parsed
  have hdemand : i.mnemonic.demand = .place := by
    rcases hm with hm | hm <;> rw [hm] <;> rfl
  rw [hdemand] at hmet
  obtain ⟨o, size, hops, hplace, ho⟩ := hmet
  rw [hops, List.forall_mem_singleton] at hdefined
  obtain ⟨_, hx⟩ := hdefined
  obtain ⟨x, rfl⟩ := Operand.exists_bits_of_read ho hx
  have hwide : 1 < size.bits := lt_of_lt_of_le (by decide) size.byte_le
  have hvalues : List.Forall₂ (fun o x => o.read s.machine s.memory.order = .ok (.ofBits x))
      i.operands [x] := by
    rw [hops]
    exact .cons hx .nil
  rcases hm with hm | hm
  · refine ⟨size, [x], _, hvalues, by rw [hm]; rfl, ?_⟩
    refine h.applies_count .add ?_ (fun next => by rw [Lowering.lower, hm]) hops hplace
      ho hx rfl ?_ ?_
    · rw [Instruction.destination?, hm, hops]
      rfl
    · rw [BinaryOp.onBits, BitVec.setWidth_eq]
    · exact increment_overflow x hwide
  · refine ⟨size, [x], _, hvalues, by rw [hm]; rfl, ?_⟩
    refine h.applies_count .sub ?_ (fun next => by rw [Lowering.lower, hm]) hops hplace
      ho hx rfl ?_ ?_
    · rw [Instruction.destination?, hm, hops]
      rfl
    · rw [BinaryOp.onBits, BitVec.setWidth_eq]
    · exact decrement_overflow x hwide

theorem faces_ofImage {lengthOf : List UInt8 → Option Nat} {image : Memory}
    (himage : image.StoresPhysical registers)
    (hparsed : Instruction.decode (image.fetch i.address maxLength) i.address = .ok i)
    (solver : Solver) (policy : JumpPolicy) (order : ByteOrder) :
    Faces (X86.widths image) ⟨decoder lengthOf, solver, image, policy⟩ {}
      ⟨.boundary i.address, .ofImage image order, .bool true⟩ i := by
  have hmemory : (SymbolicMemory.ofImage image order).WellFormed .ground (X86.widths image) :=
    ⟨by simp [SymbolicMemory.ofImage], by simp [SymbolicMemory.ofImage],
      (certain lengthOf himage solver {}).image⟩
  refine ⟨⟨lengthOf, rfl⟩, hparsed, .inl fun k => ?_, fun r => fits_of_mem_registers image,
    ⟨hmemory, ?_, rfl⟩, rfl⟩
  · simp [Microcode.node?]
  · exact SymbolicMemory.settled_ofImage image order

/-- Arithmetic instructions do what their operation says. In front of such an instruction, with
all its operands defined, the steps are executed up to the next instruction. The destination then
holds the result, the flags are those of the operation on the old values of the operands, and
every other bit of a register and byte of memory is what it was. -/
theorem arithmetic_executes (h : Faces widths sim d s i)
    (hmnemonic : i.mnemonic ∈ [.add, .sub, .cmp, .and, .or, .xor, .test, .inc, .dec])
    (hdefined : ∀ o ∈ i.operands, ∃ x, o.read s.machine s.memory.order = .ok x) :
    ∃ (size : Size) (values : List (BitVec size.bits)) (effect : Outcome size.bits),
      List.Forall₂ (fun o x => o.read s.machine s.memory.order = .ok (.ofBits x))
        i.operands values ∧
        i.mnemonic.outcome? values = some effect ∧
        ∃ d' s', sim.Executes d s d' s' ∧
          s.Reaches widths (.boundary (following i.address i.bytes.length)) s'.machine s' ∧
          effect.Applied i.destination? s.memory.order s.machine s'.machine ∧
          ∀ l, l.instruction ≠ i.address → d'.program.node? l = d.program.node? l := by
  have hkinds : (∃ op, i.mnemonic.operation? = some op) ∨ i.mnemonic = .inc ∨
      i.mnemonic = .dec := by
    simp only [List.mem_cons, List.not_mem_nil, or_false] at hmnemonic
    rcases hmnemonic with hm | hm | hm | hm | hm | hm | hm | hm | hm <;> rw [hm]
    iterate 7 exact .inl ⟨_, rfl⟩
    · exact .inr (.inl rfl)
    · exact .inr (.inr rfl)
  rcases hkinds with ⟨op, hop⟩ | hcount
  · exact h.exists_applies_operation hop hdefined
  · exact h.exists_applies_count hcount hdefined

/-- A byte in memory to which a part of its own address is added. -/
theorem arithmetic_executes_of_aliasing :
    let image : Memory := ⟨{
      registers := Std.ExtTreeMap.insert ∅ "eax" ⟨32, 0x7f10⟩
      bytes := .ofList ([(0x1000, 0x00), (0x1001, 0x20), (0x7f10, 0x01)] :
        List (UInt64 × UInt8)) }, []⟩
    let sim : Simulator := ⟨decoder fun _ => none, .enumerating, image, {}⟩
    let s : State := ⟨.boundary 0x1000, .ofImage image .little, .bool true⟩
    let i : Instruction :=
      ⟨0x1000, [0x00, 0x20], none, .add,
        [.memory .byte (some ⟨.dword, 0⟩) none 0, .register ⟨.byte, 4⟩]⟩
    Faces (X86.widths image) sim {} s i ∧ i.render = "add byte ptr [eax], ah" ∧
      ∃ d' s', sim.Executes {} s d' s' ∧ s'.pc = .boundary 0x1002 ∧
        (Operand.memory .byte (some ⟨.dword, 0⟩) none 0).read s'.machine .little = .ok ⟨8, 0x80⟩ ∧
        s'.machine.bit? "eax" 4 = some true ∧
        s'.machine.readRegister Flag.overflow.register = .ok (.ofBool true) ∧
        s'.machine.readRegister Flag.carry.register = .ok (.ofBool false) := by
  intro image sim s i
  have himage : image.StoresPhysical registers :=
    (Memory.storesPhysical_ofBytes _ _).setPhysical (by decide) (by decide +kernel)
  have hfaces : Faces (X86.widths image) sim {} s i :=
    faces_ofImage (i := i) himage (by decide +kernel) _ _ _
  refine ⟨hfaces, by decide +kernel, ?_⟩
  have hfirst : (Operand.memory .byte (some ⟨.dword, 0⟩) none 0).read s.machine .little =
      .ok ⟨8, 1⟩ := by
    decide +kernel
  have hsecond : (Operand.register ⟨.byte, 4⟩).read s.machine .little = .ok ⟨8, 0x7f⟩ := by
    decide +kernel
  obtain ⟨size, values, effect, hvalues, houtcome, d', s', hexecutes, hreaches, happlied, -⟩ :=
    arithmetic_executes hfaces (by decide) (by
      rintro o ho
      rcases List.mem_pair.mp ho with rfl | rfl
      · exact ⟨_, hfirst⟩
      · exact ⟨_, hsecond⟩)
  obtain _ | ⟨hx, _ | ⟨hy, ⟨⟩⟩⟩ := hvalues
  obtain ⟨hsize, hx⟩ := Word.mk.injEq .. ▸ Except.ok.inj (hfirst.symm.trans hx)
  obtain ⟨-, hy⟩ := Word.mk.injEq .. ▸ Except.ok.inj (hsecond.symm.trans hy)
  obtain rfl : size = .byte := by cases size <;> first | rfl | cases hsize
  obtain rfl := BitVec.eq_of_toNat_eq (y := 1#8) hx.symm
  obtain rfl := BitVec.eq_of_toNat_eq (y := 0x7f#8) hy.symm
  cases houtcome
  refine ⟨d', s', hexecutes, hreaches.pc, happlied.result rfl, ?_, ?_, ?_⟩
  · rw [happlied.bit (by decide) (by rintro o ⟨⟩; exact id)]
    decide +kernel
  · exact happlied.flag (by decide)
  · exact happlied.flag (by decide)

end Instructions

end X86

end FlowRecovery
