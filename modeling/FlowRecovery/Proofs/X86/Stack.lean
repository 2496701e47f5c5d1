import Mathlib
import FlowRecovery.Proofs.Memory.ReadOverWrite
import FlowRecovery.Proofs.X86.Branches
import FlowRecovery.Proofs.X86.Calls

namespace FlowRecovery.X86

theorem Gpr.name_ne_esp {r : Gpr} (hr : r.size = .dword) (hne : r ≠ .esp) : r.name ≠ "esp" := by
  have hall : ∀ number : Fin 8, (⟨.dword, number⟩ : Gpr) ≠ .esp →
      (⟨.dword, number⟩ : Gpr).name ≠ "esp" := by
    decide
  obtain ⟨size, number⟩ := r
  obtain rfl : size = .dword := hr
  exact hall number hne

/-- The number of bytes that a return drops in addition to its return address. -/
def Instruction.Drops (i : Instruction) (bytes : Nat) : Prop :=
  i.operands = [] ∧ bytes = 0 ∨ ∃ x, i.operands = [.immediate x] ∧ bytes = x.value

section Emission

variable {start : Start} {e : Emission} {i : Instruction} {next : Location} {top : BitVec 32}

theorem Emission.Ran.returnToCaller {bytes : Nat} (h : e.Ran start 0 start.memory)
    (hdrops : i.Drops bytes)
    (htop : start.memory.readRegister Gpr.esp.register = .ok (.ofBits top)) :
    let popped := BitVec.ofNat 32 (4 + bytes)
    Emits (Lowering.returnToCaller i) e fun _ =>
      Emission.Ended start 1 (start.memory.setPhysical "esp" (.ofBits (top + popped)))
        (Microcode.jumpsTo (slotBefore popped)) := by
  rcases hdrops with ⟨hops, rfl⟩ | ⟨x, hops, rfl⟩
  · rw [Lowering.returnToCaller, hops]
    exact h.returnSteps top (fun _ => htop) 0
  · rw [Lowering.returnToCaller, hops]
    exact h.returnSteps top (fun _ => htop) x.value

theorem Gpr.expr_ne_esp {r : Gpr} (hr : r.size = .dword) (hne : r ≠ .esp) :
    r.expr ≠ Gpr.esp.expr := by
  intro heq
  rw [Gpr.expr, Gpr.register_of_dword hr] at heq
  exact Gpr.name_ne_esp hr hne (congrArg Register.base (Expr.reg.inj heq))

theorem Gpr.assigns_dword {r : Gpr} (hr : r.size = .dword) {order : ByteOrder} {M : Memory → Prop}
    {m : Memory} (x : BitVec Size.dword.bits) :
    (Operand.register r).Assigns order M x m (m.setPhysical r.name (.ofBits x)) r.expr :=
  ⟨rfl, Gpr.term_dword hr, rfl, trivial, fun hm hvalue => hvalue.exec_register hr hm⟩

theorem Emission.Ran.popRegister {r : Gpr} (hr : r.size = .dword) (hne : r ≠ .esp)
    {x : BitVec Size.dword.bits} (h : e.Ran start 0 start.memory)
    (hops : i.operands = [.register r])
    (htop : start.memory.readRegister Gpr.esp.register = .ok (.ofBits top))
    (hx : start.memory.read (UInt64.ofNat top.toNat) Size.dword.bits start.order =
      .ok (.ofBits x)) :
    Emits (Lowering.popOperand i next) e fun _ =>
      Emission.Ended start 2
        ((start.memory.setPhysical r.name (.ofBits x)).setPhysical "esp"
          (.ofBits (top + BitVec.ofNat 32 Size.dword.bytes)))
        (Microcode.leadsTo next) := by
  -- the stack pointer is still the old one when it is raised
  have hkept : (start.memory.setPhysical r.name (.ofBits x)).readRegister Gpr.esp.register =
      .ok (.ofBits top) :=
    (Memory.readRegister_setPhysical_of_ne (Gpr.name_ne_esp hr hne)).trans htop
  exact h.popOperand top (fun _ => htop) hops (Gpr.expr_ne_esp hr hne) (Gpr.assigns_dword hr x)
    (fun _ => hx) fun _ => hkept

end Emission

section Simulation

variable {widths : String → Nat} {sim : Simulator} {d : Discovery} {s : State} {i j : Instruction}
  {top x : BitVec 32}

theorem ofNat_following (address : UInt64) (length : Nat) :
    UInt64.ofNat (BitVec.ofNat 32 (following address length).toNat).toNat =
      following address length := by
  rw [toNat_following, BitVec.toNat_ofNat, Nat.mod_mod, ← toNat_following, UInt64.ofNat_toNat]

theorem Faces.exists_pushes {o : Operand} (h : Faces widths sim d s i)
    (htop : s.machine.readRegister Gpr.esp.register = .ok (.ofBits top))
    (hpush : i.mnemonic = .push) (hops : i.operands = [o])
    (hx : o.read s.machine s.memory.order = .ok (.ofBits x)) :
    ∃ d' s', sim.Executes d s d' s' ∧
      s.Reaches widths (.boundary (following i.address i.bytes.length)) s'.machine s' ∧
      Pushed s.memory.order top .dword x s.machine s'.machine ∧
      ∀ l, l.instruction ≠ i.address → d'.program.node? l = d.program.node? l := by
  obtain ⟨-, hmet⟩ := Instruction.met_of_decode h.parsed
  rw [hpush] at hmet
  obtain ⟨o', size, hsingle, ho⟩ := hmet
  obtain rfl : o = o' := by simpa [hops] using hsingle
  obtain rfl : size = .dword := Operand.size_of_read ho hx
  obtain ⟨stored, hwrite, hregister, hpushed⟩ :=
    exists_pushed s.machine s.memory.order top .dword x
  obtain ⟨d', s', hexecutes, hreaches, hother⟩ :=
    h.exists_executes (lowered stored top Size.dword.bytes) _ rfl fun mc e he => by
      have hvalue := (Start.ofState s i.address mc).builds_value ho hx
      rw [Lowering.lower, hpush]
      exact he.pushOperand top (fun _ => htop) hops hvalue hwrite hregister
  exact ⟨d', s', hexecutes, hreaches.self, hreaches.machine ▸ hpushed, hother⟩

theorem Faces.exists_calls {t : UInt64} (h : Faces widths sim d s i)
    (htop : s.machine.readRegister Gpr.esp.register = .ok (.ofBits top))
    (hcall : i.mnemonic = .call) (hops : i.operands = [.target t]) :
    ∃ d' s', sim.Executes d s d' s' ∧ s.Reaches widths (.boundary t) s'.machine s' ∧
      Pushed s.memory.order top .dword
        (BitVec.ofNat 32 (following i.address i.bytes.length).toNat) s.machine s'.machine := by
  obtain ⟨stored, hwrite, hregister, hpushed⟩ := exists_pushed s.machine s.memory.order top .dword
    (BitVec.ofNat 32 (following i.address i.bytes.length).toNat)
  obtain ⟨d', s', hexecutes, hreaches, -⟩ :=
    h.exists_executes (lowered stored top 4) (.boundary t) rfl fun mc e he => by
      rw [Lowering.lower, hcall]
      exact he.call top (fun _ => htop) hops (.direct t) hwrite hregister
  exact ⟨d', s', hexecutes, hreaches.self, hreaches.machine ▸ hpushed⟩

theorem Faces.exists_returns {bytes : Nat} (h : Faces widths sim d s i)
    (htop : s.machine.readRegister Gpr.esp.register = .ok (.ofBits top))
    (hreturn : i.mnemonic = .ret) (hdrops : i.Drops bytes)
    (hx : s.machine.read (UInt64.ofNat top.toNat) 32 s.memory.order = .ok (.ofBits x)) :
    ∃ d' s', sim.Executes d s d' s' ∧ s.Reaches widths (.boundary (.ofNat x.toNat))
      (s.machine.setPhysical "esp" (.ofBits (top + BitVec.ofNat 32 (4 + bytes)))) s' := by
  have htarget := denotes_slotBefore s.memory.order top (BitVec.ofNat 32 (4 + bytes)) x
  have hcell := htarget.eval
    (m := s.machine.setPhysical "esp" (.ofBits (top + BitVec.ofNat 32 (4 + bytes))))
    ⟨Gpr.readRegister_setPhysical rfl s.machine _, hx ▸ Memory.read_congr fun _ _ =>
      Memory.byte?_setPhysical _ _ _ _⟩
  exact h.exists_executes_jump htarget.term.wellFormed htarget.branchless hcell fun mc e he => by
    rw [Lowering.lower, hreturn]
    exact he.returnToCaller hdrops htop

theorem Faces.exists_pops {r : Gpr} (h : Faces widths sim d s i)
    (htop : s.machine.readRegister Gpr.esp.register = .ok (.ofBits top))
    (hpop : i.mnemonic = .pop) (hops : i.operands = [.register r]) (hr : r.size = .dword)
    (hne : r ≠ .esp)
    (hx : s.machine.read (UInt64.ofNat top.toNat) 32 s.memory.order = .ok (.ofBits x)) :
    ∃ d' s', sim.Executes d s d' s' ∧
      s.Reaches widths (.boundary (following i.address i.bytes.length))
        ((s.machine.setPhysical r.name (.ofBits x)).setPhysical "esp" (.ofBits (top + 4#32)))
        s' := by
  let popped := (s.machine.setPhysical r.name (.ofBits x)).setPhysical "esp"
    (.ofBits (top + 4#32))
  obtain ⟨d', s', hexecutes, hreaches, -⟩ := h.exists_executes popped (.boundary _) rfl
      fun mc e he => by
    rw [Lowering.lower, hpop]
    exact he.popRegister hr hne hops htop hx
  exact ⟨d', s', hexecutes, hreaches⟩

theorem Faces.exists_pops_stackPointer (h : Faces widths sim d s i)
    (htop : s.machine.readRegister Gpr.esp.register = .ok (.ofBits top))
    (hpop : i.mnemonic = .pop) (hops : i.operands = [.register .esp])
    (hx : s.machine.read (UInt64.ofNat top.toNat) 32 s.memory.order = .ok (.ofBits x)) :
    ∃ d' s', sim.Executes d s d' s' ∧
      s.Reaches widths (.boundary (following i.address i.bytes.length))
        (s.machine.setPhysical "esp" (.ofBits x)) s' := by
  let popped := s.machine.setPhysical "esp" (.ofBits x)
  obtain ⟨d', s', hexecutes, hreaches, -⟩ := h.exists_executes popped (.boundary _) rfl
      fun mc e he => by
    rw [Lowering.lower, hpop]
    exact he.popStackPointer top (fun _ => htop) hops rfl fun _ => hx
  exact ⟨d', s', hexecutes, hreaches⟩

theorem Faces.exists_push_pop {o : Operand} {r : Gpr} (h : Faces widths sim d s i)
    (htop : s.machine.readRegister Gpr.esp.register = .ok (.ofBits top))
    (hpush : i.mnemonic = .push) (hops : i.operands = [o])
    (hx : o.read s.machine s.memory.order = .ok (.ofBits x))
    (hparsed : Instruction.decode (sim.image.fetch j.address maxLength) j.address = .ok j)
    (hprepared : sim.Prepared j.address d)
    (hnext : j.address = following i.address i.bytes.length) (hpop : j.mnemonic = .pop)
    (hops' : j.operands = [.register r]) (hr : r.size = .dword) (hne : r ≠ .esp) :
    ∃ d₁ s₁ d₂ s₂, sim.Executes d s d₁ s₁ ∧ s₁.pc = .boundary j.address ∧
      sim.Executes d₁ s₁ d₂ s₂ ∧
      s.Reaches widths (.boundary (following j.address j.bytes.length)) s₂.machine s₂ ∧
      s₂.machine.readRegister r.register = .ok (.ofBits x) ∧
      s₂.machine.readRegister Gpr.esp.register = .ok (.ofBits top) ∧
      (∀ name, name ≠ r.name → s₂.machine.physical? name = s.machine.physical? name) ∧
      ∀ a, (∀ k < 4, slotBelow top 4 + UInt64.ofNat k ≠ a) →
        s₂.machine.byte? a = s.machine.byte? a := by
  obtain ⟨d₁, s₁, hexecutes, hreaches, hpushed, hother⟩ := h.exists_pushes htop hpush hops hx
  have hdistinct : i ≠ j := by
    rintro rfl
    rw [hpush] at hpop
    cases hpop
  rw [← hnext] at hreaches
  have hfaces := h.after hparsed hdistinct hprepared hreaches.concrete hreaches.pc hother
  have hslot := hpushed.slot
  rw [← hreaches.order] at hslot
  obtain ⟨d₂, s₂, hexecutes', hreaches'⟩ := hfaces.exists_pops hpushed.esp hpop hops' hr hne hslot
  have hmachine : s₂.machine =
      (s₁.machine.setPhysical r.name (.ofBits x)).setPhysical "esp" (.ofBits top) := by
    rw [hreaches'.machine]
    exact congrArg (fun top => Memory.setPhysical _ "esp" (.ofBits top))
      (BitVec.sub_add_cancel top 4#32)
  have hphysical (name : String) : s₂.machine.physical? name =
      if "esp" = name then some (.ofBits top) else if r.name = name then some (.ofBits x)
        else s₁.machine.physical? name := by
    rw [hmachine, Memory.physical?_setPhysical, Memory.physical?_setPhysical]
  have hname := Gpr.name_ne_esp hr hne
  refine ⟨d₁, s₁, d₂, s₂, hexecutes, hreaches.pc, hexecutes', hreaches.trans hreaches'.self, ?_,
    ?_, ?_, fun a ha => ?_⟩
  · rw [Gpr.register_of_dword hr]
    refine Memory.readRegister_physical (by decide) ?_
    rw [hphysical, if_neg hname.symm, if_pos rfl]
  · exact Memory.readRegister_physical (by decide) ((hphysical "esp").trans (if_pos rfl))
  · intro name hkept
    rw [hphysical, if_neg hkept.symm]
    split
    case isTrue hesp =>
      subst hesp
      exact (Gpr.physical?_of_readRegister rfl h.concrete.stores
        (h.fits _ Gpr.esp.mem_registers) htop).symm
    case isFalse hesp => exact hpushed.register fun heq => hesp heq.symm
  · rw [hmachine]
    exact hpushed.byte ha

/-- Instructions that use the stack undo each other, for any 32-bit stack pointer. A direct call
pushes the address of the next instruction, and a return gets there from any state with the stack
pointer and the slot of the call; it restores the stack pointer and drops its further bytes. A pop
into another register than the stack pointer after a push moves the pushed value there, and all
else stays but the slot. A pop into the stack pointer sets it to the popped value, and a push of
it stores its old value. -/
theorem stack_instructions_undo (h : Faces widths sim d s i)
    (htop : s.machine.readRegister Gpr.esp.register = .ok (.ofBits top)) :
    let next := following i.address i.bytes.length
    let slot := slotBelow top 4
    (∀ t, i.mnemonic = .call → i.operands = [.target t] → ∃ d' s', sim.Executes d s d' s' ∧
      s.Reaches widths (.boundary t) s'.machine s' ∧
      Pushed s.memory.order top .dword (BitVec.ofNat 32 next.toNat) s.machine s'.machine ∧
      ∀ widths₁ sim₁ d₁ s₁ j bytes, Faces widths₁ sim₁ d₁ s₁ j → j.mnemonic = .ret →
        j.Drops bytes →
        s₁.memory.order = s.memory.order →
        s₁.machine.readRegister Gpr.esp.register = .ok (.ofBits (top - 4#32)) →
        (∀ k < 4, s₁.machine.byte? (slot + UInt64.ofNat k) =
          s'.machine.byte? (slot + UInt64.ofNat k)) →
        ∃ d₂ s₂, sim₁.Executes d₁ s₁ d₂ s₂ ∧ s₁.Reaches widths₁ (.boundary next) s₂.machine s₂ ∧
          s₂.machine.readRegister Gpr.esp.register =
            .ok (.ofBits (top + BitVec.ofNat 32 bytes))) ∧
    (∀ o (x : BitVec 32) r j, i.mnemonic = .push → i.operands = [o] →
      o.read s.machine s.memory.order = .ok (.ofBits x) →
      Instruction.decode (sim.image.fetch j.address maxLength) j.address = .ok j →
      sim.Prepared j.address d →
      j.address = next → j.mnemonic = .pop → j.operands = [.register r] →
      r.size = .dword → r ≠ .esp →
      ∃ d₁ s₁ d₂ s₂, sim.Executes d s d₁ s₁ ∧ s₁.pc = .boundary j.address ∧
        sim.Executes d₁ s₁ d₂ s₂ ∧
        s.Reaches widths (.boundary (following j.address j.bytes.length)) s₂.machine s₂ ∧
        s₂.machine.readRegister r.register = .ok (.ofBits x) ∧
        s₂.machine.readRegister Gpr.esp.register = .ok (.ofBits top) ∧
        (∀ name, name ≠ r.name → s₂.machine.physical? name = s.machine.physical? name) ∧
        ∀ a, (∀ k < 4, slot + UInt64.ofNat k ≠ a) → s₂.machine.byte? a = s.machine.byte? a) ∧
    (∀ x : BitVec 32, i.mnemonic = .pop → i.operands = [.register .esp] →
      s.machine.read (UInt64.ofNat top.toNat) 32 s.memory.order = .ok (.ofBits x) →
      ∃ d' s', sim.Executes d s d' s' ∧ s.Reaches widths (.boundary next) s'.machine s' ∧
        s'.machine.readRegister Gpr.esp.register = .ok (.ofBits x)) ∧
    (i.mnemonic = .push → i.operands = [.register .esp] → ∃ d' s', sim.Executes d s d' s' ∧
      s.Reaches widths (.boundary next) s'.machine s' ∧
      Pushed s.memory.order top .dword top s.machine s'.machine) := by
  intro next slot
  refine ⟨fun t hcall hops => ?_,
    fun o x r j hpush hops hx hparsed hprepared hnext hpop hops' hr hne => ?_,
    fun x hpop hops hx => ?_, fun hpush hops => ?_⟩
  · obtain ⟨d', s', hexecutes, hreaches, hpushed⟩ := h.exists_calls htop hcall hops
    refine ⟨d', s', hexecutes, hreaches, hpushed, ?_⟩
    intro widths₁ sim₁ d₁ s₁ j bytes hj hreturn hdrops horder hesp hslot
    have hback : s₁.machine.read slot 32 s₁.memory.order =
        .ok (.ofBits (BitVec.ofNat 32 next.toNat)) := by
      rw [horder]
      exact (Memory.read_congr hslot).trans hpushed.slot
    obtain ⟨d₂, s₂, hexecutes', hreaches'⟩ := hj.exists_returns hesp hreturn hdrops hback
    have hraised : top - 4#32 + BitVec.ofNat 32 (4 + bytes) = top + BitVec.ofNat 32 bytes := by
      rw [BitVec.ofNat_add, ← BitVec.add_assoc, BitVec.sub_add_cancel]
    rw [ofNat_following, hraised] at hreaches'
    refine ⟨d₂, s₂, hexecutes', hreaches'.self, ?_⟩
    rw [hreaches'.machine]
    exact Gpr.readRegister_setPhysical rfl s₁.machine _
  · exact h.exists_push_pop htop hpush hops hx hparsed hprepared hnext hpop hops' hr hne
  · obtain ⟨d', s', hexecutes, hreaches⟩ := h.exists_pops_stackPointer htop hpop hops hx
    refine ⟨d', s', hexecutes, hreaches.self, ?_⟩
    rw [hreaches.machine]
    exact Gpr.readRegister_setPhysical rfl s.machine x
  · obtain ⟨d', s', hexecutes, hreaches, hpushed, -⟩ := h.exists_pushes htop hpush hops htop
    exact ⟨d', s', hexecutes, hreaches, hpushed⟩

/-- With the stack pointer at two, the slot lies across the end of the 32-bit addresses. A call to
a return that drops eight bytes, a push of the stack pointer with a pop into another register, and
a pop into the stack pointer. -/
theorem stack_instructions_undo_of_wrapping :
    let image : Memory := ⟨{
      registers := Std.ExtTreeMap.insert ∅ "esp" ⟨32, 2⟩
      bytes := .ofList ([(2, 0x30), (3, 0), (4, 0), (5, 0), (0x1000, 0xe8), (0x1001, 0xfb),
        (0x1002, 0x0f), (0x1003, 0), (0x1004, 0), (0x1010, 0x54), (0x1011, 0x58),
        (0x1020, 0x5c)] : List (UInt64 × UInt8)) }, []⟩
    let called : Memory := ⟨{
      registers := Std.ExtTreeMap.insert ∅ "esp" ⟨32, 0xfffffffe⟩
      bytes := .ofList ([(0x2000, 0xc2), (0x2001, 8), (0x2002, 0), (0xfffffffe, 0x05),
        (0xffffffff, 0x10), (0x100000000, 0), (0x100000001, 0)] : List (UInt64 × UInt8)) }, []⟩
    let sim (image : Memory) : Simulator := ⟨decoder fun _ => none, .enumerating, image, {}⟩
    let s (image : Memory) (address : UInt64) : State :=
      ⟨.boundary address, .ofImage image .little, .bool true⟩
    let eax : Gpr := ⟨.dword, 0⟩
    let call : Instruction := ⟨0x1000, [0xe8, 0xfb, 0x0f, 0, 0], none, .call, [.target 0x2000]⟩
    let ret : Instruction := ⟨0x2000, [0xc2, 8, 0], none, .ret, [.immediate ⟨16, 8⟩]⟩
    let push : Instruction := ⟨0x1010, [0x54], none, .push, [.register .esp]⟩
    let pop : Instruction := ⟨0x1020, [0x5c], none, .pop, [.register .esp]⟩
    (Faces (X86.widths image) (sim image) {} (s image 0x1000) call ∧
      Faces (X86.widths called) (sim called) {} (s called 0x2000) ret ∧
      ∃ d' s', (sim image).Executes {} (s image 0x1000) d' s' ∧ s'.pc = .boundary 0x2000 ∧
        s'.machine.readRegister Gpr.esp.register = .ok ⟨32, 0xfffffffe⟩ ∧
        ∃ d₂ s₂, (sim called).Executes {} (s called 0x2000) d₂ s₂ ∧ s₂.pc = .boundary 0x1005 ∧
          s₂.machine.readRegister Gpr.esp.register = .ok ⟨32, 10⟩) ∧
    (Faces (X86.widths image) (sim image) {} (s image 0x1010) push ∧
      (∃ d₁ s₁ d₂ s₂, (sim image).Executes {} (s image 0x1010) d₁ s₁ ∧
        (sim image).Executes d₁ s₁ d₂ s₂ ∧
        s₂.pc = .boundary 0x1012 ∧ s₂.machine.readRegister eax.register = .ok ⟨32, 2⟩ ∧
        s₂.machine.readRegister Gpr.esp.register = .ok ⟨32, 2⟩) ∧
      ∃ d' s', (sim image).Executes {} (s image 0x1010) d' s' ∧
        s'.machine.read 0xfffffffe 32 .little = .ok ⟨32, 2⟩) ∧
    Faces (X86.widths image) (sim image) {} (s image 0x1020) pop ∧
      ∃ d' s', (sim image).Executes {} (s image 0x1020) d' s' ∧ s'.pc = .boundary 0x1021 ∧
        s'.machine.readRegister Gpr.esp.register = .ok ⟨32, 0x30⟩ := by
  intro image called sim s eax call ret push pop
  have himage : image.StoresPhysical registers :=
    (Memory.storesPhysical_ofBytes _ _).setPhysical (by decide) (by decide +kernel)
  have hcalled : called.StoresPhysical registers :=
    (Memory.storesPhysical_ofBytes _ _).setPhysical (by decide) (by decide +kernel)
  have hcall : Faces (X86.widths image) (sim image) {} (s image 0x1000) call :=
    faces_ofImage (i := call) himage (by decide +kernel) _ _ _
  have hret : Faces (X86.widths called) (sim called) {} (s called 0x2000) ret :=
    faces_ofImage (i := ret) hcalled (by decide +kernel) _ _ _
  have hpush : Faces (X86.widths image) (sim image) {} (s image 0x1010) push :=
    faces_ofImage (i := push) himage (by decide +kernel) _ _ _
  have hpop : Faces (X86.widths image) (sim image) {} (s image 0x1020) pop :=
    faces_ofImage (i := pop) himage (by decide +kernel) _ _ _
  have htop (address : UInt64) : (s image address).machine.readRegister Gpr.esp.register =
      .ok (.ofBits 2#32) := by
    show image.readRegister Gpr.esp.register = .ok (.ofBits 2#32)
    decide +kernel
  refine ⟨⟨hcall, hret, ?_⟩, ⟨hpush, ?_, ?_⟩, hpop, ?_⟩
  · obtain ⟨d', s', hexecutes, hreaches, hpushed, hreturns⟩ :=
      (stack_instructions_undo hcall (htop _)).1 0x2000 rfl rfl
    refine ⟨d', s', hexecutes, hreaches.pc, hpushed.esp, ?_⟩
    have hback : BitVec.ofNat 32 (following call.address call.bytes.length).toNat =
        0x1005#32 := by decide +kernel
    have hslot := hpushed.slot
    rw [hback] at hslot
    have hslot' : (s called 0x2000).machine.read (slotBelow 2#32 4) 32 .little =
        .ok (.ofBits 0x1005#32) := by
      decide +kernel
    have hesp : (s called 0x2000).machine.readRegister Gpr.esp.register =
        .ok (.ofBits (2#32 - 4#32)) := by
      decide +kernel
    obtain ⟨d₂, s₂, hexecutes', hreaches', hesp'⟩ :=
      hreturns _ _ _ _ ret 8 hret rfl (.inr ⟨_, rfl, rfl⟩) rfl hesp fun k hk => by
        rw [(Memory.read_eq_ok_iff (by decide) rfl).mp hslot' k hk]
        exact ((Memory.read_eq_ok_iff (by decide) rfl).mp hslot k hk).symm
    exact ⟨d₂, s₂, hexecutes', hreaches'.pc, hesp'⟩
  · obtain ⟨d₁, s₁, d₂, s₂, hexecutes, -, hexecutes', hreaches, heax, hesp, -⟩ :=
      (stack_instructions_undo hpush (htop _)).2.1 (.register .esp) 2#32 eax
        ⟨0x1011, [0x58], none, .pop, [.register eax]⟩ rfl rfl (htop 0x1010) (by decide +kernel)
        (.inl fun k => by simp [Microcode.node?]) (by decide +kernel) rfl rfl rfl (by decide)
    exact ⟨d₁, s₁, d₂, s₂, hexecutes, hexecutes', hreaches.pc, heax, hesp⟩
  · obtain ⟨d', s', hexecutes, -, hpushed⟩ :=
      (stack_instructions_undo hpush (htop _)).2.2.2 rfl rfl
    exact ⟨d', s', hexecutes, hpushed.slot⟩
  · obtain ⟨d', s', hexecutes, hreaches, hesp⟩ :=
      (stack_instructions_undo hpop (htop _)).2.2.1 0x30#32 rfl rfl (by decide +kernel)
    exact ⟨d', s', hexecutes, hreaches.pc, hesp⟩

end Simulation

end FlowRecovery.X86
