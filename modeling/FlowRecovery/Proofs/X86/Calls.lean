import Mathlib
import FlowRecovery.Proofs.X86.Arithmetic

namespace FlowRecovery

section Replacing

variable {m m' : Memory} {order : ByteOrder} {pattern value : Expr}

/-- Replacing a pattern by an expression that has its value on another memory carries the value of
the whole over to that memory, if the other registers and all bytes are the same there. -/
theorem Memory.eval_of_replace (hbranchless : value.Branchless)
    (hsame : m'.eval order default value = m.eval order default pattern)
    (hbyte : ∀ a, m'.byte? a = m.byte? a) {e e' : Expr} (he : e.Branchless)
    (hregister : ∀ r, .reg r ∈ e.subterms → .reg r ≠ pattern →
      m'.readRegister r = m.readRegister r)
    (h : e.replace pattern value = .ok e') :
    e'.Branchless ∧ m'.eval order default e' = m.eval order default e := by
  fun_induction Expr.replace e pattern value generalizing e' with
  | case1 =>
      cases h
      exact ⟨hbranchless, hsame⟩
  | case2 | case3 =>
      cases h
      exact ⟨trivial, rfl⟩
  | case4 r hne =>
      cases h
      exact ⟨trivial, hregister r (Expr.self_mem_subterms _) hne⟩
  | case5 address offset width _ ih =>
      obtain ⟨x, hx, h⟩ := exists_of_bind_eq_ok h
      obtain ⟨_, -, h⟩ := exists_of_bind_eq_ok h
      cases h
      obtain ⟨hbranchless', heval⟩ :=
        ih he (fun r hr => hregister r (List.mem_cons_of_mem _ hr)) hx
      have hread (a : UInt64) : m'.read a width order = m.read a width order :=
        Memory.read_congr fun _ _ => hbyte _
      refine ⟨hbranchless', ?_⟩
      simp only [Memory.eval, heval, hread]
  | case6 op a _ ih =>
      obtain ⟨x, hx, h⟩ := exists_of_bind_eq_ok h
      obtain ⟨-, rfl⟩ := Expr.admits_of_mkUnary h
      obtain ⟨hbranchless', heval⟩ :=
        ih he (fun r hr => hregister r (List.mem_cons_of_mem _ hr)) hx
      refine ⟨hbranchless', ?_⟩
      rw [Memory.eval, Memory.eval, heval]
  | case7 op a b _ iha ihb =>
      obtain ⟨x, hx, h⟩ := exists_of_bind_eq_ok h
      obtain ⟨y, hy, h⟩ := exists_of_bind_eq_ok h
      obtain ⟨-, rfl⟩ := Expr.admits_of_mkBinary h
      obtain ⟨ha, hevala⟩ :=
        iha he.1 (fun r hr => hregister r (List.mem_cons_of_mem _ (List.mem_append_left _ hr))) hx
      obtain ⟨hb, hevalb⟩ :=
        ihb he.2
          (fun r hr => hregister r (List.mem_cons_of_mem _ (List.mem_append_right _ hr))) hy
      refine ⟨⟨ha, hb⟩, ?_⟩
      rw [Memory.eval, Memory.eval, hevala, hevalb]
  | case8 => cases he

end Replacing

namespace X86

section Registers

/-- All registers of an expression are the stack pointer or have nothing in common with it. -/
def SparesStack (e : Expr) : Prop :=
  ∀ r, .reg r ∈ e.subterms → r ≠ Gpr.esp.register → r.base ≠ Gpr.esp.register.base

theorem Gpr.sparesStack {r : Gpr} (h : r.size = .dword) : SparesStack r.expr := by
  have hall : ∀ number : Fin 8, (⟨.dword, number⟩ : Gpr).register ≠ Gpr.esp.register →
      (⟨.dword, number⟩ : Gpr).register.base ≠ Gpr.esp.register.base := by
    decide
  obtain ⟨size, number⟩ := r
  obtain rfl : size = .dword := h
  rintro _ hr
  cases List.mem_singleton.mp hr
  exact hall number

theorem inherited_sparesStack : Inherited SparesStack := by
  refine ⟨fun x r hr => ?_, fun hr => Gpr.sparesStack hr, fun ha hb r hr => ?_⟩
  · cases List.mem_singleton.mp hr
  · rcases List.mem_append.mp (List.mem_of_ne_of_mem (by simp) hr) with hr | hr
    · exact ha r hr
    · exact hb r hr

theorem Operand.sparesStack {o : Operand} (ho : o.Has .dword) {e : Expr} (h : o.value = .ok e) :
    SparesStack e := by
  cases o with
  | register r =>
      cases h
      exact r.sparesStack ho
  | memory stored base index displacement =>
      obtain ⟨-, hbase, hindex⟩ := ho
      obtain ⟨address, haddress, h⟩ := exists_of_bind_eq_ok h
      obtain ⟨_, -, h⟩ := exists_of_bind_eq_ok h
      cases h
      obtain ⟨e, he, hspares⟩ :=
        exists_address_of_inherited inherited_sparesStack displacement hbase hindex
      cases he.symm.trans haddress
      exact fun r hr => hspares r (List.mem_of_ne_of_mem (by simp) hr)
  | immediate value =>
      cases h
      exact inherited_sparesStack.const value
  | target address =>
      obtain ⟨x, -, h⟩ := exists_of_bind_eq_ok h
      cases h
      exact inherited_sparesStack.const x

end Registers

section Operands

variable {o : Operand} {m m' : Memory} {order : ByteOrder} {x : Word}

theorem Operand.read_congr (hregister : ∀ name, m'.physical? name = m.physical? name)
    (hbyte : ∀ {a}, o.HoldsByte m a → m'.byte? a = m.byte? a) :
    o.read m' order = o.read m order := by
  cases o with
  | register r => exact Memory.readRegister_congr (hregister _)
  | memory size base index displacement =>
      rw [Operand.read, Operand.read, addressOf_congr fun r => hregister _]
      cases haddress : addressOf m base index displacement with
      | error failure => rfl
      | ok address =>
          refine Memory.read_congr fun k hk => hbyte ⟨address, haddress, k, ?_, rfl⟩
          rwa [size.bits_div] at hk
  | immediate _ | target _ => rfl

theorem Operand.exists_read (hregister : ∀ name, m'.physical? name = m.physical? name)
    (hdefined : ∀ {a}, (m.byte? a).isSome → (m'.byte? a).isSome) (h : o.read m order = .ok x) :
    ∃ y, o.read m' order = .ok y := by
  cases o with
  | register r => exact ⟨x, (Memory.readRegister_congr (hregister _)).trans h⟩
  | memory size base index displacement =>
      obtain ⟨address, haddress, h⟩ := exists_of_bind_eq_ok h
      rw [Operand.read, addressOf_congr fun r => hregister _, haddress]
      exact Memory.exists_read hdefined h
  | immediate _ | target _ => exact ⟨x, h⟩

end Operands

section Stack

variable {m stored : Memory} {order : ByteOrder} {size : Size} {top : BitVec 32}

/-- A value was pushed, and nothing else changed. -/
structure Pushed (order : ByteOrder) (top : BitVec 32) (size : Size) (x : BitVec size.bits)
    (m m' : Memory) : Prop where
  esp : m'.readRegister Gpr.esp.register = .ok (.ofBits (top - BitVec.ofNat 32 size.bytes))
  slot : m'.read (slotBelow top size.bytes) size.bits order = .ok (.ofBits x)
  register {name : String} : name ≠ "esp" → m'.physical? name = m.physical? name
  byte {a : UInt64} : (∀ k < size.bytes, slotBelow top size.bytes + UInt64.ofNat k ≠ a) →
    m'.byte? a = m.byte? a

theorem readRegister_lowered (bytes : Nat) :
    (lowered m top bytes).readRegister Gpr.esp.register =
      .ok (.ofBits (top - BitVec.ofNat 32 bytes)) := by
  have hstored : (lowered m top bytes).physical? "esp" =
      some (.ofBits (top - BitVec.ofNat 32 bytes)) := by
    rw [lowered, Memory.physical?_setPhysical, if_pos rfl]
  exact Memory.readRegister_physical (by decide) hstored

theorem exists_pushed (m : Memory) (order : ByteOrder) (top : BitVec 32) (size : Size)
    (x : BitVec size.bits) :
    ∃ stored, m.write (slotBelow top size.bytes) (.ofBits x) order = .ok stored ∧
      (∀ name, stored.physical? name = m.physical? name) ∧
      Pushed order top size x m (lowered stored top size.bytes) := by
  obtain ⟨stored, hwrite, hread, hregister, hbyte⟩ :=
    Memory.exists_write m (slotBelow top size.bytes) order size.valid.1 size.valid.2 x
  refine ⟨stored, hwrite, hregister, readRegister_lowered _, ?_, fun {name} hname => ?_,
    fun {a} ha => ?_⟩
  · rw [← hread]
    exact Memory.read_congr fun _ _ => Memory.byte?_setPhysical _ _ _ _
  · rw [lowered, Memory.physical?_setPhysical, if_neg hname.symm, hregister]
  · refine hbyte a fun k hk => ha k ?_
    rwa [size.bits_div] at hk

end Stack

section Simulation

variable {widths : String → Nat} {sim : Simulator} {d : Discovery} {s : State}
  {i : Instruction} {o : Operand}

/-- The target is computed with the stack pointer raised again, which gives it the value it has
before the stack pointer is lowered. -/
theorem Operand.exists_target {stored : Memory} {order : ByteOrder} {top t : BitVec 32}
    (ho : o.Has .dword) (htop : stored.readRegister Gpr.esp.register = .ok (.ofBits top))
    (ht : o.read stored order = .ok (.ofBits t)) :
    ∃ value target, o.value = .ok value ∧ value.replace Gpr.esp.expr raised = .ok target ∧
      Term 32 target ∧
      target.Branchless ∧ (lowered stored top 4).eval order default target = .ok (.ofBits t) := by
  obtain ⟨value, hvalue, hdenotes⟩ : Builds order (SameData stored) t o.value :=
    Operand.builds_value (uniform_sameData stored) ho fun hm =>
      (Operand.read_congr_of_sameData hm).trans ht
  have hraised := denotes_raised order top
  obtain ⟨target, htarget, hterm⟩ := Gpr.esp.term.replace hraised.term hdenotes.term.wellFormed
  rw [hdenotes.term.width] at hterm
  have hsame : (lowered stored top 4).eval order default raised = stored.eval order default
      Gpr.esp.expr :=
    (hraised.eval (readRegister_lowered 4)).trans htop.symm
  have hother (r : Register) (hr : .reg r ∈ value.subterms) (hne : .reg r ≠ Gpr.esp.expr) :
      (lowered stored top 4).readRegister r = stored.readRegister r := by
    refine Memory.readRegister_setPhysical_of_ne ?_
    exact (Operand.sparesStack ho hvalue r hr fun heq => hne (congrArg Expr.reg heq)).symm
  obtain ⟨hbranchless, heval⟩ :=
    Memory.eval_of_replace hraised.branchless hsame
      (stored.byte?_setPhysical _ _) hdenotes.branchless hother htarget
  exact ⟨value, target, hvalue, htarget, hterm, hbranchless,
    heval.trans (hdenotes.eval (.refl stored))⟩

/-- An indirect call gets to the value that its operand has when the return address is already
stored below the top of the stack. Unless the return address went to a byte of the operand, that
is the value it had before. The return address is on the stack then, and nothing but the stack
pointer and the place of the return address changed. -/
theorem call_executes {top t : BitVec 32} (h : Faces widths sim d s i)
    (hcall : i.mnemonic = .call) (hops : i.operands = [o]) (hplace : o.isPlace = true)
    (htop : s.machine.readRegister Gpr.esp.register = .ok (.ofBits top))
    (ht : o.read s.machine s.memory.order = .ok (.ofBits t)) :
    let slot := slotBelow top 4
    let back := BitVec.ofNat 32 (following i.address i.bytes.length).toNat
    ∃ (stored : Memory) (target : BitVec 32) (d' : Discovery) (s' : State),
      s.machine.write slot (.ofBits back) s.memory.order = .ok stored ∧
      o.read stored s.memory.order = .ok (.ofBits target) ∧
      ((∀ k < 4, ¬ o.HoldsByte s.machine (slot + UInt64.ofNat k)) → target = t) ∧
      sim.Executes d s d' s' ∧ s.Reaches widths (.boundary (.ofNat target.toNat)) s'.machine s' ∧
      Pushed s.memory.order top .dword back s.machine s'.machine := by
  intro slot back
  obtain ⟨-, hmet⟩ := Instruction.met_of_decode h.parsed
  rw [hcall] at hmet
  obtain ⟨o', size, hsingle, ho⟩ := hmet
  obtain rfl : o = o' := by simpa [hops] using hsingle
  obtain rfl : size = .dword := Operand.size_of_read ho ht
  have hindirect : o.target? = none := by
    cases o with
    | target address => cases hplace
    | _ => rfl
  obtain ⟨stored, hwrite, hregister, hpushed⟩ :=
    exists_pushed s.machine s.memory.order top .dword back
  obtain ⟨_, hread⟩ := Operand.exists_read hregister (Memory.isSome_byte?_write hwrite) ht
  obtain ⟨target, rfl⟩ := Operand.exists_bits_of_read ho hread
  obtain ⟨value, address, hvalue, haddress, hterm, hbranchless, heval⟩ :=
    Operand.exists_target ho ((Memory.readRegister_congr (hregister _)).trans htop) hread
  obtain ⟨d', s', hexecutes, hreaches⟩ :=
    h.exists_executes_jump hterm.wellFormed hbranchless heval fun mc e he => by
      rw [Lowering.lower, hcall]
      exact he.call top (fun _ => htop) hops (.computed hindirect hvalue haddress)
        hwrite hregister
  have hmachine := hreaches.machine
  rw [← hmachine] at hreaches
  refine ⟨stored, target, d', s', hwrite, hread, fun hapart => ?_, hexecutes, hreaches,
    hmachine ▸ hpushed⟩
  have hsame : o.read stored s.memory.order = o.read s.machine s.memory.order := by
    refine Operand.read_congr hregister fun {a} ha => hpushed.byte fun k hk heq => ?_
    exact hapart k hk (heq ▸ ha)
  rw [hread, ht, Except.ok.injEq] at hsame
  exact Word.ofBits_inj.mp hsame

/-- A call through the cell that the return address is stored in gets to the return address, not
to the value of the cell. A call through the cell next to it gets to the value of the cell. -/
theorem call_executes_of_aliasing :
    let image : Memory := ⟨{
      registers := Std.ExtTreeMap.insert ∅ "esp" ⟨32, 0x2000⟩
      bytes := .ofList ([(0x1000, 0xff), (0x1001, 0x54), (0x1002, 0x24), (0x1003, 0xfc),
        (0x1010, 0xff), (0x1011, 0x14), (0x1012, 0x24), (0x1ffc, 0x00), (0x1ffd, 0x30),
        (0x1ffe, 0x00), (0x1fff, 0x00),
        (0x2000, 0x00), (0x2001, 0x50), (0x2002, 0x00),
        (0x2003, 0x00)] : List (UInt64 × UInt8)) }, []⟩
    let sim : Simulator := ⟨decoder fun _ => none, .enumerating, image, {}⟩
    let s (address : UInt64) : State := ⟨.boundary address, .ofImage image .little, .bool true⟩
    let below : Operand := .memory .dword (some .esp) none (-4)
    let onTop : Operand := .memory .dword (some .esp) none 0
    let i : Instruction := ⟨0x1000, [0xff, 0x54, 0x24, 0xfc], none, .call, [below]⟩
    let j : Instruction := ⟨0x1010, [0xff, 0x14, 0x24], none, .call, [onTop]⟩
    (Faces (X86.widths image) sim {} (s 0x1000) i ∧ i.render = "call dword ptr [esp-0x4]" ∧
      below.read image .little = .ok ⟨32, 0x3000⟩ ∧
      ∃ d' s', sim.Executes {} (s 0x1000) d' s' ∧ s'.pc = .boundary 0x1004) ∧
    Faces (X86.widths image) sim {} (s 0x1010) j ∧ j.render = "call dword ptr [esp]" ∧
      onTop.read image .little = .ok ⟨32, 0x5000⟩ ∧
      ∃ d' s', sim.Executes {} (s 0x1010) d' s' ∧ s'.pc = .boundary 0x5000 ∧
        s'.machine.readRegister Gpr.esp.register = .ok ⟨32, 0x1ffc⟩ ∧
        s'.machine.read 0x1ffc 32 .little = .ok ⟨32, 0x1013⟩ ∧
        s'.machine.byte? 0x2001 = some 0x50 := by
  intro image sim s below onTop i j
  have himage : image.StoresPhysical registers :=
    (Memory.storesPhysical_ofBytes _ _).setPhysical (by decide) (by decide +kernel)
  have hi : Faces (X86.widths image) sim {} (s 0x1000) i :=
    faces_ofImage (i := i) himage (by decide +kernel) _ _ _
  have hj : Faces (X86.widths image) sim {} (s 0x1010) j :=
    faces_ofImage (i := j) himage (by decide +kernel) _ _ _
  have htop (address : UInt64) : (s address).machine.readRegister Gpr.esp.register =
      .ok (.ofBits 0x2000#32) := by
    show image.readRegister Gpr.esp.register = .ok (.ofBits 0x2000#32)
    decide +kernel
  have hbelow : below.read image .little = .ok (.ofBits 0x3000#32) := by decide +kernel
  have honTop : onTop.read image .little = .ok (.ofBits 0x5000#32) := by decide +kernel
  refine ⟨⟨hi, by decide +kernel, hbelow, ?_⟩, hj, by decide +kernel, honTop, ?_⟩
  · obtain ⟨stored, target, d', s', hwrite, hread, -, hexecutes, hreaches, -⟩ :=
      call_executes hi rfl rfl rfl (htop _) hbelow
    have hback : BitVec.ofNat 32 (following i.address i.bytes.length).toNat = 0x1004#32 := by
      decide +kernel
    rw [hback] at hwrite
    have hvalue : (liftM ((s 0x1000).machine.write (slotBelow 0x2000#32 4) (.ofBits 0x1004#32)
        (s 0x1000).memory.order) >>= fun m =>
          below.read m .little) = .ok (.ofBits 0x1004#32) := by
      decide +kernel
    rw [hwrite, liftM_ok, ok_bind] at hvalue
    obtain rfl := Word.ofBits_inj.mp (Except.ok.inj (hread.symm.trans hvalue))
    exact ⟨d', s', hexecutes, hreaches.pc⟩
  · obtain ⟨stored, target, d', s', -, -, hkept, hexecutes, hreaches, hpushed⟩ :=
      call_executes hj rfl rfl rfl (htop _) honTop
    have hapart : ∀ k < 4, ∀ k' < 4,
        UInt64.ofNat (0x2000#32).toNat + UInt64.ofNat k' ≠ slotBelow 0x2000#32 4 +
          UInt64.ofNat k := by
      decide
    obtain rfl := hkept (by
      rintro k hk ⟨address, haddress, k', hk', heq⟩
      have haddress' : addressOf image (some .esp) none 0 = .ok 0x2000#32 := by decide +kernel
      obtain rfl := Except.ok.inj (haddress'.symm.trans haddress)
      exact hapart k hk k' hk' heq)
    refine ⟨d', s', hexecutes, hreaches.pc, hpushed.esp, hpushed.slot, ?_⟩
    rw [hpushed.byte (by decide)]
    decide +kernel

end Simulation

end X86

end FlowRecovery
