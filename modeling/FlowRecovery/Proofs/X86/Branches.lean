import Mathlib
import FlowRecovery.Proofs.X86.Arithmetic

namespace FlowRecovery

theorem Simulator.Prepared.congr {sim : Simulator} {address : UInt64} {d d' : Discovery}
    (h : sim.Prepared address d)
    (hnodes : ∀ k, d'.program.node? ⟨address, k⟩ = d.program.node? ⟨address, k⟩) :
    sim.Prepared address d' := by
  rcases h with hfree | ⟨hpresent, mc, next, mc', hmc, hrun, harrows⟩
  · exact .inl fun k => (hnodes k).trans (hfree k)
  · refine .inr ⟨?_, mc, next, mc', hmc, hrun, fun k => ?_⟩
    · rw [Microcode.contains_eq, Location.boundary, hnodes]
      rwa [Microcode.contains_eq] at hpresent
    · rw [← harrows, Microcode.arrowsAt, hnodes, Microcode.arrowsAt]

namespace X86

section Comparisons

variable {w : Nat} (x y : BitVec w)

/-- The comparison that a test on the flags of a difference stands for. -/
def FlagTest.compares : FlagTest → Bool
  | overflow => x.ssubOverflow y
  | below => x.ult y
  | equal => x == y
  | belowOrEqual => x.ule y
  | sign => (x - y).msb
  | parity => evenParity (x - y)
  | less => x.slt y
  | lessOrEqual => x.sle y

/-- The comparison that a condition stands for, or the opposite of one. -/
def Condition.compares (c : Condition) : Bool :=
  if c.negated then !c.test.compares x y else c.test.compares x y

theorem sub_beq_zero : (x - y == 0) = (x == y) := by
  rw [Bool.eq_iff_iff, beq_iff_eq, beq_iff_eq]
  exact sub_eq_zero

theorem carry_or_zero : (x.usubOverflow y || x == y) = x.ule y := by
  rw [Bool.eq_iff_iff, Bool.or_eq_true, beq_iff_eq, ← BitVec.toNat_inj,
    BitVec.usubOverflow, BitVec.ule, decide_eq_true_iff, decide_eq_true_iff]
  omega

/-- The sign of a difference says which number is less, unless the difference overflows. -/
theorem sign_xor_overflow (hw : 0 < w) : ((x - y).msb ^^ x.ssubOverflow y) = x.slt y := by
  have hx := x.isLt
  have hy := y.isLt
  have hxs := x.toInt_eq_toNat_cond
  have hys := y.toInt_eq_toNat_cond
  have hcast : (2 : Int) ^ (w - 1) = ((2 ^ (w - 1) : Nat) : Int) := by norm_cast
  rw [BitVec.msb_eq_decide, BitVec.ssubOverflow, BitVec.slt, BitVec.toNat_sub, hcast]
  rw [two_pow_eq_of_pos hw] at hx hy hxs hys ⊢
  generalize 2 ^ (w - 1) = p at *
  have hdifference : (2 * p - y.toNat + x.toNat) % (2 * p) =
      if y.toNat ≤ x.toNat then x.toNat - y.toNat else 2 * p - y.toNat + x.toNat := by
    split
    · rw [show 2 * p - y.toNat + x.toNat = x.toNat - y.toNat + 2 * p by omega, Nat.add_mod_right,
        Nat.mod_eq_of_lt (by omega)]
    · exact Nat.mod_eq_of_lt (by omega)
  rw [hdifference]
  generalize x.toInt = a at *
  generalize y.toInt = b at *
  grind

end Comparisons

section Tests

variable {w : Nat} (x y : BitVec w)

def differenceFlags (f : Flag) : Bool :=
  ((subStatus x y).lookup f).getD false

theorem mem_subStatus {f : Flag} (hf : f ∈ Flag.tested) :
    (f, differenceFlags x y f) ∈ subStatus x y := by
  simp only [Flag.tested, List.mem_cons, List.not_mem_nil, or_false] at hf
  rcases hf with rfl | rfl | rfl | rfl | rfl
  · exact .head _
  · exact .tail _ (.head _)
  · exact .tail _ (.tail _ (.head _))
  · exact .tail _ (.tail _ (.tail _ (.head _)))
  · exact .tail _ (.tail _ (.tail _ (.tail _ (.head _))))

theorem FlagTest.holds_differenceFlags (hw : 0 < w) (test : FlagTest) :
    test.holds (differenceFlags x y) = test.compares x y := by
  cases test with
  | overflow | below | sign | parity => rfl
  | equal => exact sub_beq_zero x y
  | belowOrEqual =>
      show (x.usubOverflow y || x - y == 0) = x.ule y
      rw [sub_beq_zero, carry_or_zero]
  | less => exact sign_xor_overflow x y hw
  | lessOrEqual =>
      show (x - y == 0 || ((x - y).msb ^^ x.ssubOverflow y)) = x.sle y
      rw [sub_beq_zero, sign_xor_overflow x y hw, Bool.or_comm, ← BitVec.sle_eq_slt_or_eq]

theorem Condition.holds_differenceFlags (hw : 0 < w) (c : Condition) :
    c.holds (differenceFlags x y) = c.compares x y := by
  rw [Condition.holds, Condition.compares, FlagTest.holds_differenceFlags x y hw]

end Tests

section Simulation

variable {widths : String → Nat} {sim : Simulator} {d : Discovery} {s : State} {i j : Instruction}

theorem Faces.after (h : Faces widths sim d s i) {d' : Discovery} {s' : State}
    (hparsed : Instruction.decode (sim.image.fetch j.address maxLength) j.address = .ok j)
    (hne : i ≠ j) (hprepared : sim.Prepared j.address d) (hconcrete : s'.Concrete widths)
    (hpc : s'.pc = .boundary j.address)
    (hother : ∀ l, l.instruction ≠ i.address → d'.program.node? l = d.program.node? l) :
    Faces widths sim d' s' j := by
  have haddress : j.address ≠ i.address := by
    intro heq
    rw [heq, h.parsed, Except.ok.injEq] at hparsed
    exact hne hparsed
  exact ⟨h.decoder, hparsed, hprepared.congr fun k => hother _ haddress, h.fits, hconcrete, hpc⟩

theorem Faces.exists_branch (h : Faces widths sim d s j) {t : UInt64}
    (hops : j.operands = [.target t]) (hne : t ≠ following j.address j.bytes.length)
    {c : Condition} (hm : j.mnemonic = .jcc c) {f : Expr} {taken : Bool}
    (hf : Lowering.conditionFormula c = .ok f)
    (htaken : Denotes s.memory.order (· = s.machine) (BitVec.ofBool taken) f)
    (hopposite : Denotes s.memory.order (· = s.machine) (BitVec.ofBool !taken)
      (Lowering.opposite f)) :
    ∃ (first second : Arrow) (s' : State) (d₁ d₂ d₃ : Discovery),
      Succeeds (sim.arrows s) d [first, second] d₁ ∧ first.target = .static (.boundary t) ∧
      second.target = .static (.boundary (following j.address j.bytes.length)) ∧
      Succeeds (sim.step s first) d₁ (if taken then [s'] else []) d₂ ∧
      Succeeds (sim.step s second) d₂ (if taken then [] else [s']) d₃ ∧
      s.Reaches widths (.boundary (if taken then t else following j.address j.bytes.length))
        s.machine s' := by
  have hboundary : Location.boundary t ≠ .boundary (following j.address j.bytes.length) := by
    intro heq
    exact hne (congrArg Location.instruction heq)
  obtain ⟨mc, hoffers, hperforms, -⟩ := h.offers fun mc e he => by
    rw [Lowering.lower, hm]
    exact he.conditionalJump hops hf htaken.term.width hopposite.term.width
  have hvalue {f : Expr} {b : Bool}
      (hf : Denotes s.memory.order (· = s.machine) (BitVec.ofBool b) f) :
      s.memory.eval f = .ok (.const (.ofBool b)) := by
    rw [Word.ofBool_eq]
    exact SymbolicMemory.eval_of_concrete h.concrete.memory (h.onMemory hf.term.wellFormed)
      hf.branchless (hf.eval rfl)
  obtain ⟨s', hreaches, hsteps⟩ := Simulator.exists_branch sim h.concrete (hvalue htaken)
    (hvalue hopposite) (.boundary t) (.boundary (following j.address j.bytes.length))
  rw [show j.address = s.pc.instruction by rw [h.pc]; rfl] at hoffers
  obtain ⟨d₁, harrows, -⟩ := hoffers.arrows
  rw [h.pc, Location.boundary, hperforms.arrows, branchArrows, if_neg hboundary] at harrows
  obtain ⟨d₂, d₃, hfirst, hsecond, -⟩ := hsteps (.boundary j.address) d₁
  refine ⟨_, _, s', d₁, d₂, d₃, harrows, rfl, rfl, hfirst, hsecond, ?_⟩
  cases taken <;> exact hreaches

/-- A conditional jump after a comparison agrees with the comparison that it names. The comparison
of two values is executed up to the jump. There, if the target is not the next instruction, the
jump has an arrow to each of the two: the first one is taken exactly if the comparison holds of
the values, and the second one exactly if it does not. -/
theorem compare_then_branch {size : Size} {x y : BitVec size.bits} {a b : Operand}
    {c : Condition} {t : UInt64} (h : Faces widths sim d s i) (hcompare : i.mnemonic = .cmp)
    (hops : i.operands = [a, b]) (hx : a.read s.machine s.memory.order = .ok (.ofBits x))
    (hy : b.read s.machine s.memory.order = .ok (.ofBits y))
    (hparsed : Instruction.decode (sim.image.fetch j.address maxLength) j.address = .ok j)
    (hprepared : sim.Prepared j.address d)
    (hnext : j.address = following i.address i.bytes.length) (hjump : j.mnemonic = .jcc c)
    (htarget : j.operands = [.target t]) (hne : t ≠ following j.address j.bytes.length) :
    ∃ d' s', sim.Executes d s d' s' ∧ s.Reaches widths (.boundary j.address) s'.machine s' ∧
      ∃ (first second : Arrow) (s'' : State) (d₁ d₂ d₃ : Discovery),
        Succeeds (sim.arrows s') d' [first, second] d₁ ∧ first.target = .static (.boundary t) ∧
        second.target = .static (.boundary (following j.address j.bytes.length)) ∧
        Succeeds (sim.step s' first) d₁ (if c.compares x y then [s''] else []) d₂ ∧
        Succeeds (sim.step s' second) d₂ (if c.compares x y then [] else [s'']) d₃ ∧
        s'.Reaches widths
          (.boundary (if c.compares x y then t else following j.address j.bytes.length))
          s'.machine s'' := by
  obtain ⟨-, hmet⟩ := Instruction.met_of_decode h.parsed
  rw [hcompare] at hmet
  obtain ⟨o, o', size', hpair, -, ho, ho'⟩ := hmet
  obtain ⟨rfl, rfl⟩ : o = a ∧ o' = b := by simpa [hops, eq_comm] using hpair
  obtain rfl := Operand.size_of_read ho hx
  have hz : BinaryOp.onBits x y .sub = .ofBits (x - y) := by
    rw [BinaryOp.onBits, BitVec.setWidth_eq]
  obtain ⟨d', s', hexecutes, hreaches, happlied, hother⟩ := h.applies_compare .sub
    (by rw [Instruction.destination?, hcompare]; rfl)
    (fun next => by rw [Lowering.lower, hcompare]) hops ho ho' hx hy
    rfl hz
  rw [← hnext] at hreaches
  refine ⟨d', s', hexecutes, hreaches, ?_⟩
  have hdistinct : i ≠ j := by
    rintro rfl
    rw [hcompare] at hjump
    cases hjump
  have hfaces := h.after hparsed hdistinct hprepared hreaches.concrete hreaches.pc hother
  have hflags (f : Flag) (hf : f ∈ Flag.tested) :
      Denotes s'.memory.order (· = s'.machine) (BitVec.ofBool (differenceFlags x y f)) f.expr :=
    Flag.denotes fun hm => hm ▸ happlied.flag (mem_subStatus x y hf)
  obtain ⟨f, hf, hdenotes, hopposite⟩ := exists_conditionFormula hflags c
  rw [Condition.holds_differenceFlags x y size'.valid.1.1] at hdenotes hopposite
  exact hfaces.exists_branch htarget hne hjump hf hdenotes hopposite

/-- The least signed byte is less than one, although their difference is positive. -/
theorem compare_then_branch_of_overflow :
    let image : Memory := ⟨{
      registers := Std.ExtTreeMap.insert ∅ "eax" ⟨32, 0x80⟩
      bytes := .ofList ([(0x1000, 0x3c), (0x1001, 0x01), (0x1002, 0x7c), (0x1003, 0x10)] :
        List (UInt64 × UInt8)) }, []⟩
    let sim : Simulator := ⟨decoder fun _ => none, .enumerating, image, {}⟩
    let s : State := ⟨.boundary 0x1000, .ofImage image .little, .bool true⟩
    let i : Instruction := ⟨0x1000, [0x3c, 0x01], none, .cmp, [.register .al, .immediate ⟨8, 1⟩]⟩
    let j : Instruction := ⟨0x1002, [0x7c, 0x10], none, .jcc ⟨.less, false⟩, [.target 0x1014]⟩
    Faces (X86.widths image) sim {} s i ∧ i.render = "cmp al, 0x1" ∧ j.render = "jl 0x1014" ∧
      ∃ d' s', sim.Executes {} s d' s' ∧ s'.pc = .boundary 0x1002 ∧
        ∃ (first second : Arrow) (s'' : State) (d₁ d₂ d₃ : Discovery),
          Succeeds (sim.arrows s') d' [first, second] d₁ ∧
          Succeeds (sim.step s' first) d₁ [s''] d₂ ∧
          Succeeds (sim.step s' second) d₂ [] d₃ ∧ s''.pc = .boundary 0x1014 := by
  intro image sim s i j
  have himage : image.StoresPhysical registers :=
    (Memory.storesPhysical_ofBytes _ _).setPhysical (by decide) (by decide +kernel)
  have hfaces : Faces (X86.widths image) sim {} s i :=
    faces_ofImage (i := i) himage (by decide +kernel) _ _ _
  have hfirst : (Operand.register .al).read s.machine .little =
      .ok (Word.ofBits (w := Size.byte.bits) 0x80#8) := by
    decide +kernel
  have hsecond : (Operand.immediate ⟨8, 1⟩).read s.machine .little =
      .ok (Word.ofBits (w := Size.byte.bits) 1#8) :=
    rfl
  obtain ⟨d', s', hexecutes, hreaches, first, second, s'', d₁, d₂, d₃, harrows, -, -, htaken,
      hother, hreaches'⟩ :=
    compare_then_branch (j := j) hfaces rfl rfl hfirst hsecond
      (by decide +kernel) (.inl fun k => by simp [Microcode.node?]) (by decide +kernel) rfl rfl
      (by decide +kernel)
  exact ⟨hfaces, by decide +kernel, by decide +kernel, d', s', hexecutes, hreaches.pc, first,
    second, s'', d₁, d₂, d₃, harrows, htaken, hother, hreaches'.pc⟩

end Simulation

end X86

end FlowRecovery
