import Mathlib
import FlowRecovery.Proofs.X86.Lowering

namespace FlowRecovery

/-- Under every valuation exactly one of two formulas is true. -/
def Expr.Alternates (a b : Expr) : Prop :=
  ∀ v : Valuation, ∃ taken : Bool,
    a.evaluate v.leaf = .ok (some (.ofBool taken)) ∧
    b.evaluate v.leaf = .ok (some (.ofBool !taken))

section Shape

variable {scope : Scope} {l : Location} {arrows : List Arrow}

theorem Expr.alternates_not {e : Expr} (h : e.WellFormed scope) (hwidth : e.width = 1) :
    e.Alternates e.not := by
  have hbits : ∀ x : BitVec 1, x = BitVec.ofBool (x != 0#1) ∧
      ~~~x = BitVec.ofBool !(x != 0#1) := by decide
  have hnot : e.not.WellFormed scope := ⟨h, trivial⟩
  intro v
  obtain ⟨x, hx⟩ := h.exists_bits hwidth v
  refine ⟨x != 0#1, ?_, ?_⟩
  · rw [Expr.evaluate_leaf h, hx, Word.ofBool_eq, ← (hbits x).1]
  · rw [Expr.evaluate_leaf hnot, Expr.not, Expr.value, hx, UnaryOp.on_ofBits, Word.ofBool_eq,
      ← (hbits x).2]
    rfl

theorem Expr.Alternates.symm {a b : Expr} (h : a.Alternates b) : b.Alternates a := by
  intro v
  obtain ⟨taken, ha, hb⟩ := h v
  exact ⟨!taken, hb, by rwa [Bool.not_not]⟩

theorem Deterministic.shape (h : Deterministic scope l arrows) :
    arrows = [] ∨ (∃ a, arrows = [a] ∧ a.guard = .bool true) ∨
      ∃ a b, arrows = [a, b] ∧ a.statement = .skip ∧ b.statement = .skip ∧
        a.guard.Alternates b.guard := by
  cases h with
  | halt => exact .inl rfl
  | only _ hguard => exact .inr (.inl ⟨_, rfl, hguard⟩)
  | branch _ hguard hwidth hother =>
      refine .inr (.inr ⟨_, _, rfl, rfl, rfl, ?_⟩)
      rcases hother with rfl | rfl
      · exact Expr.alternates_not hguard hwidth
      · exact (Expr.alternates_not hguard.1 hwidth).symm

end Shape

namespace X86

variable {memory : Memory} {address : UInt64} {mc mc' : Microcode} {i : Instruction}

section Outcomes

theorem lower_of_parse {bytes : List UInt8} (h : Instruction.decode bytes address = .ok i)
    (mc : Microcode) (next : UInt64) : ∃ e,
      (Lowering.lower i (.boundary next)).run.run ⟨mc, .boundary address⟩ = .ok (.ok (), e) ∧
        e.Done i mc := by
  obtain ⟨rfl, hmet⟩ := Instruction.met_of_decode h
  have hnext : (Location.boundary next).isBoundary = true := rfl
  obtain ⟨_, e, hrun, hdone⟩ := Lowering.emits_lower hnext hmet mc
  exact ⟨e, hrun, hdone⟩

theorem decode_of_error {error : DecodeError}
    (h : Instruction.decode (memory.fetch address maxLength) address = .error error)
    (mc : Microcode) :
    (decode memory address).run.run mc = .ok (.error error, mc) := by
  rw [decode, h]
  rfl

theorem decode_of_lower {e : Emission}
    (h : Instruction.decode (memory.fetch address maxLength) address = .ok i)
    (hrun : (Lowering.lower i (.boundary (following address i.bytes.length))).run.run
      ⟨mc, .boundary address⟩ =
        .ok (.ok (), e)) :
    (decode memory address).run.run mc =
      .ok (.ok (following address i.bytes.length), e.graph.annotate (.boundary address)
        i.render) := by
  have hlift (f : Except DecodeError Unit × Emission → GraphM UInt64) :
      (liftM ((Lowering.lower i (.boundary (following address i.bytes.length))).run.run
        ⟨mc, .boundary address⟩) >>= f).run.run mc = (f (.ok (), e)).run.run mc := by
    rw [hrun]
    rfl
  rw [decode, h]
  exact hlift _

theorem decode_of_parse (h : Instruction.decode (memory.fetch address maxLength) address = .ok i)
    (mc : Microcode) : ∃ e : Emission, (decode memory address).run.run mc =
        .ok (.ok (following address i.bytes.length),
          e.graph.annotate (.boundary address) i.render) ∧ e.Done i mc := by
  obtain ⟨e, hrun, hdone⟩ := lower_of_parse h mc (following address i.bytes.length)
  exact ⟨e, decode_of_lower h hrun, hdone⟩

/-- Decoding fails exactly where the bytes are no instruction, and then the graph is what it was
before. No contract is broken, and no instruction that parsing accepts is refused by lowering. -/
theorem failed_decode_keeps_graph (memory : Memory) (address : UInt64) (mc : Microcode) :
    (∀ error mc', (decode memory address).run.run mc = .ok (.error error, mc') ↔
      Instruction.decode (memory.fetch address maxLength) address = .error error ∧ mc' = mc) ∧
    (∀ fault, (decode memory address).run.run mc ≠ .error fault) ∧
    ∀ bytes i, Instruction.decode bytes address = .ok i → ∀ next, ∃ e,
      (Lowering.lower i (.boundary next)).run.run ⟨mc, .boundary address⟩ = .ok (.ok (), e) := by
  refine ⟨?_, ?_, ?_⟩
  · intro error mc'
    cases hparse : Instruction.decode (memory.fetch address maxLength) address with
    | error other =>
        rw [decode_of_error hparse]
        simp only [Except.ok.injEq, Prod.mk.injEq, Except.error.injEq, eq_comm]
    | ok i =>
        obtain ⟨g, hrun, -⟩ := decode_of_parse hparse mc
        simp [hrun]
  · intro fault
    cases hparse : Instruction.decode (memory.fetch address maxLength) address with
    | error other => simp [decode_of_error hparse]
    | ok i =>
        obtain ⟨g, hrun, -⟩ := decode_of_parse hparse mc
        simp [hrun]
  · intro bytes i hparse next
    obtain ⟨e, hrun, -⟩ := lower_of_parse hparse mc next
    exact ⟨e, hrun⟩

/-- An opcode that does not exist, at an address where the graph has a node and a record
already. -/
theorem failed_decode_keeps_graph_of_unknown_opcode :
    let memory : Memory := ⟨{
      bytes := .ofList ([(0x10, 0x0f), (0x11, 0xff)] : List (UInt64 × UInt8)) }, []⟩
    let mc : Microcode := {
      nodes := (∅ : Std.ExtTreeMap Location Node).insert (.boundary 0x10)
        { annotation := some "nop" }
      unresolved := (∅ : Std.ExtTreeMap Location Unresolved).insert ⟨0x10, 1⟩ .unexplored }
    (decode memory 0x10).run.run mc = .ok (.error (.unsupported 0x10 [0x0f, 0xff]), mc) ∧
      ∃ i, Instruction.decode [0x00, 0x04, 0x88] 0x10 = .ok i ∧
        ∃ e, (Lowering.lower i (.boundary 0x13)).run.run ⟨mc, .boundary 0x10⟩ =
          .ok (.ok (), e) := by
  intro memory mc
  obtain ⟨hfailed, -, haccepted⟩ := failed_decode_keeps_graph memory 0x10 mc
  refine ⟨(hfailed _ _).mpr ⟨by decide +kernel, rfl⟩, ?_⟩
  obtain ⟨i, hi⟩ : ∃ i, Instruction.decode [0x00, 0x04, 0x88] 0x10 = .ok i := ⟨_, rfl⟩
  exact ⟨i, hi, haccepted _ i hi 0x13⟩

end Outcomes

section Steps

theorem isDefined_of_parse
    (h : Instruction.decode (memory.fetch address maxLength) address = .ok i) :
    memory.isDefined address = true := by
  cases hbyte : memory.byte? address with
  | some byte => rw [Memory.isDefined, hbyte, Option.isSome_some]
  | none =>
      have hfetch : memory.fetch address maxLength = [] := by
        rw [maxLength, Memory.fetch, hbyte]
      rw [hfetch] at h
      cases h

theorem toNat_following (address : UInt64) (length : Nat) :
    (following address length).toNat = (address.toNat + length) % 2 ^ 32 := by
  rw [following, UInt64.toNat_mod, UInt64.toNat_add, UInt64.toNat_ofNat']
  change (address.toNat + length % 2 ^ 64) % 2 ^ 64 % 2 ^ 32 = _
  omega

theorem decode_extends (h : Instruction.decode (memory.fetch address maxLength) address = .ok i)
    (hfree : ∀ k, mc.node? ⟨address, k⟩ = none) : ∃ mc' n,
      (decode memory address).run.run mc = .ok (.ok (following address i.bytes.length), mc') ∧
      n < maxSteps ∧ Microcode.Extends scope address (n + 1) mc mc' ∧
      ∀ k ≤ n, mc'.arrowsAt ⟨address, k⟩ = [] → i.mnemonic = .hlt := by
  obtain ⟨e, hrun, hdone⟩ := decode_of_parse h mc
  obtain ⟨rfl, -⟩ := Instruction.met_of_decode h
  obtain ⟨n, hn, hextends, hhalt⟩ := hdone hfree
  refine ⟨_, n, hrun, hn, hextends.annotate (Nat.succ_pos n) i.render, fun k hk hempty => ?_⟩
  exact hhalt k hk (Microcode.arrowsAt_annotate.symm.trans hempty)

theorem decoder_incremental {lengthOf : List UInt8 → Option Nat} :
    (decoder lengthOf).Incremental scope maxSteps := by
  intro mc address hfree memory
  cases hparse : Instruction.decode (memory.fetch address maxLength) address with
  | error error => exact .inl ⟨error, decode_of_error hparse mc⟩
  | ok i =>
      obtain ⟨mc', n, hrun, hn, hextends, -⟩ := decode_extends hparse hfree
      exact .inr ⟨_, mc', n, hrun, hn, isDefined_of_parse hparse, hextends⟩

theorem contains_of_extends {n : Nat} (h : Microcode.Extends scope address (n + 1) mc mc')
    (hfree : ∀ k, mc.node? ⟨address, k⟩ = none) (l : Location) :
    mc'.contains l = true ↔ mc.contains l = true ∨ ∃ j ≤ n, l = ⟨address, j⟩ := by
  simp only [Microcode.contains_eq, Option.isSome_iff_exists]
  constructor
  · rintro ⟨node, hnode⟩
    by_cases hl : l.instruction = address
    · refine .inr ⟨l.step, ?_, by rw [← hl]⟩
      by_contra hlt
      have hnone := h.free (show n + 1 ≤ l.step by omega)
      rw [← hl, hnode] at hnone
      cases hnone
    · rw [h.other hl] at hnode
      exact .inl ⟨node, hnode⟩
  · rintro (⟨node, hnode⟩ | ⟨j, hj, rfl⟩)
    · exact ⟨node, h.kept hfree hnode⟩
    · obtain ⟨node, hnode, -⟩ := h.emitted (Nat.lt_succ_of_le hj)
      exact ⟨node, hnode⟩

/-- Decoding breaks no contract. At an address without steps, an instruction that is decoded is
followed by the one behind its bytes, in 32 bits; all nodes and records of before stay, and the
new nodes are the steps of the instruction from zero on, without a gap. Their arrows to fixed
locations lead to the next step or to the boundary of an instruction, and assignments keep the
width of their place. A step has no arrows only in an instruction that halts; otherwise it has one
without a condition, or two without statements, of which exactly one can be taken under every
valuation. -/
theorem decode_adds_wellFormed_steps (hfree : ∀ k, mc.node? ⟨address, k⟩ = none)
    (memory : Memory) :
    (∀ fault, (decode memory address).run.run mc ≠ .error fault) ∧
      ∀ next mc', (decode memory address).run.run mc = .ok (.ok next, mc') →
        ∃ i k, Instruction.decode (memory.fetch address maxLength) address = .ok i ∧
          next.toNat = (address.toNat + i.bytes.length) % 2 ^ 32 ∧
          (∀ l node, mc.node? l = some node → mc'.node? l = some node) ∧
          mc'.unresolved = mc.unresolved ∧
          (∀ l, mc'.contains l = true ↔ mc.contains l = true ∨ ∃ j ≤ k, l = ⟨address, j⟩) ∧
          ∀ j ≤ k, ∃ node, mc'.node? ⟨address, j⟩ = some node ∧
            (∀ a ∈ node.arrows, a.source = ⟨address, j⟩ ∧
              (∀ target, a.target = .static target → target = ⟨address, j + 1⟩ ∨
                target.isBoundary = true) ∧
              ∀ place value, a.statement = .assign place value → place.width = value.width) ∧
            ((node.arrows = [] ∧ i.mnemonic = .hlt) ∨
              (∃ a, node.arrows = [a] ∧ a.guard = .bool true) ∨
              ∃ a b, node.arrows = [a, b] ∧ a.statement = .skip ∧ b.statement = .skip ∧
                a.guard.Alternates b.guard) := by
  cases hparse : Instruction.decode (memory.fetch address maxLength) address with
  | error error => simp [decode_of_error hparse]
  | ok i =>
      obtain ⟨g, n, hrun, -, hextends, hhalt⟩ := decode_extends hparse hfree
      refine ⟨by simp [hrun], ?_⟩
      intro next mc' hdecoded
      rw [hrun, Except.ok.injEq, Prod.mk.injEq, Except.ok.injEq] at hdecoded
      obtain ⟨rfl, rfl⟩ := hdecoded
      refine ⟨i, n, rfl, toNat_following _ _, fun l node => hextends.kept hfree,
        hextends.unresolved, contains_of_extends hextends hfree, ?_⟩
      intro j hj
      obtain ⟨node, hnode, harrows⟩ := hextends.emitted (Nat.lt_succ_of_le hj)
      refine ⟨node, hnode, ?_, ?_⟩
      · intro a ha
        obtain ⟨hsource, htarget, hstatement⟩ := harrows.arrow ha
        refine ⟨hsource, ?_, ?_⟩
        · intro target heq
          rw [heq] at htarget
          exact htarget
        · intro place value heq
          rw [heq] at hstatement
          exact hstatement.2.2.2
      · rcases harrows.shape with hnone | hways
        · refine .inl ⟨hnone, hhalt j hj ?_⟩
          rw [Microcode.arrowsAt, hnode]
          exact hnone
        · exact .inr hways

/-- A repeated copy at the last address of 32 bits, next to another instruction and under a record
of its own address. -/
theorem decode_adds_wellFormed_steps_of_repetition :
    let memory : Memory :=
      ⟨{ bytes := .ofList ([(0xffffffff, 0xf3), (0x100000000, 0xa4)] : List (UInt64 × UInt8)) },
        []⟩
    let mc : Microcode := {
      nodes := (∅ : Std.ExtTreeMap Location Node).insert (.boundary 0x10)
        { annotation := some "nop" }
      unresolved := (∅ : Std.ExtTreeMap Location Unresolved).insert
        (.boundary 0xffffffff) .unexplored }
    (∀ k, mc.node? ⟨0xffffffff, k⟩ = none) ∧
      ∃ mc' k, (decode memory 0xffffffff).run.run mc = .ok (.ok 1, mc') ∧
        mc'.unresolved = mc.unresolved ∧
        mc'.node? (.boundary 0x10) = some { annotation := some "nop" } ∧
        (∀ l, mc'.contains l = true ↔ mc.contains l = true ∨ ∃ j ≤ k, l = ⟨0xffffffff, j⟩) ∧
        ∃ node a b, mc'.node? (.boundary 0xffffffff) = some node ∧ node.arrows = [a, b] ∧
          a.guard.Alternates b.guard := by
  intro memory mc
  have hfree : ∀ k, mc.node? ⟨0xffffffff, k⟩ = none := by
    intro k
    have hne : Location.boundary 0x10 ≠ ⟨0xffffffff, k⟩ := by simp [Location.boundary]
    simp [mc, Microcode.node?, hne]
  obtain ⟨-, hdecoded⟩ := decode_adds_wellFormed_steps hfree memory
  have hrun : ((decode memory 0xffffffff).run.run mc).map
      (fun p => (p.1, ((p.2.node? (.boundary 0xffffffff)).map (·.arrows.length)))) =
        .ok (.ok 1, some 2) := by
    decide +kernel
  rcases hresult : (decode memory 0xffffffff).run.run mc with fault | ⟨outcome, mc'⟩
  · rw [hresult] at hrun
    cases hrun
  rw [hresult, Except.map, Except.ok.injEq, Prod.mk.injEq] at hrun
  obtain ⟨rfl, hlength⟩ := hrun
  obtain ⟨i, k, -, -, hkept, hunresolved, hcontains, hsteps⟩ := hdecoded _ _ hresult
  obtain ⟨node, hnode, -, hways⟩ := hsteps 0 (Nat.zero_le k)
  refine ⟨hfree, mc', k, rfl, hunresolved, hkept _ _ ?_, hcontains, ?_⟩
  · simp [mc, Microcode.node?]
  · have hnode' : mc'.node? (.boundary 0xffffffff) = some node := hnode
    rw [hnode', Option.map_some, Option.some.injEq] at hlength
    rcases hways with ⟨hnone, -⟩ | ⟨a, hone, -⟩ | ⟨a, b, htwo, -, -, halternates⟩
    · simp [hnone] at hlength
    · simp [hone] at hlength
    · exact ⟨node, a, b, hnode', htwo, halternates⟩

end Steps

end X86

end FlowRecovery
