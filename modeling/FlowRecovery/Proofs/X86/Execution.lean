import Mathlib
import FlowRecovery.Proofs.X86.Decoding

namespace FlowRecovery.X86

/-- An instruction was lowered: the graph is as it should be whatever the instruction's text is,
and the nodes of other instructions are those of the graph before. -/
structure Emission.Lowered (address : UInt64) (graph : Microcode) (Q : Microcode → Prop)
    (e : Emission) : Prop where
  other {l : Location} : l.instruction ≠ address → e.graph.node? l = graph.node? l
  annotated (text : String) : Q (e.graph.annotate (.boundary address) text)

/-- Lowering for a state, whose concrete memory the steps are executed on. -/
def Start.ofState (s : State) (address : UInt64) (mc : Microcode) : Start :=
  ⟨address, s.memory.order, mc, s.machine, True⟩

section Decoding

variable {memory : Memory} {address : UInt64} {i : Instruction} {m : Memory} {n : Nat}
  {last : Location → List Arrow} {e : Emission} {mc : Microcode}

theorem Emission.Ended.lowered {start : Start} (h : e.Ended start n m last)
    (hexecuted : start.executed) (hfree : ∀ k, start.graph.node? ⟨start.address, k⟩ = none) :
    e.Lowered start.address start.graph fun mc =>
      mc.Performs scope start.address start.order start.memory m n last := by
  refine ⟨h.other, fun text => ?_⟩
  obtain ⟨statements, hlength, hruns, hchain, harrows⟩ := h.steps hfree
  refine ⟨Microcode.contains_annotate, ⟨statements, hlength, ?_, hruns.wellFormed, ?_⟩, ?_⟩
  · exact hchain.congr fun k _ => Microcode.arrowsAt_annotate
  · exact hruns.exec hexecuted
  · exact Microcode.arrowsAt_annotate.trans harrows

theorem Emission.Loops.lowered {loop : Loop} (h : e.Loops address mc loop)
    (hfree : ∀ k, mc.node? ⟨address, k⟩ = none) :
    e.Lowered address mc fun mc => loop.In address mc := by
  refine ⟨h.other, fun text => ?_⟩
  obtain ⟨htest, hchain, hback⟩ := h.steps hfree
  refine ⟨Microcode.contains_annotate, ?_, ?_, ?_⟩
  · exact Microcode.arrowsAt_annotate.trans htest
  · exact hchain.congr fun k _ => Microcode.arrowsAt_annotate
  · exact Microcode.arrowsAt_annotate.trans hback

theorem exists_decode {Q : Microcode → Prop}
    (h : Instruction.decode (memory.fetch address maxLength) address = .ok i)
    (hlower : ∀ mc, (∀ k, mc.node? ⟨address, k⟩ = none) →
      Emits (Lowering.lower i (.boundary (following address i.bytes.length)))
        ⟨mc, .boundary address⟩ fun _ => Emission.Lowered address mc Q)
    (mc : Microcode) (hfree : ∀ k, mc.node? ⟨address, k⟩ = none) :
    ∃ next mc', (decode memory address).run.run mc = .ok (.ok next, mc') ∧ Q mc' ∧
      ∀ l, l.instruction ≠ address → mc'.node? l = mc.node? l := by
  obtain ⟨_, e, hrun, hlowered⟩ := hlower mc hfree
  refine ⟨_, _, decode_of_lower h hrun, hlowered.annotated _, fun l hl => ?_⟩
  rw [Microcode.annotate, Microcode.node?_modifyNode, if_neg fun heq => hl (by rw [← heq]; rfl)]
  exact hlowered.other hl

end Decoding

/-- A simulator is about to execute an instruction in a state without unknowns. -/
structure Faces (widths : String → Nat) (sim : Simulator) (d : Discovery) (s : State)
    (i : Instruction) : Prop where
  decoder : ∃ lengthOf, sim.decoder = X86.decoder lengthOf
  parsed : Instruction.decode (sim.image.fetch i.address maxLength) i.address = .ok i
  prepared : sim.Prepared i.address d
  fits : ∀ r ∈ registers, r.Fits widths
  concrete : s.Concrete widths
  pc : s.pc = .boundary i.address

namespace Faces

variable {widths : String → Nat} {sim : Simulator} {d : Discovery} {s : State}
  {i : Instruction} {m : Memory} {n : Nat} {last : Location → List Arrow}

theorem onMemory (h : Faces widths sim d s i) {e : Expr} (he : e.WellFormed scope) :
    e.WellFormed (Scope.ground.onMemory widths) :=
  he.mono (fun _ _ => id) (fun _ hr => h.fits _ hr) id

theorem offers_lowered (h : Faces widths sim d s i) {Q : Microcode → Prop}
    (hcongr : ∀ {mc mc' : Microcode}, mc'.contains (.boundary i.address) = true →
      (∀ k, mc'.arrowsAt ⟨i.address, k⟩ = mc.arrowsAt ⟨i.address, k⟩) → Q mc → Q mc')
    (hlower : ∀ mc, (∀ k, mc.node? ⟨i.address, k⟩ = none) →
      Emits (Lowering.lower i (.boundary (following i.address i.bytes.length)))
        ⟨mc, .boundary i.address⟩ fun _ => Emission.Lowered i.address mc Q) :
    ∃ mc, sim.Offers i.address d mc ∧ Q mc ∧ ∀ l, l.instruction ≠ i.address →
      mc.node? l = d.program.node? l := by
  refine h.prepared.offers ?_ hcongr
  obtain ⟨lengthOf, hdecoder⟩ := h.decoder
  rw [hdecoder]
  exact exists_decode h.parsed hlower

theorem exists_assigns (h : Faces widths sim d s i) {size : Size} {o : Operand} (ho : o.Has size)
    (hplace : o.isPlace = true) {old : Word} (hold : o.read s.machine s.memory.order = .ok old)
    (hsame : SameData s.machine m) (x : BitVec size.bits) : ∃ place m',
      (∀ mc, o.Assigns s.memory.order (Start.ofState s i.address mc).Data x m m' place) ∧
        o.Stored s.memory.order m (.ofBits x) m' := by
  obtain ⟨place, m', hassigns, hstored⟩ := Operand.exists_assigns
    (M := fun m => True ∧ SameData s.machine m) ho hplace h.fits h.concrete.stores hold And.right
    hsame x
  exact ⟨place, m', fun _ => hassigns, hstored⟩

theorem offers (h : Faces widths sim d s i)
    (hlower : ∀ mc e, e.Ran (.ofState s i.address mc) 0 s.machine →
      Emits (Lowering.lower i (.boundary (following i.address i.bytes.length))) e fun _ =>
        Emission.Ended (.ofState s i.address mc) n m last) :
    ∃ mc, sim.Offers i.address d mc ∧
      mc.Performs scope i.address s.memory.order s.machine m n last ∧
      ∀ l, l.instruction ≠ i.address → mc.node? l = d.program.node? l := by
  refine h.offers_lowered Microcode.Performs.congr fun mc hfree => ?_
  have hstart := Start.ran (.ofState s i.address mc)
  exact (hlower mc _ hstart).imp fun h => h.lowered trivial hfree

theorem exists_executes (h : Faces widths sim d s i) (m : Memory) (target : Location)
    (htarget : target.isBoundary = true)
    (hlower : ∀ mc e, e.Ran (.ofState s i.address mc) 0 s.machine →
      Emits (Lowering.lower i (.boundary (following i.address i.bytes.length))) e fun _ =>
        Emission.Ended (.ofState s i.address mc) n m (Microcode.leadsTo target)) :
    ∃ d' s', sim.Executes d s d' s' ∧ s.Reaches widths target m s' ∧
      ∀ l, l.instruction ≠ i.address → d'.program.node? l = d.program.node? l := by
  obtain ⟨mc, hoffers, hperforms, hother⟩ := h.offers hlower
  obtain ⟨d', s', hexecutes, hreaches, rfl⟩ :=
    Simulator.exists_executes_goto h.onMemory hoffers h.concrete h.pc htarget hperforms
  exact ⟨d', s', hexecutes, hreaches, hother⟩

theorem exists_executes_jump (h : Faces widths sim d s i) {target : Expr}
    (htarget : target.WellFormed scope) (hbranchless : target.Branchless) {x : Word}
    (hx : m.eval s.memory.order default target = .ok x)
    (hlower : ∀ mc e, e.Ran (.ofState s i.address mc) 0 s.machine →
      Emits (Lowering.lower i (.boundary (following i.address i.bytes.length))) e fun _ =>
        Emission.Ended (.ofState s i.address mc) n m (Microcode.jumpsTo target)) :
    ∃ d' s', sim.Executes d s d' s' ∧ s.Reaches widths (.boundary (.ofNat x.value)) m s' := by
  obtain ⟨mc, hoffers, hperforms, -⟩ := h.offers hlower
  obtain ⟨d', s', hexecutes, hreaches, -⟩ :=
    Simulator.exists_executes_jump h.onMemory hoffers h.concrete h.pc htarget
      hbranchless hx hperforms
  exact ⟨d', s', hexecutes, hreaches⟩

end Faces

end FlowRecovery.X86
