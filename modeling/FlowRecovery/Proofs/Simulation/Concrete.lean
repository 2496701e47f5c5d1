import Mathlib
import FlowRecovery.Proofs.Exploration.Uniform
import FlowRecovery.Proofs.Memory.Constant
import FlowRecovery.Proofs.Microcode.Determinism

namespace FlowRecovery

variable {scope : Scope} {widths : String → Nat}

theorem Statement.WellFormed.mono {s t : Scope} {statement : Statement}
    (h : statement.WellFormed s) (hscope : ∀ {e : Expr}, e.WellFormed s → e.WellFormed t) :
    statement.WellFormed t := by
  cases statement with
  | skip => trivial
  | assign place value => exact ⟨h.1, hscope h.2.1, hscope h.2.2.1, h.2.2.2⟩

/-- The memory holds nothing unknown, and nothing was assumed on the path. -/
structure State.Concrete (widths : String → Nat) (s : State) : Prop where
  memory : s.memory.WellFormed .ground widths
  settled : s.memory.Settled
  condition : s.pathCondition = .bool true

/-- All cells and registers hold constants, and the path condition is the constant true. -/
structure State.AllConstant (s : State) : Prop where
  cell {address : UInt64} {e : Expr} : s.memory.cells[address]? = some e → ∃ c, e = .const c
  register {name : String} {e : Expr} : s.memory.registers[name]? = some e → ∃ c, e = .const c
  condition : s.pathCondition = .bool true

theorem State.Concrete.allConstant {s : State} (h : s.Concrete widths) : s.AllConstant :=
  ⟨fun he => (h.settled.cell he).isConst (h.memory.cell he).1,
    fun he => (h.settled.register he).isConst (h.memory.register he).1, h.condition⟩

/-- The successors of a state along an arrow: one if the guard is true there, and none if it is
not. -/
def State.Moves (widths : String → Nat) (s : State) (a : Arrow) (successors : List State) :
    Prop :=
  ∃ c : Word, (s.memory.concretise default).eval s.memory.order default a.guard = .ok c ∧
    c.Canonical ∧ c.width = 1 ∧ ((c.isTrue = false ∧ successors = []) ∨
      c.isTrue = true ∧ ∃ next, successors = [next] ∧ next.Concrete widths)

/-- A decoder that adds deterministic instructions to a graph, or fails and leaves the graph as it
is. -/
def Decoder.Deterministic (scope : Scope) (decoder : Decoder) : Prop :=
  ∀ {mc : Microcode} {address : UInt64}, mc.Stepwise scope →
    mc.contains (.boundary address) = false →
    ∀ memory, (∃ error, (decoder.decode memory address).run.run mc = .ok (.error error, mc)) ∨
      ∃ next mc' n, (decoder.decode memory address).run.run mc = .ok (.ok next, mc') ∧
        Microcode.Extends scope address (n + 1) mc mc'

theorem Decoder.Incremental.deterministic {limit : Nat} {decoder : Decoder}
    (h : decoder.Incremental scope limit) :
    decoder.Deterministic scope := by
  intro mc address hmc hnew memory
  rcases h mc address (hmc.free hnew) memory with herror | ⟨next, mc', n, hrun, -, -, hextends⟩
  · exact .inl herror
  · exact .inr ⟨next, mc', n, hrun, hextends⟩

namespace Simulator

def withSolver (sim : Simulator) (solver : Solver) : Simulator :=
  { sim with solver }

variable {sim : Simulator} {d : Discovery} {s : State} {a : Arrow}

section Start

theorem seed_uniform
    (hregisters : ∀ {name r}, sim.decoder.arch.register? name = some r → r.Fits widths)
    {m : SymbolicMemory} (hm : m.WellFormed .ground widths) (hsettled : m.Settled)
    (registers : List (String × UInt64)) :
    SimM.Uniform (fun solver => (sim.withSolver solver).seed m registers) d (· = d) fun m' _ =>
      m'.WellFormed .ground widths ∧ m'.Settled := by
  induction registers generalizing m with
  | nil => exact .pure rfl ⟨hm, hsettled⟩
  | cons register rest ih =>
      obtain ⟨name, value⟩ := register
      simp only [seed, withSolver]
      cases hr : sim.decoder.arch.register? name with
      | none => exact .report (ih hm hsettled)
      | some r =>
          have hfits := hregisters hr
          have hvalid : Word.ValidWidth r.size := by
            have hinside := hfits.inside
            have hle := hfits.baseSize_le
            exact ⟨hfits.size_pos, by omega⟩
          have hconst :
              (Expr.const (.ofBits (BitVec.ofNat r.size value.toNat))).WellFormed .ground :=
            Word.canonical_ofBits hvalid _
          have hvalue : Expr.constant r.size value.toNat =
              .ok (.const (.ofBits (BitVec.ofNat r.size value.toNat))) := by
            rw [Expr.constant, Word.ofNat_eq hvalid]
            rfl
          have hwrite :=
            (SymbolicMemory.writeRegister_refines (v := default) hm hfits hconst rfl).yields
          refine .checked hvalue (.attempt hwrite ?_ ?_)
          · rfl
          · rintro m' heq ⟨hfollows, -⟩
            exact ih hfollows.wellFormed (hsettled.writeRegister (Expr.settled_const _) heq)

theorem init_uniform (sim : Simulator)
    (hregisters : ∀ {name r}, sim.decoder.arch.register? name = some r → r.Fits widths)
    (himage : ∀ {name x}, sim.image.physical? name = some x → x.Canonical ∧ x.width = widths name)
    (entrypoint : UInt64) (registers : List (String × UInt64)) :
    SimM.Uniform (fun solver => (sim.withSolver solver).init entrypoint registers) d
      (· = d) fun s _ =>
      s.Concrete widths := by
  have hm : (SymbolicMemory.ofImage sim.image sim.decoder.arch.byteOrder).WellFormed
      .ground widths := by
    refine ⟨fun h => ?_, fun h => ?_, himage⟩
    · simp [SymbolicMemory.ofImage] at h
    · simp [SymbolicMemory.ofImage] at h
  refine (seed_uniform hregisters hm (SymbolicMemory.settled_ofImage _ _) registers).bind ?_
  rintro m d' rfl ⟨hm, hsettled⟩
  exact .pure rfl ⟨hm, hsettled, rfl⟩

end Start

section Decoding

theorem decode_of_run {address : UInt64} {result : Except DecodeError UInt64} {mc : Microcode}
    (hrun : (sim.decoder.decode sim.image address).run.run d.program = .ok (result, mc)) :
    SimM.Returns (sim.decode address).run d (result.map fun _ => ())
      { d with program := mc, log := d.log.push (.decoding address) } := by
  have hlift (d' : Discovery)
      (f : Except DecodeError UInt64 × Microcode → ExceptT DecodeError SimM Unit) :
      (liftM ((sim.decoder.decode sim.image address).run.run d.program) >>= f).run.run.run d' =
        (f (result, mc)).run.run.run d' := by
    rw [hrun]
    rfl
  refine (hlift _ _).trans ?_
  cases result <;> rfl

theorem decode_uniform (hdecoder : sim.decoder.Deterministic scope) (hd : d.program.Sound scope)
    {address : UInt64} (hnew : d.program.contains (.boundary address) = false) :
    SimM.Uniform (fun solver => (sim.withSolver solver).decode address) d (·.program.Sound scope)
      fun _ _ => True := by
  obtain ⟨result, mc, hrun, hmc⟩ : ∃ result mc,
      (sim.decoder.decode sim.image address).run.run d.program = .ok (result, mc) ∧
      mc.Sound scope := by
    rcases hdecoder hd.toStepwise hnew sim.image with
      ⟨error, hrun⟩ | ⟨next, mc, n, hrun, hextends⟩
    · exact ⟨_, _, hrun, hd⟩
    · exact ⟨_, _, hrun, hextends.sound hd⟩
  refine ⟨result.map fun _ => (), { d with program := mc }, hmc, fun _ _ => trivial,
    fun solver log => ?_⟩
  have hdecode : SimM.Returns ((sim.withSolver solver).decode address).run { d with log } _ _ :=
    decode_of_run hrun
  exact ⟨_, hdecode⟩

theorem read_uniform (hd : d.program.Sound scope) {read : Discovery → List Arrow}
    (hlog : ∀ log, read { d with log } = read d)
    (hnone : d.program.node? s.pc = none → read d = [])
    (hsome : ∀ node, d.program.node? s.pc = some node → read d = node.arrows) :
    SimM.Uniform (ε := DecodeError) (fun _ : Solver => do return read (← get)) d
      (·.program.Sound scope) fun arrows d' => Deterministic scope s.pc arrows ∧
      (arrows = [] ∨ ∃ node, d'.program.node? s.pc = some node) := by
  refine .get (fun _ log => by rw [hlog]) (.pure hd ?_)
  cases hnode : d.program.node? s.pc with
  | none =>
      rw [hnone hnode]
      exact ⟨.halt, .inl rfl⟩
  | some node =>
      rw [hsome node hnode]
      exact ⟨hd.arrows hnode, .inr ⟨node, rfl⟩⟩

theorem arrows_uniform (sim : Simulator) (hdecoder : sim.decoder.Deterministic scope)
    (hd : d.program.Sound scope) (s : State) :
    SimM.Uniform (fun solver => (sim.withSolver solver).arrows s) d (·.program.Sound scope)
      fun arrows d' =>
      Deterministic scope s.pc arrows ∧
        (arrows = [] ∨ ∃ node, d'.program.node? s.pc = some node) := by
  simp only [arrows]
  refine .modify (fun _ => rfl) (.get (fun _ _ => rfl) ?_)
  cases hcontains : d.program.contains (.boundary s.pc.instruction) with
  | true =>
      simp only [Bool.not_true, Bool.false_eq_true, if_false]
      refine read_uniform (d := { d with queries := d.queries + 1 }) hd (fun _ => rfl) ?_ ?_
      · exact fun h => by simp only [h]
      · exact fun node h => by simp only [h]
  | false =>
      have hdecode := decode_uniform (d := { d with queries := d.queries + 1 })
        hdecoder hd hcontains
      simp only [Bool.not_false, if_true]
      refine hdecode.bind fun _ d hd _ => read_uniform hd (fun _ => rfl) ?_ ?_
      · exact fun h => by simp only [h]
      · exact fun node h => by simp only [h]

end Decoding

section Steps

theorem restrict_const {c : Word} (hwidth : c.width = 1) (condition : Expr) :
    sim.restrict condition (.const c) = pure (if c.isTrue then some condition else none) := by
  have hbool : (Expr.const c).bool? = some c.isTrue := by
    rw [Expr.bool?, Expr.width, if_pos hwidth]
    rfl
  rw [restrict, hbool]
  cases c.isTrue <;> rfl

theorem resolve_const {source : Location} {c : Word} {condition : Expr} :
    (sim.resolve source (.const c) condition).run.run d =
      (.ok [(.boundary (.ofNat c.value), condition)],
        { d with program := d.program.addResolved source (.boundary (.ofNat c.value)) }) :=
  rfl

theorem isTrue_not {c c' : Word} (hc : c.Canonical) (hwidth : c.width = 1)
    (h : UnaryOp.not.apply c = .ok c') :
    c'.isTrue = !c.isTrue := by
  have hbits : ∀ x : BitVec 1, (~~~x != 0#1) = !(x != 0#1) := by decide
  obtain ⟨x, rfl⟩ := hc.exists_bits hwidth
  rw [UnaryOp.apply, Word.not_ofBits (by decide)] at h
  cases h
  rw [Word.isTrue_ofBits, Word.isTrue_ofBits, hbits]

theorem isTrue_of_complement {m : Memory} {order : ByteOrder} {v : Valuation}
    {guard other : Expr} {c c' : Word} (hother : other = guard.not ∨ guard = other.not)
    (hc : m.eval order v guard = .ok c) (hc' : m.eval order v other = .ok c')
    (hcanonical : c.Canonical ∧ c.width = 1) (hcanonical' : c'.Canonical ∧ c'.width = 1) :
    c'.isTrue = !c.isTrue := by
  rcases hother with rfl | rfl
  · rw [Expr.not, Memory.eval, hc, ok_bind] at hc'
    exact isTrue_not hcanonical.1 hcanonical.2 (of_liftM_eq_ok hc')
  · rw [Expr.not, Memory.eval, hc', ok_bind] at hc
    rw [isTrue_not hcanonical'.1 hcanonical'.2 (of_liftM_eq_ok hc), Bool.not_not]

variable (hscope : ∀ {e : Expr}, e.WellFormed scope → e.WellFormed (Scope.ground.onMemory widths))
include hscope

theorem step_uniform (hs : s.Concrete widths) (hd : d.program.Sound scope)
    (hguard : a.guard.WellFormed scope) (hwidth : a.guard.width = 1)
    (hstatement : a.statement.WellFormed scope)
    (htarget : ∀ address, a.target = .dynamic address →
      address.WellFormed scope ∧ ∃ node, d.program.node? a.source = some node) :
    SimM.Uniform (fun solver => (sim.withSolver solver).step s a) d (·.program.Sound scope)
      fun list _ => s.Moves widths a list := by
  simp only [step]
  refine .attempt (SymbolicMemory.eval_ground hs.memory (hscope hguard)) hd ?_
  rintro _ heval ⟨c, rfl, hcanonical, hcwidth, hc⟩
  rw [hwidth] at hcwidth
  -- the guard is a constant, so it is decided here and the path condition stays
  simp only [restrict_const hcwidth]
  cases htrue : c.isTrue with
  | false =>
      refine .lift d (fun _ _ => rfl) (.report (.pure hd ?_))
      exact ⟨c, hc, hcanonical, hcwidth, .inl ⟨htrue, rfl⟩⟩
  | true =>
      have hexec (pc : Location) {d' : Discovery} (hd' : d'.program.Sound scope) :
          SimM.Uniform (ε := UndefinedValue) (fun _ : Solver => do
            let memory ← s.memory.exec a.statement
            return [({ pc, memory, pathCondition := s.pathCondition } : State)])
            d' (·.program.Sound scope) fun list _ => s.Moves widths a list := by
        refine .attempt (SymbolicMemory.exec_yields (v := default) hs.memory
          (hstatement.mono hscope)) hd' ?_
        rintro m heq ⟨hfollows, -⟩
        refine .pure hd' ⟨c, hc, hcanonical, hcwidth, .inr ⟨htrue, _, rfl, ?_⟩⟩
        exact ⟨hfollows.wellFormed, hs.settled.exec heq, hs.condition⟩
      refine .lift d (fun _ _ => rfl) ?_
      cases hdynamic : a.target with
      | static location => exact hexec location hd
      | dynamic address =>
          obtain ⟨haddress, node, hnode⟩ := htarget address hdynamic
          refine .attempt (SymbolicMemory.eval_ground hs.memory (hscope haddress)) hd ?_
          rintro _ - ⟨x, rfl, -⟩
          -- a computed target is a constant too, and it is recorded at a node that is there
          refine .lift { d with program :=
            d.program.addResolved a.source (.boundary (.ofNat x.value)) }
            (fun _ _ => resolve_const) (hexec _ ?_)
          exact hd.addResolved hnode _

theorem stepAll_uniform (sim : Simulator) (hs : s.Concrete widths) (hd : d.program.Sound scope)
    {arrows : List Arrow} (harrows : Deterministic scope s.pc arrows)
    (hnode : arrows = [] ∨ ∃ node, d.program.node? s.pc = some node) :
    SimM.Uniform (fun solver => (sim.withSolver solver).stepAll s arrows) d
      (·.program.Sound scope) fun list _ => (arrows = [] ∧ list = []) ∨ ∃ next, list = [next] ∧
      next.Concrete widths := by
  cases harrows with
  | halt => exact .pure hd (.inl ⟨rfl, rfl⟩)
  | @only a hsource hguard hstatement htarget =>
      have hguardWF : a.guard.WellFormed scope := hguard ▸ Expr.wellFormed_bool true
      have hwidth : a.guard.width = 1 := hguard ▸ rfl
      have hdynamic (address : Expr) (h : a.target = .dynamic address) :
          address.WellFormed scope ∧ ∃ node, d.program.node? a.source = some node := by
        rw [h] at htarget
        rw [hsource]
        exact ⟨htarget, hnode.resolve_left (List.cons_ne_nil _ _)⟩
      simp only [stepAll, pure_bind]
      refine (step_uniform hscope hs hd hguardWF hwidth hstatement hdynamic).bind ?_
      rintro list d' hd' ⟨c, hc, -, -, hcases⟩
      rw [hguard] at hc
      cases hc
      rcases hcases with ⟨hfalse, -⟩ | ⟨-, next, rfl, hnext⟩
      · cases hfalse
      · exact .pure hd' (.inr ⟨next, rfl, hnext⟩)
  | @branch first second guard other _ hguard hwidth hother _ _ =>
      have hotherWF : other.WellFormed scope ∧ other.width = 1 := by
        rcases hother with rfl | rfl
        · exact ⟨⟨hguard, trivial⟩, hwidth⟩
        · exact ⟨hguard.1, hwidth⟩
      have hskip {guard : Expr} (target : Location) {d' : Discovery}
          (hd' : d'.program.Sound scope) (hguard : guard.WellFormed scope)
          (hwidth : guard.width = 1) :
          SimM.Uniform (fun solver =>
            (sim.withSolver solver).step s ⟨s.pc, .static target, guard, .skip⟩) d'
            (·.program.Sound scope) fun list _ =>
              s.Moves widths ⟨s.pc, .static target, guard, .skip⟩ list :=
        step_uniform hscope hs hd' hguard hwidth trivial (by simp)
      simp only [stepAll, pure_bind, bind_assoc]
      refine (hskip first hd hguard hwidth).bind ?_
      rintro list d' hd' ⟨c, hc, hcanonical, hcwidth, hcases⟩
      refine (hskip second hd' hotherWF.1 hotherWF.2).bind ?_
      rintro list' d' hd' ⟨c', hc', hcanonical', hcwidth', hcases'⟩
      refine .pure hd' (.inr ?_)
      -- one of the two guards is true, and the list has the successor under that one
      have hcomplement := isTrue_of_complement hother hc hc' ⟨hcanonical, hcwidth⟩
        ⟨hcanonical', hcwidth'⟩
      rcases hcases with ⟨hfalse, rfl⟩ | ⟨htrue, next, rfl, hnext⟩
      · rcases hcases' with ⟨hfalse', -⟩ | ⟨-, next, rfl, hnext⟩
        · rw [hfalse, hfalse'] at hcomplement
          cases hcomplement
        · exact ⟨next, rfl, hnext⟩
      · rcases hcases' with ⟨-, rfl⟩ | ⟨htrue', -⟩
        · exact ⟨next, rfl, hnext⟩
        · rw [htrue, htrue'] at hcomplement
          cases hcomplement

end Steps

end Simulator

end FlowRecovery
