import Mathlib
import FlowRecovery.Proofs.Memory.Overwriting
import FlowRecovery.Proofs.Simulation.Concrete
import FlowRecovery.Proofs.Simulation.Records

namespace FlowRecovery

/-- No choice occurs in an expression, so that all its parts are evaluated. -/
def Expr.Branchless : Expr → Prop
  | .const _ | .var _ _ | .reg _ => True
  | .mem address _ _ => address.Branchless
  | .unary _ a => a.Branchless
  | .binary _ a b => a.Branchless ∧ b.Branchless
  | .ite _ _ _ => False

/-- No choice occurs in an assignment. -/
def Statement.Branchless : Statement → Prop
  | .skip => True
  | .assign place value => place.Branchless ∧ value.Branchless

theorem Refines.exists_ok {ε α β : Type} {good : α → Prop} {denote : α → β}
    {symbolic : Attempt ε α} {concrete : Attempt ε β} (h : Refines good denote symbolic concrete)
    {b : β} (hb : concrete = .ok b) :
    ∃ a, symbolic = .ok a := by
  rcases h with ⟨a, ha, -, -⟩ | ⟨error, -, hfail⟩
  · exact ⟨a, ha⟩
  · cases hfail.symm.trans hb

namespace SymbolicMemory

variable {m : SymbolicMemory} {widths : String → Nat}

theorem exists_const_of_simplify {e : Expr} (h : e.WellFormed .ground) :
    ∃ c : Word, e.simplify = .ok (.const c) ∧ c = e.value default := by
  obtain ⟨r, hr, hequiv⟩ := Expr.simplify_sound h
  obtain ⟨c, rfl⟩ := (Expr.settled_of_simplify hr).isConst hequiv.wellFormed
  exact ⟨c, hr, hequiv.value default⟩

theorem concreteAddress_const (base : Word) (offset : UInt64) :
    concreteAddress (.const base) offset = liftM (Memory.cellAddress base offset) := by
  rw [concreteAddress, Memory.cellAddress]
  simp only [Expr.const?]
  cases Word.ofNat base.width (base.value + offset.toNat) <;> rfl

theorem exists_transformM (h : m.WellFormed .ground widths) {e : Expr}
    (he : e.WellFormed (Scope.ground.onMemory widths)) (hbranchless : e.Branchless) {c : Word}
    (hc : (m.concretise default).eval m.order default e = .ok c) :
    ∃ e', e.transformM m.value? = .ok e' := by
  induction e generalizing c with
  | const value => exact ⟨_, rfl⟩
  | var name width => exact ⟨_, rfl⟩
  | reg register =>
      obtain ⟨r, hr⟩ := (readRegister_refines (v := default) h he.2).exists_ok hc
      exact ⟨r, by rw [Expr.transformM, value?, hr]; rfl⟩
  | mem base offset width ih =>
      obtain ⟨hbase, hvalid, hbytes, -⟩ := he
      obtain ⟨x, hx, hc⟩ := exists_of_bind_eq_ok hc
      obtain ⟨address, haddress, hread⟩ := exists_of_bind_eq_ok hc
      obtain ⟨b, hb⟩ := ih hbase hbranchless hx
      obtain ⟨hbWF, -, hbValue⟩ := (transformM_yields (v := default) h hbase).of_eq_ok hb
      obtain ⟨x', hx', rfl⟩ := exists_const_of_simplify hbWF
      cases hbValue.symm.trans hx
      obtain ⟨r, hr⟩ :=
        (read_refines (v := default) h.holdsBytes address hvalid hbytes).exists_ok hread
      rw [Expr.transformM, hb, ok_bind, Expr.mkMem_of_bytes b offset hvalid hbytes, liftM_ok,
        ok_bind, value?, hx', liftM_ok, ok_bind, concreteAddress_const, haddress, ok_bind, hr]
      exact ⟨_, rfl⟩
  | unary op a ih =>
      obtain ⟨ha, hop⟩ := he
      obtain ⟨x, hx, -⟩ := exists_of_bind_eq_ok hc
      obtain ⟨a', ha'⟩ := ih ha hbranchless hx
      obtain ⟨hWF, hwidth, -⟩ := (transformM_yields (v := default) h ha).of_eq_ok ha'
      have hnode : (Expr.unary op a').WellFormed .ground := ⟨hWF, hwidth ▸ hop⟩
      rw [Expr.transformM, ha', ok_bind, Expr.mkUnary_of_wellFormed hnode, liftM_ok, ok_bind]
      exact ⟨_, rfl⟩
  | binary op a b iha ihb =>
      obtain ⟨ha, hb, hop⟩ := he
      obtain ⟨x, hx, hc⟩ := exists_of_bind_eq_ok hc
      obtain ⟨y, hy, -⟩ := exists_of_bind_eq_ok hc
      obtain ⟨a', ha'⟩ := iha ha hbranchless.1 hx
      obtain ⟨b', hb'⟩ := ihb hb hbranchless.2 hy
      obtain ⟨hWF, hwidth, -⟩ := (transformM_yields (v := default) h ha).of_eq_ok ha'
      obtain ⟨hWF', hwidth', -⟩ := (transformM_yields (v := default) h hb).of_eq_ok hb'
      have hnode : (Expr.binary op a' b').WellFormed .ground :=
        ⟨hWF, hWF', by rwa [hwidth, hwidth']⟩
      rw [Expr.transformM, ha', ok_bind, hb', ok_bind, Expr.mkBinary_of_wellFormed hnode,
        liftM_ok, ok_bind]
      exact ⟨_, rfl⟩
  | ite condition a b => exact hbranchless.elim

theorem eval_of_concrete (h : m.WellFormed .ground widths) {e : Expr}
    (he : e.WellFormed (Scope.ground.onMemory widths)) (hbranchless : e.Branchless) {c : Word}
    (hc : (m.concretise default).eval m.order default e = .ok c) : m.eval e = .ok (.const c) := by
  obtain ⟨e', he'⟩ := exists_transformM h he hbranchless hc
  obtain ⟨hWF, -, hvalue⟩ := (transformM_yields (v := default) h he).of_eq_ok he'
  obtain ⟨c', hc', rfl⟩ := exists_const_of_simplify hWF
  cases hvalue.symm.trans hc
  rw [eval, he', ok_bind, hc']
  rfl

theorem exec_of_concrete (h : m.WellFormed .ground widths) {statement : Statement}
    (hstatement : statement.WellFormed (Scope.ground.onMemory widths))
    (hbranchless : statement.Branchless) {memory : Memory}
    (hmemory : (m.concretise default).exec m.order default statement = .ok memory) :
    ∃ m', m.exec statement = .ok m' ∧ Follows .ground widths m m' ∧
      m'.concretise default = memory := by
  suffices hrun : ∃ m', m.exec statement = .ok m' by
    obtain ⟨m', hm'⟩ := hrun
    obtain ⟨hfollows, hconcrete⟩ := (exec_yields (v := default) h hstatement).of_eq_ok hm'
    cases hconcrete.symm.trans hmemory
    exact ⟨m', hm', hfollows, rfl⟩
  cases statement with
  | skip => exact ⟨m, rfl⟩
  | assign place value =>
      obtain ⟨hplace, hplaceWF, hvalue, hwidth⟩ := hstatement
      cases place with
      | reg register =>
          obtain ⟨x, hx, hmemory⟩ := exists_of_bind_eq_ok hmemory
          have heval := eval_of_concrete h hvalue hbranchless.2 hx
          obtain ⟨hxWF, hxWidth, -⟩ := (eval_yields (v := default) h hvalue).of_eq_ok heval
          obtain ⟨m', hm'⟩ := (writeRegister_refines (v := default) h hplaceWF.2 hxWF
            (hxWidth.trans hwidth.symm)).exists_ok hmemory
          exact ⟨m', by rw [exec, heval, ok_bind]; exact hm'⟩
      | mem base offset width =>
          obtain ⟨hbase, -, hbytes, -⟩ := hplaceWF
          obtain ⟨x, hx, hmemory⟩ := exists_of_bind_eq_ok hmemory
          obtain ⟨b, hb, hmemory⟩ := exists_of_bind_eq_ok hmemory
          obtain ⟨address, haddress, hmemory⟩ := exists_of_bind_eq_ok hmemory
          have heval := eval_of_concrete h hvalue hbranchless.2 hx
          have hbaseEval := eval_of_concrete h hbase hbranchless.1 hb
          obtain ⟨hxWF, hxWidth, -⟩ := (eval_yields (v := default) h hvalue).of_eq_ok heval
          obtain ⟨m', hm', -⟩ := write_refines (v := default) h.holdsBytes address hxWF
            (by rw [hxWidth, ← hwidth]; exact hbytes)
          refine ⟨m', ?_⟩
          rw [exec, heval, ok_bind]
          dsimp only
          rw [hbaseEval, ok_bind, concreteAddress_const, haddress, ok_bind, hm', liftM_ok]
      | _ => cases hplace

end SymbolicMemory

section Results

variable {ε α β : Type} {d d₁ d' : Discovery} {a : α}

theorem Succeeds.bind {x : ExceptT ε SimM α} {f : α → ExceptT ε SimM β} {b : β}
    (hx : Succeeds x d a d₁) (hf : Succeeds (f a) d₁ b d') : Succeeds (x >>= f) d b d' := by
  rw [Succeeds, SimM.Returns] at hx hf ⊢
  rw [ExceptT.run_bind, ExceptT.run_bind, StateT.run_bind, hx]
  exact hf

theorem Succeeds.lift {x : SimM α} (hx : SimM.Returns x d a d') :
    Succeeds (ε := ε) (liftM x) d a d' := by
  show (Except.ok <$> x).run.run d = _
  rw [map_eq_pure_bind, ExceptT.run_bind, StateT.run_bind, hx]
  rfl

theorem Succeeds.attempt {c : Attempt ε α} (hc : c = .ok a) :
    Succeeds (ε := ε) (liftM c) d a d := by
  subst hc
  rfl

theorem Succeeds.modify {change : Discovery → Discovery} {f : PUnit → ExceptT ε SimM α}
    (hf : Succeeds (f ⟨⟩) (change d) a d') : Succeeds (modify change >>= f) d a d' :=
  hf

theorem Succeeds.get {f : Discovery → ExceptT ε SimM α} (hf : Succeeds (f d) d a d') :
    Succeeds (MonadState.get >>= f) d a d' :=
  hf

end Results

namespace State

/-- The concrete memory of a state without unknowns. -/
def machine (s : State) : Memory :=
  s.memory.concretise default

theorem Concrete.stores {widths : String → Nat} {s : State} (h : s.Concrete widths) :
    s.machine.Stores widths := by
  intro name x hx
  rw [machine, SymbolicMemory.physical?_concretise] at hx
  cases hregister : s.memory.registers[name]? with
  | none =>
      rw [hregister] at hx
      exact h.memory.image hx
  | some e =>
      rw [hregister] at hx
      cases hx
      obtain ⟨hWF, hwidth⟩ := h.memory.register hregister
      exact ⟨hWF.canonical_value default, (hWF.width_value default).trans hwidth⟩

/-- A state without unknowns at a location, with some concrete memory, over the image of another
state. -/
structure Reaches (widths : String → Nat) (s : State) (pc : Location) (m : Memory) (s' : State) :
    Prop where
  concrete : s'.Concrete widths
  pc : s'.pc = pc
  machine : s'.machine = m
  order : s'.memory.order = s.memory.order
  image : s'.memory.image = s.memory.image

theorem Reaches.self {widths : String → Nat} {s s' : State} {l : Location} {m : Memory}
    (h : s.Reaches widths l m s') :
    s.Reaches widths l s'.machine s' :=
  ⟨h.concrete, h.pc, rfl, h.order, h.image⟩

theorem Reaches.trans {widths : String → Nat} {s s₁ s' : State} {l l' : Location} {m m' : Memory}
    (h : s.Reaches widths l m s₁) (h' : s₁.Reaches widths l' m' s') : s.Reaches widths l' m' s' :=
  ⟨h'.concrete, h'.pc, h'.machine, h'.order.trans h.order, h'.image.trans h.image⟩

end State

namespace Simulator

variable {sim : Simulator} {s s' : State} {d d' : Discovery} {a b : Arrow}
  {l : Location} {c : Word} {widths : String → Nat}

section Steps

theorem restrict_returns (sim : Simulator) (s : State) (hwidth : c.width = 1) (d : Discovery) :
    SimM.Returns (sim.restrict s.pathCondition (.const c)) d
      (if c.isTrue then some s.pathCondition else none) d := by
  rw [restrict_const hwidth]
  rfl

theorem step_blocked (hguard : s.memory.eval a.guard = .ok (.const c)) (hwidth : c.width = 1)
    (hfalse : c.isTrue = false) :
    Succeeds (sim.step s a) d [] { d with log := d.log.push (.infeasible a) } := by
  have hrestrict := restrict_returns sim s hwidth d
  rw [hfalse] at hrestrict
  exact (Succeeds.attempt hguard).bind ((Succeeds.lift hrestrict).bind rfl)

theorem step_taken (hguard : s.memory.eval a.guard = .ok (.const c)) (hwidth : c.width = 1)
    (htrue : c.isTrue = true) (htarget : a.target = .static l) {m : SymbolicMemory}
    (hexec : s.memory.exec a.statement = .ok m) :
    Succeeds (sim.step s a) d [⟨l, m, s.pathCondition⟩] d := by
  have hrestrict := restrict_returns sim s hwidth d
  rw [htrue] at hrestrict
  rw [step, htarget]
  exact (Succeeds.attempt hguard).bind
    ((Succeeds.lift hrestrict).bind ((Succeeds.attempt hexec).bind rfl))

theorem step_jumps (hguard : s.memory.eval a.guard = .ok (.const c)) (hwidth : c.width = 1)
    (htrue : c.isTrue = true) {address : Expr} {x : Word} (htarget : a.target = .dynamic address)
    (haddress : s.memory.eval address = .ok (.const x)) {m : SymbolicMemory}
    (hexec : s.memory.exec a.statement = .ok m) :
    Succeeds (sim.step s a) d [⟨.boundary (.ofNat x.value), m, s.pathCondition⟩]
      { d with program := d.program.addResolved a.source (.boundary (.ofNat x.value)) } := by
  have hrestrict := restrict_returns sim s hwidth d
  rw [htrue] at hrestrict
  rw [step, htarget]
  refine (Succeeds.attempt hguard).bind
    ((Succeeds.lift hrestrict).bind ((Succeeds.attempt haddress).bind ?_))
  exact (Succeeds.lift resolve_const).bind ((Succeeds.attempt hexec).bind rfl)

theorem stepAll_single {list : List State} (h : Succeeds (sim.step s a) d list d') :
    Succeeds (sim.stepAll s [a]) d list d' := by
  refine h.bind (Succeeds.bind rfl ?_)
  rw [List.append_nil]
  rfl

theorem exists_step (sim : Simulator) (hs : s.Concrete widths) (statement : Statement)
    (hstatement : statement.WellFormed (Scope.ground.onMemory widths))
    (hbranchless : statement.Branchless) {m : Memory}
    (hm : s.machine.exec s.memory.order default statement = .ok m) (l : Location) :
    ∃ s', s.Reaches widths l m s' ∧
      ∀ source d, Succeeds (sim.step s ⟨source, .static l, .bool true, statement⟩) d [s'] d := by
  obtain ⟨m', hm', hfollows, hconcrete⟩ := SymbolicMemory.exec_of_concrete hs.memory hstatement
    hbranchless hm
  have hguard : s.memory.eval (.bool true) = .ok (.const (.ofBool true)) :=
    SymbolicMemory.eval_of_concrete hs.memory (Expr.wellFormed_bool true) trivial rfl
  refine ⟨⟨l, m', s.pathCondition⟩, ?_, fun source d => step_taken hguard rfl rfl rfl hm'⟩
  exact ⟨⟨hfollows.wellFormed, hs.settled.exec hm', hs.condition⟩, rfl, hconcrete, hfollows.order,
    hfollows.image⟩

theorem exists_branch (sim : Simulator) (hs : s.Concrete widths) {guard other : Expr}
    {taken : Bool} (hguard : s.memory.eval guard = .ok (.const (.ofBool taken)))
    (hother : s.memory.eval other = .ok (.const (.ofBool !taken))) (target next : Location) :
    ∃ s', s.Reaches widths (if taken then target else next) s.machine s' ∧ ∀ source d, ∃ d₁ d₂,
      Succeeds (sim.step s ⟨source, .static target, guard, .skip⟩) d
        (if taken then [s'] else []) d₁ ∧
      Succeeds (sim.step s ⟨source, .static next, other, .skip⟩) d₁
        (if taken then [] else [s']) d₂ ∧
      d₁.program = d.program ∧ d₂.program = d.program := by
  have hreaches (l : Location) : s.Reaches widths l s.machine ⟨l, s.memory, s.pathCondition⟩ :=
    ⟨⟨hs.memory, hs.settled, hs.condition⟩, rfl, rfl, rfl, rfl⟩
  refine ⟨_, hreaches _, fun source d => ?_⟩
  cases taken with
  | true => exact ⟨_, _, step_taken hguard rfl rfl rfl rfl, step_blocked hother rfl rfl, rfl, rfl⟩
  | false =>
      exact ⟨_, _, step_blocked hguard rfl rfl, step_taken hother rfl rfl rfl rfl, rfl, rfl⟩

end Steps

section Runs

variable {address : UInt64} {mc : Microcode} {d₁ : Discovery} {s₁ : State}

/-- The program in which the steps of an instruction are found: it is the one there is, or
decoding gives it. -/
inductive Offers (sim : Simulator) (address : UInt64) (d : Discovery) : Microcode → Prop
  | present (h : d.program.contains (.boundary address) = true) : Offers sim address d d.program
  | decoded {next : UInt64} {mc : Microcode} (h : d.program.contains (.boundary address) = false)
      (hrun : (sim.decoder.decode sim.image address).run.run d.program = .ok (.ok next, mc)) :
      Offers sim address d mc

theorem Offers.arrows (h : sim.Offers s.pc.instruction d mc) :
    ∃ d', Succeeds (sim.arrows s) d (mc.arrowsAt s.pc) d' ∧ d'.program = mc := by
  -- the arrows are read off the program as it is after the decoding
  have hread {d : Discovery} {read : Discovery → List Arrow}
      (h : read d = d.program.arrowsAt s.pc) :
      Succeeds (ε := DecodeError) (do return read (← get)) d (d.program.arrowsAt s.pc) d :=
    .get (h ▸ rfl)
  cases h with
  | present h =>
      refine ⟨{ d with queries := d.queries + 1 }, .modify (.get ?_), rfl⟩
      simp only [h, Bool.not_true, Bool.false_eq_true, if_false]
      refine hread (d := { d with queries := d.queries + 1 }) ?_
      rw [Microcode.arrowsAt]
      cases d.program.node? s.pc <;> rfl
  | decoded h hrun =>
      refine ⟨⟨mc, d.queries + 1, d.log.push (.decoding s.pc.instruction)⟩,
        .modify (.get ?_), rfl⟩
      simp only [h, Bool.not_false, if_true]
      refine Succeeds.bind (decode_of_run (d := { d with queries := d.queries + 1 }) hrun)
        (hread ?_)
      rw [Microcode.arrowsAt]
      cases mc.node? s.pc <;> rfl

/-- A state moves on to its only successor. -/
def Advances (sim : Simulator) (d : Discovery) (s : State) (d' : Discovery) (s' : State) : Prop :=
  ∃ arrows d₁, Succeeds (sim.arrows s) d arrows d₁ ∧ Succeeds (sim.stepAll s arrows) d₁ [s'] d'

/-- A state moves on through the steps of its instruction until it gets to the boundary of an
instruction. -/
inductive Executes (sim : Simulator) : Discovery → State → Discovery → State → Prop
  | last {d d' : Discovery} {s s' : State} (h : sim.Advances d s d' s')
      (hboundary : s'.pc.isBoundary = true) :
      Executes sim d s d' s'
  | inner {d d₁ d' : Discovery} {s s₁ s' : State} (h : sim.Advances d s d₁ s₁)
      (hinside : s₁.pc.isBoundary = false) (hrest : Executes sim d₁ s₁ d' s') :
      Executes sim d s d' s'

/-- A state moves on, from one location to the next, along the locations that it leaves. -/
inductive Walks (sim : Simulator) : Discovery → State → List Location → Discovery → State → Prop
  | stay (d : Discovery) (s : State) : Walks sim d s [] d s
  | move {d d₁ d' : Discovery} {s s₁ s' : State} {path : List Location}
      (h : sim.Advances d s d₁ s₁)
      (hrest : Walks sim d₁ s₁ path d' s') : Walks sim d s (s.pc :: path) d' s'

theorem Walks.single (h : sim.Advances d s d' s') : sim.Walks d s [s.pc] d' s' :=
  .move h (.stay d' s')

theorem Walks.trans {path path' : List Location} (h : sim.Walks d s path d₁ s₁)
    (h' : sim.Walks d₁ s₁ path' d' s') :
    sim.Walks d s (path ++ path') d' s' := by
  induction h with
  | stay => exact h'
  | move hadvances _ ih => exact .move hadvances (ih h')

theorem Walks.executes {path : List Location} (h : sim.Walks d s path d₁ s₁)
    (hinside : ∀ l ∈ path.tail, l.isBoundary = false)
    (hlast : path ≠ [] → s₁.pc.isBoundary = false) (h' : sim.Executes d₁ s₁ d' s') :
    sim.Executes d s d' s' := by
  induction h with
  | stay => exact h'
  | move hadvances hrest ih =>
      cases hrest with
      | stay => exact .inner hadvances (hlast (List.cons_ne_nil _ _)) h'
      | move hadvances' hrest' =>
          refine .inner hadvances (hinside _ List.mem_cons_self) ?_
          refine ih (fun l hl => hinside l (List.mem_cons_of_mem _ hl))
            (fun _ => hlast (List.cons_ne_nil _ _)) h'

theorem Advances.of_arrows {arrows : List Arrow} {P : Discovery → Prop}
    (h : sim.Offers s.pc.instruction d mc) (harrows : mc.arrowsAt s.pc = arrows)
    (hstep : ∀ {d₁}, d₁.program = mc → ∃ d', Succeeds (sim.stepAll s arrows) d₁ [s'] d' ∧ P d') :
    ∃ d', sim.Advances d s d' s' ∧ P d' := by
  obtain ⟨d₁, hsucceeds, hprogram⟩ := h.arrows
  rw [harrows] at hsucceeds
  obtain ⟨d', hstepAll, hP⟩ := hstep hprogram
  exact ⟨d', ⟨arrows, d₁, hsucceeds, hstepAll⟩, hP⟩

end Runs

end Simulator

/-- From a step of an instruction on, each step has one arrow, which runs a statement and leads to
the next step. -/
def Microcode.Chain (mc : Microcode) (address : UInt64) : Nat → List Statement → Prop
  | _, [] => True
  | n, statement :: rest =>
    mc.arrowsAt ⟨address, n⟩ = [⟨⟨address, n⟩, .static ⟨address, n + 1⟩, .bool true, statement⟩] ∧
      mc.Chain address (n + 1) rest

/-- The arrow of a location that leads to a fixed one. -/
def Microcode.leadsTo (target l : Location) : List Arrow :=
  [⟨l, .static target, .bool true, .skip⟩]

/-- The arrow of a location that leads to a computed address. -/
def Microcode.jumpsTo (address : Expr) (l : Location) : List Arrow :=
  [⟨l, .dynamic address, .bool true, .skip⟩]

/-- The arrows of a location that lead to a target under a guard, and on to the next instruction
otherwise. -/
def Microcode.branchesTo (target next : Location) (guard other : Expr) (l : Location) :
    List Arrow :=
  [⟨l, .static target, guard, .skip⟩, ⟨l, .static next, other, .skip⟩]

/-- The concrete memory after some statements. -/
def Memory.execAll (m : Memory) (order : ByteOrder) (statements : List Statement) :
    Attempt UndefinedValue Memory :=
  statements.foldlM (fun m statement => m.exec order default statement) m

theorem Memory.execAll_concat {m m₁ m₂ : Memory} {order : ByteOrder} {statements : List Statement}
    {statement : Statement} (h : m.execAll order statements = .ok m₁)
    (hlast : m₁.exec order default statement = .ok m₂) :
    m.execAll order (statements ++ [statement]) = .ok m₂ := by
  rw [execAll] at h ⊢
  rw [List.foldlM_append, h, ok_bind, List.foldlM_cons, hlast]
  rfl

/-- Some steps of an instruction turn one concrete memory into another, and then there are certain
arrows to take. -/
structure Microcode.Performs (scope : Scope) (address : UInt64) (order : ByteOrder)
    (m m' : Memory) (n : Nat) (last : Location → List Arrow) (mc : Microcode) : Prop where
  present : mc.contains (.boundary address) = true
  steps : ∃ statements, statements.length = n ∧ mc.Chain address 0 statements ∧
    (∀ statement ∈ statements, statement.WellFormed scope ∧ statement.Branchless) ∧
    m.execAll order statements = .ok m'
  arrows : mc.arrowsAt ⟨address, n⟩ = last ⟨address, n⟩

namespace Microcode

variable {scope : Scope} {address : UInt64} {order : ByteOrder} {m m' : Memory} {n : Nat}
  {last : Location → List Arrow} {mc mc' : Microcode}

theorem Chain.congr {statements : List Statement} (h : mc.Chain address n statements)
    (harrows : ∀ k < n + statements.length, mc'.arrowsAt ⟨address, k⟩ =
      mc.arrowsAt ⟨address, k⟩) :
    mc'.Chain address n statements := by
  induction statements generalizing n with
  | nil => trivial
  | cons statement rest ih =>
      rw [List.length_cons] at harrows
      exact ⟨(harrows n (by omega)).trans h.1, ih h.2 fun k hk => harrows k (by omega)⟩

theorem Performs.congr (hpresent : mc'.contains (.boundary address) = true)
    (harrows : ∀ k, mc'.arrowsAt ⟨address, k⟩ = mc.arrowsAt ⟨address, k⟩)
    (h : mc.Performs scope address order m m' n last) :
    mc'.Performs scope address order m m' n last := by
  obtain ⟨statements, hlength, hchain, hrest⟩ := h.steps
  exact ⟨hpresent, ⟨statements, hlength, hchain.congr fun k _ => harrows k, hrest⟩,
    (harrows n).trans h.arrows⟩

end Microcode

namespace Simulator

variable {sim : Simulator} {s s' : State} {d d' : Discovery} {address : UInt64} {mc : Microcode}
  {widths : String → Nat} {statements : List Statement} {P : Discovery → State → Prop}

/-- The simulator walks along a chain of steps and does what their statements do on the concrete
memory. -/
theorem Walks.of_chain {n : Nat} (hoffers : sim.Offers address d mc)
    (hpresent : mc.contains (.boundary address) = true) (hs : s.Concrete widths)
    (hpc : s.pc = ⟨address, n⟩) (hchain : mc.Chain address n statements)
    (hstatements : ∀ statement ∈ statements,
      statement.WellFormed (Scope.ground.onMemory widths) ∧ statement.Branchless)
    {m : Memory} (hm : s.machine.execAll s.memory.order statements = .ok m) :
    ∃ d' s', sim.Walks d s ((List.range' n statements.length).map (Location.mk address)) d' s' ∧
      sim.Offers address d' mc ∧ s.Reaches widths ⟨address, n + statements.length⟩ m s' := by
  induction statements generalizing d s n with
  | nil =>
      cases hm
      exact ⟨d, s, .stay d s, hoffers, hs, hpc, rfl, rfl, rfl⟩
  | cons statement rest ih =>
      obtain ⟨harrows, hrest⟩ := hchain
      obtain ⟨⟨hstatement, hbranchless⟩, hstatements⟩ := List.forall_mem_cons.mp hstatements
      obtain ⟨m₁, hm₁, hm⟩ := exists_of_bind_eq_ok hm
      obtain ⟨s₁, hreaches, hstep⟩ := exists_step sim hs statement hstatement hbranchless hm₁
        ⟨address, n + 1⟩
      rw [← hpc] at harrows
      obtain ⟨d₁, hadvances, hprogram⟩ : ∃ d₁, sim.Advances d s d₁ s₁ ∧ d₁.program = mc := by
        refine Advances.of_arrows ?_ harrows fun hd₁ => ⟨_, stepAll_single (hstep _ _), hd₁⟩
        rw [hpc]
        exact hoffers
      have hoffers₁ : sim.Offers address d₁ mc := by
        subst hprogram
        exact .present hpresent
      rw [← hreaches.machine, ← hreaches.order] at hm
      obtain ⟨d', s', hwalks, hoffers', hreaches'⟩ := ih hoffers₁ hreaches.concrete hreaches.pc
        hrest hstatements hm
      refine ⟨d', s', ?_, hoffers', ?_⟩
      · rw [List.length_cons, List.range'_succ, List.map_cons, ← hpc]
        exact .move hadvances hwalks
      · rw [List.length_cons, Nat.add_comm rest.length, ← Nat.add_assoc]
        exact hreaches.trans hreaches'

theorem Executes.of_chain (hoffers : sim.Offers address d mc)
    (hpresent : mc.contains (.boundary address) = true) (hs : s.Concrete widths)
    (hpc : s.pc = .boundary address) (hchain : mc.Chain address 0 statements)
    (hstatements : ∀ statement ∈ statements,
      statement.WellFormed (Scope.ground.onMemory widths) ∧ statement.Branchless)
    {m : Memory} (hm : s.machine.execAll s.memory.order statements = .ok m)
    (hlast : ∀ d' s', sim.Offers address d' mc →
      s.Reaches widths ⟨address, statements.length⟩ m s' →
      ∃ d'' s'', sim.Executes d' s' d'' s'' ∧ P d'' s'') :
    ∃ d'' s'', sim.Executes d s d'' s'' ∧ P d'' s'' := by
  obtain ⟨d', s', hwalks, hoffers', hreaches⟩ := Walks.of_chain hoffers hpresent hs hpc hchain
    hstatements hm
  rw [Nat.zero_add] at hreaches
  obtain ⟨d'', s'', hexecutes, hP⟩ := hlast d' s' hoffers' hreaches
  refine ⟨d'', s'', hwalks.executes (fun l hl => ?_) (fun hne => ?_) hexecutes, hP⟩
  · cases statements with
    | nil => cases hl
    | cons statement rest =>
        rw [List.length_cons, List.range'_succ, List.map_cons, List.tail_cons] at hl
        obtain ⟨k, hk, rfl⟩ := List.mem_map.mp hl
        have hpos := (List.mem_range'_1.mp hk).1
        exact beq_eq_false_iff_ne.mpr (Nat.ne_of_gt hpos)
  · rw [hreaches.pc]
    refine beq_eq_false_iff_ne.mpr fun (hzero : statements.length = 0) => hne ?_
    rw [hzero]
    rfl

section Instructions

variable {scope : Scope} {last : Location → List Arrow} {m : Memory} {n : Nat}
  (hscope : ∀ {e : Expr}, e.WellFormed scope → e.WellFormed (Scope.ground.onMemory widths))
  (hoffers : sim.Offers address d mc) (hs : s.Concrete widths) (hpc : s.pc = .boundary address)
include hscope hoffers hs hpc

theorem Executes.of_performs (h : mc.Performs scope address s.memory.order s.machine m n last)
    (hlast : ∀ d' s', sim.Offers s'.pc.instruction d' mc → s.Reaches widths ⟨address, n⟩ m s' →
      mc.arrowsAt s'.pc = last s'.pc → ∃ d'' s'', sim.Executes d' s' d'' s'' ∧ P d'' s'') :
    ∃ d'' s'', sim.Executes d s d'' s'' ∧ P d'' s'' := by
  obtain ⟨statements, rfl, hchain, hstatements, hm⟩ := h.steps
  refine Executes.of_chain hoffers h.present hs hpc hchain (fun statement hstatement => ?_) hm
    fun d' s' hd' hs' => ?_
  · obtain ⟨hWF, hbranchless⟩ := hstatements statement hstatement
    exact ⟨hWF.mono hscope, hbranchless⟩
  · refine hlast d' s' ?_ hs' ?_
    · rw [hs'.pc]
      exact hd'
    · rw [hs'.pc]
      exact h.arrows

theorem exists_executes_goto {target : Location} (htarget : target.isBoundary = true)
    (h : mc.Performs scope address s.memory.order s.machine m n (Microcode.leadsTo target)) :
    ∃ d' s', sim.Executes d s d' s' ∧ s.Reaches widths target m s' ∧ d'.program = mc := by
  refine Executes.of_performs hscope hoffers hs hpc h fun d' s' hoffers' hs' harrows => ?_
  obtain ⟨s'', hreaches, hstep⟩ := exists_step sim hs'.concrete .skip trivial trivial rfl target
  obtain ⟨d'', hadvances, hprogram⟩ :=
    Advances.of_arrows hoffers' harrows fun hd => ⟨_, stepAll_single (hstep _ _), hd⟩
  refine ⟨d'', s'', .last hadvances (by rw [hreaches.pc, htarget]), ?_, hprogram⟩
  have hboth := hs'.trans hreaches
  rwa [hs'.machine] at hboth

theorem exists_executes_jump {target : Expr} (htarget : target.WellFormed scope)
    (hbranchless : target.Branchless) {x : Word}
    (hx : m.eval s.memory.order default target = .ok x)
    (h : mc.Performs scope address s.memory.order s.machine m n (Microcode.jumpsTo target)) :
    ∃ d' s', sim.Executes d s d' s' ∧ s.Reaches widths (.boundary (.ofNat x.value)) m s' ∧
      d'.program = mc.addResolved ⟨address, n⟩ (.boundary (.ofNat x.value)) := by
  refine Executes.of_performs hscope hoffers hs hpc h fun d' s' hoffers' hs' harrows => ?_
  have hguard : s'.memory.eval (.bool true) = .ok (.const (.ofBool true)) :=
    SymbolicMemory.eval_of_concrete hs'.concrete.memory (Expr.wellFormed_bool true) trivial rfl
  have heval : s'.memory.eval target = .ok (.const x) := by
    refine SymbolicMemory.eval_of_concrete hs'.concrete.memory (hscope htarget) hbranchless ?_
    rw [hs'.order, ← State.machine, hs'.machine]
    exact hx
  let target := Location.boundary (.ofNat x.value)
  obtain ⟨d'', hadvances, hprogram⟩ : ∃ d'', sim.Advances d' s' d''
      ⟨target, s'.memory, s'.pathCondition⟩ ∧
      d''.program = mc.addResolved ⟨address, n⟩ target := by
    refine Advances.of_arrows hoffers' harrows fun {d₁} hd => ?_
    refine ⟨_, stepAll_single (step_jumps hguard rfl rfl rfl heval rfl), ?_⟩
    rw [← hd, ← hs'.pc]
  refine ⟨d'', _, .last hadvances rfl, ?_, hprogram⟩
  have hconcrete := hs'.concrete
  exact ⟨⟨hconcrete.memory, hconcrete.settled, hconcrete.condition⟩, rfl, hs'.machine,
    hs'.order, hs'.image⟩

end Instructions

/-- The steps of the instruction at an address are not in the program, or they are there as
decoding adds them. -/
def Prepared (sim : Simulator) (address : UInt64) (d : Discovery) : Prop :=
  (∀ k, d.program.node? ⟨address, k⟩ = none) ∨
    d.program.contains (.boundary address) = true ∧
    ∃ mc next mc', (∀ k, mc.node? ⟨address, k⟩ = none) ∧
      (sim.decoder.decode sim.image address).run.run mc = .ok (.ok next, mc') ∧
      ∀ k, d.program.arrowsAt ⟨address, k⟩ = mc'.arrowsAt ⟨address, k⟩

theorem Prepared.offers {Q : Microcode → Prop} (h : sim.Prepared address d)
    (hdecode : ∀ mc, (∀ k, mc.node? ⟨address, k⟩ = none) → ∃ next mc',
      (sim.decoder.decode sim.image address).run.run mc = .ok (.ok next, mc') ∧
        Q mc' ∧ ∀ l, l.instruction ≠ address → mc'.node? l = mc.node? l)
    (hcongr : ∀ {mc mc' : Microcode}, mc'.contains (.boundary address) = true →
      (∀ k, mc'.arrowsAt ⟨address, k⟩ = mc.arrowsAt ⟨address, k⟩) → Q mc → Q mc') :
    ∃ mc, sim.Offers address d mc ∧ Q mc ∧ ∀ l, l.instruction ≠ address →
      mc.node? l = d.program.node? l := by
  rcases h with hfree | ⟨hpresent, mc, next, mc', hfree, hrun, harrows⟩
  · obtain ⟨next, mc, hrun, hQ, hother⟩ := hdecode d.program hfree
    refine ⟨mc, .decoded ?_ hrun, hQ, hother⟩
    rw [Microcode.contains_eq, Location.boundary, hfree]
    rfl
  · obtain ⟨_, _, hrun', hQ, -⟩ := hdecode mc hfree
    cases hrun.symm.trans hrun'
    exact ⟨d.program, .present hpresent, hcongr hpresent harrows hQ, fun _ _ => rfl⟩

end Simulator

end FlowRecovery
