import Mathlib
import FlowRecovery.X86.Decoder
import FlowRecovery.Proofs.Memory.ReadOverWrite
import FlowRecovery.Proofs.Simulation.Execution
import FlowRecovery.Proofs.X86.Operands

namespace FlowRecovery

theorem Expr.constant_eq {w : Nat} (hw : Word.ValidWidth w) (n : Nat) :
    Expr.constant w n = .ok (.const (.ofBits (BitVec.ofNat w n))) := by
  rw [Expr.constant, Word.ofNat_eq hw]
  rfl

namespace X86

section Terms

/-- The scope of microcode: the registers of the processor and memory cells. -/
def scope : Scope :=
  ⟨fun _ _ => False, (· ∈ registers), True⟩

/-- A well formed expression of a width. -/
structure Term (w : Nat) (e : Expr) : Prop where
  wellFormed : e.WellFormed scope
  width : e.width = w

variable {w : Nat} {a : Expr}

theorem Term.valid (h : Term w a) : Word.ValidWidth w :=
  h.width ▸ h.wellFormed.validWidth

theorem Term.not (h : Term w a) : Term w a.not :=
  ⟨⟨h.wellFormed, trivial⟩, h.width⟩

theorem Term.replace {pattern value : Expr} (hpattern : Term w pattern) (hvalue : Term w value)
    (h : a.WellFormed scope) : ∃ e, a.replace pattern value = .ok e ∧ Term a.width e := by
  -- the pattern keeps its width, and then so do the operands of every node above it
  fun_induction Expr.replace a pattern value with
  | case1 => exact ⟨_, rfl, hvalue.wellFormed, hvalue.width.trans hpattern.width.symm⟩
  | case2 | case3 | case4 => exact ⟨_, rfl, h, rfl⟩
  | case5 address offset width _ ih =>
      obtain ⟨x, hx, hterm⟩ := ih h.1
      rw [hx, ok_bind]
      exact ⟨_, Expr.mkMem_of_bytes x offset h.2.1 h.2.2.1, ⟨hterm.wellFormed, h.2⟩, rfl⟩
  | case6 op a _ ih =>
      obtain ⟨x, hx, hterm⟩ := ih h.1
      have hnode : (Expr.unary op x).WellFormed scope := ⟨hterm.wellFormed, hterm.width ▸ h.2⟩
      rw [hx, ok_bind]
      refine ⟨_, Expr.mkUnary_of_wellFormed hnode, hnode, ?_⟩
      rw [Expr.width, Expr.width, hterm.width]
  | case7 op a b _ iha ihb =>
      obtain ⟨x, hx, hxterm⟩ := iha h.1
      obtain ⟨y, hy, hyterm⟩ := ihb h.2.1
      have hnode : (Expr.binary op x y).WellFormed scope :=
        ⟨hxterm.wellFormed, hyterm.wellFormed, by rw [hxterm.width, hyterm.width]; exact h.2.2⟩
      rw [hx, ok_bind, hy, ok_bind]
      refine ⟨_, Expr.mkBinary_of_wellFormed hnode, hnode, ?_⟩
      rw [Expr.width_binary, Expr.width_binary, hxterm.width, hyterm.width]
  | case8 condition a b _ ihc iha ihb =>
      obtain ⟨hc, ha, hb, hone, hsame⟩ := h
      obtain ⟨x, hx, hxterm⟩ := ihc hc
      obtain ⟨y, hy, hyterm⟩ := iha ha
      obtain ⟨z, hz, hzterm⟩ := ihb hb
      have hnode : (Expr.ite x y z).WellFormed scope :=
        ⟨hxterm.wellFormed, hyterm.wellFormed, hzterm.wellFormed, hxterm.width.trans hone,
          hyterm.width.trans (hsame.trans hzterm.width.symm)⟩
      rw [hx, ok_bind, hy, ok_bind, hz, ok_bind]
      exact ⟨_, Expr.mkIte_of_wellFormed hnode, hnode, hyterm.width⟩

theorem Gpr.mem_registers (r : Gpr) : r.register ∈ registers := by
  have hall : r ∈ Gpr.all := by
    obtain ⟨size, number⟩ := r
    cases size <;> simp [Gpr.all]
  exact List.mem_append_left _ (List.mem_append_left _ (List.mem_map_of_mem hall))

theorem Flag.mem_registers (f : Flag) : f.register ∈ registers := by
  have hall : f ∈ Flag.all := by cases f <;> decide
  exact List.mem_append_right _ (List.mem_map_of_mem hall)

theorem Size.valid (s : Size) : Word.ValidWidth s.bits ∧ s.bits % 8 = 0 := by
  cases s <;> decide

theorem Size.byte_le (s : Size) : 8 ≤ s.bits := by
  cases s <;> decide

theorem Size.bits_div (s : Size) : s.bits / 8 = s.bytes :=
  Nat.mul_div_cancel_left _ (by decide)

theorem Gpr.size_register (r : Gpr) : r.register.size = r.size.bits := by
  obtain ⟨size, number⟩ := r
  cases size <;> rfl

theorem Gpr.term (r : Gpr) : Term r.size.bits r.expr :=
  ⟨⟨r.size_register ▸ r.size.valid.1, r.mem_registers⟩, r.size_register⟩

theorem Flag.term (f : Flag) : Term 1 f.expr :=
  ⟨⟨(by decide : Word.ValidWidth 1), f.mem_registers⟩, rfl⟩

theorem Gpr.term_dword {r : Gpr} (h : r.size = .dword) : Term 32 r.expr := by
  have hterm := r.term
  rwa [h] at hterm

end Terms

section Operands

variable (m : Memory)

/-- A register times a scale in 32 bits, zero if there is none. -/
def scaled (r : Option (Gpr × Nat)) : Attempt UndefinedValue (BitVec 32) :=
  r.elim (pure 0) fun p => do
    return BitVec.ofNat 32 ((← m.readRegister p.1.register).value * p.2)

/-- The address of a memory operand in 32 bits. -/
def addressOf (base : Option Gpr) (index : Option (Gpr × Nat)) (displacement : Int) :
    Attempt UndefinedValue (BitVec 32) := do
  let b ← scaled m (base.map (·, 1))
  let i ← scaled m index
  return b + i + BitVec.ofInt 32 displacement

def Operand.read (order : ByteOrder) : Operand → Attempt UndefinedValue Word
  | register r => m.readRegister r.register
  | memory size base index displacement => do
    m.read (UInt64.ofNat (← addressOf m base index displacement).toNat) size.bits order
  | immediate value => return value
  | target address => Word.ofNat 32 address.toNat

end Operands

section WholeRegisters

variable {r : Gpr} (hr : r.size = .dword)
include hr

theorem Gpr.register_of_dword : r.register = .physical r.name 32 := by
  obtain ⟨size, number⟩ := r
  obtain rfl : size = .dword := hr
  rfl

theorem Gpr.readRegister_setPhysical (m : Memory) (x : BitVec 32) :
    (m.setPhysical r.name (.ofBits x)).readRegister r.register = .ok (.ofBits x) := by
  rw [Gpr.register_of_dword hr]
  refine Memory.readRegister_physical (by decide) ?_
  rw [Memory.physical?_setPhysical, if_pos rfl]

theorem Gpr.physical?_of_readRegister {widths : String → Nat} {m : Memory} (hm : m.Stores widths)
    (hfits : r.register.Fits widths) {x : BitVec 32}
    (h : m.readRegister r.register = .ok (.ofBits x)) :
    m.physical? r.name = some (.ofBits x) := by
  rw [Gpr.register_of_dword hr] at h hfits
  obtain ⟨whole, hwhole⟩ : ∃ whole : BitVec 32, m.physical? r.name = some (.ofBits whole) :=
    Memory.exists_physical?_of_readRegister hm hfits h
  rw [Memory.readRegister_physical (by decide) hwhole, Except.ok.injEq, Word.ofBits_inj] at h
  rw [hwhole, h]

end WholeRegisters

/-- Memories with the same bytes and the same general registers. -/
structure SameData (m m' : Memory) : Prop where
  register (r : Gpr) : m'.physical? r.register.base = m.physical? r.register.base
  byte (a : UInt64) : m'.byte? a = m.byte? a

/-- An expression has a value on all memories of a class. -/
structure Denotes (order : ByteOrder) (M : Memory → Prop) {w : Nat} (x : BitVec w) (e : Expr) :
    Prop where
  term : Term w e
  branchless : e.Branchless
  eval {m : Memory} : M m → m.eval order default e = .ok (.ofBits x)

/-- A construction gives an expression with a value. -/
def Builds (order : ByteOrder) (M : Memory → Prop) {w : Nat} (x : BitVec w)
    (c : Checked Expr) : Prop :=
  ∃ e, c = .ok e ∧ Denotes order M x e

section Expressions

variable {order : ByteOrder} {M : Memory → Prop} {w v : Nat} {x y : BitVec w}
  {z : BitVec v} {a b : Expr}

theorem Builds.pure (h : Denotes order M x a) : Builds order M x (Pure.pure a) :=
  ⟨a, rfl, h⟩

theorem Builds.bind {c : Checked Expr} {f : Expr → Checked Expr} (h : Builds order M x c)
    (hf : ∀ e, Denotes order M x e → Builds order M z (f e)) : Builds order M z (c >>= f) := by
  obtain ⟨e, rfl, he⟩ := h
  exact hf e he

theorem denotes_const (hw : Word.ValidWidth w) (x : BitVec w) :
    Denotes order M x (.const (.ofBits x)) :=
  ⟨⟨Word.canonical_ofBits hw x, rfl⟩, trivial, fun _ => rfl⟩

theorem denotes_bool (value : Bool) : Denotes order M (BitVec.ofBool value) (.bool value) := by
  have hconst : Denotes order M (BitVec.ofBool value) (.const (.ofBits (BitVec.ofBool value))) :=
    denotes_const (by decide) _
  rwa [← Word.ofBool_eq] at hconst

theorem builds_constant (hw : Word.ValidWidth w) (n : Nat) :
    Builds order M (BitVec.ofNat w n) (Expr.constant w n) :=
  ⟨_, Expr.constant_eq hw n, denotes_const hw _⟩

theorem Denotes.unary (ha : Denotes order M x a) {op : UnaryOp} (hop : op.Admits w)
    (hz : op.onBits x = .ofBits z) : Builds order M z (Expr.mkUnary op a) := by
  have hnode : (Expr.unary op a).WellFormed scope := ⟨ha.term.wellFormed, ha.term.width ▸ hop⟩
  have hwidth : (Expr.unary op a).width = v := by
    have hon := op.width_on (.ofBits x)
    rw [UnaryOp.on_ofBits, hz] at hon
    rw [Expr.width, ha.term.width]
    exact hon.symm
  refine ⟨_, Expr.mkUnary_of_wellFormed hnode, ⟨hnode, hwidth⟩, ha.branchless, fun hm => ?_⟩
  rw [Memory.eval, ha.eval hm, ok_bind, UnaryOp.apply_ofBits ha.term.valid hop, hz]
  rfl

theorem Denotes.binary (ha : Denotes order M x a) (hb : Denotes order M y b) {op : BinaryOp}
    (hop : op.Admits w w) (hz : op.onBits x y = .ofBits z) :
    Builds order M z (Expr.mkBinary op a b) := by
  have hnode : (Expr.binary op a b).WellFormed scope :=
    ⟨ha.term.wellFormed, hb.term.wellFormed, by rwa [ha.term.width, hb.term.width]⟩
  have hwidth : (Expr.binary op a b).width = v := by
    have hon := op.width_on (.ofBits x) (.ofBits y)
    rw [BinaryOp.on_ofBits, hz] at hon
    rw [Expr.width_binary, ha.term.width, hb.term.width]
    exact hon.symm
  refine ⟨_, Expr.mkBinary_of_wellFormed hnode, ⟨hnode, hwidth⟩,
    ⟨ha.branchless, hb.branchless⟩, fun hm => ?_⟩
  rw [Memory.eval, ha.eval hm, ok_bind, hb.eval hm, ok_bind,
    BinaryOp.apply_ofBits ha.term.valid hop, hz]
  rfl

theorem Denotes.node (ha : Denotes order M x a) (hb : Denotes order M y b) {op : BinaryOp}
    (hop : op.Admits w w) (hz : op.onBits x y = .ofBits z) :
    Denotes order M z (.binary op a b) := by
  obtain ⟨e, he, hdenotes⟩ := ha.binary hb hop hz
  obtain ⟨-, rfl⟩ := Expr.admits_of_mkBinary he
  exact hdenotes

theorem Denotes.not (ha : Denotes order M x a) : Denotes order M (~~~x) a.not := by
  refine ⟨ha.term.not, ha.branchless, fun hm => ?_⟩
  rw [Expr.not, Memory.eval, ha.eval hm, ok_bind, UnaryOp.apply, Word.not_ofBits ha.term.valid]
  rfl

theorem Denotes.change (ha : Denotes order M x a) (h : ∀ {m}, M m → x = y) :
    Denotes order M y a :=
  ⟨ha.term, ha.branchless, fun hm => h hm ▸ ha.eval hm⟩

theorem Denotes.mono {M' : Memory → Prop} (ha : Denotes order M x a) (h : ∀ {m}, M' m → M m) :
    Denotes order M' x a :=
  ⟨ha.term, ha.branchless, fun hm => ha.eval (h hm)⟩

theorem Gpr.denotes {r : Gpr} {x : BitVec r.size.bits}
    (h : ∀ {m}, M m → m.readRegister r.register = .ok (.ofBits x)) : Denotes order M x r.expr :=
  ⟨r.term, trivial, h⟩

theorem Gpr.denotes_dword {r : Gpr} (hr : r.size = .dword) {x : BitVec 32}
    (h : ∀ {m}, M m → m.readRegister r.register = .ok (.ofBits x)) : Denotes order M x r.expr :=
  ⟨Gpr.term_dword hr, trivial, h⟩

theorem Flag.denotes {f : Flag} {value : Bool}
    (h : ∀ {m}, M m → m.readRegister f.register = .ok (.ofBool value)) :
    Denotes order M (BitVec.ofBool value) f.expr := by
  refine ⟨f.term, trivial, fun hm => ?_⟩
  rw [← Word.ofBool_eq]
  exact h hm

theorem cellAddress_ofBits (address : BitVec 32) :
    Memory.cellAddress (.ofBits address) 0 = .ok (UInt64.ofNat address.toNat) := by
  rw [Memory.cellAddress, Word.ofBits_width, Word.ofNat_eq (by decide)]
  simp

theorem Denotes.cellNode {address : BitVec 32} (ha : Denotes order M address a)
    (hw : Word.ValidWidth w) (hbytes : w % 8 = 0)
    (h : ∀ {m}, M m → m.read (UInt64.ofNat address.toNat) w order = .ok (.ofBits x)) :
    Denotes order M x (.mem a 0 w) := by
  refine ⟨⟨⟨ha.term.wellFormed, hw, hbytes, trivial⟩, rfl⟩, ha.branchless, fun hm => ?_⟩
  rw [Memory.eval, ha.eval hm, ok_bind, cellAddress_ofBits, liftM_ok, ok_bind, h hm]

theorem Denotes.cell {address : BitVec 32} (ha : Denotes order M address a)
    (hw : Word.ValidWidth w) (hbytes : w % 8 = 0)
    (h : ∀ {m}, M m → m.read (UInt64.ofNat address.toNat) w order = .ok (.ofBits x)) :
    Builds order M x (Expr.mkMem a 0 w) :=
  ⟨_, Expr.mkMem_of_bytes a 0 hw hbytes, ha.cellNode hw hbytes h⟩

theorem Denotes.exec_register {m : Memory} {r : Gpr} (hr : r.size = .dword) {x : BitVec 32}
    (ha : Denotes order M x a) (hm : M m) :
    m.exec order default (.assign r.expr a) = .ok (m.setPhysical r.name (.ofBits x)) := by
  rw [Gpr.expr, Memory.exec, ha.eval hm, ok_bind, Gpr.register_of_dword hr]
  exact m.writeRegister_physical r.name x

end Expressions

section Data

variable {m m' m'' : Memory} {order : ByteOrder} {base : Option Gpr} {index : Option (Gpr × Nat)}

theorem SameData.refl (m : Memory) : SameData m m :=
  ⟨fun _ => rfl, fun _ => rfl⟩

theorem SameData.symm (h : SameData m m') : SameData m' m :=
  ⟨fun r => (h.register r).symm, fun a => (h.byte a).symm⟩

theorem SameData.trans (h : SameData m m') (h' : SameData m' m'') : SameData m m'' :=
  ⟨fun r => (h'.register r).trans (h.register r), fun a => (h'.byte a).trans (h.byte a)⟩

theorem SameData.readRegister (h : SameData m m') (r : Gpr) :
    m'.readRegister r.register = m.readRegister r.register :=
  Memory.readRegister_congr (h.register r)

theorem SameData.read (h : SameData m m') (a : UInt64) (w : Nat) :
    m'.read a w order = m.read a w order :=
  Memory.read_congr fun _ _ => h.byte _

theorem scaled_congr (h : ∀ r : Gpr, m'.physical? r.register.base = m.physical? r.register.base) :
    scaled m' index = scaled m index := by
  have hread (r : Gpr) : m'.readRegister r.register = m.readRegister r.register :=
    Memory.readRegister_congr (h r)
  simp only [scaled, hread]

theorem addressOf_congr
    (h : ∀ r : Gpr, m'.physical? r.register.base = m.physical? r.register.base)
    (displacement : Int) :
    addressOf m' base index displacement = addressOf m base index displacement := by
  rw [addressOf, addressOf, scaled_congr h, scaled_congr h]

theorem Operand.read_congr_of_sameData {o : Operand} (h : SameData m m') :
    o.read m' order = o.read m order := by
  cases o with
  | register r => exact h.readRegister r
  | memory size base index displacement =>
      simp only [Operand.read, addressOf_congr h.register, h.read]
  | immediate _ | target _ => rfl

/-- All memories of a class have the same data. -/
def Uniform (M : Memory → Prop) : Prop :=
  ∀ m m', M m → M m' → SameData m m'

theorem uniform_sameData (m : Memory) : Uniform (SameData m) :=
  fun _ _ h h' => h.symm.trans h'

theorem Uniform.exists_eq {M : Memory → Prop} (hM : Uniform M) {α β : Type} [Nonempty α]
    {f : Memory → β} {g : α → β} (hcongr : ∀ {m m'}, SameData m m' → f m' = f m)
    (h : ∀ {m}, M m → ∃ x, f m = g x) : ∃ x, ∀ {m}, M m → f m = g x := by
  by_cases hsome : ∃ m, M m
  · obtain ⟨m, hm⟩ := hsome
    obtain ⟨x, hx⟩ := h hm
    exact ⟨x, fun hm' => (hcongr (hM m _ hm hm')).trans hx⟩
  · exact ⟨Classical.arbitrary α, fun {m} hm => absurd ⟨m, hm⟩ hsome⟩

end Data

section Addresses

variable {order : ByteOrder} {M : Memory → Prop} {R : Expr → Prop} {x y : BitVec 32} {a : Expr}
  {terms terms' : List Expr} {base : Option Gpr} {index : Option (Gpr × Nat)}

/-- A property that expressions made of constants and whole registers by operations have. -/
structure Inherited (R : Expr → Prop) : Prop where
  const (x : Word) : R (.const x)
  register {r : Gpr} : r.size = .dword → R r.expr
  binary {op : BinaryOp} {a b : Expr} : R a → R b → R (.binary op a b)

theorem inherited_true : Inherited fun _ => True :=
  ⟨fun _ => trivial, fun _ => trivial, fun _ _ => trivial⟩

/-- Expressions with a property whose values add up to a number. -/
def Sums (order : ByteOrder) (M : Memory → Prop) (R : Expr → Prop) (x : BitVec 32)
    (terms : List Expr) : Prop :=
  ∃ values, List.Forall₂ (fun y e => Denotes order M y e ∧ R e) values terms ∧
    ∀ {m}, M m → values.sum = x

theorem Sums.nil (h : ∀ {m}, M m → 0 = x) : Sums order M R x [] :=
  ⟨[], .nil, h⟩

theorem Sums.single (ha : Denotes order M y a) (hR : R a) (h : ∀ {m}, M m → y = x) :
    Sums order M R x [a] :=
  ⟨[y], .cons ⟨ha, hR⟩ .nil, fun hm => by simp [h hm]⟩

theorem Sums.append (h : Sums order M R x terms) (h' : Sums order M R y terms') :
    Sums order M R (x + y) (terms ++ terms') := by
  obtain ⟨values, hvalues, hsum⟩ := h
  obtain ⟨values', hvalues', hsum'⟩ := h'
  refine ⟨values ++ values', List.rel_append hvalues hvalues', fun hm => ?_⟩
  rw [List.sum_append, hsum hm, hsum' hm]

theorem exists_sum (hR : Inherited R) {values : List (BitVec 32)}
    (h : List.Forall₂ (fun y e => Denotes order M y e ∧ R e) values terms)
    (ha : Denotes order M x a) (haR : R a) : ∃ e, terms.foldlM (Expr.mkBinary .add) a = .ok e ∧
      Denotes order M (x + values.sum) e ∧ R e := by
  induction h generalizing x a with
  | nil =>
      rw [List.sum_nil, add_zero]
      exact ⟨a, rfl, ha, haR⟩
  | @cons y b values terms hb _ ih =>
      obtain ⟨sum, hsum, hdenotes⟩ : Builds order M (x + y) (Expr.mkBinary .add a b) :=
        ha.binary hb.1 rfl rfl
      obtain ⟨-, rfl⟩ := Expr.admits_of_mkBinary hsum
      rw [List.sum_cons, ← add_assoc, List.foldlM_cons, hsum, ok_bind]
      exact ih hdenotes (hR.binary haR hb.2)

theorem Sums.exists_total (hR : Inherited R) : Sums order M R x terms →
    ∃ e, (match terms with
      | [] => Expr.constant 32 0
      | term :: terms => terms.foldlM (Expr.mkBinary .add) term) = .ok e ∧
        Denotes order M x e ∧ R e := by
  rintro ⟨values, hvalues, hsum⟩
  cases hvalues with
  | nil => exact ⟨_, rfl, (denotes_const (by decide) 0).change hsum, hR.const _⟩
  | cons ha hvalues =>
      obtain ⟨e, he, hdenotes, heR⟩ := exists_sum hR hvalues ha.1 ha.2
      exact ⟨e, he, hdenotes.change hsum, heR⟩

theorem Gpr.exists_denotes (order : ByteOrder) (hM : Uniform M) {r : Gpr} (hr : r.size = .dword)
    (h : ∀ {m}, M m → ∃ x, m.readRegister r.register = .ok x) :
    ∃ y : BitVec 32, Denotes order M y r.expr := by
  obtain ⟨y, hy⟩ : ∃ y : BitVec 32, ∀ {m}, M m → m.readRegister r.register = .ok (.ofBits y) := by
    refine hM.exists_eq (fun hsame => hsame.readRegister r) fun hm => ?_
    obtain ⟨x, hx⟩ := h hm
    have hbits := Memory.exists_bits_of_readRegister hx
    rw [r.size_register, hr] at hbits
    obtain ⟨y, rfl⟩ := hbits
    exact ⟨y, hx⟩
  exact ⟨y, Gpr.denotes_dword hr hy⟩

theorem scaled_of_denotes {p : Gpr × Nat} {m : Memory}
    (h : Denotes order M y p.1.expr) (hm : M m) :
    scaled m (some p) = .ok (BitVec.ofNat 32 (y.toNat * p.2)) := by
  have hread : m.readRegister p.1.register = .ok (.ofBits y) := h.eval hm
  rw [scaled, Option.elim_some, hread, ok_bind, Word.ofBits_value]
  rfl

theorem sums_base (order : ByteOrder) (hM : Uniform M) (hR : Inherited R)
    (hbase : ∀ r ∈ base, r.size = .dword)
    (h : ∀ {m}, M m → scaled m (base.map (·, 1)) = .ok x) :
    Sums order M R x (base.map Gpr.expr).toList := by
  cases base with
  | none => exact .nil fun hm => Except.ok.inj (h hm)
  | some r =>
      obtain ⟨y, hy⟩ := r.exists_denotes order hM (hbase r rfl) fun hm => by
        obtain ⟨value, hvalue, -⟩ := exists_of_bind_eq_ok (h hm)
        exact ⟨value, hvalue⟩
      refine .single hy (hR.register (hbase r rfl)) fun hm => ?_
      have hx := (scaled_of_denotes (p := (r, 1)) hy hm).symm.trans (h hm)
      rw [Nat.mul_one, BitVec.ofNat_toNat, BitVec.setWidth_eq] at hx
      exact Except.ok.inj hx

theorem exists_index_bind (order : ByteOrder) {f : Gpr × Nat → Checked Expr}
    {g : Option Expr → Checked Expr} {post : Expr → Prop} (hM : Uniform M) (hR : Inherited R)
    (hindex : ∀ r ∈ index, r.1.size = .dword) (h : ∀ {m}, M m → scaled m index = .ok x)
    (hf : ∀ p (y : BitVec 32), Denotes order M y p.1.expr → R p.1.expr → ∃ e, f p = .ok e ∧
      Denotes order M (BitVec.ofNat 32 (y.toNat * p.2)) e ∧ R e)
    (hg : ∀ i : Option Expr, Sums order M R x i.toList → ∃ e, g i = .ok e ∧ post e) :
    ∃ e, (index.mapM f >>= g) = .ok e ∧ post e := by
  cases index with
  | none => exact hg none (.nil fun hm => Except.ok.inj (h hm))
  | some p =>
      obtain ⟨y, hy⟩ := p.1.exists_denotes order hM (hindex p rfl) fun hm => by
        obtain ⟨value, hvalue, -⟩ := exists_of_bind_eq_ok (h hm)
        exact ⟨value, hvalue⟩
      obtain ⟨e, he, hdenotes, heR⟩ := hf p y hy (hR.register (hindex p rfl))
      rw [Option.mapM_some, he]
      refine hg (some e) (.single hdenotes heR fun hm => ?_)
      exact Except.ok.inj ((scaled_of_denotes hy hm).symm.trans (h hm))

/-- The expression of an address has the value of the address, and every property that expressions
made of constants and whole registers have. -/
theorem exists_effectiveAddress {displacement : Int} (hM : Uniform M) (hR : Inherited R)
    (hbase : ∀ r ∈ base, r.size = .dword) (hindex : ∀ r ∈ index, r.1.size = .dword)
    (h : ∀ {m}, M m → addressOf m base index displacement = .ok x) :
    ∃ e, effectiveAddress base index displacement = .ok e ∧ Denotes order M x e ∧ R e := by
  obtain ⟨b, hb⟩ : ∃ b, ∀ {m}, M m → scaled m (base.map (·, 1)) = .ok b := by
    refine hM.exists_eq (fun hsame => scaled_congr hsame.register) fun hm => ?_
    obtain ⟨b, hb, -⟩ := exists_of_bind_eq_ok (h hm)
    exact ⟨b, hb⟩
  obtain ⟨i, hi⟩ : ∃ i, ∀ {m}, M m → scaled m index = .ok i := by
    refine hM.exists_eq (fun hsame => scaled_congr hsame.register) fun hm => ?_
    obtain ⟨_, -, hrest⟩ := exists_of_bind_eq_ok (h hm)
    obtain ⟨i, hi, -⟩ := exists_of_bind_eq_ok hrest
    exact ⟨i, hi⟩
  have hsum {m : Memory} (hm : M m) : b + i + BitVec.ofInt 32 displacement = x := by
    have haddress := h hm
    rw [addressOf, hb hm, ok_bind, hi hm, ok_bind] at haddress
    exact Except.ok.inj haddress
  refine exists_index_bind order hM hR hindex hi (fun p y hy hyR => ?_) fun term hterm => ?_
  · dsimp only
    split
    case isTrue hone =>
      rw [hone, Nat.mul_one, BitVec.ofNat_toNat, BitVec.setWidth_eq]
      exact ⟨_, rfl, hy, hyR⟩
    case isFalse =>
      have hfactor : Denotes order M (BitVec.ofNat 32 p.2)
          (.const (.ofBits (BitVec.ofNat 32 p.2))) :=
        denotes_const (by decide) _
      obtain ⟨e, he, hdenotes⟩ : Builds order M (y * BitVec.ofNat 32 p.2)
          (Expr.mkBinary .mul p.1.expr (.const (.ofBits (BitVec.ofNat 32 p.2)))) :=
        hy.binary hfactor rfl rfl
      obtain ⟨-, rfl⟩ := Expr.admits_of_mkBinary he
      rw [Expr.constant_eq (by decide), ok_bind, BitVec.ofNat_mul, BitVec.ofNat_toNat,
        BitVec.setWidth_eq]
      exact ⟨_, he, hdenotes, hR.binary hyR (hR.const _)⟩
  · have hterms := (sums_base order hM hR hbase hb).append hterm
    split
    case isTrue hzero =>
      subst hzero
      obtain ⟨e, he, hdenotes, heR⟩ := (hterms.append (.nil fun _ => rfl)).exists_total hR
      exact ⟨e, he, hdenotes.change hsum, heR⟩
    case isFalse =>
      have hvalid : Word.ValidWidth 32 := by decide
      rw [Word.ofInt_eq hvalid]
      have hdisplacement : Sums order M R (BitVec.ofInt 32 displacement)
          [.const (.ofBits (BitVec.ofInt 32 displacement))] :=
        .single (denotes_const hvalid _) (hR.const _) fun _ => rfl
      obtain ⟨e, he, hdenotes, heR⟩ := (hterms.append hdisplacement).exists_total hR
      exact ⟨e, he, hdenotes.change hsum, heR⟩

end Addresses

section Values

variable {m m' : Memory} {order : ByteOrder} {M : Memory → Prop} {size : Size}

theorem Uniform.exists_address (hM : Uniform M) {base : Option Gpr} {index : Option (Gpr × Nat)}
    {displacement : Int} (h : ∀ {m}, M m → ∃ x, addressOf m base index displacement = .ok x) :
    ∃ x, ∀ {m}, M m → addressOf m base index displacement = .ok x :=
  hM.exists_eq (fun hsame => addressOf_congr hsame.register displacement) h

theorem Operand.builds_value (hM : Uniform M) {o : Operand} (ho : o.Has size)
    {x : BitVec size.bits} (h : ∀ {m}, M m → o.read m order = .ok (.ofBits x)) :
    Builds order M x o.value := by
  cases o with
  | register r =>
      obtain rfl : r.size = size := ho
      exact .pure (Gpr.denotes h)
  | memory stored base index displacement =>
      obtain ⟨rfl, hbase, hindex⟩ := ho
      obtain ⟨address, haddress⟩ := hM.exists_address fun hm => by
        obtain ⟨address, haddress, -⟩ := exists_of_bind_eq_ok (h hm)
        exact ⟨address, haddress⟩
      obtain ⟨e, he, hdenotes, -⟩ := exists_effectiveAddress hM inherited_true hbase
        hindex haddress
      rw [Operand.value, he, ok_bind]
      refine hdenotes.cell stored.valid.1 stored.valid.2 fun hm => ?_
      have hread := h hm
      rwa [Operand.read, haddress hm, ok_bind] at hread
  | immediate value => exact .pure ⟨⟨ho.1, ho.2⟩, trivial, h⟩
  | target address =>
      obtain rfl : size = .dword := ho
      obtain ⟨e, he, hdenotes⟩ : Builds order M (BitVec.ofNat 32 address.toNat)
          (Expr.constant 32 address.toNat) := builds_constant (by decide) _
      refine ⟨e, he, hdenotes.change fun hm => ?_⟩
      have hread := h hm
      rw [Operand.read, Word.ofNat_eq (by decide), liftM_ok, Except.ok.injEq] at hread
      exact Word.ofBits_inj.mp hread

theorem exists_address_of_inherited {R : Expr → Prop} (hR : Inherited R) {base : Option Gpr}
    {index : Option (Gpr × Nat)} (displacement : Int) (hbase : ∀ r ∈ base, r.size = .dword)
    (hindex : ∀ r ∈ index, r.1.size = .dword) :
    ∃ e, effectiveAddress base index displacement = .ok e ∧ R e := by
  obtain ⟨e, he, -, heR⟩ : ∃ e, effectiveAddress base index displacement = .ok e ∧
      Denotes .little (fun _ => False) 0 e ∧ R e :=
    exists_effectiveAddress (fun _ _ hm => hm.elim) hR hbase hindex fun hm => hm.elim
  exact ⟨e, he, heR⟩

theorem Operand.builds_of_empty (hM : ∀ m, ¬ M m) {o : Operand} (ho : o.Has size)
    (x : BitVec size.bits) : Builds order M x o.value :=
  Operand.builds_value (fun m _ hm => absurd hm (hM m)) ho fun {m} hm => absurd hm (hM m)

theorem Operand.exists_place {o : Operand} (ho : o.Has size) (hplace : o.isPlace = true) :
    ∃ e, o.place? = .ok (some e) ∧ Term size.bits e ∧ Microcode.isPlace e = true ∧
      e.Branchless := by
  obtain ⟨e, he, hdenotes⟩ : Builds .little (fun _ => False) (0 : BitVec size.bits) o.value :=
    Operand.builds_of_empty (fun _ => id) ho 0
  refine ⟨e, ?_, hdenotes.term, ?_, hdenotes.branchless⟩
  · cases o with
    | register r | memory _ _ _ _ =>
        rw [place?, he]
        rfl
    | _ => cases hplace
  · cases o with
    | register r =>
        cases he
        rfl
    | memory stored base index displacement =>
        obtain ⟨address, -, he⟩ := exists_of_bind_eq_ok he
        obtain ⟨-, -, he⟩ := exists_of_bind_eq_ok he
        cases he
        rfl
    | _ => cases hplace

end Values

section Writing

variable {m₀ m m' : Memory} {order : ByteOrder} {widths : String → Nat} {size : Size}

theorem Operand.exists_bits_of_read {o : Operand} (ho : o.Has size) {x : Word}
    (h : o.read m order = .ok x) :
    ∃ y : BitVec size.bits, x = .ofBits y := by
  cases o with
  | register r =>
      obtain rfl : r.size = size := ho
      have hbits := Memory.exists_bits_of_readRegister h
      rwa [r.size_register] at hbits
  | memory stored base index displacement =>
      obtain ⟨rfl, -, -⟩ := ho
      obtain ⟨address, -, hread⟩ := exists_of_bind_eq_ok h
      exact Memory.exists_bits_of_read hread
  | immediate value =>
      cases h
      obtain ⟨hcanonical, hwidth⟩ := ho
      rw [← hwidth]
      exact ⟨x.bits, hcanonical.ofBits_bits.symm⟩
  | target address =>
      obtain rfl : size = .dword := ho
      exact Memory.exists_bits_of_ofNat (of_liftM_eq_ok h)

theorem Operand.size_of_read {o : Operand} {size' : Size} (ho : o.Has size')
    {x : BitVec size.bits} (h : o.read m order = .ok (.ofBits x)) : size' = size := by
  obtain ⟨y, hy⟩ := Operand.exists_bits_of_read ho h
  have hwidth : size.bits = size'.bits := congrArg Word.width hy
  cases size <;> cases size' <;> first | rfl | cases hwidth

/-- The bits of registers that an operand consists of. -/
def Operand.HoldsBit : Operand → String → Nat → Prop
  | register r, name, k =>
    r.register.base = name ∧ r.register.offset ≤ k ∧ k < r.register.offset + r.register.size
  | _, _, _ => False

/-- The bytes of memory that an operand consists of. -/
def Operand.HoldsByte (m : Memory) : Operand → UInt64 → Prop
  | memory size base index displacement, a =>
      ∃ address, addressOf m base index displacement = .ok address ∧
        ∃ k < size.bytes, UInt64.ofNat address.toNat + UInt64.ofNat k = a
  | _, _ => False

/-- An operand got another value, and nothing else changed. -/
structure Operand.Stored (order : ByteOrder) (o : Operand) (m : Memory) (x : Word) (m' : Memory) :
    Prop where
  value : o.read m' order = .ok x
  register {name : String} : (∀ k, ¬ o.HoldsBit name k) → m'.physical? name = m.physical? name
  bit {name : String} {k : Nat} : ¬ o.HoldsBit name k → m'.bit? name k = m.bit? name k
  byte {a : UInt64} : ¬ o.HoldsByte m a → m'.byte? a = m.byte? a

theorem Gpr.exists_stored (order : ByteOrder) {r : Gpr} (hr : r.register.Fits widths)
    {old : BitVec r.register.baseSize} (h : m.physical? r.register.base = some (.ofBits old))
    (x : BitVec r.register.size) :
    ∃ m', m.writeRegister r.register (.ofBits x) = .ok m' ∧
      (Operand.register r).Stored order m (.ofBits x) m' := by
  obtain ⟨new, hwrite, hnew, hkept⟩ := Memory.exists_writeRegister hr h x
  refine ⟨_, hwrite, ?_, fun {name} hname => ?_, fun {name k} hk => ?_, fun _ => rfl⟩
  · rw [Operand.read, Memory.readRegister_of_physical? (x := new) hr, hnew]
    rw [Memory.physical?_setPhysical, if_pos rfl]
  · rw [Memory.physical?_setPhysical, if_neg]
    rintro rfl
    have hpos := hr.size_pos
    exact hname r.register.offset ⟨rfl, by omega, by omega⟩
  · rw [Memory.bit?, Memory.bit?, Memory.physical?_setPhysical]
    split
    case isTrue hname =>
      subst hname
      rw [h, Option.map_some, Option.map_some, Word.ofBits_value, Word.ofBits_value,
        BitVec.testBit_toNat, BitVec.testBit_toNat, hkept k]
      by_contra hin
      exact hk ⟨rfl, by omega, by omega⟩
    case isFalse => rfl

theorem exists_stored_cell (order : ByteOrder) {base : Option Gpr} {index : Option (Gpr × Nat)}
    {displacement : Int} {address : BitVec 32}
    (h : addressOf m base index displacement = .ok address) (x : BitVec size.bits) :
    ∃ m', m.write (UInt64.ofNat address.toNat) (.ofBits x) order = .ok m' ∧
      (Operand.memory size base index displacement).Stored order m (.ofBits x) m' := by
  obtain ⟨m', hwrite, hread, hregisters, hkept⟩ :=
    Memory.exists_write m (UInt64.ofNat address.toNat) order size.valid.1 size.valid.2 x
  refine ⟨m', hwrite, ?_, fun _ => hregisters _, fun {name k} _ => ?_, fun {a} ha =>
    hkept a fun k hk heq => ha ?_⟩
  · rw [Operand.read, addressOf_congr fun r => hregisters _, h, ok_bind, hread]
  · rw [Memory.bit?, Memory.bit?, hregisters]
  · exact ⟨address, h, k, by rwa [size.bits_div] at hk, heq⟩

/-- Assigning a value to the place of an operand turns one memory into another, if that is one of
the class that the value is computed on. -/
structure Operand.Assigns (order : ByteOrder) (M : Memory → Prop) (o : Operand)
    (x : BitVec size.bits) (m m' : Memory) (place : Expr) : Prop where
  eq_place : o.place? = .ok (some place)
  term : Term size.bits place
  isPlace : Microcode.isPlace place = true
  branchless : place.Branchless
  exec {value : Expr} : M m → Denotes order M x value →
    m.exec order default (.assign place value) = .ok m'

theorem Operand.exists_assigns_of_empty {M : Memory → Prop} (hM : ∀ m, ¬ M m) {o : Operand}
    (ho : o.Has size) (hisPlace : o.isPlace = true) (x : BitVec size.bits) :
    ∃ place, o.Assigns order M x m m' place := by
  obtain ⟨place, hplace, hterm, hisPlace', hbranchless⟩ := Operand.exists_place ho hisPlace
  exact ⟨place, hplace, hterm, hisPlace', hbranchless, fun hm => absurd hm (hM m)⟩

theorem Operand.exists_assigns {M : Memory → Prop} {o : Operand} (ho : o.Has size)
    (hisPlace : o.isPlace = true) (hwidths : ∀ r ∈ registers, r.Fits widths)
    (hstores : m₀.Stores widths) {old : Word} (hold : o.read m₀ order = .ok old)
    (hM : ∀ {m}, M m → SameData m₀ m) (hsame : SameData m₀ m) (x : BitVec size.bits) :
    ∃ place m', o.Assigns order M x m m' place ∧ o.Stored order m (.ofBits x) m' := by
  obtain ⟨place, hplace, hterm, hisPlace', hbranchless⟩ := Operand.exists_place ho hisPlace
  cases o with
  | register r =>
      obtain rfl : r.size = size := ho
      cases hplace
      have hfits := hwidths _ r.mem_registers
      obtain ⟨whole, hwhole⟩ := Memory.exists_physical?_of_readRegister hstores hfits hold
      rw [← hsame.register r] at hwhole
      obtain ⟨y, hy⟩ : ∃ y : BitVec r.register.size, Word.ofBits x = .ofBits y := by
        rw [r.size_register]
        exact ⟨x, rfl⟩
      obtain ⟨m', hwrite, hstored⟩ := Gpr.exists_stored order hfits hwhole y
      rw [← hy] at hwrite hstored
      refine ⟨r.expr, m', ⟨rfl, hterm, rfl, trivial, fun hm hvalue => ?_⟩, hstored⟩
      rw [Gpr.expr, Memory.exec, hvalue.eval hm, ok_bind, hwrite]
  | memory stored base index displacement =>
      obtain ⟨rfl, hbase, hindex⟩ := ho
      obtain ⟨address, haddress, -⟩ := exists_of_bind_eq_ok hold
      obtain ⟨e, he, hdenotes, -⟩ := exists_effectiveAddress (x := address)
        (uniform_sameData m₀) inherited_true hbase hindex
        fun hm => (addressOf_congr hm.register displacement).trans haddress
      obtain rfl : place = .mem e 0 stored.bits := by
        rw [place?, Operand.value, he, ok_bind,
          Expr.mkMem_of_bytes e 0 stored.valid.1 stored.valid.2] at hplace
        cases hplace
        rfl
      obtain ⟨m', hwrite, hstored⟩ :=
        exists_stored_cell order ((addressOf_congr hsame.register _).trans haddress) x
      refine ⟨_, m', ⟨hplace, hterm, rfl, hbranchless, fun hm hvalue => ?_⟩, hstored⟩
      rw [Memory.exec, hvalue.eval hm, ok_bind, hdenotes.eval (hM hm), ok_bind,
        cellAddress_ofBits, liftM_ok, ok_bind, hwrite]
      rfl
  | immediate value => cases hisPlace
  | target address => cases hisPlace

end Writing

end X86

end FlowRecovery
