import Mathlib
import FlowRecovery.Proofs.X86.Emission

namespace FlowRecovery

namespace X86

section Numbers

variable {w : Nat} (x y : BitVec w)

/-- Whether the number of ones in the lowest byte is even. -/
def evenParity : Bool :=
  (List.range 8).countP x.getLsbD % 2 == 0

/-- The flags that only depend on the result. -/
def resultStatus : List (Flag × Bool) :=
  [(.zero, x == 0), (.sign, x.msb), (.parity, evenParity x)]

def addStatus : List (Flag × Bool) :=
  (.carry, x.uaddOverflow y) :: (.overflow, x.saddOverflow y) :: resultStatus (x + y)

def subStatus : List (Flag × Bool) :=
  (.carry, x.usubOverflow y) :: (.overflow, x.ssubOverflow y) :: resultStatus (x - y)

/-- The flags of a bitwise operation. -/
def logicStatus : List (Flag × Bool) :=
  (.carry, false) :: (.overflow, false) :: resultStatus x

/-- The flags of an operation with a given result. -/
def operationStatus (op : BinaryOp) (result : BitVec w) : List (Flag × Bool) :=
  match op with
  | .add => addStatus x y
  | .sub => subStatus x y
  | _ => logicStatus result

theorem evenParity_eq : evenParity x =
    !([1, 2, 3, 4, 5, 6, 7].foldl (fun odd k => odd ^^ x.getLsbD k) (x.getLsbD 0)) := by
  have hrange : List.range 8 = [0, 1, 2, 3, 4, 5, 6, 7] := rfl
  simp only [evenParity, hrange, List.countP_cons, List.countP_nil, List.foldl_cons,
    List.foldl_nil]
  generalize x.getLsbD 0 = b₀, x.getLsbD 1 = b₁, x.getLsbD 2 = b₂, x.getLsbD 3 = b₃,
    x.getLsbD 4 = b₄, x.getLsbD 5 = b₅, x.getLsbD 6 = b₆, x.getLsbD 7 = b₇
  revert b₀ b₁ b₂ b₃ b₄ b₅ b₆ b₇
  decide

theorem extractLsb'_one (k : Nat) : x.extractLsb' k 1 = BitVec.ofBool (x.getLsbD k) := by
  ext i hi
  obtain rfl : i = 0 := by omega
  rw [BitVec.getElem_extractLsb', BitVec.getElem_ofBool, Nat.add_zero]

theorem ult_of_add : (x + y).ult x = x.uaddOverflow y := by
  have hx := x.isLt
  have hy := y.isLt
  rw [BitVec.ult, BitVec.uaddOverflow, BitVec.toNat_add, decide_eq_decide]
  rcases Nat.lt_or_ge (x.toNat + y.toNat) (2 ^ w) with hlt | hge
  · rw [Nat.mod_eq_of_lt hlt]
    omega
  · rw [Nat.mod_eq_sub_mod hge, Nat.mod_eq_of_lt (by omega)]
    omega

theorem sign_of_add : ((x ^^^ (x + y)) &&& (y ^^^ (x + y))).msb = x.saddOverflow y := by
  rw [BitVec.saddOverflow_eq, BitVec.msb_and, BitVec.msb_xor, BitVec.msb_xor]
  cases x.msb <;> cases y.msb <;> cases (x + y).msb <;> rfl

theorem sign_of_sub : ((x ^^^ y) &&& (x ^^^ (x - y))).msb = x.ssubOverflow y := by
  rw [BitVec.ssubOverflow_eq, BitVec.msb_and, BitVec.msb_xor, BitVec.msb_xor]
  cases x.msb <;> cases y.msb <;> cases (x - y).msb <;> rfl

theorem two_pow_eq_of_pos (hw : 0 < w) : 2 ^ w = 2 * 2 ^ (w - 1) := by
  rw [← pow_succ', Nat.sub_add_cancel hw]

theorem increment_overflow (hw : 1 < w) :
    (x + 1#w == BitVec.ofNat w (2 ^ (w - 1))) = x.saddOverflow 1#w := by
  have hx := x.isLt
  have hsign := x.toInt_eq_toNat_cond
  have hpow := two_pow_eq_of_pos (show 0 < w by omega)
  have hcast : (2 : Int) ^ (w - 1) = ((2 ^ (w - 1) : Nat) : Int) := by norm_cast
  have htwo : 2 ≤ 2 ^ (w - 1) := Nat.le_self_pow (by omega) 2
  rw [BitVec.saddOverflow, BitVec.toInt_one hw, Bool.eq_iff_iff, beq_iff_eq, ← BitVec.toNat_inj,
    BitVec.toNat_add, BitVec.toNat_ofNat, BitVec.toNat_ofNat, hcast]
  simp only [Bool.or_eq_true, decide_eq_true_eq]
  rw [hpow] at hx hsign ⊢
  generalize 2 ^ (w - 1) = p at *
  rw [Nat.mod_eq_of_lt (show 1 < 2 * p by omega), Nat.mod_eq_of_lt (show p < 2 * p by omega)]
  rcases Nat.lt_or_ge (x.toNat + 1) (2 * p) with hlt | hge
  · rw [Nat.mod_eq_of_lt hlt]
    omega
  · obtain heq : x.toNat + 1 = 2 * p := by omega
    rw [heq, Nat.mod_self]
    omega

theorem decrement_overflow (hw : 1 < w) :
    (x - 1#w == BitVec.ofNat w (2 ^ (w - 1) - 1)) = x.ssubOverflow 1#w := by
  have hx := x.isLt
  have hsign := x.toInt_eq_toNat_cond
  have hpow := two_pow_eq_of_pos (show 0 < w by omega)
  have hcast : (2 : Int) ^ (w - 1) = ((2 ^ (w - 1) : Nat) : Int) := by norm_cast
  have htwo : 2 ≤ 2 ^ (w - 1) := Nat.le_self_pow (by omega) 2
  rw [BitVec.ssubOverflow, BitVec.toInt_one hw, Bool.eq_iff_iff, beq_iff_eq, ← BitVec.toNat_inj,
    BitVec.toNat_sub, BitVec.toNat_ofNat, BitVec.toNat_ofNat, hcast]
  simp only [Bool.or_eq_true, decide_eq_true_eq]
  rw [hpow] at hx hsign ⊢
  generalize 2 ^ (w - 1) = p at *
  rw [Nat.mod_eq_of_lt (show 1 < 2 * p by omega), Nat.mod_eq_of_lt (show p - 1 < 2 * p by omega)]
  rcases Nat.eq_zero_or_pos x.toNat with hzero | hpos
  · rw [hzero, Nat.add_zero, Nat.mod_eq_of_lt (by omega)]
    omega
  · rw [show 2 * p - 1 + x.toNat = x.toNat - 1 + 2 * p by omega, Nat.add_mod_right,
      Nat.mod_eq_of_lt (by omega)]
    omega

end Numbers

end X86

/-- A memory with some flags set, one after the other. -/
def Memory.setFlags (m : Memory) (flags : List (X86.Flag × Bool)) : Memory :=
  flags.foldl (fun m p => m.setPhysical p.1.name (.ofBool p.2)) m

namespace Memory

variable {m : Memory} {flags : List (X86.Flag × Bool)} {f : X86.Flag} {b : Bool}

theorem setFlags_append (m : Memory) (flags : List (X86.Flag × Bool)) (f : X86.Flag) (b : Bool) :
    m.setFlags (flags ++ [(f, b)]) = (m.setFlags flags).setPhysical f.name (.ofBool b) :=
  List.foldl_append

@[simp] theorem byte?_setFlags (m : Memory) (flags : List (X86.Flag × Bool)) (a : UInt64) :
    (m.setFlags flags).byte? a = m.byte? a := by
  induction flags generalizing m with
  | nil => rfl
  | cons p flags ih => exact ih _

theorem physical?_setFlags_of_ne {name : String} (h : ∀ p ∈ flags, p.1.name ≠ name) :
    (m.setFlags flags).physical? name = m.physical? name := by
  induction flags generalizing m with
  | nil => rfl
  | cons p flags ih =>
      rw [List.forall_mem_cons] at h
      rw [setFlags, List.foldl_cons]
      exact (ih h.2).trans ((physical?_setPhysical _ _ _ _).trans (if_neg h.1))

theorem physical?_setFlags (hdistinct : (flags.map (·.1.name)).Nodup) (h : (f, b) ∈ flags) :
    (m.setFlags flags).physical? f.name = some (.ofBool b) := by
  induction flags generalizing m with
  | nil => cases h
  | cons p flags ih =>
      rw [List.map_cons, List.nodup_cons] at hdistinct
      rw [setFlags, List.foldl_cons]
      rcases List.mem_cons.mp h with rfl | h
      · refine (physical?_setFlags_of_ne fun q hq heq => hdistinct.1 ?_).trans ?_
        · exact List.mem_map.mpr ⟨q, hq, heq⟩
        · rw [physical?_setPhysical, if_pos rfl]
      · exact ih hdistinct.2 h

end Memory

namespace X86

theorem Gpr.base_ne_name (r : Gpr) (f : Flag) : r.register.base ≠ f.name := by
  have hall : ∀ r ∈ Gpr.all, ∀ f ∈ Flag.all, r.register.base ≠ f.name := by decide +kernel
  refine hall r ?_ f ?_
  · obtain ⟨size, number⟩ := r
    cases size <;> simp [Gpr.all]
  · cases f <;> decide

theorem sameData_setFlags (m : Memory) (flags : List (Flag × Bool)) :
    SameData m (m.setFlags flags) := by
  refine ⟨fun r => ?_, fun a => Memory.byte?_setFlags m flags a⟩
  exact Memory.physical?_setFlags_of_ne fun p _ heq => r.base_ne_name p.1 heq.symm

section Formulas

variable {order : ByteOrder} {M : Memory → Prop} {w : Nat} {x y z u : BitVec w}
  {a b c d result : Expr}

theorem Denotes.slice (h : Denotes order M x a) {k : Nat} (hk : k < w) :
    Builds order M (BitVec.ofBool (x.getLsbD k)) (Expr.mkUnary (.extract k 1) a) :=
  h.unary ⟨by decide, hk⟩ (by rw [UnaryOp.onBits, extractLsb'_one])

theorem Denotes.signBit (h : Denotes order M x a) :
    Builds order M (BitVec.ofBool x.msb) (Expr.mkUnary (.extract (a.width - 1) 1) a) := by
  have hpos := h.term.valid.1
  rw [h.term.width, BitVec.msb_eq_getLsbD_last]
  exact h.slice (by omega)

theorem Denotes.constant (h : Denotes order M x a) (n : Nat) :
    Builds order M (BitVec.ofNat w n) (Expr.constant a.width n) := by
  rw [h.term.width]
  exact builds_constant h.term.valid n

theorem Denotes.xor (ha : Denotes order M x a) (hb : Denotes order M y b) :
    Builds order M (x ^^^ y) (Expr.mkBinary .xor a b) :=
  ha.binary hb rfl (by rw [BinaryOp.onBits, BitVec.setWidth_eq])

theorem Denotes.and (ha : Denotes order M x a) (hb : Denotes order M y b) :
    Builds order M (x &&& y) (Expr.mkBinary .and a b) :=
  ha.binary hb rfl (by rw [BinaryOp.onBits, BitVec.setWidth_eq])

theorem Denotes.equal (ha : Denotes order M x a) (hb : Denotes order M y b) :
    Builds order M (BitVec.ofBool (x == y)) (Expr.mkBinary .eq a b) :=
  ha.binary hb rfl (by rw [BinaryOp.onBits, BitVec.setWidth_eq])

theorem Denotes.below (ha : Denotes order M x a) (hb : Denotes order M y b) :
    Builds order M (BitVec.ofBool (x.ult y)) (Expr.mkBinary .ult a b) :=
  ha.binary hb rfl (by rw [BinaryOp.onBits, BitVec.setWidth_eq])

namespace Lowering

theorem builds_bits {l : List Nat} {odd : Bool} (h : Denotes order M x a) (hl : ∀ k ∈ l, k < w)
    (hb : Denotes order M (BitVec.ofBool odd) b) :
    Builds order M (BitVec.ofBool (l.foldl (fun odd k => odd ^^ x.getLsbD k) odd))
      (l.foldlM (fun acc k => do Expr.mkBinary .xor acc (← Expr.mkUnary (.extract k 1) a))
        b) := by
  induction l generalizing odd b with
  | nil => exact .pure hb
  | cons k l ih =>
      rw [List.forall_mem_cons] at hl
      have hstep : Builds order M (BitVec.ofBool (odd ^^ x.getLsbD k))
          (do Expr.mkBinary .xor b (← Expr.mkUnary (.extract k 1) a)) := by
        rw [← BitVec.ofBool_xor_ofBool]
        exact (h.slice hl.1).bind fun bit hbit => hb.xor hbit
      rw [List.foldlM_cons]
      exact hstep.bind fun acc hacc => ih hl.2 hacc

theorem builds_oddParity (h : Denotes order M x a) (hbyte : 8 ≤ w) :
    Builds order M (BitVec.ofBool (!evenParity x)) (oddParity a) := by
  rw [evenParity_eq, Bool.not_not]
  refine (h.slice (by omega)).bind fun bit hbit => builds_bits h ?_ hbit
  intro k hk
  have : k ≤ 7 := by
    revert k
    decide
  omega

theorem builds_signOfBoth (ha : Denotes order M x a) (hb : Denotes order M y b)
    (hc : Denotes order M z c) (hd : Denotes order M u d) :
    Builds order M (BitVec.ofBool ((x ^^^ y) &&& (z ^^^ u)).msb) (signOfBoth a b c d) := by
  refine (ha.xor hb).bind fun s hs => (hc.xor hd).bind fun t ht => ?_
  exact (hs.and ht).bind fun both hboth => hboth.signBit

end Lowering

end Formulas

namespace Emission.Ran

variable {start : Start} {n w : Nat} {flags : List (Flag × Bool)} {e : Emission} {x y : BitVec w}
  {a b result value : Expr}

theorem setFlag (h : e.Ran start n (start.memory.setFlags flags)) (hn : n < maxSteps)
    (f : Flag) {bit : Bool} (hvalue : Denotes start.order start.Data (BitVec.ofBool bit) value) :
    Emits (Lowering.setFlag f value) e fun _ =>
      Emission.Ran start (n + 1) (start.memory.setFlags (flags ++ [(f, bit)])) := by
  refine h.assign hn f.term rfl hvalue.term ⟨trivial, hvalue.branchless⟩ fun hexecuted => ?_
  rw [Memory.setFlags_append, Flag.expr, Memory.exec,
    hvalue.eval ⟨hexecuted, sameData_setFlags _ _⟩, ok_bind, Word.ofBool_eq]
  exact Memory.writeRegister_physical _ _ _

theorem resultFlags (h : e.Ran start n (start.memory.setFlags flags)) (hn : n + 3 ≤ maxSteps)
    (hresult : Denotes start.order start.Data x result) (hbyte : 8 ≤ w) :
    Emits (Lowering.resultFlags result) e fun _ =>
      Emission.Ran start (n + 3) (start.memory.setFlags (flags ++ resultStatus x)) := by
  refine .build (hresult.constant 0) fun zero hzero =>
    .build (hresult.equal hzero) fun isZero hisZero => ?_
  refine (h.setFlag (by omega) .zero hisZero).bind fun _ e h =>
    .build hresult.signBit fun sign hsign => ?_
  refine (h.setFlag (by omega) .sign hsign).bind fun _ e h => ?_
  refine .build (Lowering.builds_oddParity hresult hbyte) fun odd hodd => ?_
  have heven := hodd.not
  rw [BitVec.not_ofBool, Bool.not_not] at heven
  have hlast := h.setFlag (by omega) .parity heven
  rw [List.append_assoc, List.append_assoc] at hlast
  exact hlast

theorem statusFlags {c o : Checked Expr} {carry overflow : Bool} (h : e.Ran start 0 start.memory)
    (hcarry : Builds start.order start.Data (BitVec.ofBool carry) c)
    (hoverflow : Builds start.order start.Data (BitVec.ofBool overflow) o)
    (hresult : Denotes start.order start.Data x result) (hbyte : 8 ≤ w) :
    Emits (do
        Lowering.setFlag .carry (← c)
        Lowering.setFlag .overflow (← o)
        Lowering.resultFlags result) e fun _ =>
      Emission.Ran start 5
        (start.memory.setFlags ((.carry, carry) :: (.overflow, overflow) :: resultStatus x)) := by
  have h : e.Ran start 0 (start.memory.setFlags []) := h
  refine .build hcarry fun _ hcarry => (h.setFlag (by decide) .carry hcarry).bind fun _ e h => ?_
  refine .build hoverflow fun _ hoverflow => (h.setFlag (by decide) .overflow hoverflow).bind
    fun _ e h => ?_
  exact h.resultFlags (by decide) hresult hbyte

theorem arithmetic {op : BinaryOp} {z : BitVec w} (h : e.Ran start 0 start.memory)
    (ha : Denotes start.order start.Data x a) (hb : Denotes start.order start.Data y b)
    (hbyte : 8 ≤ w) (hop : op.Admits w w) (hz : op.onBits x y = .ofBits z) :
    Emits (Lowering.arithmetic op a b) e fun result e =>
      Denotes start.order start.Data z result ∧
        e.Ran start 5 (start.memory.setFlags (operationStatus x y op z)) := by
  refine .build (ha.binary hb hop hz) fun result hresult => ?_
  have hreturn {flags : LowerM Unit} (hflags : Emits flags e fun _ =>
      Emission.Ran start 5 (start.memory.setFlags (operationStatus x y op z))) :
      Emits (do flags; return result) e fun result e => Denotes start.order start.Data z result ∧
        e.Ran start 5 (start.memory.setFlags (operationStatus x y op z)) :=
    hflags.bind fun _ e h => .pure ⟨hresult, h⟩
  dsimp only
  split
  · rw [BinaryOp.onBits, BitVec.setWidth_eq, Word.ofBits_inj] at hz
    subst hz
    have hcarry := hresult.below ha
    have hoverflow := Lowering.builds_signOfBoth ha hresult hb hresult
    rw [ult_of_add] at hcarry
    rw [sign_of_add] at hoverflow
    exact hreturn (h.statusFlags hcarry hoverflow hresult hbyte)
  · rw [BinaryOp.onBits, BitVec.setWidth_eq, Word.ofBits_inj] at hz
    subst hz
    have hoverflow := Lowering.builds_signOfBoth ha hb ha hresult
    rw [sign_of_sub] at hoverflow
    exact hreturn (h.statusFlags (ha.below hb) hoverflow hresult hbyte)
  · rename_i hadd hsub
    have hstatus : operationStatus x y op z = logicStatus z := by
      cases op with
      | add => exact absurd rfl hadd
      | sub => exact absurd rfl hsub
      | _ => rfl
    rw [hstatus] at hreturn ⊢
    exact hreturn (h.statusFlags (.pure (denotes_bool false)) (.pure (denotes_bool false))
      hresult hbyte)

theorem countFlags {op : BinaryOp} {z : BitVec w} {overflow : Bool}
    (h : e.Ran start 0 start.memory) (ha : Denotes start.order start.Data x a) (hbyte : 8 ≤ w)
    (hop : op.Admits w w) (hz : op.onBits x 1#w = .ofBits z)
    (hoverflow : (z == BitVec.ofNat w (if op = .add then 2 ^ (w - 1) else 2 ^ (w - 1) - 1)) =
      overflow) :
    Emits (Lowering.countFlags op a) e fun result e =>
      Denotes start.order start.Data z result ∧
        e.Ran start 4 (start.memory.setFlags (resultStatus z ++ [(.overflow, overflow)])) := by
  have h : e.Ran start 0 (start.memory.setFlags []) := h
  refine .build (ha.constant 1) fun one hone =>
    .build (ha.binary hone hop hz) fun result hresult => ?_
  refine (h.resultFlags (by decide) hresult hbyte).bind fun _ e h => ?_
  refine .build (ha.constant _) fun limit hlimit =>
    .build (hresult.equal hlimit) fun bit hbit => ?_
  rw [ha.term.width, Word.modulus_eq, hoverflow] at hbit
  exact (h.setFlag (by decide) .overflow hbit).bind fun _ e h => .pure ⟨hresult, h⟩

end Emission.Ran

end X86

end FlowRecovery
