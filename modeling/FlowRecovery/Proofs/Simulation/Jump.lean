import Mathlib
import FlowRecovery.Testing
import FlowRecovery.Proofs.Memory.DefinedAddresses
import FlowRecovery.Proofs.Simulation.Records

namespace FlowRecovery

/-- A solver that breaks no contract when it is asked about a formula. It may still fail or leave
the formula open. -/
def Solver.Answers (s : Scope) (solver : Solver) : Prop :=
  ∀ formula, formula.WellFormed s → formula.width = 1 →
    ∃ result, (solver.check formula).split = .ok result

namespace SimM

variable {α β : Type} {able : Prop} {d d' : Discovery} {post : α → Discovery → Prop}
  {post' : β → Discovery → Prop}

/-- What a computation returns satisfies a condition, and something is returned under an
assumption. -/
structure Gives (able : Prop) (x : SimM α) (d : Discovery) (post : α → Discovery → Prop) :
    Prop where
  returns : able → ∃ a d', Returns x d a d'
  result {a : α} {d' : Discovery} : Returns x d a d' → post a d'

theorem Gives.pure {a : α} (h : post a d) : Gives able (Pure.pure a) d post := by
  refine ⟨fun _ => ⟨a, d, rfl⟩, fun h' => ?_⟩
  cases h'
  exact h

theorem Gives.bind {x : SimM α} {f : α → SimM β} (hx : Gives able x d post)
    (hf : ∀ a d', post a d' → Gives able (f a) d' post') : Gives able (x >>= f) d post' := by
  constructor
  · intro h
    obtain ⟨a, d', ha⟩ := hx.returns h
    obtain ⟨b, d'', hb⟩ := (hf a d' (hx.result ha)).returns h
    refine ⟨b, d'', ?_⟩
    rw [Returns, ExceptT.run_bind, StateT.run_bind, ha]
    exact hb
  · intro b d'' h
    obtain ⟨a, d', ha, hb⟩ := h.of_bind
    exact (hf a d' (hx.result ha)).result hb

theorem Gives.imp {x : SimM α} (hx : Gives able x d post) {weaker : α → Discovery → Prop}
    (h : ∀ {a d'}, post a d' → weaker a d') : Gives able x d weaker :=
  ⟨hx.returns, fun ha => h (hx.result ha)⟩

theorem Gives.checked {c : Checked α} {a : α} (hc : c = .ok a) {f : α → SimM β}
    (hf : Gives able (f a) d post') :
    Gives able (liftM c >>= f) d post' := by
  subst hc
  exact hf

theorem Gives.modify {change : Discovery → Discovery} {f : PUnit → SimM β}
    (hf : Gives able (f ⟨⟩) (change d) post') : Gives able (modify change >>= f) d post' :=
  ⟨hf.returns, hf.result⟩

end SimM

namespace Simulator

variable {sim : Simulator} {scope : Scope} {target condition remaining : Expr}
  {found : List Successor} {d d' : Discovery}

section Terms

variable {a b : Expr}

theorem isTrue_ofBool (value : Bool) : (Word.ofBits (BitVec.ofBool value)).isTrue = value := by
  cases value with
  | false => rfl
  | true => rfl

theorem isTrue_value_eq (ha : a.WellFormed scope) (hb : b.WellFormed scope)
    (hwidth : a.width = b.width) (v : Valuation) :
    ((Expr.binary .eq a b).value v).isTrue = true ↔ (a.value v).value = (b.value v).value := by
  obtain ⟨x, hx⟩ := ha.exists_bits hwidth v
  obtain ⟨y, hy⟩ := hb.exists_bits rfl v
  rw [Expr.value, hx, hy, BinaryOp.on_ofBits, BinaryOp.onBits, BitVec.setWidth_eq,
    isTrue_ofBool, beq_iff_eq, Word.ofBits_value, Word.ofBits_value, BitVec.toNat_inj]

theorem isTrue_value_ne (ha : a.WellFormed scope) (hb : b.WellFormed scope)
    (hwidth : a.width = b.width) (v : Valuation) :
    ((Expr.binary .ne a b).value v).isTrue = true ↔ (a.value v).value ≠ (b.value v).value := by
  obtain ⟨x, hx⟩ := ha.exists_bits hwidth v
  obtain ⟨y, hy⟩ := hb.exists_bits rfl v
  rw [Expr.value, hx, hy, BinaryOp.on_ofBits, BinaryOp.onBits, BitVec.setWidth_eq,
    isTrue_ofBool, bne_iff_ne, Word.ofBits_value, Word.ofBits_value, ne_eq, ne_eq,
    BitVec.toNat_inj]

end Terms

theorem isFeasible_gives {formula : Expr} (hformula : formula.WellFormed scope)
    (hwidth : formula.width = 1) :
    SimM.Gives (sim.solver.Answers scope) (sim.isFeasible formula) d fun feasible d' =>
      d.Logged d' ∧ (sim.solver.SoundOver scope → feasible = false →
        ∀ v, ¬ (formula.value v).isTrue = true) := by
  constructor
  · intro hanswers
    obtain ⟨result, hresult⟩ := hanswers formula hformula hwidth
    unfold isFeasible
    rw [hresult]
    split
    · exact ⟨_, _, rfl⟩
    · cases result with
      | ok answer => exact ⟨_, _, rfl⟩
      | error error => exact ⟨_, _, rfl⟩
  · intro feasible d' h
    refine ⟨(sim.isFeasible_changes formula).of_returns h, ?_⟩
    rintro hsolver rfl v
    exact isFeasible_sound hsolver hformula hwidth h v

section Search

/-- A successor of a jump: an instruction whose address fits the target, under the condition that
the jump is taken and leads there. -/
structure Candidate (scope : Scope) (target condition : Expr) (p : Successor) : Prop where
  boundary : p.1 = .boundary p.1.instruction
  fits : p.1.instruction.toNat < 2 ^ target.width
  wellFormed : p.2.WellFormed scope
  width : p.2.width = 1
  holds (v : Valuation) : (p.2.value v).isTrue = true ↔
    (condition.value v).isTrue = true ∧ (target.value v).value = p.1.instruction.toNat

/-- The successors that were found, and the condition under which the jump leads elsewhere. -/
structure Searched (scope : Scope) (target condition : Expr) (found : List Successor)
    (remaining : Expr) :
    Prop where
  candidates : ∀ p ∈ found, Candidate scope target condition p
  wellFormed : remaining.WellFormed scope
  width : remaining.width = 1
  holds (v : Valuation) : (remaining.value v).isTrue = true ↔
    (condition.value v).isTrue = true ∧
    ∀ p ∈ found, (target.value v).value ≠ p.1.instruction.toNat

theorem searched_nil (hcondition : condition.WellFormed scope) (hwidth : condition.width = 1) :
    Searched scope target condition [] condition :=
  ⟨by simp, hcondition, hwidth, by simp⟩

theorem exists_constant (scope : Scope) {w : Nat} (hw : Word.ValidWidth w) {address : UInt64}
    (hfits : address.toNat < 2 ^ w) :
    ∃ c : Expr, Expr.constant w address.toNat = .ok c ∧ c.WellFormed scope ∧ c.width = w ∧
      ∀ v, (c.value v).value = address.toNat := by
  refine ⟨.const (.ofBits (BitVec.ofNat w address.toNat)), ?_, Word.canonical_ofBits hw _,
    rfl, fun v => ?_⟩
  · rw [Expr.constant, Word.ofNat_eq hw]
    rfl
  · rw [Expr.value, Word.ofBits_value, BitVec.toNat_ofNat, Nat.mod_eq_of_lt hfits]

theorem Searched.add (h : Searched scope target condition found remaining) {p : Successor}
    (hp : Candidate scope target condition p) {c : Expr} (htarget : target.WellFormed scope)
    (hc : c.WellFormed scope) (hwidth : c.width = target.width)
    (hvalue : ∀ v, (c.value v).value = p.1.instruction.toNat) :
    Searched scope target condition (found ++ [p])
      (.binary .and remaining (.binary .ne target c)) := by
  have hother : (Expr.binary .ne target c).WellFormed scope := ⟨htarget, hc, hwidth.symm⟩
  refine ⟨?_, ⟨h.wellFormed, hother, h.width⟩, h.width, fun v => ?_⟩
  · rw [List.forall_mem_append, List.forall_mem_singleton]
    exact ⟨h.candidates, hp⟩
  · rw [isTrue_value_and h.wellFormed hother h.width rfl, isTrue_value_ne htarget hc hwidth.symm,
      h.holds, hvalue, List.forall_mem_append, List.forall_mem_singleton, and_assoc]

/-- The search finds addresses in their order, no more than the threshold allows, and keeps track
of what is left. -/
theorem tryAddresses_gives (htarget : target.WellFormed scope)
    (hcondition : condition.WellFormed scope) (hwidth : condition.width = 1)
    (h : Searched scope target condition found remaining) (addresses : List UInt64) :
    SimM.Gives (sim.solver.Answers scope)
      (sim.tryAddresses target condition addresses found remaining) d fun r _ =>
        Searched scope target condition r.1 r.2 ∧
        r.1.length ≤ max sim.policy.threshold found.length ∧
          ∃ new, r.1 = found ++ new ∧ (new.map (·.1.instruction)).Sublist addresses := by
  induction addresses generalizing found remaining d with
  | nil => exact .pure ⟨h, by simp, [], by simp, by simp⟩
  | cons address rest ih =>
      have hdone : Searched scope target condition found remaining ∧
          found.length ≤ max sim.policy.threshold found.length ∧
          ∃ new, found = found ++ new ∧ (new.map (·.1.instruction)).Sublist (address :: rest) :=
        ⟨h, by simp, [], by simp, by simp⟩
      unfold tryAddresses
      split
      case isTrue => exact .pure hdone
      case isFalse hfew =>
        refine .checked (Word.ones_eq htarget.validWidth) ?_
        split
        case isTrue => exact .pure hdone
        case isFalse hsmall =>
          have hfits : address.toNat < 2 ^ target.width := by
            rw [Word.ofBits_value, BitVec.toNat_allOnes] at hsmall
            have hpos := Nat.two_pow_pos target.width
            omega
          obtain ⟨c, hconstant, hc, hcWidth, hcValue⟩ :=
            exists_constant scope htarget.validWidth hfits
          have hequal : (Expr.binary .eq target c).WellFormed scope := ⟨htarget, hc, hcWidth.symm⟩
          have hboth : (Expr.binary .and condition (.binary .eq target c)).WellFormed scope :=
            ⟨hcondition, hequal, hwidth⟩
          obtain ⟨restricted, hsimplify, hequiv⟩ := Expr.simplify_sound hboth
          have hp : Candidate scope target condition (.boundary address, restricted) := by
            refine ⟨rfl, hfits, hequiv.wellFormed, hequiv.width.trans hwidth, fun v => ?_⟩
            rw [hequiv.value, isTrue_value_and hcondition hequal hwidth rfl,
              isTrue_value_eq htarget hc hcWidth.symm, hcValue]
            rfl
          refine .checked hconstant (.checked (Expr.mkBinary_of_wellFormed hequal) ?_)
          refine .checked (Expr.mkBinary_of_wellFormed hboth) (.checked hsimplify ?_)
          refine (isFeasible_gives hequiv.wellFormed (hequiv.width.trans hwidth)).bind ?_
          rintro feasible d' -
          cases feasible with
          | false =>
              refine (ih h).imp ?_
              rintro r _ ⟨hsearched, hlength, new, hnew, hsublist⟩
              exact ⟨hsearched, hlength, new, hnew, hsublist.cons address⟩
          | true =>
              -- the address is taken, and the search goes on with one more successor
              have hadd := h.add hp htarget hc hcWidth hcValue
              have hleft : (Expr.binary .ne target c).WellFormed scope := hadd.wellFormed.2.1
              refine .checked (Expr.mkBinary_of_wellFormed hleft) ?_
              refine .checked (Expr.mkBinary_of_wellFormed hadd.wellFormed) ?_
              refine (ih hadd).imp ?_
              rintro r _ ⟨hsearched, hlength, new, hnew, hsublist⟩
              refine ⟨hsearched, ?_, (.boundary address, restricted) :: new, ?_, ?_⟩
              · rw [List.length_append, List.length_singleton] at hlength
                omega
              · rw [hnew, List.append_assoc]
                rfl
              · exact hsublist.cons_cons address

end Search

section Resolution

variable {source : Location}

/-- A location is among the recorded targets of the jumps at another one. -/
def Resolves (mc : Microcode) (source target : Location) : Prop :=
  ∃ node, mc.node? source = some node ∧ target ∈ node.resolved

theorem resolves_addResolved {mc : Microcode} {target l : Location}
    (h : l = target ∨ Resolves mc source l) :
    Resolves (mc.addResolved source target) source l := by
  refine ⟨_, by rw [Microcode.addResolved, Microcode.node?_modifyNode, if_pos rfl], ?_⟩
  rw [Std.ExtTreeSet.mem_insert, Std.LawfulEqCmp.compare_eq_iff_eq]
  rcases h with rfl | ⟨node, hnode, hmem⟩
  · exact .inl rfl
  · rw [hnode]
    exact .inr hmem

theorem resolves_foldl_addResolved {mc : Microcode} {l : Location} (found : List Successor)
    (h : (∃ p ∈ found, l = p.1) ∨ Resolves mc source l) :
    Resolves (found.foldl (fun mc p => mc.addResolved source p.1) mc) source l := by
  induction found generalizing mc with
  | nil => simpa using h
  | cons p found ih =>
      rw [List.foldl_cons]
      apply ih
      rcases h with ⟨q, hq, rfl⟩ | h
      · rcases List.mem_cons.mp hq with rfl | hq
        · exact .inr (resolves_addResolved (.inl rfl))
        · exact .inl ⟨q, hq, rfl⟩
      · exact .inr (resolves_addResolved (.inr h))

theorem unresolved_foldl_addResolved (mc : Microcode) (found : List Successor) :
    (found.foldl (fun mc p => mc.addResolved source p.1) mc).unresolved = mc.unresolved := by
  induction found generalizing mc with
  | nil => rfl
  | cons p found ih => exact ih (mc.addResolved source p.1)

/-- Wherever a jump leads under a valuation was found and recorded, or the jump is recorded as
unresolved. -/
def Covered (source : Location) (target condition : Expr) (found : List Successor)
    (mc : Microcode) : Prop :=
  ∀ v : Valuation, (condition.value v).isTrue = true →
    (∃ p ∈ found, p.1 = .boundary p.1.instruction ∧
      (target.value v).value = p.1.instruction.toNat ∧
      v.Satisfies p.2 ∧ Resolves mc source p.1) ∨
    mc.unresolved[source]? = some (.dynamicJump target)

theorem resolve_finds (htarget : target.WellFormed scope)
    (hcondition : condition.WellFormed scope) (hwidth : condition.width = 1) (source : Location) :
    SimM.Gives (sim.solver.Answers scope) (sim.resolve source target condition) d fun found d' =>
      (sim.solver.SoundOver scope → Covered source target condition found d'.program) ∧
      (∀ p ∈ found, p.2.WellFormed scope ∧ p.2.width = 1) ∧
      found.length ≤ max 1 sim.image.definedAddresses.size ∧
      (target.const? = none → (∀ p ∈ found, Candidate scope target condition p) ∧
        found.length ≤ sim.policy.threshold ∧
        (found.map (·.1.instruction)).Sublist sim.image.definedAddresses.toList) := by
  have hmarked {found : List Successor} {mc : Microcode}
      (hmc : mc.unresolved[source]? = some (.dynamicJump target)) :
      Covered source target condition found mc :=
    fun v _ => .inr hmc
  have hmark (mc : Microcode) :
      (mc.markUnresolved source (.dynamicJump target)).unresolved[source]? =
          some (.dynamicJump target) := by
    rw [Microcode.markUnresolved, Std.ExtTreeMap.getElem?_insert_self]
  unfold resolve
  split
  case h_1 value hvalue =>
    obtain rfl := Expr.const?_eq_some.mp hvalue
    refine .modify (.pure ⟨fun _ v hv => .inl ⟨_, List.mem_singleton_self _, rfl, ?_, ?_, ?_⟩, ?_,
      ?_, fun hnone => ?_⟩)
    · have hlt : value.value < 2 ^ 64 := by
        obtain ⟨⟨-, hle⟩, hlt⟩ := htarget
        rw [Word.modulus_eq] at hlt
        exact hlt.trans_le (Nat.pow_le_pow_right (by decide) hle)
      exact (UInt64.toNat_ofNat_of_lt hlt).symm
    · exact (hcondition.satisfies_iff v).mpr hv
    · exact resolves_addResolved (.inl rfl)
    · simpa using ⟨hcondition, hwidth⟩
    · exact le_max_left _ _
    · cases hnone
  case h_2 =>
    split
    case isTrue =>
      refine .modify
        (.modify (.pure ⟨fun _ => hmarked (hmark _), by simp, Nat.zero_le _, fun _ => ?_⟩))
      exact ⟨by simp, Nat.zero_le _, by simp⟩
    case isFalse =>
      refine (tryAddresses_gives htarget hcondition hwidth
        (searched_nil hcondition hwidth) _).bind ?_
      rintro ⟨found, remaining⟩ d' ⟨hsearched, hlength, new, rfl, hsublist⟩
      obtain ⟨simplified, hsimplify, hequiv⟩ := Expr.simplify_sound hsearched.wellFormed
      refine .checked hsimplify ?_
      refine (isFeasible_gives hequiv.wellFormed (hequiv.width.trans hsearched.width)).bind ?_
      rintro feasible d' ⟨-, hinfeasible⟩
      have hrest : (∀ p ∈ found, p.2.WellFormed scope ∧ p.2.width = 1) ∧
          found.length ≤ max 1 sim.image.definedAddresses.size ∧
          (target.const? = none → (∀ p ∈ found, Candidate scope target condition p) ∧
            found.length ≤ sim.policy.threshold ∧
            (found.map (·.1.instruction)).Sublist sim.image.definedAddresses.toList) := by
        refine ⟨?_, ?_, fun _ => ⟨hsearched.candidates, by simpa using hlength, hsublist⟩⟩
        · intro p hp
          exact ⟨(hsearched.candidates p hp).wellFormed, (hsearched.candidates p hp).width⟩
        · have hle := hsublist.length_le
          rw [List.length_map, Std.ExtTreeSet.length_toList] at hle
          exact le_max_of_le_right hle
      cases feasible with
      | true =>
          refine .modify (.modify (.modify (.pure ⟨fun _ => hmarked ?_, hrest⟩)))
          rw [unresolved_foldl_addResolved]
          exact hmark _
      | false =>
          refine .modify (.pure ⟨fun hsolver v hv => .inl ?_, hrest⟩)
          -- the jump cannot lead elsewhere, so it leads to an address that was found
          by_contra hnone
          apply hinfeasible hsolver rfl v
          rw [hequiv.value, hsearched.holds]
          refine ⟨hv, fun p hp hvalue => hnone ⟨p, hp, ?_⟩⟩
          have hcandidate := hsearched.candidates p hp
          refine ⟨hcandidate.boundary, hvalue, ?_,
            resolves_foldl_addResolved _ (.inl ⟨p, hp, rfl⟩)⟩
          exact (hcandidate.wellFormed.satisfies_iff v).mpr
            ((hcandidate.holds v).mpr ⟨hv, hvalue⟩)

theorem resolve_gives (hsolver : sim.solver.SoundOver scope) (htarget : target.WellFormed scope)
    (hcondition : condition.WellFormed scope) (hwidth : condition.width = 1) (source : Location) :
    SimM.Gives (sim.solver.Answers scope) (sim.resolve source target condition) d fun found d' =>
      Covered source target condition found d'.program ∧
      (target.const? = none → (∀ p ∈ found, Candidate scope target condition p) ∧
        found.length ≤ sim.policy.threshold ∧
        (found.map (·.1.instruction)).Sublist sim.image.definedAddresses.toList) := by
  refine (resolve_finds htarget hcondition hwidth source).imp ?_
  rintro found d' ⟨hcovered, -, -, hsearched⟩
  exact ⟨hcovered hsolver, hsearched⟩

theorem evaluate_eq_iff (htarget : target.WellFormed scope) (v : Valuation) (n : Nat) :
    target.evaluate v.leaf = .ok (some ⟨target.width, n⟩) ↔ (target.value v).value = n := by
  rw [Expr.evaluate_leaf htarget, Except.ok.injEq, Option.some.injEq]
  constructor
  · intro h
    rw [h]
  · rintro rfl
    rw [← htarget.width_value v]

/-- Computed jumps are covered or reported. Under a valuation that satisfies the path condition,
the target has the address of one of the successors as its value, the valuation satisfies the
condition of that successor, and the successor is recorded at the source; or the source is
recorded as a jump that is not resolved. The successors of a target that is no constant come in
ascending order, no more than the threshold, at addresses that are defined in the image and fit
the target, and their conditions imply the path condition and that the target leads there. A
solver that answers does not keep the jump from being resolved. -/
theorem resolve_covers_or_reports {vars : String → Nat → Prop}
    (hsolver : sim.solver.SoundOver (.variables vars))
    (htarget : target.WellFormed (.variables vars))
    (hcondition : condition.WellFormed (.variables vars)) (hwidth : condition.width = 1)
    (source : Location) (d : Discovery) :
    (sim.solver.Answers (.variables vars) →
      ∃ found d', SimM.Returns (sim.resolve source target condition) d found d') ∧
    ∀ found d', SimM.Returns (sim.resolve source target condition) d found d' →
      (∀ v : Valuation, v.Satisfies condition →
        (∃ address restricted, (.boundary address, restricted) ∈ found ∧
          target.evaluate v.leaf = .ok (some ⟨target.width, address.toNat⟩) ∧
          v.Satisfies restricted ∧
          ∃ node, d'.program.node? source = some node ∧ .boundary address ∈ node.resolved) ∨
        d'.program.unresolved[source]? = some (.dynamicJump target)) ∧
      (target.const? = none →
        (found.map (·.1.instruction)).Pairwise (· < ·) ∧ found.length ≤ sim.policy.threshold ∧
        ∀ p ∈ found, p.1 = .boundary p.1.instruction ∧
          sim.image.isDefined p.1.instruction = true ∧
          p.1.instruction.toNat < 2 ^ target.width ∧ ∀ v : Valuation, v.Satisfies p.2 →
            v.Satisfies condition ∧
              target.evaluate v.leaf = .ok (some ⟨target.width, p.1.instruction.toNat⟩)) := by
  have hresolve := resolve_gives (d := d) hsolver htarget hcondition hwidth source
  refine ⟨hresolve.returns, fun found d' hreturns => ?_⟩
  obtain ⟨hcovered, hsearched⟩ := hresolve.result hreturns
  refine ⟨fun v hv => ?_, fun hconst => ?_⟩
  · rcases hcovered v ((hcondition.satisfies_iff v).mp hv) with
      ⟨p, hp, hboundary, hvalue, hsatisfies, hnode⟩ | hmark
    · refine .inl ⟨p.1.instruction, p.2, ?_, (evaluate_eq_iff htarget v _).mpr hvalue,
        hsatisfies, ?_⟩
      · rw [← hboundary]
        exact hp
      · rw [← hboundary]
        exact hnode
    · exact .inr hmark
  · obtain ⟨hcandidates, hlength, hsublist⟩ := hsearched hconst
    refine ⟨(Memory.pairwise_definedAddresses sim.image).sublist hsublist, hlength,
      fun p hp => ?_⟩
    have hcandidate := hcandidates p hp
    have hdefined : p.1.instruction ∈ sim.image.definedAddresses.toList :=
      hsublist.subset (List.mem_map_of_mem hp)
    rw [Std.ExtTreeSet.mem_toList, Memory.mem_definedAddresses] at hdefined
    refine ⟨hcandidate.boundary, hdefined, hcandidate.fits, fun v hv => ?_⟩
    rw [hcandidate.wellFormed.satisfies_iff, hcandidate.holds] at hv
    exact ⟨(hcondition.satisfies_iff v).mpr hv.1, (evaluate_eq_iff htarget v _).mpr hv.2⟩

/-- A jump through two bits that are not zero, over an image with four addresses: two of them are
found, one is not a value of the target and one does not fit it, and the jump is reported for the
value three. -/
theorem resolve_covers_or_reports_of_two_bits :
    let bytes : List (UInt64 × UInt8) := [(1, 0x90), (2, 0x90), (9, 0x90), (0x100, 0x90)]
    let image : Memory := ⟨{ bytes := .ofList bytes }, []⟩
    let sim : Simulator :=
      ⟨.ofGraph ⟨.x86, .little, 32, 32, "eip", ∅⟩ {}, .enumerating, image, ⟨16, true⟩⟩
    let target : Expr := .unary (.zeroExtend 8) (.var "b" 2)
    let condition : Expr := .binary .ne (.var "b" 2) (.const ⟨2, 0⟩)
    let scope := Scope.variables fun _ width => width = 2
    (sim.solver.SoundOver scope ∧ target.WellFormed scope ∧ condition.WellFormed scope ∧
      condition.width = 1) ∧
    ∃ found d', SimM.Returns (sim.resolve (.boundary 0) target condition) {} found d' ∧
      found.map (·.1.instruction) = [1, 2] ∧
      d'.program.unresolved[Location.boundary 0]? = some (.dynamicJump target) ∧
      (∀ v : Valuation, v.Satisfies condition →
        (∃ address restricted, (.boundary address, restricted) ∈ found ∧
          target.evaluate v.leaf = .ok (some ⟨target.width, address.toNat⟩) ∧
          v.Satisfies restricted ∧
          ∃ node, d'.program.node? (.boundary 0) = some node ∧
            .boundary address ∈ node.resolved) ∨
        d'.program.unresolved[Location.boundary 0]? = some (.dynamicJump target)) ∧
      ∀ p ∈ found, ∀ v : Valuation, v.Satisfies p.2 →
        v.Satisfies condition ∧
        target.evaluate v.leaf = .ok (some ⟨target.width, p.1.instruction.toNat⟩) := by
  intro bytes image sim target condition scope
  have hsolver : sim.solver.SoundOver scope := by
    apply Solver.enumerating_soundOver
    intro name width width' hw hw'
    exact Eq.trans hw hw'.symm
  have hvar : (Expr.var "b" 2).WellFormed scope := ⟨by decide, rfl⟩
  have htarget : target.WellFormed scope := ⟨hvar, by decide⟩
  have hzero : Word.Canonical ⟨2, 0⟩ := by decide
  have hcondition : condition.WellFormed scope := ⟨hvar, hzero, rfl⟩
  have hrun : ((sim.resolve (.boundary 0) target condition).run.run {}).1.map
      (·.map (·.1.instruction)) = .ok [1, 2] ∧
      ((sim.resolve (.boundary 0) target condition).run.run
        {}).2.program.unresolved[Location.boundary 0]? =
        some (.dynamicJump target) := by
    decide +kernel
  rcases h : (sim.resolve (.boundary 0) target condition).run.run {} with ⟨fault | found, d'⟩
  · rw [h] at hrun
    cases hrun.1
  rw [h] at hrun
  have hfound : found.map (·.1.instruction) = [1, 2] := Except.ok.inj hrun.1
  obtain ⟨hcovered, hsearched⟩ :=
    (resolve_covers_or_reports hsolver htarget hcondition rfl (.boundary 0) {}).2 found d' h
  obtain ⟨-, -, hp⟩ := hsearched rfl
  refine ⟨⟨hsolver, htarget, hcondition, rfl⟩, found, d', h, hfound, hrun.2, hcovered,
    fun p hmem v hv => ?_⟩
  exact (hp p hmem).2.2.2 v hv

end Resolution

end Simulator

end FlowRecovery
