import Mathlib
import FlowRecovery.Proofs.Expr.Termination
import FlowRecovery.Proofs.Simulation.Evaluation

namespace FlowRecovery

def Scope.ground : Scope :=
  ⟨fun _ _ => False, fun _ => False, False⟩

namespace Expr

theorem settled_const (c : Word) : (const c).Settled :=
  rfl

/-- The rules apply to every node over constants, so a normal form in which nothing is unknown has
no node. -/
theorem Settled.isConst {e : Expr} (hsettled : e.Settled) (h : e.WellFormed .ground) :
    ∃ c, e = const c := by
  induction e with
  | const c => exact ⟨c, rfl⟩
  | var name width => exact h.2.elim
  | reg register => exact h.2.elim
  | mem address offset width _ => exact h.2.2.2.elim
  | unary op a ih =>
      have ha : a.Settled := hsettled.subterm (by simp [subterms, self_mem_subterms])
      obtain ⟨c, rfl⟩ := ih ha h.1
      obtain ⟨answer, hanswer, hkept⟩ := exists_of_bind_eq_ok hsettled.simplifyNode
      obtain ⟨folded, -, hfolded⟩ := exists_of_bind_eq_ok hanswer
      cases hfolded
      cases hkept
  | binary op a b iha ihb =>
      have ha : a.Settled := hsettled.subterm (by simp [subterms, self_mem_subterms])
      have hb : b.Settled := hsettled.subterm (by simp [subterms, self_mem_subterms])
      obtain ⟨c, rfl⟩ := iha ha h.1
      obtain ⟨d, rfl⟩ := ihb hb h.2.1
      obtain ⟨answer, hanswer, hkept⟩ := exists_of_bind_eq_ok hsettled.simplifyNode
      obtain ⟨-, -, hanswer⟩ := exists_of_bind_eq_ok hanswer
      obtain ⟨folded, -, hfolded⟩ := exists_of_bind_eq_ok hanswer
      cases hfolded
      cases hkept
  | ite condition a b ihc iha ihb =>
      have hc : condition.Settled := hsettled.subterm (by simp [subterms, self_mem_subterms])
      have ha : a.Settled := hsettled.subterm (by simp [subterms, self_mem_subterms])
      have hb : b.Settled := hsettled.subterm (by simp [subterms, self_mem_subterms])
      obtain ⟨c, rfl⟩ := ihc hc h.1
      obtain ⟨d, rfl⟩ := iha ha h.2.1
      obtain ⟨d', rfl⟩ := ihb hb h.2.2.1
      obtain ⟨answer, hanswer, hkept⟩ := exists_of_bind_eq_ok hsettled.simplifyNode
      cases hanswer
      cases htrue : c.isTrue <;> simp [const?, htrue] at hkept

end Expr

theorem of_liftM_eq_ok {ε α : Type} {c : Checked α} {a : α}
    (h : (liftM c : Attempt ε α) = .ok a) : c = .ok a := by
  cases c with
  | error fault => cases h
  | ok b =>
      cases h
      rfl

theorem foldlM_preserves {α β : Type} {P : α → Prop} {f : α → β → Checked α}
    (hstep : ∀ a b a', P a → f a b = .ok a' → P a') {l : List β} {a a' : α} (h : P a)
    (hfold : l.foldlM f a = .ok a') : P a' := by
  induction l generalizing a with
  | nil =>
      cases hfold
      exact h
  | cons b l ih =>
      obtain ⟨next, hnext, hrest⟩ := exists_of_bind_eq_ok hfold
      exact ih (hstep a b next h hnext) hrest

namespace SymbolicMemory

variable {m m' : SymbolicMemory} {widths : String → Nat}

/-- All cells and registers hold normal forms. -/
structure Settled (m : SymbolicMemory) : Prop where
  cell {address : UInt64} {e : Expr} : m.cells[address]? = some e → e.Settled
  register {name : String} {e : Expr} : m.registers[name]? = some e → e.Settled

theorem Settled.insert_cell (h : m.Settled) (address : UInt64) {e : Expr} (he : e.Settled) :
    { m with cells := m.cells.insert address e }.Settled := by
  refine ⟨fun {place x} hx => ?_, h.register⟩
  rw [Std.ExtTreeMap.getElem?_insert] at hx
  split at hx
  · cases hx
    exact he
  · exact h.cell hx

theorem Settled.setPhysical (h : m.Settled) (name : String) {e : Expr} (he : e.Settled) :
    (m.setPhysical name e).Settled := by
  refine ⟨h.cell, fun {other x} hx => ?_⟩
  rw [SymbolicMemory.setPhysical, Std.ExtTreeMap.getElem?_insert] at hx
  split at hx
  · cases hx
    exact he
  · exact h.register hx

theorem settled_ofImage (image : Memory) (order : ByteOrder) : (ofImage image order).Settled := by
  refine ⟨fun h => ?_, fun h => ?_⟩
  · simp [ofImage] at h
  · simp [ofImage] at h

theorem Settled.write (h : m.Settled) {address : UInt64} {e : Expr}
    (hm' : m.write address e = .ok m') :
    m'.Settled := by
  obtain ⟨-, -, hm'⟩ := exists_of_bind_eq_ok hm'
  refine foldlM_preserves (fun m k m' hm hnext => ?_) h hm'
  obtain ⟨slice, -, hnext⟩ := exists_of_bind_eq_ok hnext
  obtain ⟨byte, hbyte, hnext⟩ := exists_of_bind_eq_ok hnext
  cases hnext
  exact hm.insert_cell _ (Expr.settled_of_simplify hbyte)

theorem settled_of_spliceWindow {r : Register} {old value e : Expr}
    (h : spliceWindow r old value = .ok e) :
    e.Settled := by
  obtain ⟨upper, -, h⟩ := exists_of_bind_eq_ok h
  -- both joins are optional, and the last step is the simplification whichever of them are made
  have hlower {x : Expr} (h : (if 0 < r.offset then do
      let low ← Expr.mkUnary (.extract 0 r.offset) old
      let spliced ← Expr.mkBinary .concat x low
      spliced.simplify
    else x.simplify) = .ok e) : e.Settled := by
    split at h
    · obtain ⟨low, -, h⟩ := exists_of_bind_eq_ok h
      obtain ⟨spliced, -, h⟩ := exists_of_bind_eq_ok h
      exact Expr.settled_of_simplify h
    · exact Expr.settled_of_simplify h
  dsimp only at h
  split at h
  · obtain ⟨high, -, h⟩ := exists_of_bind_eq_ok h
    obtain ⟨spliced, -, h⟩ := exists_of_bind_eq_ok h
    exact hlower h
  · exact hlower h

theorem settled_of_merge {r : Register} {e whole : Expr} (he : e.Settled)
    (h : m.merge r e = .ok whole) :
    whole.Settled := by
  obtain ⟨-, -, h⟩ := exists_of_bind_eq_ok h
  split at h
  case isTrue =>
    cases h
    exact he
  case isFalse =>
    obtain ⟨old, -, h⟩ := exists_of_bind_eq_ok h
    cases old with
    | none => cases h
    | some old => exact settled_of_spliceWindow (of_liftM_eq_ok h)

theorem Settled.writeRegister (h : m.Settled) {r : Register} {e : Expr} (he : e.Settled)
    (hm' : m.writeRegister r e = .ok m') : m'.Settled := by
  rw [writeRegister_eq] at hm'
  cases hwhole : m.merge r e with
  | error error =>
      rw [hwhole] at hm'
      cases hm'
  | ok whole =>
      rw [hwhole] at hm'
      cases hm'
      exact h.setPhysical _ (settled_of_merge he hwhole)

theorem settled_of_eval {e r : Expr} (hr : m.eval e = .ok r) : r.Settled := by
  obtain ⟨e', -, hr⟩ := exists_of_bind_eq_ok hr
  exact Expr.settled_of_simplify (of_liftM_eq_ok hr)

theorem Settled.exec (h : m.Settled) {statement : Statement} (hm' : m.exec statement = .ok m') :
    m'.Settled := by
  cases statement with
  | skip =>
      cases hm'
      exact h
  | assign place value =>
      obtain ⟨x, hx, hm'⟩ := exists_of_bind_eq_ok hm'
      cases place with
      | reg r => exact h.writeRegister (settled_of_eval hx) hm'
      | mem base offset width =>
          obtain ⟨b, -, hm'⟩ := exists_of_bind_eq_ok hm'
          obtain ⟨address, -, hm'⟩ := exists_of_bind_eq_ok hm'
          exact h.write (of_liftM_eq_ok hm')
      | _ => cases hm'

theorem eval_ground (h : m.WellFormed .ground widths) {e : Expr}
    (he : e.WellFormed (Scope.ground.onMemory widths)) :
    Yields (fun r => ∃ c : Word, r = .const c ∧ c.Canonical ∧ c.width = e.width ∧
      (m.concretise default).eval m.order default e = .ok c) (m.eval e) := by
  have hyields := eval_yields (v := default) h he
  cases hr : m.eval e with
  | error failure =>
      rw [hr] at hyields
      rcases hyields with ⟨r, hr, -⟩ | hfail
      · cases hr
      · exact .inr hfail
  | ok r =>
      obtain ⟨hwf, hwidth, hvalue⟩ := hyields.of_eq_ok hr
      obtain ⟨c, rfl⟩ := (settled_of_eval hr).isConst hwf
      exact .ok ⟨c, rfl, hwf, hwidth, hvalue⟩

end SymbolicMemory

end FlowRecovery
