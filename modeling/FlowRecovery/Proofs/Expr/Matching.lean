import Mathlib
import FlowRecovery.Expr.Pattern
import FlowRecovery.Proofs.Expr.Instantiation

/-!
Matching is exact. Matching a tree goes through the pattern with the bindings found so far, and
adds to them no more than the pattern asks for. So it succeeds within any bindings under which the
pattern is the tree, whatever the order of the operands, and what it finds are the only ones that
bind just the free variables of the pattern.
-/

namespace FlowRecovery.Expr

variable {free : List String} {bindings result target : Bindings} {tree pattern p q r : Expr}

namespace Bindings

variable {name : String}

theorem getElem?_insert (bindings : Bindings) (name other : String) (tree : Expr) :
    (bindings.insert name tree)[other]? = if name = other then some tree
      else bindings[other]? := by
  simp only [Std.ExtTreeMap.getElem?_insert, Std.LawfulEqCmp.compare_eq_iff_eq]

theorem extend_eq_some_iff : bindings.extend name tree = some result ↔
    (∀ bound, bindings[name]? = some bound → bound = tree) ∧
    bindings.insert name tree = result := by
  rw [extend]
  cases hbound : bindings[name]? with
  | none => simp
  | some bound =>
      by_cases heq : bound = tree
      · subst heq
        have hsame : bindings.insert name bound = bindings := by
          ext1 other
          rw [getElem?_insert]
          split
          case isTrue h => rw [← h, hbound]
          case isFalse => rfl
        simp [hsame]
      · simp [heq]

/-- All bindings are among some others. -/
def Within (bindings target : Bindings) : Prop :=
  ∀ (name : String) (t : Expr), bindings[name]? = some t → target[name]? = some t

theorem insert_within_iff (hfirst : ∀ bound, bindings[name]? = some bound → bound = tree) :
    Within (bindings.insert name tree) target ↔
      bindings.Within target ∧ target[name]? = some tree := by
  simp only [Within, getElem?_insert]
  constructor
  · intro h
    refine ⟨fun other t ht => h other t ?_, h name tree (if_pos rfl)⟩
    split
    case isTrue heq => rw [hfirst t (heq ▸ ht)]
    case isFalse => exact ht
  · rintro ⟨h, htarget⟩ other t ht
    split at ht
    case isTrue heq => rw [← heq, ← ht, htarget]
    case isFalse => exact h other t ht

theorem exists_extend_within_iff :
    (∃ result, bindings.extend name tree = some result ∧ result.Within target) ↔
      bindings.Within target ∧ target[name]? = some tree := by
  simp only [extend_eq_some_iff]
  constructor
  · rintro ⟨_, ⟨hfirst, rfl⟩, hwithin⟩
    exact (insert_within_iff hfirst).mp hwithin
  · rintro ⟨hwithin, htarget⟩
    have hfirst : ∀ bound, bindings[name]? = some bound → bound = tree := by
      intro bound hbound
      exact Option.some.inj ((hwithin name bound hbound).symm.trans htarget)
    exact ⟨_, ⟨hfirst, rfl⟩, (insert_within_iff hfirst).mpr ⟨hwithin, htarget⟩⟩

end Bindings

section Steps

attribute [local simp] matchFrom

theorem width_of_matchFrom (h : matchFrom free bindings tree pattern = some result) :
    tree.width = pattern.width := by
  by_contra hwidth
  rw [matchFrom.eq_def, if_neg hwidth] at h
  cases h

theorem matchFrom_const_iff {value : Word} :
    matchFrom free bindings tree (const value) = some result ↔
      tree = const value ∧ bindings = result := by
  constructor
  · simp +contextual
  · rintro ⟨rfl, rfl⟩
    simp

theorem matchFrom_reg_iff {register : Register} :
    matchFrom free bindings tree (reg register) = some result ↔
      tree = reg register ∧ bindings = result := by
  constructor
  · simp +contextual
  · rintro ⟨rfl, rfl⟩
    simp

theorem matchFrom_var_iff {name : String} {width : Nat} (hfree : name ∈ free) :
    matchFrom free bindings tree (var name width) = some result ↔
      width = tree.width ∧ bindings.extend name tree = some result := by
  simp [hfree, Expr.width, eq_comm]

theorem matchFrom_fixed_iff {name : String} {width : Nat} (hfixed : name ∉ free) :
    matchFrom free bindings tree (var name width) = some result ↔
      tree = var name width ∧ bindings = result := by
  constructor
  · simp +contextual [hfixed]
  · rintro ⟨rfl, rfl⟩
    simp [hfixed]

theorem matchFrom_mem_iff {offset : UInt64} {width : Nat} :
    matchFrom free bindings tree (mem p offset width) = some result ↔
      ∃ a, tree = mem a offset width ∧ matchFrom free bindings a p = some result := by
  constructor
  · cases tree <;> simp +contextual
  · rintro ⟨a, rfl, h⟩
    simp [h, Expr.width]

theorem matchFrom_unary_iff {op : UnaryOp} :
    matchFrom free bindings tree (unary op p) = some result ↔
      ∃ a, tree = unary op a ∧ matchFrom free bindings a p = some result := by
  constructor
  · cases tree <;> simp +contextual
  · rintro ⟨a, rfl, h⟩
    simp [h, Expr.width, width_of_matchFrom h]

theorem matchFrom_binary_iff {op : BinaryOp} :
    matchFrom free bindings tree (binary op p q) = some result ↔
      ∃ a b middle, tree = binary op a b ∧
      matchFrom free bindings a p = some middle ∧ matchFrom free middle b q = some result := by
  constructor
  · cases tree <;> simp +contextual [Option.bind_eq_some_iff]
  · rintro ⟨a, b, middle, rfl, h, h'⟩
    have hwidth : (binary op a b).width = (binary op p q).width := by
      cases op <;> simp [Expr.width, width_of_matchFrom h, width_of_matchFrom h']
    simp [hwidth, h, h']

theorem matchFrom_ite_iff :
    matchFrom free bindings tree (ite r p q) = some result ↔
      ∃ c a b first second, tree = ite c a b ∧
      matchFrom free bindings c r = some first ∧ matchFrom free first a p = some second ∧
      matchFrom free second b q = some result := by
  constructor
  · cases tree <;> simp +contextual [Option.bind_eq_some_iff]
  · rintro ⟨c, a, b, first, second, rfl, hc, ha, hb⟩
    simp [hc, ha, hb, Expr.width, width_of_matchFrom ha]

end Steps

/-- Bindings under which a pattern is a tree: the free variables of the pattern are bound to
expressions of their widths, and replacing them yields the tree. -/
structure Realises (free : List String) (bindings : Bindings) (pattern tree : Expr) : Prop where
  bound : pattern.AllVars fun name width => name ∈ free → ∃ t, bindings[name]? = some t ∧
    t.width = width
  result : pattern.substitute bindings = tree

section Realises

theorem realises_const_iff {value : Word} :
    Realises free bindings (const value) tree ↔ tree = const value :=
  ⟨fun h => h.result.symm, fun h => ⟨allVars_const value, h.symm⟩⟩

theorem realises_reg_iff {register : Register} :
    Realises free bindings (reg register) tree ↔ tree = reg register :=
  ⟨fun h => h.result.symm, fun h => ⟨allVars_reg register, h.symm⟩⟩

theorem realises_mem_iff {offset : UInt64} {width : Nat} :
    Realises free bindings (mem p offset width) tree ↔
    ∃ a, tree = mem a offset width ∧ Realises free bindings p a := by
  constructor
  · rintro ⟨hbound, rfl⟩
    exact ⟨_, rfl, allVars_mem.mp hbound, rfl⟩
  · rintro ⟨_, rfl, hbound, rfl⟩
    exact ⟨allVars_mem.mpr hbound, rfl⟩

theorem realises_unary_iff {op : UnaryOp} : Realises free bindings (unary op p) tree ↔
    ∃ a, tree = unary op a ∧ Realises free bindings p a := by
  constructor
  · rintro ⟨hbound, rfl⟩
    exact ⟨_, rfl, allVars_unary.mp hbound, rfl⟩
  · rintro ⟨_, rfl, hbound, rfl⟩
    exact ⟨allVars_unary.mpr hbound, rfl⟩

theorem realises_binary_iff {op : BinaryOp} : Realises free bindings (binary op p q) tree ↔
    ∃ a b, tree = binary op a b ∧ Realises free bindings p a ∧ Realises free bindings q b := by
  constructor
  · rintro ⟨hbound, rfl⟩
    obtain ⟨hp, hq⟩ := allVars_binary.mp hbound
    exact ⟨_, _, rfl, ⟨hp, rfl⟩, hq, rfl⟩
  · rintro ⟨_, _, rfl, ⟨hp, rfl⟩, hq, rfl⟩
    exact ⟨allVars_binary.mpr ⟨hp, hq⟩, rfl⟩

theorem realises_ite_iff : Realises free bindings (ite r p q) tree ↔ ∃ c a b, tree = ite c a b ∧
    Realises free bindings r c ∧ Realises free bindings p a ∧ Realises free bindings q b := by
  constructor
  · rintro ⟨hbound, rfl⟩
    obtain ⟨hr, hp, hq⟩ := allVars_ite.mp hbound
    exact ⟨_, _, _, rfl, ⟨hr, rfl⟩, ⟨hp, rfl⟩, hq, rfl⟩
  · rintro ⟨_, _, _, rfl, ⟨hr, rfl⟩, ⟨hp, rfl⟩, hq, rfl⟩
    exact ⟨allVars_ite.mpr ⟨hr, hp, hq⟩, rfl⟩

theorem realises_var_iff {name : String} {width : Nat} (hfree : name ∈ free) :
    Realises free bindings (var name width) tree ↔
      width = tree.width ∧ bindings[name]? = some tree := by
  constructor
  · rintro ⟨hbound, rfl⟩
    obtain ⟨t, ht, hwidth⟩ := allVars_var.mp hbound hfree
    simp [substitute, ht, hwidth]
  · rintro ⟨rfl, ht⟩
    exact ⟨allVars_var.mpr fun _ => ⟨tree, ht, rfl⟩, by simp [substitute, ht]⟩

theorem realises_fixed_iff {name : String} {width : Nat} (hfixed : name ∉ free)
    (hnone : bindings[name]? = none) :
    Realises free bindings (var name width) tree ↔ tree = var name width := by
  constructor
  · rintro ⟨-, rfl⟩
    simp [substitute, hnone]
  · rintro rfl
    exact ⟨allVars_var.mpr fun h => absurd h hfixed, by simp [substitute, hnone]⟩

end Realises

/-- Matching extends bindings within some others exactly if the pattern is the tree under the
others. -/
theorem exists_matchFrom_within_iff (htarget : ∀ name, name ∉ free → target[name]? = none) :
    (∃ result, matchFrom free bindings tree pattern = some result ∧ result.Within target) ↔
      bindings.Within target ∧ Realises free target pattern tree := by
  induction pattern generalizing bindings tree with
  | const value => simp [matchFrom_const_iff, realises_const_iff, and_comm]
  | reg register => simp [matchFrom_reg_iff, realises_reg_iff, and_comm]
  | var name width =>
      by_cases hfree : name ∈ free
      · simp only [matchFrom_var_iff hfree, realises_var_iff hfree, and_assoc, exists_and_left,
          Bindings.exists_extend_within_iff]
        exact and_left_comm
      · simp [matchFrom_fixed_iff hfree, realises_fixed_iff hfree (htarget name hfree), and_comm]
  | mem p offset width ih =>
      simp only [matchFrom_mem_iff, realises_mem_iff]
      constructor
      · rintro ⟨result, ⟨a, rfl, hmatch⟩, hwithin⟩
        obtain ⟨hbindings, hp⟩ := ih.mp ⟨result, hmatch, hwithin⟩
        exact ⟨hbindings, a, rfl, hp⟩
      · rintro ⟨hbindings, a, rfl, hp⟩
        obtain ⟨result, hmatch, hwithin⟩ := ih.mpr ⟨hbindings, hp⟩
        exact ⟨result, ⟨a, rfl, hmatch⟩, hwithin⟩
  | unary op p ih =>
      simp only [matchFrom_unary_iff, realises_unary_iff]
      constructor
      · rintro ⟨result, ⟨a, rfl, hmatch⟩, hwithin⟩
        obtain ⟨hbindings, hp⟩ := ih.mp ⟨result, hmatch, hwithin⟩
        exact ⟨hbindings, a, rfl, hp⟩
      · rintro ⟨hbindings, a, rfl, hp⟩
        obtain ⟨result, hmatch, hwithin⟩ := ih.mpr ⟨hbindings, hp⟩
        exact ⟨result, ⟨a, rfl, hmatch⟩, hwithin⟩
  | binary op p q ihp ihq =>
      simp only [matchFrom_binary_iff, realises_binary_iff]
      constructor
      · rintro ⟨result, ⟨a, b, middle, rfl, hmatch, hmatch'⟩, hwithin⟩
        obtain ⟨hmiddle, hq⟩ := ihq.mp ⟨result, hmatch', hwithin⟩
        obtain ⟨hbindings, hp⟩ := ihp.mp ⟨middle, hmatch, hmiddle⟩
        exact ⟨hbindings, a, b, rfl, hp, hq⟩
      · rintro ⟨hbindings, a, b, rfl, hp, hq⟩
        obtain ⟨middle, hmatch, hmiddle⟩ := ihp.mpr ⟨hbindings, hp⟩
        obtain ⟨result, hmatch', hwithin⟩ := ihq.mpr ⟨hmiddle, hq⟩
        exact ⟨result, ⟨a, b, middle, rfl, hmatch, hmatch'⟩, hwithin⟩
  | ite r p q ihr ihp ihq =>
      simp only [matchFrom_ite_iff, realises_ite_iff]
      constructor
      · rintro ⟨result, ⟨c, a, b, first, second, rfl, hmatch, hmatch', hmatch''⟩, hwithin⟩
        obtain ⟨hsecond, hq⟩ := ihq.mp ⟨result, hmatch'', hwithin⟩
        obtain ⟨hfirst, hp⟩ := ihp.mp ⟨second, hmatch', hsecond⟩
        obtain ⟨hbindings, hr⟩ := ihr.mp ⟨first, hmatch, hfirst⟩
        exact ⟨hbindings, c, a, b, rfl, hr, hp, hq⟩
      · rintro ⟨hbindings, c, a, b, rfl, hr, hp, hq⟩
        obtain ⟨first, hmatch, hfirst⟩ := ihr.mpr ⟨hbindings, hr⟩
        obtain ⟨second, hmatch', hsecond⟩ := ihp.mpr ⟨hfirst, hp⟩
        obtain ⟨result, hmatch'', hwithin⟩ := ihq.mpr ⟨hsecond, hq⟩
        exact ⟨result, ⟨c, a, b, first, second, rfl, hmatch, hmatch', hmatch''⟩, hwithin⟩

/-- A variable of some name occurs in an expression. -/
def Mentions (e : Expr) (name : String) : Prop :=
  ∃ width, var name width ∈ e.subterms

theorem mem_matchFrom (h : matchFrom free bindings tree pattern = some result) (name : String) :
    name ∈ result ↔ name ∈ bindings ∨ name ∈ free ∧ pattern.Mentions name := by
  induction pattern generalizing bindings tree result with
  | const value =>
      obtain ⟨-, rfl⟩ := matchFrom_const_iff.mp h
      simp [Mentions, subterms]
  | reg register =>
      obtain ⟨-, rfl⟩ := matchFrom_reg_iff.mp h
      simp [Mentions, subterms]
  | var other width =>
      have hmentions : (var other width).Mentions name ↔
          other = name := by simp [Mentions, subterms, eq_comm]
      rw [hmentions]
      by_cases hfree : other ∈ free
      · obtain ⟨-, hextend⟩ := (matchFrom_var_iff hfree).mp h
        obtain ⟨-, rfl⟩ := Bindings.extend_eq_some_iff.mp hextend
        rw [Std.ExtTreeMap.mem_insert, Std.LawfulEqCmp.compare_eq_iff_eq, or_comm, or_congr_right]
        exact (and_iff_right_of_imp fun heq => heq ▸ hfree).symm
      · obtain ⟨-, rfl⟩ := (matchFrom_fixed_iff hfree).mp h
        have hother : ¬ (name ∈ free ∧ other = name) := by
          rintro ⟨hname, rfl⟩
          exact hfree hname
        exact (or_iff_left hother).symm
  | mem p offset width ih =>
      obtain ⟨a, -, hmatch⟩ := matchFrom_mem_iff.mp h
      rw [ih hmatch]
      simp [Mentions, subterms]
  | unary op p ih =>
      obtain ⟨a, -, hmatch⟩ := matchFrom_unary_iff.mp h
      rw [ih hmatch]
      simp [Mentions, subterms]
  | binary op p q ihp ihq =>
      obtain ⟨a, b, middle, -, hmatch, hmatch'⟩ := matchFrom_binary_iff.mp h
      rw [ihq hmatch', ihp hmatch]
      simp [Mentions, subterms, exists_or, and_or_left, or_assoc]
  | ite r p q ihr ihp ihq =>
      obtain ⟨c, a, b, first, second, -, hmatch, hmatch', hmatch''⟩ := matchFrom_ite_iff.mp h
      rw [ihq hmatch'', ihp hmatch', ihr hmatch]
      simp [Mentions, subterms, exists_or, and_or_left, or_assoc]

/-- A substitution of the free variables that occur in a pattern, and of no others, under which
the pattern is the tree. -/
structure Solves (free : List String) (bindings : Bindings) (pattern tree : Expr) : Prop
    extends Realises free bindings pattern tree where
  names (name : String) : name ∈ bindings ↔ name ∈ free ∧ pattern.Mentions name

theorem getElem?_of_not_free
    (hnames : ∀ name, name ∈ bindings ↔ name ∈ free ∧ pattern.Mentions name) (name : String)
    (hfixed : name ∉ free) : bindings[name]? = none := by
  rw [getElem?_eq_none_iff, hnames]
  exact fun h => hfixed h.1

theorem names_matchPattern (h : matchPattern tree pattern free = some bindings) (name : String) :
    name ∈ bindings ↔ name ∈ free ∧ pattern.Mentions name := by
  simpa using mem_matchFrom h name

theorem solves_of_matchPattern (h : matchPattern tree pattern free = some bindings) :
    Solves free bindings pattern tree := by
  have hnames := names_matchPattern h
  obtain ⟨-, hrealises⟩ := (exists_matchFrom_within_iff (getElem?_of_not_free hnames)).mp
    ⟨bindings, h, fun _ _ => id⟩
  exact ⟨hrealises, hnames⟩

theorem matchPattern_of_solves (h : Solves free bindings pattern tree) :
    matchPattern tree pattern free = some bindings := by
  have hempty : Bindings.Within ∅ bindings := by simp [Bindings.Within]
  obtain ⟨found, hfound, hwithin⟩ :=
    (exists_matchFrom_within_iff (getElem?_of_not_free h.names)).mpr ⟨hempty, h.toRealises⟩
  -- both bind the same names, so nothing is missing in what was found
  have hnames := names_matchPattern hfound
  have heq : found = bindings := by
    ext1 name
    cases ht : found[name]? with
    | some t => exact (hwithin name t ht).symm
    | none =>
        rw [getElem?_eq_none_iff, hnames, ← h.names, ← getElem?_eq_none_iff] at ht
        exact ht.symm
  exact heq ▸ hfound

/-- Matching is exact. It succeeds exactly if there is a substitution of the free variables of the
pattern under which the pattern is the tree. Then the bindings are this substitution, which is the
only one, their names are the free ones that occur in the pattern, and instantiating the pattern
with them yields the tree, which has to be one that the checked constructors build. -/
theorem matchPattern_is_exact (tree pattern : Expr) (free : List String) :
    ((∃ bindings, matchPattern tree pattern free = some bindings) ↔
      ∃ bindings, Solves free bindings pattern tree) ∧
      ∀ bindings, matchPattern tree pattern free = some bindings →
        Solves free bindings pattern tree ∧
        (∀ others, Solves free others pattern tree → others = bindings) ∧
        (∀ name, name ∈ bindings ↔ name ∈ free ∧ pattern.Mentions name) ∧
        (tree.Constructed → pattern.instantiate bindings = .ok tree) := by
  refine ⟨exists_congr fun bindings => ⟨solves_of_matchPattern, matchPattern_of_solves⟩,
    fun bindings hmatch => ?_⟩
  have hsolves := solves_of_matchPattern hmatch
  refine ⟨hsolves, fun others hothers => ?_, hsolves.names, fun htree => ?_⟩
  · exact Option.some.inj ((matchPattern_of_solves hothers).symm.trans hmatch)
  · rw [← hsolves.result] at htree ⊢
    exact instantiate_eq_substitute htree

/-- A variable that occurs twice in the pattern is bound to a product in which its own name
occurs. -/
theorem matchPattern_is_exact_of_repeated_variable :
    let product := binary .mul (var "A" 32) (mem (var "y" 32) 4 32)
    let pattern := binary .sub (var "A" 32) (unary .neg (var "A" 32))
    let tree := binary .sub product (unary .neg product)
    ∃ bindings : Bindings, bindings["A"]? = some product ∧ tree.Constructed ∧
      Solves ["A"] bindings pattern tree ∧
      matchPattern tree pattern ["A"] = some bindings ∧
      pattern.instantiate bindings = .ok tree := by
  intro product pattern tree
  let bindings : Bindings := Std.ExtTreeMap.insert ∅ "A" product
  have hproduct : bindings["A"]? = some product := by simp [bindings]
  have htree : tree.Constructed := WellFormed.constructed (show tree.WellFormed .all by decide)
  have hsolves : Solves ["A"] bindings pattern tree := by
    refine ⟨⟨?_, ?_⟩, fun name => ?_⟩
    · simp only [pattern, allVars_binary, allVars_unary, allVars_var]
      exact ⟨fun _ => ⟨product, hproduct, rfl⟩, fun _ => ⟨product, hproduct, rfl⟩⟩
    · simp only [pattern, tree, substitute, hproduct, Option.getD_some]
    · rw [Std.ExtTreeMap.mem_insert, Std.LawfulEqCmp.compare_eq_iff_eq]
      simp [pattern, Mentions, subterms, eq_comm]
  obtain ⟨hexists, hbindings⟩ := matchPattern_is_exact tree pattern ["A"]
  obtain ⟨found, hfound⟩ := hexists.mpr ⟨bindings, hsolves⟩
  obtain ⟨-, hunique, -, hinstantiate⟩ := hbindings found hfound
  obtain rfl := hunique bindings hsolves
  exact ⟨bindings, hproduct, htree, hsolves, hfound, hinstantiate htree⟩

end FlowRecovery.Expr
