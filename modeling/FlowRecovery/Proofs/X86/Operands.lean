import Mathlib
import FlowRecovery.X86.Parser
import FlowRecovery.Proofs.Word.BitVector

namespace FlowRecovery.X86

/-- An operand has a size. Addresses of memory operands are made of 32-bit registers, and
immediates are canonical integers. -/
def Operand.Has (size : Size) : Operand → Prop
  | register r => r.size = size
  | memory stored base index _ =>
    stored = size ∧ (∀ r ∈ base, r.size = .dword) ∧ ∀ r ∈ index, r.1.size = .dword
  | immediate value => value.Canonical ∧ value.width = size.bits
  | target _ => size = .dword

def Operand.isMemory : Operand → Bool
  | memory .. => true
  | _ => false

def Operand.isPlace : Operand → Bool
  | register _ | memory .. => true
  | _ => false

/-- What is known of an operand before it is parsed. -/
inductive Kind where
  | place (size : Size)
  | memory (size : Size)
  | value (size : Size)
  | target
deriving DecidableEq

namespace Kind

/-- The operands of a kind. -/
def Admits : Kind → Operand → Prop
  | place size, o => o.isPlace = true ∧ o.Has size
  | memory size, o => o.isMemory = true ∧ o.Has size
  | value size, o => o.Has size
  | target, o => ∃ address, o = .target address

def size : Kind → Size
  | place size | memory size | value size => size
  | target => .dword

theorem Admits.has {k : Kind} {o : Operand} (h : k.Admits o) : o.Has k.size := by
  cases k with
  | place size => exact h.2
  | memory size => exact h.2
  | value size => exact h
  | target =>
      obtain ⟨address, rfl⟩ := h
      exact rfl

end Kind

def Layout.kinds : Layout → List Kind
  | none => []
  | register r => [.place r.size]
  | registerImmediate r => [.place r.size, .value r.size]
  | rm size => [.place size]
  | registerRm first second => [.place first, .place second]
  | rmRegister size => [.place size, .place size]
  | rmImmediate size _ => [.place size, .value size]
  | immediate _ extended => [.value extended]
  | relative _ => [.target]
  | address size => [.place size, .memory size]

/-- What an operation asks of its operands. -/
inductive Demand where
  | nothing
  /-- One operand. -/
  | operand
  /-- One operand that can be stored to. -/
  | place
  /-- The target of a direct jump. -/
  | target
  /-- Two operands of one size, the first of which can be stored to. -/
  | pair
  /-- An operand that can be stored to, and one that is not larger. -/
  | extension
  /-- An operand that can be stored to, and a memory operand. -/
  | address

/-- What each operation asks of its operands. -/
def Mnemonic.demand : Mnemonic → Demand
  | add | or | and | sub | xor | cmp | test | mov => .pair
  | inc | dec | pop => .place
  | movzx | movsx => .extension
  | lea => .address
  | push | jmp | call => .operand
  | jcc _ | jecxz => .target
  | ret | stosb | movsb | nop | hlt => .nothing

namespace Demand

/-- Operands that an operation can be lowered with. -/
def Met : Demand → List Operand → Prop
  | nothing, _ => True
  | operand, ops => ∃ a size, ops = [a] ∧ a.Has size
  | place, ops => ∃ a size, ops = [a] ∧ a.isPlace = true ∧ a.Has size
  | target, ops => ∃ address, ops = [.target address]
  | pair, ops => ∃ a b size, ops = [a, b] ∧ a.isPlace = true ∧ a.Has size ∧ b.Has size
  | extension, ops =>
      ∃ a b size smaller, ops = [a, b] ∧ a.isPlace = true ∧ a.Has size ∧ b.Has smaller ∧
        smaller.bits ≤ size.bits
  | address, ops =>
      ∃ a b size stored, ops = [a, b] ∧ a.isPlace = true ∧ a.Has size ∧ b.isMemory = true ∧
        b.Has stored

/-- Whether operands of given kinds are enough. -/
def accepts : Demand → List Kind → Bool
  | nothing, _ => true
  | operand, [_] => true
  | place, [.place _] => true
  | target, [.target] => true
  | pair, [.place size, k] => k.size == size
  | extension, [.place size, k] => k.size.bits ≤ size.bits
  | address, [.place _, .memory _] => true
  | _, _ => false

theorem exists_of_forall₂_one {k : Kind} {ops : List Operand}
    (h : List.Forall₂ Kind.Admits [k] ops) :
    ∃ a, ops = [a] ∧ k.Admits a := by
  cases h with
  | cons ha h =>
      cases h
      exact ⟨_, rfl, ha⟩

theorem exists_of_forall₂_two {k k' : Kind} {ops : List Operand}
    (h : List.Forall₂ Kind.Admits [k, k'] ops) :
    ∃ a b, ops = [a, b] ∧ k.Admits a ∧ k'.Admits b := by
  cases h with
  | cons ha h =>
      obtain ⟨b, rfl, hb⟩ := exists_of_forall₂_one h
      exact ⟨_, b, rfl, ha, hb⟩

theorem met_of_accepts {d : Demand} {kinds : List Kind} {ops : List Operand}
    (h : d.accepts kinds = true) (hops : List.Forall₂ Kind.Admits kinds ops) : d.Met ops := by
  unfold accepts at h
  split at h
  case h_1 => trivial
  case h_2 k =>
    obtain ⟨a, rfl, ha⟩ := exists_of_forall₂_one hops
    exact ⟨a, k.size, rfl, ha.has⟩
  case h_3 size =>
    obtain ⟨a, rfl, ha⟩ := exists_of_forall₂_one hops
    exact ⟨a, size, rfl, ha⟩
  case h_4 =>
    obtain ⟨_, rfl, address, rfl⟩ := exists_of_forall₂_one hops
    exact ⟨address, rfl⟩
  case h_5 size k =>
    obtain ⟨a, b, rfl, ha, hb⟩ := exists_of_forall₂_two hops
    exact ⟨a, b, size, rfl, ha.1, ha.2, beq_iff_eq.mp h ▸ hb.has⟩
  case h_6 size k =>
    obtain ⟨a, b, rfl, ha, hb⟩ := exists_of_forall₂_two hops
    exact ⟨a, b, size, k.size, rfl, ha.1, ha.2, hb.has, of_decide_eq_true h⟩
  case h_7 size stored =>
    obtain ⟨a, b, rfl, ha, hb⟩ := exists_of_forall₂_two hops
    exact ⟨a, b, size, stored, rfl, ha.1, ha.2, hb.1, hb.2⟩
  case h_8 => cases h

end Demand

namespace Parser

variable {α β : Type}

/-- Every result of a parser satisfies a condition. -/
def Ensures (x : Parser α) (post : α → Prop) : Prop :=
  ∀ cursor a cursor', x.run.run cursor = (.ok a, cursor') → post a

variable {post : α → Prop} {post' : β → Prop}

theorem Ensures.trivial (x : Parser α) : x.Ensures fun _ => True :=
  fun _ _ _ _ => True.intro

theorem Ensures.pure {a : α} (h : post a) : Ensures (Pure.pure a) post := by
  intro cursor b cursor' hb
  cases hb
  exact h

theorem Ensures.throw (error : ParseError) : Ensures (MonadExcept.throw error) post := by
  intro cursor b cursor' hb
  cases hb

theorem Ensures.bind {x : Parser α} {f : α → Parser β} (hx : x.Ensures post)
    (hf : ∀ a, post a → (f a).Ensures post') : Ensures (x >>= f) post' := by
  intro cursor b cursor' hb
  rw [ExceptT.run_bind, StateT.run_bind] at hb
  rcases hrun : x.run.run cursor with ⟨_ | a, middle⟩
  · rw [hrun] at hb
    cases hb
  · rw [hrun] at hb
    exact hf a (hx _ _ _ hrun) _ _ _ hb

theorem Ensures.map {x : Parser α} {f : α → β} (hx : x.Ensures fun a => post' (f a)) :
    Ensures (f <$> x) post' := by
  rw [map_eq_pure_bind]
  exact hx.bind fun a ha => .pure ha

theorem Ensures.ite {c : Prop} [Decidable c] {x y : Parser α} (hx : x.Ensures post)
    (hy : y.Ensures post) :
    Ensures (if c then x else y) post := by
  split
  · exact hx
  · exact hy

theorem canonical_immediate (size : Size) (value : Int) :
    Word.Canonical ⟨size.bits, (value % Word.modulus size.bits).toNat⟩ := by
  have hvalid : Word.ValidWidth size.bits := by cases size <;> decide
  refine ⟨hvalid, ?_⟩
  have hpos : (0 : Int) < Word.modulus size.bits := by
    rw [Word.modulus_eq]
    positivity
  have hlt := Int.emod_lt_of_pos value hpos
  have hnonneg := Int.emod_nonneg value hpos.ne'
  rw [Word.modulus_eq] at hlt hnonneg ⊢
  push_cast at hlt hnonneg ⊢
  show (value % _).toNat < _
  zify
  omega

theorem immediate_ensures (size extended : Size) :
    (immediate size extended).Ensures fun o => o.Has extended :=
  (Ensures.trivial _).bind fun _ _ => .pure ⟨canonical_immediate _ _, rfl⟩

theorem scaledIndex_ensures :
    scaledIndex.Ensures fun indexed => ∀ r ∈ indexed.1, r.1.size = .dword := by
  refine (Ensures.trivial _).bind fun byte _ => .pure ?_
  split
  · simp
  · rintro r ⟨⟩
    rfl

theorem memory_ensures (size : Size) (mode rm : Nat) :
    (memory size mode rm).Ensures (Kind.memory size).Admits := by
  have hplain : Ensures (Pure.pure (none, rm)) fun indexed : Option (Gpr × Nat) × Nat =>
      ∀ r ∈ indexed.1, r.1.size = .dword := .pure (by simp)
  have hbase (bits : Nat) : ∀ r ∈ some (Gpr.ofBits .dword bits), r.size = .dword := by
    rintro r ⟨⟩
    rfl
  refine .ite (scaledIndex_ensures.bind ?_) (hplain.bind ?_)
  all_goals
    intro indexed hindex
    refine .ite ((Ensures.trivial _).bind fun _ _ => .pure ⟨rfl, rfl, by simp, hindex⟩) ?_
    split <;> exact (Ensures.trivial _).bind fun _ _ => .pure ⟨rfl, rfl, hbase _, hindex⟩

theorem registerAndRm_ensures (registerSize rmSize : Size) :
    (registerAndRm registerSize rmSize).Ensures fun operands =>
      (Kind.place registerSize).Admits operands.1 ∧ (Kind.place rmSize).Admits operands.2 := by
  refine (Ensures.trivial _).bind fun byte _ => .ite (.pure ⟨⟨rfl, rfl⟩, rfl, rfl⟩) ?_
  refine (memory_ensures _ _ _).bind fun o ho => .pure ⟨⟨rfl, rfl⟩, ?_⟩
  cases o with
  | memory stored base index displacement => exact ⟨rfl, ho.2⟩
  | _ => cases ho.1

theorem operands_ensures (address : UInt64) (layout : Layout) :
    (operands address layout).Ensures (List.Forall₂ Kind.Admits layout.kinds) := by
  cases layout with
  | none => exact .pure .nil
  | register r => exact .pure (.cons ⟨rfl, rfl⟩ .nil)
  | registerImmediate r =>
      exact (immediate_ensures _ _).bind fun x hx => .pure (.cons ⟨rfl, rfl⟩ (.cons hx .nil))
  | rm size => exact (registerAndRm_ensures _ _).bind fun pair h => .pure (.cons h.2 .nil)
  | registerRm first second =>
      exact (registerAndRm_ensures _ _).bind fun pair h => .pure (.cons h.1 (.cons h.2 .nil))
  | rmRegister size =>
      exact (registerAndRm_ensures _ _).bind fun pair h => .pure (.cons h.2 (.cons h.1 .nil))
  | rmImmediate size given =>
      exact (registerAndRm_ensures _ _).bind fun pair h =>
        (immediate_ensures _ _).bind fun x hx => .pure (.cons h.2 (.cons hx .nil))
  | immediate size extended =>
      exact (immediate_ensures _ _).bind fun x hx => .pure (.cons hx .nil)
  | relative size =>
      exact (Ensures.trivial _).bind fun _ _ => (Ensures.trivial _).bind fun _ _ =>
        .pure (.cons ⟨_, rfl⟩ .nil)
  | address size =>
      refine (registerAndRm_ensures _ _).bind fun pair h => ?_
      obtain ⟨r, m⟩ := pair
      cases m with
      | memory stored base index displacement => exact .pure (.cons h.1 (.cons ⟨rfl, h.2.2⟩ .nil))
      | _ => exact .throw _

end Parser

section Table

/-- Whether an operation accepts the operands of its layout. -/
def Form.isSound (form : Form) : Bool :=
  form.mnemonic.demand.accepts form.layout.kinds

def Entry.isSound : Entry → Bool
  | unsupported => true
  | single form => form.isSound
  | group select => (List.range 8).all fun extension => (select extension).all Form.isSound

theorem oneByte_isSound (v : Size) : ∀ opcode < 256, (oneByte v opcode).isSound = true := by
  cases v <;> decide +kernel

theorem twoByte_isSound {v : Size} (hv : v ≠ .byte) :
    ∀ opcode < 256, (twoByte v opcode).isSound = true := by
  cases v with
  | byte => exact absurd rfl hv
  | word => decide +kernel
  | dword => decide +kernel

namespace Parser

theorem select_ensures {entry : Entry} (h : entry.isSound = true) :
    Ensures (match entry with
      | .unsupported => throw .unsupported
      | .single form => return form
      | .group select => do
        let (_, extension, _) := fields (← peek)
        match select extension with
        | some form => return form
        | none => throw .unsupported) fun form => form.isSound = true := by
  cases entry with
  | unsupported => exact .throw _
  | single form => exact .pure h
  | group select =>
      refine (Ensures.trivial _).bind fun byte _ => ?_
      -- the extension is a field of three bits, and all its values were checked
      have hextension : byte.toNat / 8 % 8 < 8 := Nat.mod_lt _ (by decide)
      have hform := List.all_eq_true.mp h _ (List.mem_range.mpr hextension)
      simp only [fields]
      cases hselect : select (byte.toNat / 8 % 8) with
      | none => exact .throw _
      | some form =>
          rw [hselect] at hform
          exact .pure hform

theorem form_ensures {v : Size} (hv : v ≠ .byte) :
    (form v).Ensures fun form => form.isSound = true := by
  have hsecond : Ensures (twoByte v <$> UInt8.toNat <$> next) fun entry => entry.isSound = true :=
    .map (.map fun _ byte _ _ => twoByte_isSound hv _ byte.toNat_lt)
  refine (Ensures.trivial _).bind fun opcode _ => .ite ?_ ?_
  · exact hsecond.bind fun entry => select_ensures
  · exact select_ensures (oneByte_isSound v _ opcode.toNat_lt)

theorem instruction_ensures (address : UInt64) : (instruction address).Ensures fun i =>
    i.address = address ∧ i.mnemonic.demand.Met i.operands := by
  refine (Ensures.trivial _).bind fun cursor _ => (Ensures.trivial _).bind fun found _ => ?_
  refine (form_ensures ?_).bind fun form hform => ?_
  · split <;> decide
  · refine (operands_ensures _ _).bind fun ops hops => (Ensures.trivial _).bind fun cursor _ => ?_
    exact .pure ⟨rfl, Demand.met_of_accepts hform hops⟩

end Parser

theorem Instruction.met_of_decode {bytes : List UInt8} {address : UInt64} {i : Instruction}
    (h : Instruction.decode bytes address = .ok i) :
    i.address = address ∧ i.mnemonic.demand.Met i.operands := by
  unfold Instruction.decode at h
  rcases hrun : (Parser.instruction address).run ⟨[], bytes⟩ with ⟨result, cursor⟩
  rw [hrun] at h
  cases result with
  | error error => cases error <;> cases h
  | ok instruction =>
      cases h
      exact Parser.instruction_ensures address _ _ _ hrun

end Table

end FlowRecovery.X86
