import Mathlib
import FlowRecovery.Proofs.X86.Operands

/-!
Instruction bytes form a prefix code. A parser that looks at its bytes one after the other either
accepts some of them, whatever follows, or refuses them, or runs out of them; and where it runs
out there are further bytes that it accepts. Each part of an instruction is read in this way, and
so is the instruction.
-/

namespace FlowRecovery.X86

/-- Whether a layout begins with the byte that selects an operation of a group. -/
def Layout.isSelected : Layout → Bool
  | rm _ | rmImmediate _ _ => true
  | _ => false

namespace Parser

variable {α β : Type} {x y : Parser α} {f : α → Parser β} {refusals : Prop}
  {taken used left rest : List UInt8}

/-- From some bytes on, a parser takes the first ones, leaves the others and gives a result. -/
def Takes (x : Parser α) (taken used left : List UInt8) (result : Except ParseError α) : Prop :=
  x.run.run ⟨taken, used ++ left⟩ = (result, ⟨used.reverse ++ taken, left⟩)

/-- A parser wants more bytes than there are. -/
def RunsOut (x : Parser α) (taken rest : List UInt8) : Prop :=
  (x.run.run ⟨taken, rest⟩).1 = .error .truncated

/-- What becomes of some bytes: they are accepted whatever follows, or refused whatever follows,
or there are too few of them and they can be completed. -/
inductive Verdict (refusals : Prop) (x : Parser α) (taken rest : List UInt8) : Prop
  | accepted (used left : List UInt8) (a : α) (hrest : rest = used ++ left)
      (h : ∀ left, x.Takes taken used left (.ok a))
  | refused (used left : List UInt8) (error : ParseError) (hallowed : refusals)
      (herror : error ≠ .truncated)
      (hrest : rest = used ++ left) (h : ∀ more, x.Takes taken used (left ++ more) (.error error))
  | runsOut (more : List UInt8) (a : α) (h : x.RunsOut taken rest)
      (hmore : ∀ left, x.Takes taken (rest ++ more) left (.ok a))

/-- All bytes get a verdict. -/
def Streaming (refusals : Prop) (x : Parser α) : Prop :=
  ∀ taken rest, Verdict refusals x taken rest

section Sequences

theorem Takes.bind {a : α} {used' : List UInt8} {result : Except ParseError β}
    (hx : x.Takes taken used (used' ++ left) (.ok a))
    (hf : (f a).Takes (used.reverse ++ taken) used' left result) :
    (x >>= f).Takes taken (used ++ used') left result := by
  unfold Takes at hx hf ⊢
  rw [ExceptT.run_bind, StateT.run_bind, List.append_assoc, hx, List.reverse_append,
    List.append_assoc]
  exact hf

theorem Takes.bind_error {error : ParseError} (hx : x.Takes taken used left (.error error)) :
    (x >>= f).Takes taken used left (.error error) := by
  unfold Takes at hx ⊢
  rw [ExceptT.run_bind, StateT.run_bind, hx]
  rfl

theorem RunsOut.bind (hx : x.RunsOut taken rest) : (x >>= f).RunsOut taken rest := by
  unfold RunsOut at hx ⊢
  rw [ExceptT.run_bind, StateT.run_bind]
  rcases hrun : x.run.run ⟨taken, rest⟩ with ⟨result, cursor⟩
  rw [hrun] at hx
  cases hx
  rfl

theorem Takes.bind_runsOut {a : α} (hx : x.Takes taken used left (.ok a))
    (hf : (f a).RunsOut (used.reverse ++ taken) left) :
    (x >>= f).RunsOut taken (used ++ left) := by
  unfold Takes at hx
  unfold RunsOut at hf ⊢
  rw [ExceptT.run_bind, StateT.run_bind, hx]
  exact hf

theorem Verdict.mono (h : Verdict False x taken rest) : Verdict refusals x taken rest := by
  cases h with
  | accepted used left a hrest h => exact .accepted used left a hrest h
  | refused _ _ _ hallowed => exact hallowed.elim
  | runsOut more a h hmore => exact .runsOut more a h hmore

theorem Streaming.mono (h : Streaming False x) : Streaming refusals x := by
  intro taken rest
  exact (h taken rest).mono

theorem Streaming.pure (a : α) : Streaming refusals (Pure.pure a) :=
  fun _ rest => .accepted [] rest a rfl fun _ => rfl

theorem Streaming.throw {error : ParseError} (herror : error ≠ .truncated) :
    Streaming True (MonadExcept.throw error : Parser α) :=
  fun _ rest => .refused [] rest error trivial herror rfl fun _ => rfl

/-- What follows has to refuse nothing, so that bytes can be completed through both parts. -/
theorem Streaming.bind {post : α → Prop} (hx : Streaming refusals x) (hpost : x.Ensures post)
    (hf : ∀ a, post a → Streaming False (f a)) : Streaming refusals (x >>= f) := by
  intro taken rest
  cases hx taken rest with
  | refused used left error hallowed herror hrest h =>
      exact .refused used left error hallowed herror hrest fun more => (h more).bind_error
  | accepted used left a hrest h =>
      subst hrest
      cases hf a (hpost _ _ _ (h [])) (used.reverse ++ taken) left with
      | accepted used' left' b hrest' h' =>
          subst hrest'
          exact .accepted (used ++ used') left' b (List.append_assoc _ _ _).symm fun more =>
            (h _).bind (h' more)
      | refused _ _ _ hallowed => exact hallowed.elim
      | runsOut more b h' hmore =>
          refine .runsOut more b ((h left).bind_runsOut h') fun left' => ?_
          rw [List.append_assoc]
          exact (h _).bind (hmore left')
  | runsOut more a h hmore =>
      -- the bytes that complete the first part are followed by those that complete the second one
      cases hf a (hpost _ _ _ (hmore [])) ((rest ++ more).reverse ++ taken) [] with
      | accepted used' left' b hrest' h' =>
          obtain ⟨rfl, rfl⟩ := List.append_eq_nil_iff.mp hrest'.symm
          refine .runsOut more b h.bind fun left => ?_
          have hboth := (hmore _).bind (h' left)
          rwa [List.append_nil] at hboth
      | refused _ _ _ hallowed => exact hallowed.elim
      | runsOut more' b h' hmore' =>
          refine .runsOut (more ++ more') b h.bind fun left => ?_
          rw [← List.append_assoc]
          exact (hmore _).bind (hmore' left)

theorem Streaming.andThen (hx : Streaming refusals x) (hf : ∀ a, Streaming False (f a)) :
    Streaming refusals (x >>= f) :=
  hx.bind (.trivial x) fun a _ => hf a

theorem Streaming.ite {c : Prop} [Decidable c] (hx : Streaming refusals x)
    (hy : Streaming refusals y) :
    Streaming refusals (if c then x else y) := by
  split
  · exact hx
  · exact hy

theorem Streaming.get {g : Cursor → Parser β} (hg : ∀ cursor, Streaming refusals (g cursor))
    (hrest : ∀ taken rest rest', g ⟨taken, rest⟩ = g ⟨taken, rest'⟩) :
    Streaming refusals (MonadState.get >>= g) := by
  intro taken rest
  have hrun (rest' : List UInt8) : (MonadState.get >>= g : Parser β).run.run ⟨taken, rest'⟩ =
      (g ⟨taken, rest⟩).run.run ⟨taken, rest'⟩ := by
    rw [hrest taken rest rest']
    rfl
  cases hg ⟨taken, rest⟩ taken rest with
  | accepted used left a hused h =>
      exact .accepted used left a hused fun left => (hrun _).trans (h left)
  | refused used left error hallowed herror hused h =>
      exact .refused used left error hallowed herror hused fun more => (hrun _).trans (h more)
  | runsOut more a h hmore =>
      refine .runsOut more a ?_ fun left => (hrun _).trans (hmore left)
      rw [RunsOut, hrun]
      exact h

end Sequences

section Bytes

variable {byte : UInt8}

theorem Takes.cons {result : Except ParseError α}
    (hx : ∀ rest, x.run.run ⟨taken, byte :: rest⟩ = y.run.run ⟨byte :: taken, rest⟩)
    (h : y.Takes (byte :: taken) used left result) :
    x.Takes taken (byte :: used) left result := by
  unfold Takes at h ⊢
  rw [List.cons_append, hx, h, List.reverse_cons, List.append_assoc, List.singleton_append]

theorem Verdict.cons
    (hx : ∀ rest, x.run.run ⟨taken, byte :: rest⟩ = y.run.run ⟨byte :: taken, rest⟩)
    (hy : Verdict refusals y (byte :: taken) rest) : Verdict refusals x taken (byte :: rest) := by
  cases hy with
  | accepted used left a hrest h =>
      subst hrest
      exact .accepted (byte :: used) left a rfl fun left => .cons hx (h left)
  | refused used left error hallowed herror hrest h =>
      subst hrest
      exact .refused (byte :: used) left error hallowed herror rfl fun more => .cons hx (h more)
  | runsOut more a h hmore =>
      refine .runsOut more a ?_ fun left => .cons hx (hmore left)
      rw [RunsOut, hx]
      exact h

theorem Verdict.nil (hnil : x.RunsOut taken [])
    (hx : ∀ rest, x.run.run ⟨taken, byte :: rest⟩ = y.run.run ⟨byte :: taken, rest⟩)
    (hy : Verdict False y (byte :: taken) []) : Verdict refusals x taken [] := by
  cases hy with
  | accepted used left a hrest h =>
      obtain ⟨rfl, rfl⟩ := List.append_eq_nil_iff.mp hrest.symm
      exact .runsOut [byte] a hnil fun left => .cons hx (h left)
  | refused _ _ _ hallowed => exact hallowed.elim
  | runsOut more a _ hmore =>
      exact .runsOut (byte :: more) a hnil fun left => .cons hx (hmore left)

theorem Streaming.next_bind {f : UInt8 → Parser α} (hf : ∀ byte, Streaming refusals (f byte))
    (first : UInt8) (hfirst : Streaming False (f first)) : Streaming refusals (next >>= f) := by
  intro taken rest
  cases rest with
  | nil => exact .nil rfl (fun _ => rfl) (hfirst (first :: taken) [])
  | cons byte rest => exact .cons (fun _ => rfl) (hf byte (byte :: taken) rest)

theorem streaming_next : Streaming False next := by
  rw [← bind_pure next]
  exact .next_bind .pure 0 (.pure 0)

theorem take_run (count : Nat) (taken rest : List UInt8) : (take count).run.run ⟨taken, rest⟩ =
    if rest.length < count then (.error .truncated, ⟨taken, rest⟩)
    else (.ok (rest.take count), ⟨(rest.take count).reverse ++ taken, rest.drop count⟩) := by
  show (if rest.length < count then _ else _ : Parser _).run.run _ = _
  split <;> rfl

theorem streaming_take (count : Nat) : Streaming False (take count) := by
  have htakes (taken used left : List UInt8) (hused : used.length = count) :
      (take count).Takes taken used left (.ok used) := by
    have hnot : ¬ (used ++ left).length < count := by
      rw [List.length_append]
      omega
    unfold Takes
    rw [take_run, if_neg hnot, ← hused, List.take_left, List.drop_left]
  intro taken rest
  by_cases hshort : rest.length < count
  · refine .runsOut (List.replicate (count - rest.length) 0) _ ?_ fun left =>
      htakes taken _ left ?_
    · rw [RunsOut, take_run, if_pos hshort]
    · rw [List.length_append, List.length_replicate]
      omega
  · refine .accepted _ _ _ (List.take_append_drop count rest).symm fun left =>
      htakes taken _ left ?_
    rw [List.length_take]
    omega

end Bytes

section Operands

theorem streaming_signed (size : Size) : Streaming False (signed size) :=
  (streaming_take size.bytes).andThen fun _ => .pure _

theorem streaming_immediate (size extended : Size) : Streaming False (immediate size extended) :=
  (streaming_signed size).andThen fun _ => .pure _

theorem streaming_memory (size : Size) (mode rm : Nat) :
    Streaming False (memory size mode rm) := by
  refine .ite (.andThen (streaming_next.andThen fun _ => .pure _) ?_) (.andThen (.pure _) ?_)
  all_goals
    intro indexed
    refine .ite ((streaming_signed _).andThen fun _ => .pure _) ?_
    split
    · exact (streaming_signed _).andThen fun _ => .pure _
    · exact (streaming_signed _).andThen fun _ => .pure _
    · exact .pure _

/-- A parser that takes a byte first, and may refuse others than zero. -/
def Begins (refusals : Prop) (x : Parser α) : Prop :=
  ∃ f : UInt8 → Parser α, x = next >>= f ∧ (∀ byte, Streaming refusals (f byte)) ∧
    Streaming False (f 0)

theorem Begins.streaming (hx : Begins refusals x) : Streaming refusals x := by
  obtain ⟨f, rfl, hf, hzero⟩ := hx
  exact .next_bind hf 0 hzero

theorem Begins.andThen (hx : Begins refusals x) (hf : ∀ a, Streaming False (f a)) :
    Begins refusals (x >>= f) := by
  obtain ⟨g, rfl, hg, hzero⟩ := hx
  exact ⟨fun byte => g byte >>= f, bind_assoc next g f, fun byte => (hg byte).andThen hf,
    hzero.andThen hf⟩

theorem Streaming.peek_bind {f : UInt8 → Parser α}
    (hf : ∀ byte, f byte = MonadExcept.throw .unsupported ∨ Begins False (f byte)) (first : UInt8)
    (hfirst : Begins False (f first)) : Streaming True (peek >>= f) := by
  have hrun {byte : UInt8} {g : UInt8 → Parser α} (hg : f byte = next >>= g)
      (taken rest : List UInt8) :
      (peek >>= f).run.run ⟨taken, byte :: rest⟩ = (g byte).run.run ⟨byte :: taken, rest⟩ := by
    show (f byte).run.run _ = _
    rw [hg]
    rfl
  intro taken rest
  cases rest with
  | nil =>
      obtain ⟨g, hg, hstreaming, -⟩ := hfirst
      exact .nil rfl (hrun hg taken) (hstreaming first _ _)
  | cons byte rest =>
      rcases hf byte with hthrow | ⟨g, hg, hstreaming, -⟩
      · refine .refused [] (byte :: rest) .unsupported trivial (by decide) rfl fun more => ?_
        show (f byte).run.run _ = _
        rw [hthrow]
        rfl
      · exact .cons (hrun hg taken) (hstreaming byte _ _).mono

theorem begins_registerAndRm (registerSize rmSize : Size) :
    Begins False (registerAndRm registerSize rmSize) := by
  have hbyte (mode number rm : Nat) : Streaming False (
      let register : Operand := .register (.ofBits registerSize number)
      if mode = 3 then return (register, .register (.ofBits rmSize rm)) else do
        return (register, ← memory rmSize mode rm)) :=
    .ite (.pure _) ((streaming_memory _ _ _).andThen fun _ => .pure _)
  exact ⟨_, rfl, fun _ => hbyte _ _ _, hbyte _ _ _⟩

theorem begins_operands (address : UInt64) {layout : Layout} (h : layout.isSelected = true) :
    Begins False (operands address layout) := by
  cases layout with
  | rm size => exact (begins_registerAndRm _ _).andThen fun _ => .pure _
  | rmImmediate size given =>
      exact (begins_registerAndRm _ _).andThen fun _ => (streaming_immediate _ _).andThen
        fun _ => .pure _
  | _ => cases h

theorem streaming_address (address : UInt64) (size : Size) :
    Streaming True (operands address (.address size)) := by
  have hmemory {f : Operand → Parser (List Operand)}
      (hf : ∀ s b i d, Streaming False (f (.memory s b i d))) (mode rm : Nat) :
      Streaming False (memory size mode rm >>= f) := by
    refine (streaming_memory _ _ _).bind (memory_ensures _ _ _) fun m hm => ?_
    cases m with
    | memory => exact hf _ _ _ _
    | _ => cases hm.1
  refine Begins.streaming ⟨_, bind_assoc _ _ _, fun byte => ?_, ?_⟩
  · by_cases hmode : byte.toNat / 64 = 3
    · simp only [fields, hmode, if_true]
      exact .throw (by decide)
    · simp only [fields, hmode, if_false, bind_assoc, pure_bind]
      exact (hmemory (fun _ _ _ _ => .pure _) _ _).mono
  · have hmode : ¬ (0 : UInt8).toNat / 64 = 3 := by decide
    simp only [fields, hmode, if_false, bind_assoc, pure_bind]
    exact hmemory (fun _ _ _ _ => .pure _) _ _

theorem streaming_operands_of_ne (address : UInt64) (layout : Layout)
    (h : ∀ size, layout ≠ .address size) :
    Streaming False (operands address layout) := by
  cases layout with
  | none => exact .pure _
  | register r => exact .pure _
  | registerImmediate r => exact (streaming_immediate _ _).andThen fun _ => .pure _
  | rm size => exact (begins_operands address rfl).streaming
  | registerRm first second => exact (begins_registerAndRm _ _).streaming.andThen fun _ => .pure _
  | rmRegister size => exact (begins_registerAndRm _ _).streaming.andThen fun _ => .pure _
  | rmImmediate size given => exact (begins_operands address rfl).streaming
  | immediate size extended => exact (streaming_immediate _ _).andThen fun _ => .pure _
  | relative size =>
      exact (streaming_signed size).andThen fun _ => .get (fun _ => .pure _) fun _ _ _ => rfl
  | address size => exact absurd rfl (h size)

theorem streaming_operands (address : UInt64) (layout : Layout) :
    Streaming True (operands address layout) := by
  cases layout with
  | address size => exact streaming_address address size
  | _ => exact (streaming_operands_of_ne address _ (by simp)).mono

end Operands

end Parser

section Table

/-- Whether the byte behind the opcode selects only layouts that begin with it, and zero one of
them. -/
def Entry.isSelective : Entry → Bool
  | group select => (select 0).isSome && (List.range 8).all fun extension =>
      (select extension).all fun form => form.layout.isSelected
  | _ => true

theorem oneByte_isSelective (v : Size) :
    ∀ opcode < 256, (oneByte v opcode).isSelective = true := by
  cases v <;> decide +kernel

theorem twoByte_isSelective (v : Size) :
    ∀ opcode < 256, (twoByte v opcode).isSelective = true := by
  cases v <;> decide +kernel

namespace Parser

variable {α : Type} {address : UInt64} {g : Form → List Operand → Parser α}

theorem streaming_select {entry : Entry} (h : entry.isSelective = true)
    (hg : ∀ form ops, Streaming False (g form ops)) :
    Streaming True ((match entry with
      | .unsupported => throw .unsupported
      | .single form => return form
      | .group select => do
        let (_, extension, _) := fields (← peek)
        match select extension with
        | some form => return form
        | none =>
            throw .unsupported) >>= fun form => operands address form.layout >>= g form) := by
  cases entry with
  | unsupported => exact .throw (by decide)
  | single form => exact (streaming_operands address form.layout).andThen (hg form)
  | group select =>
      obtain ⟨hzero, hall⟩ := Bool.and_eq_true_iff.mp h
      have hselected {extension : Nat} {form : Form} (hextension : extension < 8)
          (hform : select extension = some form) :
          Begins False (operands address form.layout >>= g form) := by
        have hlayout := List.all_eq_true.mp hall _ (List.mem_range.mpr hextension)
        rw [hform] at hlayout
        exact (begins_operands address hlayout).andThen (hg form)
      simp only [bind_assoc, fields]
      refine .peek_bind (fun byte => ?_) 0 ?_
      · cases hform : select (byte.toNat / 8 % 8) with
        | none => exact .inl rfl
        | some form => exact .inr (hselected (Nat.mod_lt _ (by decide)) hform)
      · obtain ⟨form, hform⟩ := Option.isSome_iff_exists.mp hzero
        show Begins False ((match select 0 with
          | some form => return form
          | none => throw .unsupported) >>= _)
        rw [hform]
        exact hselected (by decide) hform

theorem begins_form (v : Size) (hg : ∀ form ops, Streaming False (g form ops)) :
    Begins True (form v >>= fun form => operands address form.layout >>= g form) := by
  refine ⟨_, bind_assoc _ _ _, fun opcode => ?_, ?_⟩
  · by_cases hescape : opcode = 0x0f
    · simp only [hescape, if_true, map_eq_pure_bind, bind_assoc, pure_bind]
      refine .next_bind (fun second => ?_) 0xb6 ?_
      · exact streaming_select (twoByte_isSelective v _ second.toNat_lt) hg
      · exact (streaming_operands_of_ne address (.registerRm v .byte) (by simp)).andThen (hg _)
    · simp only [hescape, if_false, pure_bind]
      exact streaming_select (oneByte_isSelective v _ opcode.toNat_lt) hg
  · exact (streaming_operands_of_ne address (.rmRegister .byte) (by simp)).andThen (hg _)

theorem prefixes_cons {byte : UInt8} (hsize : byte ≠ 0x66) (hrep : byte ≠ 0xf3)
    (hrepne : byte ≠ 0xf2) (rest : List UInt8) (override : Bool)
    (repetition : Option Repetition) :
    prefixes (byte :: rest) override repetition = pure (override, repetition) := by
  rw [prefixes]
  all_goals simp [hsize, hrep, hrepne]

theorem streaming_prefixes {k : Bool × Option Repetition → Parser α}
    (hk : ∀ found, Begins True (k found)) (override : Bool) (repetition : Option Repetition) :
    Streaming True (get >>= fun cursor => prefixes cursor.rest override repetition >>= k) := by
  intro taken rest
  induction rest generalizing taken override repetition with
  | nil =>
      obtain ⟨f, hf, -, hzero⟩ := hk (override, repetition)
      refine .nil rfl (fun rest => ?_) (hzero (0 :: taken) [])
      show (k (override, repetition)).run.run _ = _
      rw [hf]
      rfl
  | cons byte rest ih =>
      by_cases hsize : byte = 0x66
      · subst hsize
        exact .cons (fun _ => rfl) (ih true repetition (0x66 :: taken))
      · by_cases hrep : byte = 0xf3
        · subst hrep
          exact .cons (fun _ => rfl) (ih override (some .rep) (0xf3 :: taken))
        · by_cases hrepne : byte = 0xf2
          · subst hrepne
            exact .cons (fun _ => rfl) (ih override (some .repne) (0xf2 :: taken))
          · obtain ⟨f, hf, hstreaming, -⟩ := hk (override, repetition)
            refine .cons (fun rest => ?_) (hstreaming byte (byte :: taken) rest)
            show (prefixes (byte :: rest) override repetition >>= k).run.run _ = _
            rw [prefixes_cons hsize hrep hrepne, pure_bind, hf]
            rfl

theorem streaming_instruction (address : UInt64) : Streaming True (instruction address) := by
  unfold instruction
  refine streaming_prefixes (fun found => ?_) false none
  exact begins_form _ fun _ _ => .get (fun _ => .pure _) fun _ _ _ => rfl

theorem exists_of_bind_eq_ok {β : Type} {x : Parser α} {f : α → Parser β} {b : β}
    {cursor cursor' : Cursor} (h : (x >>= f).run.run cursor = (.ok b, cursor')) :
    ∃ a middle, (f a).run.run middle = (.ok b, cursor') := by
  rw [ExceptT.run_bind, StateT.run_bind] at h
  rcases hrun : x.run.run cursor with ⟨_ | a, middle⟩
  · rw [hrun] at h
    cases h
  · rw [hrun] at h
    exact ⟨a, middle, h⟩

theorem bytes_of_run {cursor cursor' : Cursor} {i : Instruction}
    (h : (instruction address).run.run cursor = (.ok i, cursor')) :
    i.bytes = cursor'.taken.reverse := by
  obtain ⟨_, _, h⟩ := exists_of_bind_eq_ok h
  obtain ⟨_, _, h⟩ := exists_of_bind_eq_ok h
  obtain ⟨_, _, h⟩ := exists_of_bind_eq_ok h
  obtain ⟨_, _, h⟩ := exists_of_bind_eq_ok h
  cases h
  rfl

theorem Takes.decode_eq {used left left' : List UInt8} {result : Except ParseError Instruction}
    (h : (instruction address).Takes [] used left result)
    (h' : (instruction address).Takes [] used left' result) :
    Instruction.decode (used ++ left) address = Instruction.decode (used ++ left') address := by
  have hrun : (instruction address).run ⟨[], used ++ left⟩ =
      (result, ⟨used.reverse ++ [], left⟩) := h
  have hrun' : (instruction address).run ⟨[], used ++ left'⟩ =
      (result, ⟨used.reverse ++ [], left'⟩) := h'
  rw [Instruction.decode, Instruction.decode, hrun, hrun']

theorem Takes.decode_eq_ok {used left : List UInt8} {i : Instruction}
    (h : (instruction address).Takes [] used left (.ok i)) :
    i.bytes = used ∧ Instruction.decode (used ++ left) address = .ok i := by
  constructor
  · simpa using bytes_of_run h
  · have hrun : (instruction address).run ⟨[], used ++ left⟩ =
        (.ok i, ⟨used.reverse ++ [], left⟩) := h
    rw [Instruction.decode, hrun]

theorem RunsOut.decode_eq {rest : List UInt8} (h : (instruction address).RunsOut [] rest) :
    Instruction.decode rest address = .error (.truncated address) := by
  rcases hrun : (instruction address).run ⟨[], rest⟩ with ⟨result, cursor⟩
  have hresult : result = .error .truncated := by
    rw [← h]
    exact congrArg Prod.fst hrun.symm
  rw [Instruction.decode, hrun, hresult]

theorem Takes.decode_ne {used left : List UInt8} {error : ParseError}
    (herror : error ≠ .truncated) (h : (instruction address).Takes [] used left (.error error)) :
    ∃ refusal, refusal ≠ .truncated address ∧
      Instruction.decode (used ++ left) address = .error refusal := by
  have hrun : (instruction address).run ⟨[], used ++ left⟩ =
      (.error error, ⟨used.reverse ++ [], left⟩) := h
  rw [Instruction.decode, hrun]
  cases error with
  | truncated => exact absurd rfl herror
  | unsupported => exact ⟨_, by simp, rfl⟩
  | malformed => exact ⟨_, by simp, rfl⟩

end Parser

/-- What becomes of bytes: the first ones are an instruction whatever follows, or they are refused
whatever follows, or they can be completed to an instruction. -/
theorem Instruction.decode_cases (bytes : List UInt8) (address : UInt64) :
    (∃ i : Instruction, i.bytes <+: bytes ∧ ∀ more, decode (i.bytes ++ more) address = .ok i) ∨
      (∃ error, error ≠ .truncated address ∧
        ∀ more, decode (bytes ++ more) address = .error error) ∨
      decode bytes address = .error (.truncated address) ∧
        ∃ more i, decode (bytes ++ more) address = .ok i ∧ i.bytes = bytes ++ more := by
  cases Parser.streaming_instruction address [] bytes with
  | accepted used left i hrest h =>
      obtain ⟨rfl, -⟩ := (h []).decode_eq_ok
      exact .inl ⟨i, ⟨left, hrest.symm⟩, fun more => (h more).decode_eq_ok.2⟩
  | refused used left error _ herror hrest h =>
      obtain ⟨refusal, hne, hrefusal⟩ := (h []).decode_ne herror
      refine .inr (.inl ⟨refusal, hne, fun more => ?_⟩)
      rw [hrest, List.append_assoc, (h more).decode_eq (h []), hrefusal]
  | runsOut more i h hmore =>
      obtain ⟨hbytes, hdecode⟩ := (hmore []).decode_eq_ok
      rw [List.append_nil] at hdecode
      exact .inr (.inr ⟨h.decode_eq, more, i, hdecode, hbytes⟩)

theorem Instruction.decode_nil (address : UInt64) :
    decode [] address = .error (.truncated address) := rfl

theorem Instruction.decode_append {bytes : List UInt8} {address : UInt64}
    (h : decode bytes address ≠ .error (.truncated address)) (rest : List UInt8) :
    decode (bytes ++ rest) address = decode bytes address := by
  rcases decode_cases bytes address with
    ⟨i, ⟨left, rfl⟩, hi⟩ | ⟨error, -, herror⟩ | ⟨htruncated, -⟩
  · rw [List.append_assoc, hi, hi]
  · rw [herror, ← herror [], List.append_nil]
  · exact absurd htruncated h

theorem Instruction.bytes_isPrefix {bytes : List UInt8} {address : UInt64} {i : Instruction}
    (h : decode bytes address = .ok i) : i.bytes <+: bytes ∧ decode i.bytes address = .ok i := by
  rcases decode_cases bytes address with
    ⟨j, ⟨left, rfl⟩, hj⟩ | ⟨error, -, herror⟩ | ⟨htruncated, -⟩
  · rw [hj] at h
    cases h
    have hself := hj []
    rw [List.append_nil] at hself
    exact ⟨⟨left, rfl⟩, hself⟩
  · rw [← List.append_nil bytes, herror] at h
    cases h
  · rw [htruncated] at h
    cases h

/-- Instructions are a prefix code. An answer other than that bytes are missing does not depend on
the bytes that follow. The bytes of an instruction are the shortest ones that it is read from: no
proper prefix of them gives any answer. And bytes that give no answer begin an instruction. -/
theorem Instruction.decode_isPrefixCode (bytes : List UInt8) (address : UInt64) :
    (decode bytes address ≠ .error (.truncated address) →
        ∀ rest, decode (bytes ++ rest) address = decode bytes address) ∧
      (∀ i, decode bytes address = .ok i →
        i.bytes ≠ [] ∧ i.bytes <+: bytes ∧ decode i.bytes address = .ok i ∧
          ∀ short, short <+: i.bytes → short ≠ i.bytes →
            decode short address = .error (.truncated address)) ∧
      (decode bytes address = .error (.truncated address) →
        ∃ more i, decode (bytes ++ more) address = .ok i ∧ i.bytes = bytes ++ more) := by
  refine ⟨decode_append, fun i hi => ?_, fun htruncated => ?_⟩
  · obtain ⟨hbegins, hself⟩ := bytes_isPrefix hi
    refine ⟨fun hempty => ?_, hbegins, hself, fun short hshort hne => ?_⟩
    · rw [hempty, decode_nil] at hself
      cases hself
    · -- an answer for less than the whole instruction would be the instruction, which it is too
      -- short for
      by_contra hanswer
      obtain ⟨rest, hrest⟩ := hshort
      have hdecode := decode_append hanswer rest
      rw [hrest, hself] at hdecode
      have hlength := (bytes_isPrefix hdecode.symm).1.length_le
      exact hne (List.IsPrefix.eq_of_length_le ⟨rest, hrest⟩ hlength)
  · rcases decode_cases bytes address with
      ⟨j, ⟨left, rfl⟩, hj⟩ | ⟨error, hne, herror⟩ | ⟨-, hmore⟩
    · rw [hj] at htruncated
      cases htruncated
    · rw [← List.append_nil bytes, herror] at htruncated
      cases htruncated
      exact absurd rfl hne
    · exact hmore

/-- A comparison of 16 bits with a prefix, a scaled index, a displacement and an immediate, behind
which another instruction follows; and the bytes of a prefix and an escape, which are too few. -/
theorem Instruction.decode_isPrefixCode_of_comparison :
    let code : List UInt8 := [0x66, 0x81, 0x7c, 0x8d, 0x80, 0x34, 0x12]
    ∃ i : Instruction, i.bytes = code ∧ (∀ rest, decode (code ++ 0x90 :: rest) 0x1000 = .ok i) ∧
      (∀ short, short <+: code → short ≠ code →
        decode short 0x1000 = .error (.truncated 0x1000)) ∧
      ∃ more j, decode ([0x66, 0x0f] ++ more) 0x1000 = .ok j ∧
        j.bytes = [0x66, 0x0f] ++ more := by
  intro code
  obtain ⟨i, hi, hbytes⟩ : ∃ i, decode (code ++ [0x90]) 0x1000 = .ok i ∧
      i.bytes = code := ⟨_, rfl, rfl⟩
  obtain ⟨happend, hok, -⟩ := decode_isPrefixCode (code ++ [0x90]) 0x1000
  obtain ⟨-, -, -, hshort⟩ := hok i hi
  refine ⟨i, hbytes, fun rest => ?_, hbytes ▸ hshort,
    (decode_isPrefixCode [0x66, 0x0f] 0x1000).2.2 rfl⟩
  rw [← hi, ← happend (by rw [hi]; simp) rest, List.append_assoc, List.singleton_append]

end Table

end FlowRecovery.X86
