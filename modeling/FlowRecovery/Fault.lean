/-!
Broken contracts. An operation whose caller violates its contract ends in a `Fault`; an operation
that may also fail for a reason of its own domain ends in a `Failure`, which keeps the two apart.
-/

namespace FlowRecovery

/-- The contracts a caller can break. Operands of expressions are carried as their text. -/
inductive Fault where
  /-- A machine counter left its range, or a machine word was shifted by its whole size. -/
  | overflow
  | invalidWidth (width : Nat)
  | integerWidths (operation : String)
  | extractRange
  | zeroExtension
  | signExtension
  | concatWidth
  | windowRange
  | cellWidth (width : Nat)
  | sliceRange (offset size width : Nat)
  | extensionWidth (width : Nat)
  | operandWidths (operator left right : String)
  | conditionWidth
  | branchWidths
  | arity
  | normalFormWidth
  | queryWidth
  | accessWidth (width : Nat)
  | storeWidth (width : Nat)
  | registerWidth (name : String)
  | guardWidth
  | assignedPlace (place : String)
  | assignedWidths (value place : String)
  | executedPlace (place : String)
  /-- An exploration was given too few steps to come to its end. -/
  | outOfSteps
deriving DecidableEq

namespace Fault

/-- The diagnostic of a fault; an overflow has none. -/
def message : Fault → Option String
  | overflow => none
  | invalidWidth width => s!"invalid bit width {width}"
  | integerWidths operation => s!"incompatible widths for integer operation {operation}"
  | extractRange => "extract out of range"
  | zeroExtension => "zero extension to a smaller width"
  | signExtension => "sign extension to a smaller width"
  | concatWidth => "concatenation wider than 64 bits"
  | windowRange => "register window out of range"
  | cellWidth width => s!"memory cell width {width} is not in bytes"
  | sliceRange offset size width => s!"extract [{offset}; {size}] out of range for width {width}"
  | extensionWidth width => s!"invalid extension to {width} bits"
  | operandWidths operator left right =>
      s!"incompatible widths for {operator}: {left} and {right}"
  | conditionWidth => "if-then-else condition must be one bit wide"
  | branchWidths => "if-then-else branches differ in width"
  | arity => "with_children: arity mismatch"
  | normalFormWidth => "only one-bit formulas have a disjunctive normal form"
  | queryWidth => "formulas must be one bit wide"
  | accessWidth width => s!"memory access of {width} bits is not a whole number of bytes"
  | storeWidth width => s!"memory write of {width} bits is not a whole number of bytes"
  | registerWidth name => s!"width mismatch writing register {name}"
  | guardWidth => "guards must be one bit wide"
  | assignedPlace place => s!"cannot assign to {place}"
  | assignedWidths value place => s!"assignment of {value} to {place} changes width"
  | executedPlace place => s!"exec: cannot assign to {place}"
  | outOfSteps => "exploration ran out of steps"

end Fault

/-- A result, unless the caller broke a contract. -/
abbrev Checked := Except Fault

/-- A broken contract, or an error of the operation's own domain. -/
inductive Failure (ε : Type) where
  | fault (fault : Fault)
  | error (error : ε)
deriving DecidableEq

/-- A result, unless a contract was broken or the operation failed. -/
abbrev Attempt (ε : Type) := Except (Failure ε)

instance (ε : Type) : MonadLift Checked (Attempt ε) where
  monadLift result := result.mapError .fault

namespace Attempt

def fail {ε α : Type} (error : ε) : Attempt ε α :=
  .error (.error error)

/-- Separates the faults from the errors of the domain. -/
def split {ε α : Type} : Attempt ε α → Checked (Except ε α)
  | .ok value => .ok (.ok value)
  | .error (.error error) => .ok (.error error)
  | .error (.fault fault) => .error fault

end Attempt

/-- An attempt runs wherever errors of its domain and faults are at home. -/
instance (ε : Type) (m : Type → Type) [Monad m] [MonadLiftT Checked m] :
    MonadLift (Attempt ε) (ExceptT ε m) where
  monadLift attempt := ExceptT.mk (liftM attempt.split)

/-- Fails with the fault unless the contract holds. -/
def require (contract : Prop) [Decidable contract] (fault : Fault) : Checked Unit :=
  if contract then .ok () else .error fault

/-- The sum of two bit counts, which are kept below 2 ^ 32. -/
def addWidths (a b : Nat) : Checked Nat :=
  if a + b < 0x100000000 then .ok (a + b) else .error .overflow

section

variable {ε α β : Type}

@[simp] theorem ok_bind (a : α) (f : α → Except ε β) : (Except.ok a >>= f) = f a := rfl

@[simp] theorem error_bind (error : ε) (f : α → Except ε β) :
    ((Except.error error : Except ε α) >>= f) = .error error := rfl

theorem exists_of_bind_eq_ok {x : Except ε α} {f : α → Except ε β} {b : β} (h : x >>= f = .ok b) :
    ∃ a, x = .ok a ∧ f a = .ok b := by
  cases x with
  | error error => cases h
  | ok a => exact ⟨a, rfl, h⟩

@[simp] theorem pure_eq_ok (a : α) : (pure a : Except ε α) = .ok a := rfl

@[simp] theorem liftM_ok (a : α) : (liftM (.ok a : Checked α) : Attempt ε α) = .ok a := rfl

@[simp] theorem liftM_error (fault : Fault) :
    (liftM (.error fault : Checked α) : Attempt ε α) = .error (.fault fault) := rfl

theorem Attempt.eq_ok_of_split {x : Attempt ε α} {a : α} (h : x.split = .ok (.ok a)) :
    x = .ok a := by
  rcases x with (fault | error) | b
  · cases h
  · cases h
  · cases h
    rfl

end

@[simp] theorem require_true [Decidable True] (fault : Fault) : require True fault = .ok () :=
  if_pos trivial

theorem of_require_eq_ok {contract : Prop} [Decidable contract] {fault : Fault} {u : Unit}
    (h : require contract fault = .ok u) : contract := by
  rw [require] at h
  split at h
  · assumption
  · cases h

theorem addWidths_of_lt {a b : Nat} (h : a + b < 0x100000000) : addWidths a b = .ok (a + b) :=
  if_pos h

theorem eq_add_of_addWidths {a b sum : Nat} (h : addWidths a b = .ok sum) : sum = a + b := by
  rw [addWidths] at h
  split at h
  · cases h
    rfl
  · cases h

end FlowRecovery
