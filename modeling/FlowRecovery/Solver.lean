import FlowRecovery.Expr.Simplify

namespace FlowRecovery

/-- The answers of a satisfiability check. -/
inductive Satisfiability where
  | sat
  | unsat
  | unknown
deriving DecidableEq

/-- Whether a formula may hold; an unknown answer does not exclude it. -/
def Satisfiability.isFeasible (answer : Satisfiability) : Bool :=
  answer ≠ .unsat

/-- The failures of a solver. -/
inductive SolverError where
  | init (reason : String)
  | backend (reason : String)
deriving DecidableEq

def SolverError.message : SolverError → String
  | init reason => "failed to initialize solver: " ++ reason
  | backend reason => "solver backend failed: " ++ reason

/-- An oracle that decides whether some values of the variables make a one-bit formula true. It
keeps no state between queries: the same formula always has the same answer. -/
structure Solver where
  name : String
  check : Expr → Attempt SolverError Satisfiability

namespace Solver

/-- The assignment a counter stands for: each variable takes the next bits of it, from the lowest
upward. -/
def assignment : List (String × Nat) → Nat → Checked (List (String × Word))
  | [], _ => return []
  | (name, width) :: rest, counter => do
    let value ← Word.ofNat width counter
    return (name, value) :: (← assignment rest (counter >>> width))

def holdsUnder (formula : Expr) (values : List (String × Word)) : Checked Bool := do
  let value ← formula.evaluate fun
    | .var name _ => values.lookup name
    | _ => none
  return value.any Word.isTrue

/-- Whether a formula is true under one of the assignments from a counter on. -/
def holdsFrom (formula : Expr) (vars : List (String × Nat)) : (count counter : Nat) → Checked Bool
  | 0, _ => return false
  | count + 1, counter => do
    if ← holdsUnder formula (← assignment vars counter) then return true
    holdsFrom formula vars count (counter + 1)

/-- Whether a formula mentions a register or a memory cell. -/
def isOpaque (formula : Expr) : Bool :=
  formula.subterms.any fun
    | .reg _ | .mem _ _ _ => true
    | _ => false

/-- Decides a formula by simplification and, up to a bound on the total width of its variables, by
enumeration. -/
def checkByEnumeration (bound : Nat) (formula : Expr) : Checked Satisfiability := do
  require (formula.width = 1) .queryWidth
  let formula ← formula.simplify
  if let some value := formula.const? then return if value.isTrue then .sat else .unsat
  let vars := formula.freeVariables.toList
  let total ← vars.foldlM (fun sum v => addWidths sum v.2) 0
  if isOpaque formula || bound < total then return .unknown
  return if ← holdsFrom formula vars (Word.modulus total) 0 then .sat else .unsat

/-- The enumerating solver with a bound on the total width, at most 24 bits. -/
def enumerating (bound : Nat := 16) : Solver where
  name := "simplify"
  check formula := checkByEnumeration (min bound 24) formula

end Solver

end FlowRecovery
