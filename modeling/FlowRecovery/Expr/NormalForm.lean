import FlowRecovery.Expr.Simplify

namespace FlowRecovery.Expr

/-- Whether a one-bit formula is a complement, conjunction, disjunction, exclusive disjunction or
choice. -/
def isConnective (e : Expr) : Bool :=
  e.width = 1 && match e with
    | unary .not _ | binary .and _ _ | binary .or _ _ | binary .xor _ _ | ite _ _ _ => true
    | _ => false

/-- Whether a formula is no connective, or the complement of one that is none. -/
def isLiteral (e : Expr) : Bool :=
  match e with
  | unary .not a => !e.isConnective || !a.isConnective
  | _ => !e.isConnective

def isConjunction (e : Expr) : Bool :=
  match e with
  | binary .and a b => if e.width = 1 then a.isConjunction && b.isConjunction else e.isLiteral
  | _ => e.isLiteral

/-- Whether a formula is a disjunction of conjunctions of literals. -/
def isDnf (e : Expr) : Bool :=
  match e with
  | binary .or a b => if e.width = 1 then a.isDnf && b.isDnf else e.isConjunction
  | _ => e.isConjunction

/-- All clauses joined from a clause of one list and a clause of the other. -/
def crossClauses (left right : List (List Expr)) : List (List Expr) :=
  left.flatMap fun l => right.map fun r => l ++ r

/-- The clauses of a formula, or those of its complement. No clause stands for false and an empty
clause for true. -/
def clauses (e : Expr) (negated : Bool) : List (List Expr) :=
  if e.isConnective then match e with
    | unary .not a => a.clauses (!negated)
    | binary .and a b =>
      if negated then a.clauses true ++ b.clauses true
      else crossClauses (a.clauses false) (b.clauses false)
    | binary .or a b =>
      if negated then crossClauses (a.clauses true) (b.clauses true)
      else a.clauses false ++ b.clauses false
    | binary .xor a b =>
      crossClauses (a.clauses false) (b.clauses (!negated)) ++
        crossClauses (a.clauses true) (b.clauses negated)
    | ite condition a b =>
      crossClauses (condition.clauses false) (a.clauses negated) ++
        crossClauses (condition.clauses true) (b.clauses negated)
    | _ => []
  else match e with
    | const value => if value.isTrue != negated then [[]] else []
    | _ => [[if negated then e.not else e]]

/-- Joins formulas by an operator from left to right, starting from a neutral formula if there are
none. -/
def joinWith (op : BinaryOp) (neutral : Expr) : List Expr → Checked Expr
  | [] => return neutral
  | e :: rest => rest.foldlM (mkBinary op) e

/-- A disjunction of conjunctions of literals that is equivalent to a one-bit formula. -/
def dnf (e : Expr) : Checked Expr := do
  require (e.width = 1) .normalFormWidth
  let conjunctions ← ((← e.simplify).clauses false).mapM (joinWith .and (bool true))
  (← joinWith .or (bool false) conjunctions).simplifyPass

end FlowRecovery.Expr
