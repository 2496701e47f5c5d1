import FlowRecovery.Expr.Substitution

namespace FlowRecovery.Expr

/-- Binds a free variable to a tree, which an earlier binding of the variable has to agree
with. -/
def Bindings.extend (bindings : Bindings) (name : String) (tree : Expr) : Option Bindings :=
  match bindings[name]? with
  | some bound => if bound = tree then some bindings else none
  | none => some (bindings.insert name tree)

/-- Matches a tree against a pattern of the same width, extending earlier bindings. -/
def matchFrom (free : List String) (bindings : Bindings) (tree pattern : Expr) :
    Option Bindings :=
  if tree.width = pattern.width then
    match pattern with
    | var name _ =>
      if name ∈ free then bindings.extend name tree
      else if tree = pattern then some bindings else none
    | const _ | reg _ => if tree = pattern then some bindings else none
    | mem subpattern offset width => match tree with
      | mem address offset' width' =>
        if offset' = offset ∧ width' = width then matchFrom free bindings address subpattern
        else none
      | _ => none
    | unary op p => match tree with
      | unary op' a => if op' = op then matchFrom free bindings a p else none
      | _ => none
    | binary op p q => match tree with
      | binary op' a b =>
        if op' = op then do matchFrom free (← matchFrom free bindings a p) b q else none
      | _ => none
    | ite r p q => match tree with
      | ite c a b => do matchFrom free (← matchFrom free (← matchFrom free bindings c r) a p) b q
      | _ => none
  else none

/-- The bindings of the free variables under which the pattern is the tree, if there are any. -/
def matchPattern (tree pattern : Expr) (free : List String) : Option Bindings :=
  matchFrom free ∅ tree pattern

/-- The subtree a variable is bound to when the tree matches the pattern. -/
def binding? (tree pattern : Expr) (free : List String) (name : String) : Option Expr := do
  (← matchPattern tree pattern free)[name]?

/-- Replaces every subtree that matches a pattern by a value over the pattern's bindings, operands
before their node. -/
def replacePattern (tree pattern : Expr) (free : List String) (value : Expr) : Checked Expr :=
  tree.transformM fun e => match matchPattern e pattern free with
    | some bindings => return some (← value.instantiate bindings)
    | none => return none

end FlowRecovery.Expr
