import Std.Data.ExtTreeMap
import FlowRecovery.Expr.Basic

namespace FlowRecovery.Expr

/-- Applies a rule to every node, operands before their node. The rule sees the node over its
transformed operands and returns nothing to keep it. -/
@[specialize] def transformM {m : Type → Type} [Monad m] [MonadLiftT Checked m]
    (rule : Expr → m (Option Expr)) : Expr → m Expr
  | e@(const _) | e@(var _ _) | e@(reg _) => return (← rule e).getD e
  | mem address offset width => do
    let e ← liftM (mkMem (← transformM rule address) offset width)
    return (← rule e).getD e
  | unary op a => do
    let e ← liftM (mkUnary op (← transformM rule a))
    return (← rule e).getD e
  | binary op a b => do
    let x ← transformM rule a
    let y ← transformM rule b
    let e ← liftM (mkBinary op x y)
    return (← rule e).getD e
  | ite condition a b => do
    let c ← transformM rule condition
    let x ← transformM rule a
    let y ← transformM rule b
    let e ← liftM (mkIte c x y)
    return (← rule e).getD e

/-- Replaces every subterm equal to a pattern. The outermost occurrence wins, and its replacement
is not searched again. -/
def replace (e pattern value : Expr) : Checked Expr :=
  if e = pattern then return value
  else match e with
    | const _ | var _ _ | reg _ => return e
    | mem address offset width => do mkMem (← address.replace pattern value) offset width
    | unary op a => do mkUnary op (← a.replace pattern value)
    | binary op a b => do
      let x ← a.replace pattern value
      let y ← b.replace pattern value
      mkBinary op x y
    | ite condition a b => do
      let c ← condition.replace pattern value
      let x ← a.replace pattern value
      let y ← b.replace pattern value
      mkIte c x y

abbrev Bindings := Std.ExtTreeMap String Expr

/-- Replaces all bound variables by their bindings. -/
def instantiate (e : Expr) (bindings : Bindings) : Checked Expr :=
  e.transformM fun
    | var name _ => return bindings[name]?
    | _ => return none

def replaceVar (e : Expr) (name : String) (value : Expr) : Checked Expr :=
  e.instantiate ((∅ : Bindings).insert name value)

/-- The variables of an expression with their widths. The last occurrence gives the width. -/
def freeVariables (e : Expr) : Std.ExtTreeMap String Nat :=
  e.subterms.foldl
    (fun found t => match t with
      | var name width => found.insert name width
      | _ => found)
    ∅

/-- The distinct addresses of the memory cells of an expression, in the order of their first
occurrence. -/
def cellAddresses (e : Expr) : Checked (List Expr) :=
  e.subterms.foldlM
    (fun found t => do
      let mem address offset _ := t | return found
      let place ← if offset = 0 then pure address else
        mkBinary .add address (← constant address.width offset.toNat)
      return if place ∈ found then found else found ++ [place])
    []

end FlowRecovery.Expr
