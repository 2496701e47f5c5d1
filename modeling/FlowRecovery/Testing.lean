import FlowRecovery.Decoder
import FlowRecovery.Solver

namespace FlowRecovery

namespace Solver

/-- A solver that always gives the same answer. -/
def fixed (answer : Satisfiability) : Solver where
  name := "fixed"
  check _ := return answer

def failing (reason : String) : Solver where
  name := "failing"
  check _ := .fail (.backend reason)

/-- A solver that rejects every formula with a complement in it and accepts all others. -/
def withoutNegations : Solver where
  name := "no-negations"
  check formula :=
    let negated := formula.subterms.any fun
      | .unary .not _ => true
      | _ => false
    return if negated then .unsat else .sat

end Solver

/-- The decoder that hands out the instructions of a given graph. All nodes of the instruction are
copied, in place of nodes that are there already. -/
def Decoder.ofGraph (arch : Architecture) (graph : Microcode) : Decoder where
  arch := arch
  decode _ address := do
    let nodes := graph.nodes.toList.filter fun (l, _) => l.instruction = address
    if nodes.isEmpty then throw (.unsupported address [])
    modify fun mc => { mc with nodes := mc.nodes.insertMany nodes }
    return address + 1
  nextAddress _ address := .ok (address + 1)

end FlowRecovery
