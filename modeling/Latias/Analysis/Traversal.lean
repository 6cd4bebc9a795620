import Latias.Analysis.EvaNode

namespace TileExp.Analysis

variable {σ : Type}

/-! `GetLoopCount` and the four passes of `InitAnalysis` walk the two trees alike: `current_node_`
    goes down before a child is visited, and each visit ends at its parent. -/

mutual

/-- `node->accept(this)`, with what the visitor does before and after the children. -/
def traverse (ev : Evaluator) (before after : Node → NodePtr → σ → Exec σ) :
    Node → NodePtr × σ → Exec (NodePtr × σ)
  | .mk info cs => fun (current_node_, s) => do
    let s ← before (.mk info cs) current_node_ s
    let (current_node_, s) ← traverseChildren ev before after 0 cs (current_node_, s)
    let s ← after (.mk info cs) current_node_ s
    .ok (up current_node_, s)

def traverseChildren (ev : Evaluator) (before after : Node → NodePtr → σ → Exec σ) :
    Nat → List Node → NodePtr × σ → Exec (NodePtr × σ)
  | _, [] => fun s => .ok s
  | i, c :: cs => fun (current_node_, s) => do
    let current_node_ ← ev.child current_node_ i
    let s ← traverse ev before after c (current_node_, s)
    traverseChildren ev before after (i + 1) cs s

end

end TileExp.Analysis
