import TreeEdit.Text.Quoted
import TreeEdit.Tree.Basic

/-!
# Printing trees

`Tree.dump` gives one line for each node, indented by its depth. `outline` gives the slots of a tree
in brackets.
-/

namespace TreeEdit

/-- The nodes below the slots of a stack with their depths, each node before its children. A slot
that does not exist is passed over. -/
def Store.depthWalk (s : Store) : List (NodeId × Nat) → List (Node × Nat)
  | [] => []
  | (id, depth) :: rest =>
    match s.get? id with
    | none => s.depthWalk rest
    | some n => (n, depth) :: s.depthWalk ((s.under id).map (·, depth + 1) ++ rest)
termination_by stack => s.load (stack.map Prod.fst)
decreasing_by
  · simp only [List.map_cons, Store.load_cons, Store.weight_eq s id]
    omega
  · simp [Function.comp_def, Store.weight_eq s id]

/-- The line of a node: two spaces for each level, the stable name, and the text in quotes. -/
def Node.line (n : Node) (depth : Nat) : String :=
  "".pushn ' ' (2 * depth) ++ n.stableId.describe ++
    (match n.attributes.text with
      | some text => " " ++ Text.quoted text
      | none => "") ++ "\n"

/-- The subtree at a slot, one node in a line. -/
def Tree.dump (t : Tree) (id : NodeId) : String :=
  String.join ((t.store.depthWalk [(id, 0)]).map fun entry => entry.1.line entry.2)

/-- Write the slots below a slot in brackets, to at most the given depth. -/
def outlineTo (children : NodeId → List NodeId) : Nat → String → NodeId → String
  | 0, out, id => out ++ toString id
  | depth + 1, out, id =>
    match children id with
    | [] => out ++ toString id
    | c :: cs =>
      cs.foldl (fun out c => outlineTo children depth (out ++ ",") c)
        (outlineTo children depth (out ++ s!"{id}[") c) ++ "]"

/-- The slots of a tree in brackets. A tree has no branch longer than there are slots. -/
def Tree.outline (t : Tree) : String :=
  outlineTo t.children t.store.size "" t.root

end TreeEdit
