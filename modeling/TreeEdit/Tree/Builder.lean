import TreeEdit.Tree.Basic

/-!
# Building a first generation

Nodes are added from the leaves up, so that children exist before their parent. `Store.finish`
then chooses a root, sees to it that no slot is reached twice from it, and sets the parent links.
-/

namespace TreeEdit

namespace Store

/-- Add a node the given number of times, each on top of the one before, the first of them on top of
`last` if there is one. Gives the last slot, and the error if one stopped it. -/
def allocChain (s : Store) (n : Node) :
    Nat → (last : Option NodeId) → Store × Option NodeId × Option Error
  | 0, last => (s, last, none)
  | turns + 1, last =>
    let node := match last with
      | some id => { n with children := [id] }
      | none => n
    match s.alloc node with
    | (s, .error e) => (s, last, some e)
    | (s, .ok id) => s.allocChain n turns (some id)

/-- What is known in the middle of a walk from a root: the slots reached so far, their parent links,
and the reached slots whose children are still to come. -/
structure Attaching where
  seen : IdSet
  links : IdMap
  stack : List NodeId

/-- Reach some children from their parent, unless one of them has been reached before. -/
def attachChildren (parent : NodeId) : List NodeId → Attaching → Verdict Attaching
  | [], a => .ok a
  | c :: cs, a =>
    if a.seen.contains c then .error (.treeState (.attachedTwice c))
    else
      attachChildren parent cs
        { seen := a.seen.insert c, links := a.links.insert c parent, stack := c :: a.stack }

theorem load_attachChildren (s : Store) {parent : NodeId} {cs : List NodeId} {a b : Attaching}
    (h : attachChildren parent cs a = .ok b) : s.load b.stack = s.load cs + s.load a.stack := by
  induction cs generalizing a with
  | nil =>
    cases h
    simp
  | cons c cs ih =>
    rw [attachChildren] at h
    split at h
    · cases h
    · have := ih h
      simp only [load_cons] at this ⊢
      omega

/-- The parent links of all that is reached from the slots of a stack, unless a slot is reached
twice. -/
def attachWalk (s : Store) (seen : IdSet) (links : IdMap) : List NodeId → Verdict IdMap
  | [] => .ok links
  | id :: rest =>
    match _h : attachChildren id (s.under id) ⟨seen, links, rest⟩ with
    | .error e => .error e
    | .ok a => s.attachWalk a.seen a.links a.stack
termination_by stack => s.load stack
decreasing_by
  have : s.load a.stack = s.load (s.under id) + s.load rest := load_attachChildren s _h
  simp only [load_cons, weight_eq s id]
  omega

/-- The tree below a root: every slot reached from it is reached once and gets its parent link. -/
def finish (s : Store) (root : NodeId) : Verdict Tree := do
  let _ ← s.node root
  let links ← s.attachWalk {root} s.top.parents [root]
  return { store := s.withLinks links, root }

end Store

end TreeEdit
