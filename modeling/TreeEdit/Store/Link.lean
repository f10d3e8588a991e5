import TreeEdit.Store.Walk

/-!
# Parent links of a new generation

After new nodes have been added, `Store.relink` points parent links at them. The walk goes down from
the new root and stops at every child whose link is right already: a subtree that was taken over
unchanged from an earlier generation carries right links, and is not walked through again.
-/

namespace TreeEdit.Store

/-- Point the links of some children at their parent. Children whose link had to be changed go on
top of the stack. -/
def linkChildren (s : Store) (parent : NodeId) :
    List NodeId → IdMap → List NodeId → IdMap × List NodeId
  | [], links, stack => (links, stack)
  | c :: cs, links, stack =>
    if (s.withLinks links).parent? c = some parent then s.linkChildren parent cs links stack
    else s.linkChildren parent cs (links.insert c parent) (c :: stack)

theorem load_linkChildren_le (s : Store) (parent : NodeId) (cs : List NodeId) (links : IdMap)
    (stack : List NodeId) :
    s.load (s.linkChildren parent cs links stack).2 ≤ s.load cs + s.load stack := by
  induction cs generalizing links stack with
  | nil => simp [linkChildren]
  | cons c cs ih =>
    rw [linkChildren]
    split
    · have := ih links stack
      simp only [load_cons]
      omega
    · have := ih (links.insert c parent) (c :: stack)
      simp only [load_cons] at this ⊢
      omega

/-- The links of the newest layer after the walk from the slots of a stack. -/
def linkWalk (s : Store) : List NodeId → IdMap → IdMap
  | [], links => links
  | id :: rest, links =>
    s.linkWalk (s.linkChildren id (s.under id) links rest).2
      (s.linkChildren id (s.under id) links rest).1
termination_by stack => s.load stack
decreasing_by
  have := load_linkChildren_le s id (s.under id) links rest
  simp only [load_cons, weight_eq s id]
  omega

/-- Point the link of every child reached from a slot at the node that lists it, stopping at the
children whose link is right. -/
def relink (s : Store) (id : NodeId) : Store :=
  s.withLinks (s.linkWalk [id] s.top.parents)

@[simp] theorem get?_relink (s : Store) (root id : NodeId) :
    (s.relink root).get? id = s.get? id := rfl

@[simp] theorem size_relink (s : Store) (root : NodeId) : (s.relink root).size = s.size := rfl

end TreeEdit.Store
