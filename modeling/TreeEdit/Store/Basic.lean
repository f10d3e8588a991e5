import Std.Data.ExtTreeMap
import Std.Data.ExtTreeSet
import TreeEdit.Node.Basic

/-!
# Layered node storage

A `Store` holds node values in numbered slots. Slots are only ever added: a new generation of a
tree is a new layer on top of the layers that went before, and a slot that exists never changes
its value. Each layer also holds the parent links set while it was on top; they hide the links of
the layers below.

`Store.get?` and `Store.parent?` read a store through all of its layers. Slots are numbered in the
order in which they were added, whatever layer they went to.
-/

namespace TreeEdit

/-- Parent links, or any other map from slots to slots. -/
abbrev IdMap := Std.ExtTreeMap NodeId NodeId

/-- A set of slots. -/
abbrev IdSet := Std.ExtTreeSet NodeId

/-- One layer of a store: the slots from `start` on, and the parent links set with them. -/
structure Layer where
  start : Nat := 0
  nodes : Array Node := #[]
  parents : IdMap := ∅

namespace Layer

/-- The number after the last slot of the layer. -/
def stop (l : Layer) : Nat :=
  l.start + l.nodes.size

end Layer

/-- The value of a slot, read through layers given from the newest to the oldest. The first layer
that starts at or before the slot decides. -/
def readNode : List Layer → NodeId → Option Node
  | [], _ => none
  | l :: ls, id => if l.start ≤ id then l.nodes[id - l.start]? else readNode ls id

/-- The parent link of a slot, read through layers given from the newest to the oldest. The first
layer with a link for the slot decides. -/
def readParent : List Layer → NodeId → Option NodeId
  | [], _ => none
  | l :: ls, id =>
    match l.parents[id]? with
    | some parent => some parent
    | none => readParent ls id

/-- Node storage: the layer that grows, and the finished layers below it, newest first. -/
structure Store where
  top : Layer := {}
  below : List Layer := []

namespace Store

/-- A store with one layer and no slot. -/
def empty : Store := {}

/-- A new layer on top of all the layers of a store. -/
def layer (s : Store) : Store :=
  { top := { start := s.top.stop }, below := s.top :: s.below }

/-- All layers, newest first. -/
def layers (s : Store) : List Layer :=
  s.top :: s.below

/-- The number of slots. -/
def size (s : Store) : Nat :=
  s.top.stop

/-- The first slot of the newest layer. -/
def baseSize (s : Store) : Nat :=
  s.top.start

/-- The value of a slot. -/
def get? (s : Store) (id : NodeId) : Option Node :=
  readNode s.layers id

/-- The parent link of a slot. A node that has left the tree keeps the link it had last. -/
def parent? (s : Store) (id : NodeId) : Option NodeId :=
  readParent s.layers id

/-- Whether a slot exists. -/
def contains (s : Store) (id : NodeId) : Bool :=
  id < s.size

/-- The children of a slot, none if the slot does not exist. -/
def children (s : Store) (id : NodeId) : List NodeId :=
  match s.get? id with
  | some n => n.children
  | none => []

/-- The value of a slot, or the refusal that names the missing slot. -/
def node (s : Store) (id : NodeId) : Verdict Node :=
  match s.get? id with
  | some n => .ok n
  | none => .error (.treeState (.unknownNode id s.size))

/-- The name of a slot in messages. -/
def nameOf (s : Store) (id : NodeId) : NodeName :=
  match s.get? id with
  | some n => .stable n.stableId
  | none => .slot id

/-- The first entry of a list that has been seen before, in the list or outside of it. -/
def firstRepeated? (seen : IdSet) : List NodeId → Option NodeId
  | [] => none
  | id :: rest => if seen.contains id then some id else firstRepeated? (seen.insert id) rest

/-- Whether a value may be stored: its child list fits and its hints are usable, every child
exists, and no child is listed twice. The first rule that is broken is reported. -/
def check (s : Store) (n : Node) : Verdict Unit := do
  n.validate
  match n.children.find? (!s.contains ·) with
  | some missing => throw (.node (.unknownChild n.stableId missing))
  | none =>
    match firstRepeated? ∅ n.children with
    | some repeated => throw (.node (.repeatedChild n.stableId repeated))
    | none => return ()

/-- The largest number of slots a store can have. -/
def capacity : Nat := 4294967295

/-- Refuse unless there is room for the given number of further slots. -/
def checkRoom (s : Store) (count : Nat) : Verdict Unit :=
  if count ≤ capacity - s.size then .ok ()
  else .error (.treeState (.exhausted count (capacity - s.size)))

/-- Add values in new slots, in order, without looking at them. -/
def append (s : Store) (nodes : List Node) : Store :=
  { s with top := { s.top with nodes := s.top.nodes ++ nodes.toArray } }

/-- Add one value in a new slot without looking at it, if there is room. -/
def push (s : Store) (n : Node) : Store × Verdict NodeId :=
  match s.checkRoom 1 with
  | .error e => (s, .error e)
  | .ok () =>
    let id := s.size
    (s.append [n], .ok id)

/-- Check a value and add it in a new slot. -/
def alloc (s : Store) (n : Node) : Store × Verdict NodeId :=
  match s.check n with
  | .error e => (s, .error e)
  | .ok () => s.push n

/-- The store with other parent links in its newest layer. -/
def withLinks (s : Store) (links : IdMap) : Store :=
  { s with top := { s.top with parents := links } }

/-- Set the parent link of a slot. -/
def setParent (s : Store) (child parent : NodeId) : Store :=
  s.withLinks (s.top.parents.insert child parent)

@[simp] theorem layers_withLinks (s : Store) (links : IdMap) :
    (s.withLinks links).layers = { s.top with parents := links } :: s.below := rfl

@[simp] theorem size_withLinks (s : Store) (links : IdMap) :
    (s.withLinks links).size = s.size := rfl

@[simp] theorem get?_withLinks (s : Store) (links : IdMap) (id : NodeId) :
    (s.withLinks links).get? id = s.get? id := rfl

@[simp] theorem size_append (s : Store) (nodes : List Node) :
    (s.append nodes).size = s.size + nodes.length := by
  simp [append, size, Layer.stop, Nat.add_assoc]

@[simp] theorem size_layer (s : Store) : s.layer.size = s.size := by
  simp [layer, size, Layer.stop]

/-- No slot is read at or after the number of slots. -/
theorem get?_eq_none_of_size_le {s : Store} {id : NodeId} (h : s.size ≤ id) :
    s.get? id = none := by
  have hstop : s.top.start + s.top.nodes.size ≤ id := h
  have hstart : s.top.start ≤ id := by omega
  have hsize : s.top.nodes.size ≤ id - s.top.start := by omega
  rw [get?, layers, readNode, if_pos hstart, Array.getElem?_eq_none hsize]

/-- A new layer shows the slots of the layers below it. -/
@[simp] theorem get?_layer (s : Store) (id : NodeId) : s.layer.get? id = s.get? id := by
  by_cases h : s.size ≤ id
  · rw [get?_eq_none_of_size_le h, get?_eq_none_of_size_le (by simpa using h)]
  · exact if_neg h

/-- A new layer shows the parent links of the layers below it. -/
@[simp] theorem parent?_layer (s : Store) (id : NodeId) : s.layer.parent? id = s.parent? id := by
  simp [parent?, layers, layer, readParent]

/-- Adding slots keeps the value of every slot that was there. -/
theorem get?_append_of_lt {s : Store} {id : NodeId} (nodes : List Node) (h : id < s.size) :
    (s.append nodes).get? id = s.get? id := by
  have hstop : s.top.start + s.top.nodes.size > id := h
  by_cases hstart : s.top.start ≤ id
  · have hsize : s.top.nodes.size > id - s.top.start := by omega
    simp [get?, layers, readNode, append, hstart, Array.getElem?_append_left hsize]
  · simp [get?, layers, readNode, append, hstart]

/-- The added values stand in the slots after the ones that were there, in order. -/
theorem get?_append_size_add (s : Store) (nodes : List Node) (k : Nat) :
    (s.append nodes).get? (s.size + k) = nodes[k]? := by
  have hstart : s.top.start ≤ s.size + k := by
    rw [size, Layer.stop]
    omega
  have hsize : s.size + k - s.top.start = s.top.nodes.size + k := by
    rw [size, Layer.stop]
    omega
  simp only [get?, layers, readNode, append, if_pos hstart]
  rw [hsize, Array.getElem?_append_right (by omega)]
  simp

@[simp] theorem parent?_append (s : Store) (nodes : List Node) (id : NodeId) :
    (s.append nodes).parent? id = s.parent? id := rfl

/-- Setting a parent link changes that link and no other. -/
theorem parent?_setParent (s : Store) (child parent id : NodeId) :
    (s.setParent child parent).parent? id =
      if id = child then some parent else s.parent? id := by
  by_cases h : id = child
  · subst h
    simp [parent?, setParent, readParent]
  · have hne : ¬child = id := Ne.symm h
    simp [parent?, setParent, withLinks, readParent, layers, Std.ExtTreeMap.getElem?_insert, h,
      hne]

end Store

end TreeEdit
