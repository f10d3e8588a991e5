import TreeEdit.Node.Range

/-!
# Tables from slots to slots

Slots are numbered without gaps, so a map on them is kept as an array with one place for each slot.
A place past the end of the array is empty.
-/

namespace TreeEdit

/-- A map from slots to slots. -/
structure Table where
  places : Array (Option NodeId) := #[]
  deriving DecidableEq, Repr

namespace Table

/-- The table without entries. -/
def empty : Table := {}

/-- The number of places. Every slot with an entry is below it. -/
def size (t : Table) : Nat :=
  t.places.size

/-- The entry of a slot. -/
def get? (t : Table) (id : NodeId) : Option NodeId :=
  t.places.getD id none

/-- Whether a slot has an entry. -/
def contains (t : Table) (id : NodeId) : Bool :=
  (t.get? id).isSome

/-- Set the entry of a slot. -/
def insert (t : Table) (id value : NodeId) : Table :=
  { places :=
      (t.places ++ Array.replicate (id + 1 - t.places.size) none).setIfInBounds id (some value) }

@[simp] theorem get?_empty (id : NodeId) : empty.get? id = none := rfl

theorem lt_size_padded (places : Array (Option NodeId)) (n : Nat) :
    n < (places ++ Array.replicate (n + 1 - places.size) none).size := by
  simp only [Array.size_append, Array.size_replicate]
  omega

theorem get?_eq_join (t : Table) (id : NodeId) : t.get? id = t.places[id]?.join := by
  rw [get?, Array.getD_eq_getD_getElem?]
  cases t.places[id]? <;> rfl

@[simp] theorem get?_insert_self (t : Table) (id value : NodeId) :
    (t.insert id value).get? id = some value := by
  have := lt_size_padded t.places id
  simp only [get?_eq_join, insert, Array.getElem?_setIfInBounds_self, if_pos this,
    Option.join_some]

theorem get?_insert_of_ne (t : Table) {id other : NodeId} (value : NodeId) (h : other ≠ id) :
    (t.insert id value).get? other = t.get? other := by
  simp only [get?_eq_join, insert, Array.getElem?_setIfInBounds_ne (Ne.symm h)]
  rcases Nat.lt_or_ge other t.places.size with hlt | hge
  · simp [Array.getElem?_append, hlt]
  · simp only [Array.getElem?_append, Nat.not_lt.mpr hge, if_false, Array.getElem?_replicate,
      Array.getElem?_eq_none hge]
    split <;> rfl

/-- Setting an entry changes that entry and no other. -/
theorem get?_insert (t : Table) (id value other : NodeId) :
    (t.insert id value).get? other = if other = id then some value else t.get? other := by
  split
  · subst other
    simp
  · exact get?_insert_of_ne t value ‹_›

theorem lt_size_of_get?_eq_some {t : Table} {id value : NodeId} (h : t.get? id = some value) :
    id < t.size := by
  rcases Nat.lt_or_ge id t.places.size with hlt | hge
  · exact hlt
  · simp [get?_eq_join, Array.getElem?_eq_none hge] at h

end Table

end TreeEdit
