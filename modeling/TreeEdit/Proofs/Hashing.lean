import TreeEdit.Proofs.Comparing
import TreeEdit.Proofs.Generation
import TreeEdit.Proofs.Lineage

/-!
# What a hash takes in determines the tree

A hash of a subtree takes in one entry for each node, in preorder: its attributes and the number of
its children. The numbers say where each subtree ends. `Rose.readBack` goes through the entries from
the last to the first and gives each node as many of the trees that it has read as the node has
children, so that nothing is left over or missing. Therefore three ways to compare two subtrees
agree: with a stack of pairs of slots, by the entries, and by the trees of attributes.
-/

namespace TreeEdit

namespace Rose

/-- Read entries back to trees, from the last entry to the first. An entry takes the trees of its
children from those that have been read. -/
def readBack (entries : List (Attributes × Nat)) : List Rose :=
  entries.foldr (fun entry trees => .node entry.1 (trees.take entry.2) :: trees.drop entry.2) []

theorem readBack_cons_of_append {a : Attributes} {entries : List (Attributes × Nat)}
    {children rest : List Rose} (h : readBack entries = children ++ rest) :
    readBack ((a, children.length) :: entries) = .node a children :: rest := by
  show Rose.node a ((readBack entries).take children.length) ::
    (readBack entries).drop children.length = _
  rw [h, List.take_left, List.drop_left]

end Rose

namespace Store

variable {s t : Store} {a b id : NodeId} {n : Node}

/-- The attributes and the number of children of each node below a slot, in preorder. -/
def entries (s : Store) (id : NodeId) : List (Attributes × Nat) :=
  (s.preorder id).filterMap fun d => (s.get? d).map fun n => (n.attributes, n.children.length)

theorem Sound.entries_eq (hs : s.Sound) (hn : s.get? id = some n) :
    s.entries id = (n.attributes, n.children.length) :: n.children.flatMap s.entries := by
  rw [entries, preorder_eq, hs.under_eq hn, List.filterMap_cons_some (by rw [hn]; rfl),
    List.filterMap_flatMap]
  rfl

/-- The entries of a subtree are read back to the tree of attributes, whatever comes after them. -/
theorem Sound.readBack_entries (hs : s.Sound) (hid : id < s.size)
    (rest : List (Attributes × Nat)) :
    Rose.readBack (s.entries id ++ rest) = s.unfold id :: Rose.readBack rest := by
  induction id using Nat.strong_induction_on generalizing rest with
  | _ id ih =>
    obtain ⟨n, hn⟩ := hs.full id hid
    -- what has been read when the entry of a node comes up begins with the trees of its children
    have hchildren : ∀ ids : List NodeId, (∀ c ∈ ids, c < id) →
        Rose.readBack (ids.flatMap s.entries ++ rest) =
          ids.map s.unfold ++ Rose.readBack rest := by
      intro ids hids
      induction ids with
      | nil => rfl
      | cons c ids ih' =>
        obtain ⟨hc, hids⟩ := List.forall_mem_cons.1 hids
        rw [List.flatMap_cons, List.append_assoc, ih c hc (Nat.lt_trans hc hid), ih' hids,
          List.map_cons, List.cons_append]
    have hread := Rose.readBack_cons_of_append (a := n.attributes)
      (hchildren n.children (hs.earlier id n hn))
    rw [List.length_map] at hread
    rw [hs.entries_eq hn, List.cons_append, hread, hs.unfold_eq hn]
    rfl

theorem entries_eq_of_unfold_eq (hs : s.Sound) (ht : t.Sound) (ha : a < s.size) (hb : b < t.size)
    (h : s.unfold a = t.unfold b) : s.entries a = t.entries b := by
  induction a using Nat.strong_induction_on generalizing b with
  | _ a ih =>
    obtain ⟨m, hm⟩ := hs.full a ha
    obtain ⟨n, hn⟩ := ht.full b hb
    obtain ⟨⟨hattributes, hlen⟩, hpairs⟩ := (unfold_eq_unfold_iff hs ht hm hn).1 h
    have hchildren : m.children.map s.entries = n.children.map t.entries := by
      refine (map_eq_map_iff_zip hlen).2 fun p hp => ?_
      obtain ⟨hleft, hright⟩ := List.of_mem_zip hp
      have hlt := hs.earlier a m hm _ hleft
      exact ih p.1 hlt (Nat.lt_trans hlt ha) (Nat.lt_trans (ht.earlier b n hn _ hright) hb)
        (hpairs p hp)
    rw [hs.entries_eq hm, ht.entries_eq hn, hattributes, hlen, List.flatMap_def, List.flatMap_def,
      hchildren]

/-- Two subtrees have the same entries exactly if they unfold to the same tree of attributes. -/
theorem entries_eq_iff (hs : s.Sound) (ht : t.Sound) (ha : a < s.size) (hb : b < t.size) :
    s.entries a = t.entries b ↔ s.unfold a = t.unfold b := by
  refine ⟨fun h => ?_, entries_eq_of_unfold_eq hs ht ha hb⟩
  have hread := hs.readBack_entries ha []
  rw [h, ht.readBack_entries hb []] at hread
  exact (List.cons.inj hread).1.symm

end Store

namespace Tree

open Context (strayed)

theorem feed_eq {t : Tree} {id : NodeId} (h : id < t.store.size) :
    t.feed id = t.store.entries id := by
  rw [feed, descendants_eq h]
  rfl

/-- Comparison with a stack of pairs, equality of the trees of attributes, and equality of what a
hash takes in are the same for any two nodes of any two trees. If both trees are said to share their
store, they have to. -/
theorem structurallyEq_iff_feed {s t : Tree} (hs : Lineage s) (ht : Lineage t) (shared : Bool)
    (one : shared = true → s.store = t.store) {a b : NodeId} (ha : s.store.contains a = true)
    (hb : t.store.contains b = true) :
    (structurallyEq shared s a t b = true ↔ s.store.unfold a = t.store.unfold b) ∧
      (s.store.unfold a = t.store.unfold b ↔ s.feed a = t.feed b) := by
  have ha' : a < s.store.size := of_decide_eq_true ha
  have hb' : b < t.store.size := of_decide_eq_true hb
  refine ⟨structurallyEq_iff shared hs.sound.store ht.sound.store (fun h id => by rw [one h]) ha'
    hb', ?_⟩
  rw [feed_eq ha', feed_eq hb', Store.entries_eq_iff hs.sound.store ht.sound.store ha' hb']

theorem structurallyEq_iff_feed_strayed :
    (structurallyEq false Context.strayTree 4 strayed 9 = true ∧
        Context.strayTree.store.unfold 4 = strayed.store.unfold 9 ∧
        Context.strayTree.feed 4 = strayed.feed 9) ∧
      (structurallyEq true strayed 4 strayed 9 = true ∧
        strayed.store.unfold 4 = strayed.store.unfold 9 ∧ strayed.feed 4 = strayed.feed 9) ∧
      structurallyEq true strayed 5 strayed 9 = false ∧
        strayed.store.unfold 5 ≠ strayed.store.unfold 9 ∧ strayed.feed 5 ≠ strayed.feed 9 := by
  have hstray : Lineage Context.strayTree := .built Context.finish_strayNodes
  have hstrayed : Lineage strayed := .edited .single (Context.strayCalls.take 5) hstray
  have hbetween := structurallyEq_iff_feed hstray hstrayed false (by simp) (a := 4) (b := 9)
    (by decide +kernel) (by decide +kernel)
  have hold := structurallyEq_iff_feed hstrayed hstrayed true (fun _ => rfl) (a := 4) (b := 9)
    (by decide +kernel) (by decide +kernel)
  have hother := structurallyEq_iff_feed hstrayed hstrayed true (fun _ => rfl) (a := 5) (b := 9)
    (by decide +kernel) (by decide +kernel)
  have heq : structurallyEq false Context.strayTree 4 strayed 9 = true := by decide +kernel
  have heq' : structurallyEq true strayed 4 strayed 9 = true := by decide +kernel
  have hne : structurallyEq true strayed 5 strayed 9 = false := by decide +kernel
  have hunfold : strayed.store.unfold 5 ≠ strayed.store.unfold 9 := by
    rw [Ne, ← hother.1, hne]
    simp
  exact ⟨⟨heq, hbetween.1.1 heq, hbetween.2.1 (hbetween.1.1 heq)⟩,
    ⟨heq', hold.1.1 heq', hold.2.1 (hold.1.1 heq')⟩, hne, hunfold, mt hother.2.2 hunfold⟩

end Tree

end TreeEdit
