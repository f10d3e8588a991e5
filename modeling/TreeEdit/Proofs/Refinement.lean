import TreeEdit.Proofs.Comparing
import TreeEdit.Proofs.Generation
import TreeEdit.Proofs.Lineage

/-!
# An edit is a substitution at one position

`Context.perform_replaces` is about any state of any editor and any edit that succeeds. The plain
tree of attributes changes at the position of the path that was found, and nowhere else;
`Call.Turns` says how the target changes there. In slots: one new slot for each node of the path,
and no other slot is touched. An edit that asks for what is there already keeps the tree equal by
value.
-/

namespace TreeEdit

/-! ### What a request makes of its target -/

namespace Call

/-- The node whose value a request changes. -/
def target? : Call → Option NodeId
  | create _ => none
  | replace parent _ _ => some parent
  | insert _ parent _ _ => some parent
  | remove parent _ => some parent
  | setWhitespace node _ => some node
  | setComments node _ _ => some node

/-- The value of the target before and after a request. A child is named by its slot, and the first
place that holds the slot counts. -/
inductive Turns : Call → Node → Node → Prop
  | replace {n : Node} {left right : List NodeId} (parent old new : NodeId)
      (place : n.children = left ++ old :: right) (first : old ∉ left) :
      Turns (.replace parent old new) n { n with children := left ++ new :: right }
  | insertBefore {n : Node} {left right : List NodeId} (parent new sibling : NodeId)
      (place : n.children = left ++ sibling :: right) (first : sibling ∉ left) :
      Turns (.insert .before parent new sibling) n
        { n with children := left ++ new :: sibling :: right }
  | insertAfter {n : Node} {left right : List NodeId} (parent new sibling : NodeId)
      (place : n.children = left ++ sibling :: right) (first : sibling ∉ left) :
      Turns (.insert .after parent new sibling) n
        { n with children := left ++ sibling :: new :: right }
  | remove {n : Node} {left right : List NodeId} (parent child : NodeId)
      (place : n.children = left ++ child :: right) (first : child ∉ left) :
      Turns (.remove parent child) n { n with children := left ++ right }
  | setWhitespace (n : Node) (node : NodeId) (whitespace : Whitespace) :
      Turns (.setWhitespace node whitespace) n
        { n with attributes := { n.attributes with whitespace } }
  | setComments (n : Node) (node : NodeId) (leading trailing : List Comment) :
      Turns (.setComments node leading trailing) n
        { n with
          attributes :=
            { n.attributes with leadingComments := leading, trailingComments := trailing } }

/-- Whether a request asks for what its target has already. -/
def Idle (n : Node) : Call → Prop
  | replace _ old new => old = new
  | setWhitespace _ whitespace => n.attributes.whitespace = whitespace
  | setComments _ leading trailing =>
    n.attributes.leadingComments = leading ∧ n.attributes.trailingComments = trailing
  | _ => False

theorem Turns.eq_of_idle {call : Call} {n n' : Node} (h : call.Turns n n') (hidle : call.Idle n) :
    n' = n := by
  cases h with
  | replace parent old new place first =>
    obtain rfl : old = new := hidle
    rw [← place]
  | insertBefore parent new sibling place first => exact hidle.elim
  | insertAfter parent new sibling place first => exact hidle.elim
  | remove parent child place first => exact hidle.elim
  | setWhitespace n node whitespace =>
    obtain rfl : n.attributes.whitespace = whitespace := hidle
    rfl
  | setComments n node leading trailing =>
    obtain ⟨rfl, rfl⟩ := hidle
    rfl

end Call

/-- The first place of a slot in a child list. -/
theorem exists_split_idxOf {ids : List NodeId} {x : NodeId} (h : x ∈ ids) :
    ∃ left right, ids = left ++ x :: right ∧ x ∉ left ∧ ids.idxOf x = left.length := by
  obtain ⟨left, right, rfl, hleft⟩ := List.eq_append_cons_of_mem h
  refine ⟨left, right, rfl, hleft, ?_⟩
  rw [List.idxOf_append_of_notMem hleft, List.idxOf_cons_self, Nat.add_zero]

theorem insertIdx_length_add (left right : List NodeId) (k : Nat) (x : NodeId) :
    (left ++ right).insertIdx (left.length + k) x = left ++ right.insertIdx k x := by
  induction left with
  | nil => simp
  | cons a left ih =>
    rw [List.length_cons, Nat.add_right_comm, List.cons_append, List.insertIdx_succ_cons, ih,
      List.cons_append]

theorem Call.target?_of_edit? {s : Store} {call : Call} {e : Edit} (h : call.edit? s = some e) :
    call.target? = some e.target := by
  cases call with
  | create n => cases h
  | insert side parent new sibling =>
    simp only [edit?] at h
    split at h
    · cases h
      rfl
    · cases h
  | replace parent old new => cases h; rfl
  | remove parent child => cases h; rfl
  | setWhitespace node whitespace => cases h; rfl
  | setComments node leading trailing => cases h; rfl

/-- An edit that fits revises its target as the request says. -/
theorem Call.turns_revise {s : Store} {call : Call} {e : Edit} {n : Node}
    (h : call.edit? s = some e) (hn : s.get? e.target = some n) (hfits : e.Fits n) :
    call.Turns n (e.revise n) := by
  cases call with
  | create n => cases h
  | replace parent old new =>
    cases h
    obtain ⟨left, right, hsplit, hfirst, hidx⟩ := exists_split_idxOf hfits
    have hset : n.children.set (n.children.idxOf old) new = left ++ new :: right := by
      rw [hidx, hsplit, List.set_append_right _ _ (Nat.le_refl _), Nat.sub_self, List.set_cons_zero]
    rw [Edit.revise, Node.setChild, hset]
    exact .replace parent old new hsplit hfirst
  | insert side parent new sibling =>
    simp only [edit?] at h
    split at h
    · rename_i index hindex
      cases h
      obtain ⟨m, hm, hmem, rfl⟩ := Store.siblingIndex_eq_ok_iff.1 hindex
      obtain rfl : m = n := Option.some.inj (hm.symm.trans hn)
      obtain ⟨left, right, hsplit, hfirst, hidx⟩ := exists_split_idxOf hmem
      rw [Edit.revise, Node.insertChild, hidx, hsplit, insertIdx_length_add]
      cases side with
      | before => exact .insertBefore parent new sibling hsplit hfirst
      | after => exact .insertAfter parent new sibling hsplit hfirst
    · cases h
  | remove parent child =>
    cases h
    obtain ⟨left, right, hsplit, hfirst, hidx⟩ := exists_split_idxOf hfits
    have herase : n.children.eraseIdx (n.children.idxOf child) = left ++ right := by
      rw [hidx, hsplit, List.eraseIdx_append_of_length_le (Nat.le_refl _), Nat.sub_self,
        List.eraseIdx_cons_zero]
    rw [Edit.revise, Node.eraseChild, herase]
    exact .remove parent child hsplit hfirst
  | setWhitespace node whitespace =>
    cases h
    exact .setWhitespace n node whitespace
  | setComments node leading trailing =>
    cases h
    exact .setComments n node leading trailing

/-! ### Edits that succeed -/

namespace Context

variable {c c' : Context} {call : Call}

/-- The states of the editors of all trees. -/
def Reachable (c : Context) : Prop :=
  ∃ (t : Tree) (limits : Limits) (calls : List Call),
    Lineage t ∧ c = (ofTree t limits).run calls

theorem Reachable.sound (h : c.Reachable) : c.Sound := by
  obtain ⟨t, limits, calls, ht, rfl⟩ := h
  exact (Sound.ofTree ht.sound limits).run calls

/-- A request has replaced the value `n` of the node at the end of a path by `n'`. -/
structure Replaces (c : Context) (call : Call) (way : Path) (n n' : Node) (c' : Context) :
    Prop where
  target : call.target? = some way.target
  found : c.store.path c.guard.limits.maxDepth c.root way.target = .ok way
  get_target : c.store.get? way.target = some n
  turns : call.Turns n n'
  at_path : c.tree.rose.at? (c.store.route way.nodes) = some (c.store.spread n)
  rose_eq : c'.tree.rose = c.tree.rose.replaceAt (c.store.route way.nodes) (c.store.spread n')
  copied : Store.Copied c.store c'.store (way.target :: way.above) n'
  root_eq : c'.root = c.store.size + way.above.length

/-- Whether two states have trees of equal value, by the test for two stores and for one. -/
structure StructurallyEq (c c' : Context) : Prop where
  apart : c.tree.structurallyEq false c.root c'.tree c'.root = true
  apart_symm : c'.tree.structurallyEq false c'.root c.tree c.root = true
  together : c'.tree.structurallyEq true c'.root c'.tree c.root = true

theorem Replaces.structurallyEq {way : Path} {n n' : Node} (h : Replaces c call way n n' c')
    (hs : c.Sound) (hs' : c'.Sound) (hidle : call.Idle n) : StructurallyEq c c' := by
  have hsame : c'.store.unfold c'.root = c.store.unfold c.root := by
    have hrose := h.rose_eq
    rw [h.turns.eq_of_idle hidle, Rose.replaceAt_of_at? h.at_path] at hrose
    exact hrose
  have hold : c'.store.unfold c.root = c.store.unfold c.root :=
    Store.unfold_congr fun _ hx => h.copied.old _ (Nat.lt_of_le_of_lt (Store.le_of_mem_preorder hx)
      hs.root)
  have hgrow : c.root < c'.store.size := by
    rw [h.copied.size_eq]
    exact Nat.lt_of_lt_of_le hs.root (Nat.le_add_right _ _)
  constructor
  · exact (Tree.structurallyEq_iff false hs.store hs'.store (by simp) hs.root hs'.root).2 hsame.symm
  · exact (Tree.structurallyEq_iff false hs'.store hs.store (by simp) hs'.root hs.root).2 hsame
  · exact (Tree.structurallyEq_iff true hs'.store hs'.store (fun _ _ => rfl) hs'.root hgrow).2
      (hsame.trans hold.symm)

/-- An edit that succeeds replaces the subtree at the end of the path that was found, adds one slot
for each node of the path and changes no other; if it asks for what is there, both trees are equal
by value. -/
theorem perform_replaces (hc : c.Reachable) (h : c.perform call = (c', .ok none)) :
    ∃ way n n', Replaces c call way n n' c' ∧ (call.Idle n → StructurallyEq c c') := by
  have hs := hc.sound
  have hs' := hs.perform call
  have hstep := step_perform c call
  rw [h] at hs' hstep
  cases hstep with
  | @edited e above current r asked found done root forward limits =>
    have hreplaces : Replaces c call ⟨e.target, above⟩ current (e.revise current) c' :=
      { target := Call.target?_of_edit? asked
        found := found
        get_target := done.get_target
        turns := Call.turns_revise asked done.get_target done.fits
        at_path := by
          rw [← hs.store.unfold_eq done.get_target]
          exact done.at?_route_root hs.store
        rose_eq := by
          rw [Tree.rose, Context.tree, root]
          exact done.unfold_root hs.store
        copied := done.copied
        root_eq := root.trans done.root_eq }
    exact ⟨_, _, _, hreplaces, hreplaces.structurallyEq hs hs'⟩

/-- The edit after which a slot is reached twice, and one that puts a child in its own place. -/
theorem perform_replaces_stray :
    (∃ way n n', Replaces ((ofTree strayTree .single).run (strayCalls.take 6))
      (.insert .before 9 10 3) way n n'
      (((ofTree strayTree .single).run (strayCalls.take 6)).perform (.insert .before 9 10 3)).1) ∧
      StructurallyEq ((ofTree strayTree .single).run strayCalls)
        (((ofTree strayTree .single).run strayCalls).perform (.replace 11 3 3)).1 := by
  have hreachable : ∀ calls, ((ofTree strayTree .single).run calls).Reachable := fun calls =>
    ⟨strayTree, .single, calls, .built finish_strayNodes, rfl⟩
  have hinsert : (((ofTree strayTree .single).run (strayCalls.take 6)).perform
      (.insert .before 9 10 3)).2 = .ok none := by decide +kernel
  have hreplace : (((ofTree strayTree .single).run strayCalls).perform (.replace 11 3 3)).2 =
      .ok none := by decide +kernel
  constructor
  · obtain ⟨way, n, n', hdone, -⟩ := perform_replaces (hreachable _) (Prod.ext rfl hinsert)
    exact ⟨way, n, n', hdone⟩
  · obtain ⟨way, n, n', -, hidle⟩ := perform_replaces (hreachable _) (Prod.ext rfl hreplace)
    exact hidle rfl

end Context

end TreeEdit
