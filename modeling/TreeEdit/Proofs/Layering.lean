import TreeEdit.Proofs.Fidelity
import TreeEdit.Proofs.Unfolding

/-!
# Layers as one flat store

A store is made by putting layers on top, pushing values and setting links, in any order; these are
the operations `Store.Op`. `Store.readsFlat_after` says that the layers cannot be seen: a slot holds
the value of the push with its number, a link is the latest one set for the slot, and the slots are
given out one after the other until the numbers are used up.

All that happens to a store in an editor, in an overlay and in a merge is made of these operations:
`Tree.Later` are the generations that come from a given one, and `Tree.Later.grows` says that their
stores grow by operations alone. So what an earlier generation has below its root is read there by
every later one.
-/

namespace TreeEdit

/-! ### Operations -/

/-- What may be done to a store. -/
inductive Store.Op
  /-- Put a new layer on top. -/
  | layer
  /-- Add a value. -/
  | push (n : Node)
  /-- Set the link of a slot. -/
  | link (child parent : NodeId)

/-- The value that an operation adds. -/
def Store.Op.node? : Op → Option Node
  | push n => some n
  | _ => none

/-- The link that an operation sets. -/
def Store.Op.link? : Op → Option (NodeId × NodeId)
  | link child parent => some (child, parent)
  | _ => none

namespace Store

variable {s s' s'' : Store} {id : NodeId} {ops : List Op}

/-- Carry out one operation. -/
def act (s : Store) : Op → Store
  | .layer => s.layer
  | .push n => (s.push n).1
  | .link child parent => s.setParent child parent

/-- The slot that an operation gives out. -/
def slot? (s : Store) : Op → Option NodeId
  | .push n => (s.push n).2.toOption
  | _ => none

/-- Carry out operations in order. -/
def after (s : Store) (ops : List Op) : Store :=
  ops.foldl act s

/-- The slots that operations give out, in order. -/
def slots (s : Store) : List Op → List NodeId
  | [] => []
  | op :: ops => (s.slot? op).toList ++ (s.act op).slots ops

@[simp] theorem after_nil (s : Store) : s.after [] = s := rfl

@[simp] theorem after_cons (s : Store) (op : Op) (ops : List Op) :
    s.after (op :: ops) = (s.act op).after ops := rfl

theorem after_append (s : Store) (ops more : List Op) :
    s.after (ops ++ more) = (s.after ops).after more :=
  List.foldl_append

theorem slots_append_singleton (s : Store) (ops : List Op) (op : Op) :
    s.slots (ops ++ [op]) = s.slots ops ++ ((s.after ops).slot? op).toList := by
  induction ops generalizing s with
  | nil => simp [slots]
  | cons first ops ih => rw [List.cons_append, slots, slots, ih, List.append_assoc, after_cons]

theorem push_of_lt (n : Node) (h : s.size < capacity) : s.push n = (s.append [n], .ok s.size) := by
  have hroom : 1 ≤ capacity - s.size := by omega
  rw [push, checkRoom, if_pos hroom]

theorem push_of_le (n : Node) (h : capacity ≤ s.size) :
    s.push n = (s, .error (.treeState (.exhausted 1 (capacity - s.size)))) := by
  have hfull : ¬1 ≤ capacity - s.size := by omega
  rw [push, checkRoom, if_neg hfull]

/-! ### The flat store -/

/-- The values of the pushes that find room. -/
def Op.values (ops : List Op) : List Node :=
  (ops.filterMap Op.node?).take capacity

/-- The links that are set, the latest first. -/
def Op.links (ops : List Op) : List (NodeId × NodeId) :=
  (ops.filterMap Op.link?).reverse

theorem Op.length_values_le (ops : List Op) : (values ops).length ≤ capacity :=
  List.length_take_le _ _

theorem Op.values_append_push_of_lt (n : Node) (h : (values ops).length < capacity) :
    values (ops ++ [.push n]) = values ops ++ [n] := by
  have hlen : (ops.filterMap Op.node?).length < capacity := by
    rw [values, List.length_take] at h
    omega
  rw [values, values, List.filterMap_append, List.take_of_length_le (Nat.le_of_lt hlen)]
  exact List.take_of_length_le (by simpa [Op.node?] using hlen)

theorem Op.values_append_push_of_le (n : Node) (h : capacity ≤ (values ops).length) :
    values (ops ++ [.push n]) = values ops := by
  have hlen : capacity ≤ (ops.filterMap Op.node?).length :=
    Nat.le_trans h (List.length_take_le' _ _)
  rw [values, values, List.filterMap_append, List.take_append_of_le_length hlen]

theorem Op.values_append_of_none {op : Op} (h : op.node? = none) :
    values (ops ++ [op]) = values ops := by
  rw [values, values, List.filterMap_append, List.filterMap_cons_none h]
  simp

theorem Op.links_append_of_none {op : Op} (h : op.link? = none) :
    links (ops ++ [op]) = links ops := by
  rw [links, links, List.filterMap_append, List.filterMap_cons_none h]
  simp

theorem Op.links_append_link (ops : List Op) (child parent : NodeId) :
    links (ops ++ [.link child parent]) = (child, parent) :: links ops := by
  rw [links, links, List.filterMap_append, List.reverse_append]
  rfl

/-- A store reads like a list of values with a list of links, and its slots have been given out in
the order of their numbers. -/
structure ReadsFlat (s : Store) (ops : List Op) : Prop where
  size_eq : s.size = (Op.values ops).length
  get?_eq : ∀ id, s.get? id = (Op.values ops)[id]?
  parent?_eq : ∀ id, s.parent? id = (Op.links ops).lookup id
  slots_eq : empty.slots ops = List.range s.size

namespace ReadsFlat

theorem size_lt (h : s.ReadsFlat ops) : s.size < UInt32.size :=
  Nat.lt_succ_of_le (h.size_eq ▸ Op.length_values_le ops)

theorem isSome_get? (h : s.ReadsFlat ops) (id : NodeId) : (s.get? id).isSome = s.contains id := by
  rw [h.get?_eq, contains, h.size_eq]
  rcases Nat.lt_or_ge id (Op.values ops).length with hlt | hge
  · rw [List.getElem?_eq_getElem hlt, decide_eq_true hlt]
    rfl
  · rw [List.getElem?_eq_none hge, decide_eq_false (Nat.not_lt.2 hge)]
    rfl

/-- A push that finds room. -/
theorem push_of_lt (h : (empty.after ops).ReadsFlat ops) (n : Node)
    (hroom : (empty.after ops).size < capacity) :
    (empty.after (ops ++ [.push n])).ReadsFlat (ops ++ [.push n]) := by
  have hvalues : Op.values (ops ++ [.push n]) = Op.values ops ++ [n] :=
    Op.values_append_push_of_lt n (h.size_eq ▸ hroom)
  have hstore : empty.after (ops ++ [.push n]) = (empty.after ops).append [n] := by
    rw [after_append]
    exact congrArg Prod.fst (Store.push_of_lt n hroom)
  have hslot : (empty.after ops).slot? (.push n) = some (empty.after ops).size := by
    rw [slot?, Store.push_of_lt n hroom]
    rfl
  rw [hstore]
  constructor
  · rw [hvalues, size_append, h.size_eq, List.length_append]
  · intro id
    rw [hvalues]
    rcases Nat.lt_or_ge id (empty.after ops).size with hlt | hge
    · rw [get?_append_of_lt _ hlt, h.get?_eq, List.getElem?_append_left (h.size_eq ▸ hlt)]
    · obtain ⟨k, rfl⟩ := Nat.exists_eq_add_of_le hge
      rw [get?_append_size_add, h.size_eq, List.getElem?_append_right (Nat.le_add_right _ _),
        Nat.add_sub_cancel_left]
  · intro id
    rw [parent?_append, h.parent?_eq, Op.links_append_of_none rfl]
  · rw [slots_append_singleton, hslot, h.slots_eq, size_append]
    exact List.range_succ.symm

/-- A push that is refused. -/
theorem push_of_le (h : (empty.after ops).ReadsFlat ops) (n : Node)
    (hfull : capacity ≤ (empty.after ops).size) :
    (empty.after (ops ++ [.push n])).ReadsFlat (ops ++ [.push n]) := by
  have hvalues : Op.values (ops ++ [.push n]) = Op.values ops :=
    Op.values_append_push_of_le n (h.size_eq ▸ hfull)
  have hstore : empty.after (ops ++ [.push n]) = empty.after ops := by
    rw [after_append]
    exact congrArg Prod.fst (Store.push_of_le n hfull)
  have hslot : (empty.after ops).slot? (.push n) = none := by
    rw [slot?, Store.push_of_le n hfull]
    rfl
  rw [hstore]
  constructor
  · rw [hvalues, h.size_eq]
  · rw [hvalues]
    exact h.get?_eq
  · rw [Op.links_append_of_none rfl]
    exact h.parent?_eq
  · rw [slots_append_singleton, hslot, h.slots_eq]
    exact List.append_nil _

theorem layer (h : (empty.after ops).ReadsFlat ops) :
    (empty.after (ops ++ [.layer])).ReadsFlat (ops ++ [.layer]) := by
  have hstore : empty.after (ops ++ [.layer]) = (empty.after ops).layer := after_append _ _ _
  rw [hstore]
  constructor
  · rw [Op.values_append_of_none rfl, size_layer, h.size_eq]
  · intro id
    rw [Op.values_append_of_none rfl, get?_layer, h.get?_eq]
  · intro id
    rw [Op.links_append_of_none rfl, parent?_layer, h.parent?_eq]
  · rw [slots_append_singleton, size_layer, h.slots_eq]
    exact List.append_nil _

/-- The latest link hides the others. -/
theorem link (h : (empty.after ops).ReadsFlat ops) (child parent : NodeId) :
    (empty.after (ops ++ [.link child parent])).ReadsFlat (ops ++ [.link child parent]) := by
  have hstore : empty.after (ops ++ [.link child parent]) =
      (empty.after ops).setParent child parent := after_append _ _ _
  rw [hstore]
  constructor
  · rw [Op.values_append_of_none rfl, ← h.size_eq]
    rfl
  · rw [Op.values_append_of_none rfl]
    exact h.get?_eq
  · intro id
    rw [Op.links_append_link, parent?_setParent, h.parent?_eq]
    by_cases hid : id = child
    · rw [if_pos hid, hid, List.lookup_cons_self]
    · rw [if_neg hid, List.lookup_cons, beq_false_of_ne hid]
  · rw [slots_append_singleton, h.slots_eq]
    exact List.append_nil _

end ReadsFlat

/-- Whatever is done to an empty store, it reads like a flat one. -/
theorem readsFlat_after (ops : List Op) : (empty.after ops).ReadsFlat ops := by
  induction ops using List.reverseRecOn with
  | nil =>
    refine ⟨rfl, fun id => ?_, fun id => rfl, rfl⟩
    rw [after_nil, get?_eq_none_of_size_le (Nat.zero_le id)]
    rfl
  | append_singleton ops op ih =>
    cases op with
    | layer => exact ih.layer
    | link child parent => exact ih.link child parent
    | push n =>
      rcases Nat.lt_or_ge (empty.after ops).size capacity with hroom | hfull
      · exact ih.push_of_lt n hroom
      · exact ih.push_of_le n hfull

/-! ### Stores that grow -/

/-- A store comes from another one by operations. -/
def Grows (s s' : Store) : Prop :=
  ∃ ops, s' = s.after ops

theorem Grows.refl (s : Store) : s.Grows s := ⟨[], rfl⟩

theorem Grows.trans (h : s.Grows s') (h' : s'.Grows s'') : s.Grows s'' := by
  obtain ⟨ops, rfl⟩ := h
  obtain ⟨more, rfl⟩ := h'
  exact ⟨ops ++ more, (after_append _ _ _).symm⟩

theorem grows_act (s : Store) (op : Op) : s.Grows (s.act op) := ⟨[op], rfl⟩

theorem size_act_le (s : Store) (op : Op) : s.size ≤ (s.act op).size := by
  cases op with
  | layer => exact Nat.le_of_eq s.size_layer.symm
  | link child parent => exact Nat.le_refl _
  | push n =>
    rcases Nat.lt_or_ge s.size capacity with hroom | hfull
    · rw [act, push_of_lt n hroom, size_append]
      exact Nat.le_add_right _ _
    · rw [act, push_of_le n hfull]

theorem get?_act_of_lt (op : Op) (h : id < s.size) : (s.act op).get? id = s.get? id := by
  cases op with
  | layer => exact s.get?_layer id
  | link child parent => rfl
  | push n =>
    rcases Nat.lt_or_ge s.size capacity with hroom | hfull
    · rw [act, push_of_lt n hroom]
      exact get?_append_of_lt [n] h
    · rw [act, push_of_le n hfull]

/-- A slot keeps its value for good. -/
theorem Grows.get? (h : s.Grows s') (hid : id < s.size) : s'.get? id = s.get? id := by
  obtain ⟨ops, rfl⟩ := h
  induction ops generalizing s with
  | nil => rfl
  | cons op ops ih =>
    rw [after_cons, ih (Nat.lt_of_lt_of_le hid (s.size_act_le op)), get?_act_of_lt op hid]

/-- So the tree below a slot stays as it was. -/
theorem Grows.unfold (h : s.Grows s') (hid : id < s.size) : s'.unfold id = s.unfold id :=
  unfold_congr fun _ hx => h.get? (Nat.lt_of_le_of_lt (le_of_mem_preorder hx) hid)

/-! ### What the store operations of an edit are made of -/

theorem grows_append (nodes : List Node) (h : s.checkRoom nodes.length = .ok ()) :
    s.Grows (s.append nodes) := by
  have hroom := checkRoom_eq_ok_iff.1 h
  clear h
  induction nodes generalizing s with
  | nil => exact ⟨[], append_nil s⟩
  | cons n nodes ih =>
    have hone : s.size < capacity := by
      rw [List.length_cons] at hroom
      omega
    have hpush : s.Grows (s.append [n]) := ⟨[.push n], (congrArg Prod.fst (push_of_lt n hone)).symm⟩
    have hrest : (s.append [n]).Grows ((s.append [n]).append nodes) := by
      refine ih ?_
      rw [size_append, List.length_singleton]
      rw [List.length_cons] at hroom
      omega
    exact append_append s [n] nodes ▸ hpush.trans hrest

theorem grows_alloc (s : Store) (n : Node) : s.Grows (s.alloc n).1 := by
  rcases s.alloc_cases n with ⟨err, herr⟩ | ⟨hok, -, hroom⟩
  · rw [herr]
    exact .refl s
  · rw [hok]
    exact grows_append [n] hroom

theorem grows_insert (s : Store) (links : IdMap) (child parent : NodeId) :
    (s.withLinks links).Grows (s.withLinks (links.insert child parent)) :=
  grows_act (s.withLinks links) (.link child parent)

theorem grows_linkChildren (s : Store) (p : NodeId) (cs : List NodeId) (links : IdMap)
    (stack : List NodeId) :
    (s.withLinks links).Grows (s.withLinks (s.linkChildren p cs links stack).1) := by
  induction cs generalizing links stack with
  | nil => exact .refl _
  | cons c cs ih =>
    rw [linkChildren]
    split
    · exact ih links stack
    · exact (s.grows_insert links c p).trans (ih _ _)

theorem grows_linkWalk (s : Store) (stack : List NodeId) (links : IdMap) :
    (s.withLinks links).Grows (s.withLinks (s.linkWalk stack links)) := by
  induction stack, links using linkWalk.induct s with
  | case1 links =>
    rw [linkWalk]
    exact .refl _
  | case2 id rest links ih =>
    rw [linkWalk]
    exact (s.grows_linkChildren id _ links rest).trans ih

theorem grows_relink (s : Store) (root : NodeId) : s.Grows (s.relink root) :=
  s.grows_linkWalk [root] s.top.parents

theorem grows_attachChildren (s : Store) {p : NodeId} {cs : List NodeId} {a b : Attaching}
    (h : attachChildren p cs a = .ok b) : (s.withLinks a.links).Grows (s.withLinks b.links) := by
  induction cs generalizing a with
  | nil =>
    cases h
    exact .refl _
  | cons c cs ih =>
    rw [attachChildren] at h
    split at h
    · cases h
    · exact (s.grows_insert a.links c p).trans (ih h)

theorem grows_attachWalk {seen : IdSet} {links links' : IdMap} {stack : List NodeId}
    (h : s.attachWalk seen links stack = .ok links') :
    (s.withLinks links).Grows (s.withLinks links') := by
  induction seen, links, stack using attachWalk.induct s with
  | case1 seen links =>
    rw [attachWalk] at h
    cases h
    exact .refl _
  | case2 seen links id rest err herr =>
    rw [attachWalk, herr] at h
    cases h
  | case3 seen links id rest a ha ih =>
    rw [attachWalk, ha] at h
    exact (s.grows_attachChildren ha).trans (ih h)

theorem grows_rebuild (s : Store) (way : Path) (value : Node) :
    s.Grows (s.rebuild way value).1 := by
  rcases s.rebuild_cases way value with ⟨err, herr⟩ | ⟨s', r, hok⟩
  · rw [herr]
    exact .refl s
  · rw [hok]
    obtain ⟨-, hroom, copies, hcopies, rfl, -⟩ := rebuild_eq_ok_iff.1 hok
    have hlen : (value :: copies).length = way.length := by
      rw [List.length_cons, (ancestorCopies_eq_ok hcopies).1]
      rfl
    exact (grows_append _ (hlen ▸ hroom)).trans (grows_relink _ _)

theorem grows_applyEdit (s : Store) (f : Forward) (most : Nat) (root : NodeId) (e : Edit) :
    s.Grows (s.applyEdit f most root e).1 := by
  unfold applyEdit
  split
  · exact .refl s
  · exact grows_rebuild ..

/-- A finished tree is made of operations from the empty store on. -/
theorem grows_finish {nodes : List Node} {root : NodeId} {t : Tree}
    (h : (build nodes).finish root = .ok t) : empty.Grows t.store := by
  have hbuild : empty.Grows (build nodes) :=
    build_induction (.refl _) (fun s n hs => hs.trans (s.grows_alloc n)) nodes
  obtain ⟨n, -, h⟩ := Verdict.bind_eq_ok_iff.1 h
  obtain ⟨links, hwalk, h⟩ := Verdict.bind_eq_ok_iff.1 h
  cases h
  exact hbuild.trans (grows_attachWalk hwalk)

end Store

/-! ### Editors, overlays and merges -/

open Store (Grows)

namespace Context

theorem grows_create (c : Context) (n : Node) : c.store.Grows (c.create n).1.store := by
  unfold create
  cases n.children.find? c.forward.isSuperseded with
  | some stale => exact .refl _
  | none => exact c.store.grows_alloc n

theorem grows_apply (c : Context) (e : Edit) : c.store.Grows (c.apply e).1.store := by
  unfold apply
  cases c.store.node e.target with
  | error err => exact .refl _
  | ok target =>
    dsimp only
    cases c.guard.enter (some target.stableId) with
    | error err => exact .refl _
    | ok guard =>
      dsimp only
      cases guard.checkBudget (some target.stableId) with
      | error err => exact .refl _
      | ok u =>
        dsimp only
        have hgrows := c.store.grows_applyEdit c.forward guard.limits.maxDepth c.root e
        split <;> rename_i happly <;> rwa [happly] at hgrows

theorem grows_perform (c : Context) (call : Call) : c.store.Grows (c.perform call).1.store := by
  rcases c.perform_cases call with ⟨n, rfl⟩ | ⟨e, -, hperform⟩ |
    ⟨err, side, parent, new, sibling, -, -, hperform⟩
  · exact c.grows_create n
  · rw [hperform]
    exact c.grows_apply e
  · rw [hperform]
    exact .refl _

theorem root_lt_perform {c : Context} (h : c.root < c.store.size) (call : Call) :
    (c.perform call).1.root < (c.perform call).1.store.size := by
  have hstep := step_perform c call
  generalize c.perform call = out at hstep ⊢
  obtain ⟨c', answer⟩ := out
  cases hstep with
  | refused err store root forward limits => rwa [store, root]
  | created n asked checked recent store root forward limits =>
    rw [store, root, Store.size_append]
    exact Nat.lt_succ_of_lt h
  | edited asked found done root forward limits =>
    rw [root]
    exact done.root_lt

end Context

namespace Overlay

variable {o o' : Overlay} {g : SharedGuard}

theorem grows_step (h : Step o g o') : o.shadow.Grows o'.shadow := by
  cases h with
  | refused guard limits => exact .refl _
  | created n checked room => exact Store.grows_append [_] room
  | @recorded e node value way shadow r guard limits get_target planned depth rebuilt inside =>
    have hgrows := o.shadow.grows_rebuild way value
    rwa [rebuilt] at hgrows

theorem root_lt_step (h : o.root < o.shadow.size) (hstep : Step o g o') :
    o'.root < o'.shadow.size := by
  cases hstep with
  | refused guard limits => exact h
  | created n checked room =>
    show o.root < (o.shadow.append _).size
    rw [Store.size_append]
    exact Nat.lt_succ_of_lt h
  | recorded guard limits get_target planned depth rebuilt inside =>
    obtain ⟨above, current, -, hedited⟩ := edited_of_plan planned rebuilt
    exact hedited.root_lt

end Overlay

namespace Replay

variable {most : Nat} {r r' : Replay} {ev : Event}

theorem grows_step (h : step most r ev = .ok r') : r.store.Grows r'.store := by
  cases ev with
  | enter =>
    cases h
    exact .refl _
  | bring c =>
    obtain ⟨hroom, rfl⟩ := importNode_eq_ok h
    exact Store.grows_append [_] hroom
  | redo record =>
    obtain ⟨store, rebuilt, happly, rfl⟩ := applyRecord_eq_ok_iff.1 h
    have hgrows := r.store.grows_applyEdit r.forward most r.root (record.edit.mapIds r.locate)
    rwa [happly] at hgrows

theorem root_lt_step (h : r.root < r.store.size) (hstep : step most r ev = .ok r') :
    r'.root < r'.store.size := by
  cases ev with
  | enter =>
    cases hstep
    exact h
  | bring c =>
    obtain ⟨-, rfl⟩ := importNode_eq_ok hstep
    show r.root < (r.store.append _).size
    rw [Store.size_append]
    exact Nat.lt_succ_of_lt h
  | redo record =>
    obtain ⟨above, current, store, rebuilt, hedited, rfl⟩ := applyRecord_eq_ok hstep
    exact hedited.root_lt

/-- What every event of a replay does to its store it does over a whole script. -/
theorem grows_foldlM {es : List Event} (h : es.foldlM (step most) r = .ok r')
    (hroot : r.root < r.store.size) :
    r.store.Grows r'.store ∧ r'.root < r'.store.size := by
  induction es generalizing r with
  | nil =>
    cases h
    exact ⟨.refl _, hroot⟩
  | cons ev es ih =>
    rw [List.foldlM_cons] at h
    obtain ⟨r₁, hstep, hrest⟩ := Verdict.bind_eq_ok_iff.1 h
    obtain ⟨hgrows, hlt⟩ := ih hrest (root_lt_step hroot hstep)
    exact ⟨(grows_step hstep).trans hgrows, hlt⟩

end Replay

theorem View.grows_merge {v : View} {logs : List Sealed} {outcome : MergeOutcome}
    (h : v.merge logs = .ok outcome) (hroot : v.tree.root < v.tree.store.size) :
    v.tree.store.Grows outcome.tree.store ∧ outcome.tree.root < outcome.tree.store.size := by
  obtain ⟨-, r, hreplay, htree⟩ := merge_eq_ok h
  rw [v.replay_eq_script] at hreplay
  have hstart : v.replayStart.root < v.replayStart.store.size := by
    simpa [replayStart] using hroot
  obtain ⟨hgrows, hlt⟩ := Replay.grows_foldlM hreplay hstart
  rw [htree]
  exact ⟨(v.tree.store.grows_act .layer).trans hgrows, hlt⟩

/-! ### Later generations -/

/-- The generations that come from a given one: an editor or an overlay is opened on a generation
that has come from it, a request is made of such an editor or overlay, or logs are merged on such a
generation. -/
inductive Tree.Later (t : Tree) : Tree → Prop
  | refl : Later t t
  | opened {u : Tree} (limits : Limits) (h : Later t u) : Later t (Context.ofTree u limits).tree
  | edited {c : Context} (call : Call) (h : Later t c.tree) : Later t (c.perform call).1.tree
  | issued {v : View} (worker : WorkerId) (block : Option NodeId) (h : Later t v.tree) :
      Later t (Overlay.tree { v.newOverlay block with worker })
  | recorded {o : Overlay} (g : SharedGuard) (call : OverlayCall) (h : Later t o.tree) :
      Later t (o.perform g call).1.tree
  | merged {v : View} {logs : List Sealed} {outcome : MergeOutcome} (h : Later t v.tree)
      (merge : v.merge logs = .ok outcome) : Later t outcome.tree

/-- The store of a later generation has grown from the one that it comes from. -/
theorem Tree.Later.grows {t u : Tree} (h : t.Later u) (hroot : t.root < t.store.size) :
    t.store.Grows u.store ∧ u.root < u.store.size := by
  induction h with
  | refl => exact ⟨.refl _, hroot⟩
  | @opened u limits h ih =>
    refine ⟨ih.1.trans (u.store.grows_act .layer), ?_⟩
    show u.root < u.store.layer.size
    rw [Store.size_layer]
    exact ih.2
  | @edited c call h ih => exact ⟨ih.1.trans (c.grows_perform call), c.root_lt_perform ih.2 call⟩
  | @issued v worker block h ih =>
    refine ⟨ih.1.trans (v.tree.store.grows_act .layer), ?_⟩
    show v.tree.root < v.tree.store.layer.size
    rw [Store.size_layer]
    exact ih.2
  | @recorded o g call h ih =>
    have hstep := o.step_perform g call
    exact ⟨ih.1.trans (Overlay.grows_step hstep), Overlay.root_lt_step ih.2 hstep⟩
  | merged h merge ih =>
    obtain ⟨hgrows, hlt⟩ := View.grows_merge merge ih.2
    exact ⟨ih.1.trans hgrows, hlt⟩

/-- The store of every tree has grown from the empty one. -/
theorem Lineage.grows {t : Tree} (h : Lineage t) : Store.empty.Grows t.store := by
  induction h with
  | built h => exact Store.grows_finish h
  | @edited t limits calls h ih =>
    refine Context.run_induction (P := fun c => Store.empty.Grows c.store) ?_ ?_ calls
    · intro c call hc
      exact hc.trans (c.grows_perform call)
    · exact ih.trans (t.store.grows_act .layer)
  | merged h runs merge ih => exact ih.trans (View.grows_merge merge h.sound.root).1

/-- Layers read like one flat store, whatever is put on them: a slot holds the value of the push
with its number and is there exactly if it is contained, a link is the latest one set, there are
never more slots than numbers, and they are given out in order. The stores of all generations are
made like that, each from those before it, so the tree below the root of a generation is read by
every later generation as it was. -/
theorem layers_read_flat :
    (∀ ops : List Store.Op,
      (Store.empty.after ops).ReadsFlat ops ∧
        (∀ id, ((Store.empty.after ops).get? id).isSome = (Store.empty.after ops).contains id) ∧
        (Store.empty.after ops).size < UInt32.size) ∧
    ∀ t₀ t u : Tree, Lineage t₀ → t₀.Later t → t.Later u →
      (∃ ops more, t.store = Store.empty.after ops ∧ u.store = Store.empty.after (ops ++ more)) ∧
        u.store.unfold t.root = t.rose := by
  constructor
  · intro ops
    have hflat := Store.readsFlat_after ops
    exact ⟨hflat, hflat.isSome_get?, hflat.size_lt⟩
  · intro t₀ t u ht hearly hlate
    obtain ⟨hgrows, hroot⟩ := hearly.grows ht.sound.root
    obtain ⟨hlater, -⟩ := hlate.grows hroot
    obtain ⟨ops, hops⟩ := ht.grows.trans hgrows
    refine ⟨?_, hlater.unfold hroot⟩
    obtain ⟨more, hmore⟩ := hlater
    exact ⟨ops, more, hops, by rw [hmore, hops, Store.after_append]⟩

/-- Slot 7 is the root, and lists slots 6 and 3. -/
def Tree.early : Tree :=
  ((Context.ofTree Context.strayTree .single).run (Context.strayCalls.take 3)).tree

/-- A worker has taken out slot 6, so that slot 8 is the root. -/
def Tree.late : Tree :=
  ((View.ofTree 1 early {}).overlayAfter 0 [.shared (.remove 7 6)]).tree

theorem layers_read_flat_late :
    Tree.early.root = 7 ∧ Tree.late.root = 8 ∧
      Tree.late.store.unfold Tree.early.root = Tree.early.rose := by
  have hearly : Context.strayTree.Later Tree.early :=
    .edited _ (.edited _ (.edited _ (.opened .single .refl)))
  have hlate : Tree.early.Later Tree.late :=
    .recorded _ _ (.issued (v := View.ofTree 1 Tree.early {}) 0 none .refl)
  exact ⟨by decide +kernel, by decide +kernel,
    (layers_read_flat.2 _ _ _ (.built Context.finish_strayNodes) hearly hlate).2⟩

end TreeEdit
