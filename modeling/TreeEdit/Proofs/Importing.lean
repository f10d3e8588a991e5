import TreeEdit.Proofs.InPlace

/-!
# One log on a tree that others have changed

A replay brings the nodes of a worker over to new slots and carries out the worker's records there.
`Replay.Carries` is what holds in the middle of a log, in terms of values: the nodes that the worker
made and the nodes of the view that it targets have the values of the log, up to the renaming to the
new slots, and every other node has the value that it had when the log began.
-/

namespace TreeEdit

/-! ### Nodes that a log is about -/

/-- Whether a record of the log targets a node. -/
def Overlay.Targets (o : Overlay) (x : NodeId) : Prop :=
  ∃ record ∈ o.records, record.edit.target = x

theorem mem_children_reviseAll {records : List Record} {P : NodeId → Prop} {x c : NodeId} {n : Node}
    (hn : ∀ c ∈ n.children, P c) (hrecords : ∀ record ∈ records, ∀ y ∈ record.edit.ids, P y)
    (hc : c ∈ (reviseAll records x n).children) : P c := by
  induction records using List.reverseRecOn generalizing c with
  | nil => exact hn c hc
  | append_singleton records record ih =>
    have hearlier := fun r hr => hrecords r (List.mem_append_left _ hr)
    rw [reviseAll_append_singleton] at hc
    split at hc
    · rcases Edit.mem_children_revise_or hc with hc | hc
      · exact ih hearlier hc
      · exact hrecords record (by simp) c hc
    · exact ih hearlier hc

/-- The children that a node begins with are named before it. -/
theorem StartsAs.children_named {v : View} {created done : List Created} {x : NodeId} {n : Node}
    (hv : v.tree.Sound) (horder : CreatedInOrder v.tree.store.size created)
    (hdone : done <+: created) (h : StartsAs v done x n) :
    ∀ c ∈ n.children, Named v.tree.store.size done c := by
  intro c hc
  rcases h with hget | ⟨d, hd, -, rfl⟩
  · exact Or.inl (Nat.lt_trans (hv.store.earlier x n hget c hc) (Store.lt_size_of_get? hget))
  · obtain ⟨before, after, rfl⟩ := List.append_of_mem hd
    have hle : before ++ [d] <+: created := List.IsPrefix.trans (by simp) hdone
    exact (horder before d hle c hc).mono (List.subset_append_left _ _)

namespace Replay

variable {v : View} {o : Overlay} {r₀ r r' : Replay} {done : List Created} {k most : Nat}
  {x y : NodeId} {n : Node} {c : Created} {record : Record}

/-- The slot that a node of the worker at hand came to, the slot itself for a node of the view. -/
def rename (r : Replay) (id : NodeId) : NodeId :=
  r.imported[id]?.getD id

/-- The value of a node, with every child taken back to its origin. -/
def valueOf (r : Replay) (x : NodeId) : Option Node :=
  r.store.valueOf r.forward x

theorem rename_importNode (h : r.importNode c = .ok r') (x : NodeId) :
    r'.rename x = if x = c.id then r.store.size else r.rename x := by
  obtain ⟨-, rfl⟩ := importNode_eq_ok h
  by_cases hx : x = c.id
  · subst hx
    simp [rename]
  · have hne : compare c.id x ≠ .eq := fun heq => hx (Nat.compare_eq_eq.1 heq).symm
    rw [if_neg hx, rename, rename]
    simp [Std.ExtTreeMap.getElem?_insert, hne]

theorem rename_importNode_self (h : r.importNode c = .ok r') : r'.rename c.id = r.store.size := by
  rw [rename_importNode h, if_pos rfl]

theorem rename_importNode_of_named {base : Nat} (h : r.importNode c = .ok r')
    (hfresh : ¬Named base done c.id) (hx : Named base done x) : r'.rename x = r.rename x := by
  have hne : x ≠ c.id := fun heq => hfresh (heq ▸ hx)
  rw [rename_importNode h, if_neg hne]

/-! ### Renaming -/

/-- How a replay renames the nodes that a log names, if it had `start` slots when the log began.
Nodes of the view keep their slots, and the others came to new slots of their own. -/
structure Renames (base start : Nat) (done : List Created) (r : Replay) : Prop where
  view : ∀ x, x < base → r.rename x = x
  new : ∀ c ∈ done, start ≤ r.rename c.id
  lt : ∀ x, Named base done x → r.rename x < r.store.size
  inj : ∀ c ∈ done, ∀ d ∈ done, r.rename c.id = r.rename d.id → c.id = d.id
  original : ∀ x, Named base done x → r.forward.origin (r.rename x) = r.rename x

namespace Renames

variable {base start : Nat}

/-- Different names are renamed to different slots. -/
theorem eq_of_eq (h : Renames base start done r) (hbase : base ≤ start) (hx : Named base done x)
    (hy : Named base done y) (heq : r.rename x = r.rename y) : x = y := by
  -- the slots of the view come before those that nodes are brought to
  have hmixed : ∀ z, z < base → ∀ c ∈ done, r.rename z ≠ r.rename c.id := by
    intro z hz c hc hzc
    rw [h.view z hz] at hzc
    exact absurd hzc (Nat.ne_of_lt (Nat.lt_of_lt_of_le hz (Nat.le_trans hbase (h.new c hc))))
  rcases hx with hx | ⟨c, hc, rfl⟩ <;> rcases hy with hy | ⟨d, hd, rfl⟩
  · rwa [h.view x hx, h.view y hy] at heq
  · exact absurd heq (hmixed x hx d hd)
  · exact absurd heq.symm (hmixed y hy c hc)
  · exact h.inj c hc d hd heq

/-- The origin of the current slot of a name is the slot that it was renamed to. -/
theorem origin_locate (h : Renames base start done r) {m : Nat} (hf : r.forward.Coherent m)
    (hx : Named base done x) : r.forward.origin (r.locate x) = r.rename x := by
  show r.forward.origin (r.forward.resolve (r.rename x)) = r.rename x
  rw [hf.origin_resolve, h.original x hx]

theorem bring (h : Renames base start done r) (hgrown : start ≤ r.store.size)
    (hf : r.forward.Coherent r.store.size) (hfresh : ¬Named base done c.id)
    (hbring : r.importNode c = .ok r') : Renames base start (done ++ [c]) r' := by
  have hkeep := fun x (hx : Named base done x) => rename_importNode_of_named hbring hfresh hx
  have hnew := rename_importNode_self hbring
  have hcases : ∀ x, Named base (done ++ [c]) x → Named base done x ∨ x = c.id := by
    rintro x (hx | ⟨d, hd, rfl⟩)
    · exact Or.inl (Or.inl hx)
    · rcases List.mem_append.1 hd with hd | hd
      · exact Or.inl (Or.inr ⟨d, hd, rfl⟩)
      · exact Or.inr (by rw [List.mem_singleton.1 hd])
  obtain ⟨-, rfl⟩ := importNode_eq_ok hbring
  have hsize : (r.store.append [c.node.mapChildren r.locate]).size = r.store.size + 1 := by simp
  refine ⟨?_, ?_, ?_, ?_, ?_⟩
  · intro x hx
    rw [hkeep x (Or.inl hx), h.view x hx]
  · intro d hd
    rcases List.mem_append.1 hd with hd | hd
    · rw [hkeep d.id (Or.inr ⟨d, hd, rfl⟩)]
      exact h.new d hd
    · rw [List.mem_singleton.1 hd, hnew]
      exact hgrown
  · intro x hx
    rw [hsize]
    rcases hcases x hx with hx | rfl
    · rw [hkeep x hx]
      exact Nat.lt_succ_of_lt (h.lt x hx)
    · rw [hnew]
      exact Nat.lt_succ_self _
  · have hlt : ∀ d ∈ done, r.rename d.id ≠ r.store.size := fun d hd =>
      Nat.ne_of_lt (h.lt d.id (Or.inr ⟨d, hd, rfl⟩))
    intro a ha b hb heq
    rcases List.mem_append.1 ha with ha | ha <;> rcases List.mem_append.1 hb with hb | hb
    · rw [hkeep a.id (Or.inr ⟨a, ha, rfl⟩), hkeep b.id (Or.inr ⟨b, hb, rfl⟩)] at heq
      exact h.inj a ha b hb heq
    · rw [List.mem_singleton.1 hb, hnew, hkeep a.id (Or.inr ⟨a, ha, rfl⟩)] at heq
      exact absurd heq (hlt a ha)
    · rw [List.mem_singleton.1 ha, hnew, hkeep b.id (Or.inr ⟨b, hb, rfl⟩)] at heq
      exact absurd heq.symm (hlt b hb)
    · rw [List.mem_singleton.1 ha, List.mem_singleton.1 hb]
  · intro x hx
    rcases hcases x hx with hx | rfl
    · rw [hkeep x hx]
      exact h.original x hx
    · rw [hnew]
      exact hf.descending.origin_of_le (Nat.le_refl _)

theorem redo (h : Renames base start done r) (hredo : r.applyRecord most record = .ok r') :
    Renames base start done r' := by
  obtain ⟨above, current, store, rebuilt, hedited, rfl⟩ := applyRecord_eq_ok hredo
  refine ⟨h.view, h.new, fun x hx => ?_, h.inj, fun x hx => ?_⟩
  · exact Nat.lt_of_lt_of_le (h.lt x hx) hedited.size_le
  · show (r.forward.record rebuilt).origin (r.rename x) = r.rename x
    rw [hedited.origin_old (h.lt x hx)]
    exact h.original x hx

end Renames

/-! ### The middle of a log -/

/-- Some nodes of a log have been brought over and its first `k` records carried out, in a replay
that was at `r₀` when the log began. -/
structure Carries (v : View) (o : Overlay) (r₀ : Replay) (done : List Created) (k : Nat)
    (r : Replay) : Prop where
  sound : Sound v.tree.store.size done r
  traced : r.store.Traced r.forward r.root
  once : r.ReachesOnce
  top : r.forward.resolve v.tree.root = r.root
  grown : r₀.store.size ≤ r.store.size
  renames : Renames v.tree.store.size r₀.store.size done r
  named : ∀ record ∈ o.records.take k, ∀ x ∈ record.edit.ids, Named v.tree.store.size done x
  own : ∀ x n, StartsAs v done x n → (x < v.tree.store.size → o.Targets x) →
    r.valueOf (r.rename x) = some ((reviseAll (o.records.take k) x n).mapChildren r.rename)
  rest : ∀ y, y < r₀.store.size → r₀.forward.origin y = y →
    (y < v.tree.store.size → ¬o.Targets y) → r.forward.origin y = y ∧ r.valueOf y = r₀.valueOf y

namespace Carries

theorem children_named (h : Carries v o r₀ done k r) (hv : v.tree.Sound) (ho : Overlay.Sound v o)
    (hdone : done <+: o.created) (hx : StartsAs v done x n) :
    ∀ c ∈ (reviseAll (o.records.take k) x n).children, Named v.tree.store.size done c :=
  fun _ hc => mem_children_reviseAll (hx.children_named hv ho.inOrder hdone) h.named hc

/-- A log begins. -/
theorem enter {before : List Created} (hsound : Sound v.tree.store.size before r₀)
    (htraced : r₀.store.Traced r₀.forward r₀.root) (honce : r₀.ReachesOnce)
    (htop : r₀.forward.resolve v.tree.root = r₀.root)
    (horiginal : ∀ x, x < v.tree.store.size → r₀.forward.origin x = x)
    (huntouched : ∀ x n, v.tree.store.get? x = some n → o.Targets x → r₀.valueOf x = some n) :
    Carries v o r₀ [] 0 { r₀ with imported := ∅ } := by
  have hrename : ∀ x, ({ r₀ with imported := ∅ } : Replay).rename x = x := fun x => by simp [rename]
  have hview : ∀ x, Named v.tree.store.size [] x → x < v.tree.store.size := fun x hx =>
    hx.resolve_right (by simp)
  refine ⟨hsound.enter, htraced, honce, htop, Nat.le_refl _, ⟨fun x _ => hrename x, by simp, ?_,
    by simp, ?_⟩, by simp, ?_, fun y _ hy _ => ⟨hy, rfl⟩⟩
  · intro x hx
    rw [hrename]
    exact Nat.lt_of_lt_of_le (hview x hx) hsound.base
  · intro x hx
    rw [hrename]
    exact horiginal x (hview x hx)
  · intro x n hx htargets
    have hget := hx.resolve_right (by simp)
    rw [hrename, List.take_zero, reviseAll_nil, Node.mapChildren_eq_self fun c _ => hrename c]
    exact huntouched x n hget (htargets (Store.lt_size_of_get? hget))

/-- The next node of a log has a new name. -/
theorem not_named (ho : Overlay.Sound v o) (hle : done ++ [c] <+: o.created) :
    ¬Named v.tree.store.size done c.id := by
  have hc : c ∈ o.created := hle.subset (by simp)
  rintro (hx | ⟨d, hd, heq⟩)
  · exact absurd hx (Nat.not_lt.2 (ho.ids c hc).1)
  · have hnodup := ho.distinct.sublist (hle.sublist.map (·.id))
    rw [List.map_append, List.nodup_append] at hnodup
    exact hnodup.2.2 d.id (List.mem_map_of_mem hd) c.id (by simp) heq

/-- The next node of the log is brought over. -/
theorem bring (h : Carries v o r₀ done k r) (hv : v.tree.Sound) (ho : Overlay.Sound v o)
    (hle : done ++ [c] <+: o.created) (hbring : r.importNode c = .ok r') (honce : r'.ReachesOnce) :
    Carries v o r₀ (done ++ [c]) k r' := by
  have hdone : done <+: o.created := (List.prefix_append _ _).trans hle
  have hfresh := not_named ho hle
  have hkeep := fun x (hx : Named v.tree.store.size done x) =>
    rename_importNode_of_named hbring hfresh hx
  have hnew := rename_importNode_self hbring
  have hsound := h.sound.bring (ho.inOrder done c hle) hbring
  have htraced := traced_importNode h.traced h.sound.root hbring
  have hrenames := h.renames.bring h.grown h.traced.coherent hfresh hbring
  obtain ⟨-, rfl⟩ := importNode_eq_ok hbring
  have hold : ∀ y, y < r.store.size →
      (r.store.append [c.node.mapChildren r.locate]).valueOf r.forward y = r.valueOf y :=
    fun y hy => Store.valueOf_append h.sound.ascending _ hy
  refine ⟨hsound, htraced, honce, h.top, ?_, hrenames, ?_, ?_, ?_⟩
  · exact Nat.le_trans h.grown (by simp)
  · intro record hrecord x hx
    exact (h.named record hrecord x hx).mono (List.subset_append_left _ _)
  · intro x n hx htargets
    have hcases : StartsAs v done x n ∨ x = c.id ∧ n = c.node := by
      rcases hx with hget | ⟨d, hd, rfl, rfl⟩
      · exact Or.inl (Or.inl hget)
      · rcases List.mem_append.1 hd with hd | hd
        · exact Or.inl (Or.inr ⟨d, hd, rfl, rfl⟩)
        · rw [List.mem_singleton.1 hd]
          exact Or.inr ⟨rfl, rfl⟩
    rcases hcases with hx | ⟨rfl, rfl⟩
    · rw [Node.mapChildren_congr fun d hd => hkeep d (h.children_named hv ho hdone hx d hd),
        hkeep x hx.named, ← h.own x n hx htargets]
      exact hold _ (h.renames.lt x hx.named)
    · -- no record so far targets the node, since none could name it
      have hnone : ∀ record ∈ o.records.take k, record.edit.target ≠ c.id := by
        intro record hrecord heq
        exact hfresh (heq ▸ h.named record hrecord _ record.edit.target_mem_ids)
      rw [hnew, reviseAll_of_not_target hnone]
      refine (Store.valueOf_append_size h.traced.coherent _).trans ?_
      rw [Node.mapChildren_mapChildren]
      refine congrArg some (Node.mapChildren_congr fun d hd => ?_)
      have hnamed := ho.inOrder done c hle d hd
      rw [h.renames.origin_locate h.traced.coherent hnamed, hkeep d hnamed]
  · intro y hy horigin hnot
    obtain ⟨hsame, hvalue⟩ := h.rest y hy horigin hnot
    exact ⟨hsame, (hold y (Nat.lt_of_lt_of_le hy h.grown)).trans hvalue⟩

/-- What the next record does to the values. -/
theorem valueOf_redo (h : Carries v o r₀ done k r)
    (hnamed : ∀ x ∈ record.edit.ids, Named v.tree.store.size done x)
    (hredo : r.applyRecord most record = .ok r') (hy : y < r.store.size)
    (horigin : r.forward.origin y = y) :
    r'.valueOf y =
      if y = r.rename record.edit.target then
        (r.valueOf y).map fun n => (record.edit.mapIds r.rename).revise n
      else r.valueOf y := by
  obtain ⟨above, current, store, rebuilt, hedited, rfl⟩ := applyRecord_eq_ok hredo
  have hedit : (record.edit.mapIds r.locate).mapIds r.forward.origin =
      record.edit.mapIds r.rename := by
    rw [Edit.mapIds_mapIds]
    exact Edit.mapIds_congr fun x hx => h.renames.origin_locate h.traced.coherent (hnamed x hx)
  have hvalue := hedited.valueOf_eq h.traced h.sound.store hy
  rw [hedit, Edit.target_mapIds, h.renames.origin_locate h.traced.coherent
    (hnamed _ record.edit.target_mem_ids), horigin] at hvalue
  exact hvalue

/-- The next record on a node that the log is about. -/
theorem valueOf_redo_own (h : Carries v o r₀ done k r) (hv : v.tree.Sound)
    (ho : Overlay.Sound v o) (hbase : v.tree.store.size ≤ r₀.store.size)
    (hdone : done <+: o.created)
    (hnamed : ∀ x ∈ record.edit.ids, Named v.tree.store.size done x)
    (hredo : r.applyRecord most record = .ok r') (hx : StartsAs v done x n)
    (htargets : x < v.tree.store.size → o.Targets x) :
    r'.valueOf (r.rename x) =
      some ((reviseAll (o.records.take k ++ [record]) x n).mapChildren r.rename) := by
  rw [reviseAll_append_singleton, h.valueOf_redo hnamed hredo (h.renames.lt x hx.named)
    (h.renames.original x hx.named), h.own x n hx htargets]
  by_cases heq : record.edit.target = x
  · -- the record was made before the renaming: all that it meets has a name, and names stay apart
    have hchildren := h.children_named hv ho hdone hx
    rw [if_pos heq, if_pos (by rw [heq]), Option.map_some]
    refine congrArg some (Edit.revise_mapChildren fun z hz a ha hza => ?_)
    exact h.renames.eq_of_eq hbase (hchildren a ha) (hnamed z (Edit.oldChild?_mem_ids hz)) hza
  · have hne : r.rename x ≠ r.rename record.edit.target := fun hsame =>
      heq (h.renames.eq_of_eq hbase hx.named (hnamed _ record.edit.target_mem_ids) hsame).symm
    rw [if_neg heq, if_neg hne]

/-- A node that the log is not about is not the target of a record: the target is another node of
the view, or came to a later slot. -/
theorem ne_rename_target (h : Carries v o r₀ done k r) (hrecord : record ∈ o.records)
    (htarget : Named v.tree.store.size done record.edit.target) (hy : y < r₀.store.size)
    (hnot : y < v.tree.store.size → ¬o.Targets y) : y ≠ r.rename record.edit.target := by
  intro heq
  rcases htarget with hview | ⟨c, hc, hid⟩
  · rw [h.renames.view _ hview] at heq
    exact hnot (heq ▸ hview) ⟨record, hrecord, heq.symm⟩
  · rw [← hid] at heq
    exact absurd hy (Nat.not_lt.2 (heq ▸ h.renames.new c hc))

/-- The next record of the log is carried out. -/
theorem redo (h : Carries v o r₀ done k r) (hv : v.tree.Sound) (ho : Overlay.Sound v o)
    (hbase : v.tree.store.size ≤ r₀.store.size) (hrecord : o.records[k]? = some record)
    (hdone : done <+: o.created) (hmade : ∀ c ∈ o.created, c.after ≤ k → c ∈ done)
    (hredo : r.applyRecord most record = .ok r') (honce : r'.ReachesOnce) :
    Carries v o r₀ done (k + 1) r' := by
  have hnamed : ∀ x ∈ record.edit.ids, Named v.tree.store.size done x := by
    intro x hx
    refine (ho.recorded k record hrecord x hx).mono fun c hc => ?_
    obtain ⟨hc, hafter⟩ := List.mem_filter.1 hc
    exact hmade c hc (by simpa using hafter)
  have htake : o.records.take (k + 1) = o.records.take k ++ [record] := by
    rw [List.take_add_one, hrecord]
    rfl
  have hown := fun x n (hx : StartsAs v done x n) htargets =>
    h.valueOf_redo_own hv ho hbase hdone hnamed hredo hx htargets
  have hvalue := fun y (hy : y < r.store.size) (horigin : r.forward.origin y = y) =>
    h.valueOf_redo hnamed hredo hy horigin
  have hrenames := h.renames.redo hredo
  have hsound := h.sound.redo hredo
  have htraced := traced_applyRecord h.traced h.sound.store h.once hredo
  obtain ⟨above, current, store, rebuilt, hedited, rfl⟩ := applyRecord_eq_ok hredo
  refine ⟨hsound, htraced, honce, h.traced.resolve_root_edited hedited h.sound.store h.top,
    Nat.le_trans h.grown hedited.size_le, hrenames, ?_, ?_, ?_⟩
  · rw [htake]
    intro entry hentry
    rcases List.mem_append.1 hentry with hentry | hentry
    · exact h.named entry hentry
    · rw [List.mem_singleton.1 hentry]
      exact hnamed
  · rw [htake]
    exact hown
  · intro y hy horigin hnot
    obtain ⟨hsame, hkeep⟩ := h.rest y hy horigin hnot
    have hlt := Nat.lt_of_lt_of_le hy h.grown
    have hne := h.ne_rename_target (List.mem_of_getElem? hrecord)
      (hnamed _ record.edit.target_mem_ids) hy hnot
    refine ⟨(hedited.origin_old hlt).trans hsame, ?_⟩
    rw [hvalue y hlt hsame, if_neg hne, hkeep]

end Carries

/-- A whole log. -/
theorem carries_applyLog {before : List Created} (hv : v.tree.Sound) (ho : Overlay.Sound v o)
    (hsound : Sound v.tree.store.size before r₀)
    (htraced : r₀.store.Traced r₀.forward r₀.root)
    (htop : r₀.forward.resolve v.tree.root = r₀.root)
    (horiginal : ∀ x, x < v.tree.store.size → r₀.forward.origin x = x)
    (huntouched : ∀ x n, v.tree.store.get? x = some n → o.Targets x → r₀.valueOf x = some n)
    (hlog : o.toSealed.events.foldlM (step most) r₀ = .ok r)
    (honce : Along most ReachesOnce o.toSealed.events r₀) :
    Carries v o r₀ o.created o.records.length r := by
  have hstart : r₀.ReachesOnce := honce [] List.nil_prefix r₀ rfl
  obtain ⟨r₁, hfirst, hevents⟩ := Verdict.bind_eq_ok_iff.1 hlog
  have htail := honce.tail hfirst
  cases hfirst
  refine events_induction (I := Carries v o r₀) ?_ ?_ ho.sorted
    (.enter hsound htraced hstart htop horiginal huntouched) hevents htail
  · intro done c k r r' hle hr hbring honce'
    exact hr.bring hv ho hle hbring honce'
  · intro done k record r r' hrecord hdone hmade hr hredo honce'
    exact hr.redo hv ho hsound.base hrecord hdone hmade hredo honce'

end Replay

end TreeEdit
