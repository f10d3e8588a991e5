import TreeEdit.Proofs.Fidelity
import TreeEdit.Proofs.Naming

/-!
# Logs name nodes

A worker may name a node by any slot it ever had, and requests to make nodes and to change them may
come in any order. The log has none of this: it names slots of the view and slots of nodes that it
has made before, and no copies. `Replay.Ordered` says this of events. Every request adds at most one
event to those of the log, so it holds of every log, and it is what a replay needs: a node is there
when an event names it.
-/

namespace TreeEdit

/-! ### Events in order -/

namespace Event

/-- The slots that an event names. -/
def ids : Event → List NodeId
  | enter => []
  | bring c => c.node.children
  | redo record => record.edit.ids

/-- The nodes of the worker at hand that have been brought over after one more event. -/
def next (done : List Created) : Event → List Created
  | enter => []
  | bring c => done ++ [c]
  | redo _ => done

/-- An event can come now: what it names has been brought over, and what it brings over has not. -/
structure Ready (base : Nat) (done : List Created) (ev : Event) : Prop where
  named : ∀ x ∈ ev.ids, Named base done x
  fresh : ∀ c, ev = bring c → ∀ d ∈ done, d.id ≠ c.id

theorem ready_enter (base : Nat) (done : List Created) : enter.Ready base done where
  named x hx := by cases hx
  fresh c hc := by cases hc

end Event

namespace Replay

variable {base most : Nat} {done : List Created} {es fs : List Event} {ev : Event} {r r' : Replay}
  {c : Created}

/-- The nodes of the worker at hand that have been brought over after some events. -/
def brought (es : List Event) : List Created :=
  es.foldl Event.next []

theorem brought_append_singleton (es : List Event) (ev : Event) :
    brought (es ++ [ev]) = ev.next (brought es) := by
  rw [brought, List.foldl_append]
  rfl

theorem brought_append_enter (es fs : List Event) :
    brought (es ++ .enter :: fs) = brought (.enter :: fs) := by
  rw [brought, List.foldl_append]
  rfl

theorem bring_mem_of_mem_brought (hc : c ∈ brought es) : .bring c ∈ es := by
  induction es using List.reverseRecOn with
  | nil => cases hc
  | append_singleton es ev ih =>
    rw [brought_append_singleton] at hc
    cases ev with
    | enter => cases hc
    | redo record => exact List.mem_append_left _ (ih hc)
    | bring d =>
      rcases List.mem_append.1 hc with hc | hc
      · exact List.mem_append_left _ (ih hc)
      · rw [List.mem_singleton.1 hc]
        exact List.mem_append_right _ List.mem_cons_self

/-- Every event comes when it can. -/
def Ordered (base : Nat) (es : List Event) : Prop :=
  ∀ before ev, before ++ [ev] <+: es → ev.Ready base (brought before)

theorem ordered_nil (base : Nat) : Ordered base [] := by
  intro before ev hle
  simp at hle

theorem Ordered.initial (h : Ordered base es) (hfs : fs <+: es) : Ordered base fs :=
  fun before ev hle => h before ev (hle.trans hfs)

theorem Ordered.append_singleton (h : Ordered base es) (hev : ev.Ready base (brought es)) :
    Ordered base (es ++ [ev]) := by
  intro before next hle
  rcases List.prefix_concat_iff.1 hle with heq | hle
  · obtain ⟨rfl, hnext⟩ := List.append_inj' heq rfl
    cases hnext
    exact hev
  · exact h before next hle

/-- A log that begins anew does not look back. -/
theorem Ordered.append_enter (h : Ordered base es) (hfs : Ordered base (.enter :: fs)) :
    Ordered base (es ++ .enter :: fs) := by
  induction fs using List.reverseRecOn with
  | nil => exact h.append_singleton (Event.ready_enter base _)
  | append_singleton fs ev ih =>
    -- the event looks back as far as the beginning of its own log
    have hlast := hfs (.enter :: fs) ev (List.prefix_refl _)
    rw [← List.cons_append, ← List.append_assoc]
    refine (ih (hfs.initial (List.prefix_append _ _))).append_singleton ?_
    rwa [brought_append_enter]

theorem ordered_flatMap {logs : List Sealed} (h : ∀ log ∈ logs, Ordered base log.events) :
    Ordered base (logs.flatMap Sealed.events) := by
  induction logs using List.reverseRecOn with
  | nil => exact ordered_nil base
  | append_singleton logs log ih =>
    rw [List.flatMap_append, List.flatMap_singleton]
    exact (ih fun d hd => h d (List.mem_append_left _ hd)).append_enter (h log (by simp))

/-- What every event keeps that comes when it can holds of a replay of events in order. -/
theorem Ordered.induction {I : List Created → Replay → Prop} {Q : Replay → Prop}
    (next : ∀ done r r' ev, ev.Ready base done → Q r → I done r → step most r ev = .ok r' →
      I (ev.next done) r')
    (horder : Ordered base es) (hQ : Along most Q es r) (start : I [] r)
    (hfold : es.foldlM (step most) r = .ok r') : I (brought es) r' := by
  induction es using List.reverseRecOn generalizing r' with
  | nil =>
    cases hfold
    exact start
  | append_singleton es ev ih =>
    rw [List.foldlM_append] at hfold
    obtain ⟨r₁, hbefore, hstep⟩ := Verdict.bind_eq_ok_iff.1 hfold
    rw [foldlM_singleton] at hstep
    rw [brought_append_singleton]
    exact next _ r₁ r' ev (horder es ev (List.prefix_refl _))
      (hQ es (List.prefix_append _ _) r₁ hbefore)
      (ih (horder.initial (List.prefix_append _ _)) hQ.left hbefore) hstep

/-- A node that has been brought over has a slot, with the attributes that the worker gave it. -/
def Holds (r : Replay) (c : Created) : Prop :=
  ∃ y n, r.imported[c.id]? = some y ∧ r.store.get? y = some n ∧ n.attributes = c.node.attributes

theorem holds_importNode (h : r.importNode c = .ok r') : r'.Holds c := by
  obtain ⟨-, rfl⟩ := importNode_eq_ok h
  exact ⟨r.store.size, _, by simp, Store.get?_append_size_add r.store _ 0, rfl⟩

theorem Holds.importNode {d : Created} (hd : r.Holds d) (hne : d.id ≠ c.id)
    (h : r.importNode c = .ok r') : r'.Holds d := by
  obtain ⟨y, n, himported, hget, hn⟩ := hd
  obtain ⟨-, rfl⟩ := importNode_eq_ok h
  refine ⟨y, n, ?_, (Store.get?_append_of_lt _ (Store.lt_size_of_get? hget)).trans hget, hn⟩
  simp only [Std.ExtTreeMap.getElem?_insert]
  split
  · rename_i heq
    exact absurd (Nat.compare_eq_eq.1 heq).symm hne
  · exact himported

theorem Holds.applyRecord {record : Record} (hc : r.Holds c)
    (h : r.applyRecord most record = .ok r') : r'.Holds c := by
  obtain ⟨y, n, himported, hget, hn⟩ := hc
  obtain ⟨above, current, store, rebuilt, hedited, rfl⟩ := applyRecord_eq_ok h
  exact ⟨y, n, himported, (hedited.copied.old y (Store.lt_size_of_get? hget)).trans hget, hn⟩

/-- A replay of events in order has a slot for each node that has been brought over. -/
theorem holds_foldlM (horder : Ordered base es) (hfold : es.foldlM (step most) r = .ok r')
    (hc : c ∈ brought es) : r'.Holds c := by
  refine horder.induction (I := fun done r => ∀ c ∈ done, r.Holds c) (Q := fun _ => True) ?_
    (fun _ _ _ _ => trivial) (by simp) hfold c hc
  intro done r r' ev hready _ hdone hstep c hc
  cases ev with
  | enter => cases hc
  | bring d =>
    rcases List.mem_append.1 hc with hc | hc
    · exact (hdone c hc).importNode (hready.fresh d rfl c hc) hstep
    · rw [List.mem_singleton.1 hc]
      exact holds_importNode hstep
  | redo record => exact (hdone c hc).applyRecord hstep

end Replay

/-! ### Logs -/

namespace Overlay

variable {v : View} {o o' : Overlay} {g : SharedGuard} {P : Overlay → Prop}

/-- A request that is refused adds no event, and any other one adds an event that can come now. -/
theorem Sound.events_step (h : Sound v o) (hstep : Step o g o') :
    (o'.toSealed.events = o.toSealed.events ∧ o'.created = o.created) ∨
      ∃ ev : Event, ev.Ready v.tree.store.size o.created ∧
        o'.toSealed.events = o.toSealed.events ++ [ev] ∧ o'.created = ev.next o.created := by
  have hnext := h.step hstep
  cases hstep with
  | refused guard limits => exact Or.inl ⟨rfl, rfl⟩
  | created n checked room =>
    refine Or.inr ⟨.bring ⟨o.shadow.size, n.mapChildren o.forward.origin, o.recordCount⟩,
      ⟨hnext.inOrder o.created _ (List.prefix_refl _), ?_⟩, ?_, rfl⟩
    · rintro c ⟨⟩ d hd
      exact Nat.ne_of_lt (h.ids d hd).2
    · show Event.enter :: Replay.events 0 (o.created ++ [_]) o.records = _
      rw [Replay.events_append_created 0 o.created o.records (by simp)]
      rfl
  | @recorded e node value way shadow r guard limits get_target planned depth rebuilt =>
    have hget : (o.commit node.stableId e shadow r).records[o.recordCount]? =
        some ⟨o.recordCount, node.stableId, e.mapIds (o.forward.record r).origin, o.worker⟩ := by
      rw [records_commit, ← length_records, List.getElem?_concat_length]
    refine Or.inr ⟨.redo ⟨o.recordCount, node.stableId, e.mapIds (o.forward.record r).origin,
      o.worker⟩, ⟨fun x hx => ?_, by simp⟩, ?_, rfl⟩
    · exact (hnext.recorded o.recordCount _ hget x hx).mono (List.filter_subset_self _)
    · show Event.enter :: Replay.events 0 o.created
        (o.commit node.stableId e shadow r).records = _
      rw [h.events_commit]
      rfl

/-- The events of an overlay are in order, and bring over all nodes that the worker made. -/
theorem ordered_of_runs (hv : v.tree.Sound) (h : v.Runs P o) :
    Replay.Ordered v.tree.store.size o.toSealed.events ∧
      Replay.brought o.toSealed.events = o.created := by
  refine h.induction (I := fun o => Replay.Ordered v.tree.store.size o.toSealed.events ∧
    Replay.brought o.toSealed.events = o.created) ?_ ?_
  · intro worker block _
    exact ⟨(Replay.ordered_nil _).append_singleton (Event.ready_enter _ _), rfl⟩
  · rintro o o' g _ before ⟨horder, hbrought⟩ hstep
    rcases (Sound.of_runs hv before).events_step hstep with
      ⟨hevents, hcreated⟩ | ⟨ev, hready, hevents, hcreated⟩
    · rw [hevents, hcreated]
      exact ⟨horder, hbrought⟩
    · rw [hevents, hcreated, Replay.brought_append_singleton, hbrought]
      exact ⟨horder.append_singleton (hbrought ▸ hready), rfl⟩

theorem sequence_of_runs (h : v.Runs P o) :
    o.records.map (·.sequence) = List.range o.recordCount := by
  refine h.induction (I := fun o => o.records.map (·.sequence) = List.range o.recordCount) ?_ ?_
  · intro worker block _
    rfl
  · intro o o' g _ _ ih hstep
    cases hstep with
    | refused guard limits => exact ih
    | created n checked room => exact ih
    | @recorded e node value way shadow r guard limits get_target planned depth rebuilt =>
      show (o.commit node.stableId e shadow r).records.map (·.sequence) =
        List.range (o.recordCount + 1)
      rw [records_commit, List.map_append, ih, List.range_succ]
      rfl

theorem pairwise_created_of_runs (hv : v.tree.Sound) (h : v.Runs P o) :
    o.created.Pairwise (·.id < ·.id) := by
  refine h.induction (I := fun o => o.created.Pairwise (·.id < ·.id)) ?_ ?_
  · intro worker block _
    exact List.Pairwise.nil
  · intro o o' g _ before ih hstep
    cases hstep with
    | refused guard limits => exact ih
    | recorded guard limits get_target planned depth rebuilt => exact ih
    | created n checked room =>
      refine List.pairwise_append.2 ⟨ih, List.pairwise_singleton _ _, fun c hc d hd => ?_⟩
      rw [List.mem_singleton.1 hd]
      exact ((Sound.of_runs hv before).ids c hc).2

/-- The log of an overlay up to a record, with the nodes that it says to be made by then, is what the
worker had logged when the record was asked for. -/
theorem exists_runs_of_lt (hv : v.tree.Sound) (h : v.Runs P o) {k : Nat} (hk : k < o.recordCount) :
    ∃ p, v.Runs P p ∧ p.records = o.records.take k ∧
      p.created = o.created.filter (·.after ≤ k) := by
  refine h.induction (I := fun o => k < o.recordCount → ∃ p, v.Runs P p ∧
    p.records = o.records.take k ∧ p.created = o.created.filter (·.after ≤ k)) ?_ ?_ hk
  · intro worker block _ hk
    exact absurd hk (Nat.not_lt_zero k)
  · intro o o' g _ before ih hstep hk
    have hsound := Sound.of_runs hv before
    cases hstep with
    | refused guard limits => exact ih hk
    | created n checked room =>
      obtain ⟨p, hp, hrecords, hcreated⟩ := ih hk
      refine ⟨p, hp, hrecords, ?_⟩
      have hlate : ¬ o.recordCount ≤ k := Nat.not_le.2 hk
      simp [List.filter_append, hlate, hcreated]
    | @recorded e node value way shadow r guard limits get_target planned depth rebuilt =>
      show ∃ p, v.Runs P p ∧
        p.records = (o.commit node.stableId e shadow r).records.take k ∧ _
      have hle : k ≤ o.records.length := by
        rw [length_records]
        exact Nat.le_of_lt_succ hk
      rw [records_commit, List.take_append_of_le_length hle]
      rcases Nat.lt_or_eq_of_le hle with hlt | heq
      · exact ih (by rwa [length_records] at hlt)
      · -- the new record was asked for in the state before
        refine ⟨o, before, ?_, (List.filter_eq_self.2 fun c hc => ?_).symm⟩
        · rw [heq, List.take_length]
        · rw [heq, length_records]
          exact decide_eq_true (hsound.after c hc)

/-- A slot of the view or of a node that the worker made is no copy. -/
theorem origins_of_named (hv : v.tree.Sound) (h : v.Runs P o) {x : NodeId}
    (hx : Named v.tree.store.size o.created x) : o.forward.origins.get? x = none :=
  (tracesBack_of_runs hv h).earlier.origins_of_origin_eq ((Sound.of_runs hv h).original x hx)

/-- A log in canonical form. -/
structure Canonical (v : View) (o : Overlay) : Prop where
  /-- A record names slots of the view and of nodes made before it, and no copies. -/
  records : ∀ (k : Nat) record, o.toSealed.records[k]? = some record → ∀ x ∈ record.edit.ids,
    Named v.tree.store.size (o.toSealed.created.filter (·.after ≤ k)) x ∧
      o.forward.origins.get? x = none
  /-- So do the children of a node that the worker made. -/
  children : ∀ (k : Nat) c, o.toSealed.created[k]? = some c → ∀ x ∈ c.node.children,
    Named v.tree.store.size (o.toSealed.created.take k) x ∧ o.forward.origins.get? x = none
  /-- A record carries the stable name of the node that it says to be changed. -/
  targets : ∀ record ∈ o.toSealed.records, ∃ n,
    StartsAs v o.toSealed.created record.edit.target n ∧ record.target = n.stableId
  sequence : o.toSealed.records.map (·.sequence) = List.range o.toSealed.records.length
  /-- Nodes are listed in the order in which their slots were added. -/
  ids : o.toSealed.created.Pairwise (·.id < ·.id)
  sorted : o.toSealed.created.Pairwise (·.after ≤ ·.after)
  after : ∀ c ∈ o.toSealed.created, c.after ≤ o.toSealed.records.length
  /-- The nodes that a log says to be made before a record are those that had been made by then. -/
  made : ∀ k < o.toSealed.records.length, ∃ p, v.Runs (fun _ => True) p ∧
    p.records = o.toSealed.records.take k ∧
      p.created = o.toSealed.created.filter (·.after ≤ k)
  /-- A replay of the log, on whatever others have left, goes through the events. When it comes to
  one that names a node of the worker, it has brought the node over. -/
  replayed : ∀ most r, Replay.applyLog most r o.toSealed =
    o.toSealed.events.foldlM (Replay.step most) r
  imported : ∀ most r r' before ev after, o.toSealed.events = before ++ ev :: after →
    before.foldlM (Replay.step most) r = .ok r' → ∀ x ∈ ev.ids, v.tree.store.size ≤ x →
      ∃ c ∈ o.toSealed.created, c.id = x ∧ r'.Holds c

/-- The log of every overlay is canonical, whatever slots the worker has named nodes by, and in
whatever order it has made and changed them. -/
theorem canonical_of_runs (hv : Lineage v.tree) (h : v.Runs (fun _ => True) o) : Canonical v o := by
  have hsound := Sound.of_runs hv.sound h
  constructor
  · intro k record hk x hx
    have hnamed := hsound.recorded k record hk x hx
    exact ⟨hnamed, origins_of_named hv.sound h (hnamed.mono (List.filter_subset_self _))⟩
  · intro k c hk x hx
    have hle : o.created.take k ++ [c] <+: o.created := by
      have hsucc : o.created.take (k + 1) = o.created.take k ++ [c] := by
        rw [List.take_add_one]
        exact congrArg (fun a : Option Created => o.created.take k ++ a.toList) hk
      exact hsucc ▸ List.take_prefix _ _
    have hnamed := hsound.inOrder _ c hle x hx
    exact ⟨hnamed, origins_of_named hv.sound h (hnamed.mono (List.take_subset _ _))⟩
  · intro record hrecord
    obtain ⟨n, hn⟩ := (hsound.target_named hrecord).exists_startsAs hv.sound
    exact ⟨n, hn, target_of_record hv.sound h hrecord hn⟩
  · show o.records.map (·.sequence) = List.range o.records.length
    rw [length_records, sequence_of_runs h]
  · exact pairwise_created_of_runs hv.sound h
  · exact hsound.sorted
  · intro c hc
    exact Nat.le_trans (hsound.after c hc) (Nat.le_of_eq o.length_records.symm)
  · intro k hk
    exact exists_runs_of_lt hv.sound h (Nat.lt_of_lt_of_eq hk o.length_records)
  · intro most r
    exact Replay.applyLog_eq most r _
  · intro most r r' before ev after hevents hfold x hx hmade
    obtain ⟨horder, -⟩ := ordered_of_runs hv.sound h
    have hpart : before ++ [ev] <+: o.toSealed.events := by
      rw [hevents]
      simp
    rcases (horder before ev hpart).named x hx with hview | ⟨c, hc, hid⟩
    · exact absurd hview (Nat.not_lt.2 hmade)
    · have hbefore : before <+: o.toSealed.events := (List.prefix_append _ _).trans hpart
      have hbring := hbefore.subset (Replay.bring_mem_of_mem_brought hc)
      exact ⟨c, Sealed.mem_created_of_bring hbring, hid,
        Replay.holds_foldlM (horder.initial hbefore) hfold hc⟩

/-- Requests that name nodes by slots of the view, by the slot of a node that was just made, and by
copies that have been copied again. -/
def straying : List OverlayCall :=
  [.shared (.create (Context.blockAt 6 [0])), .shared (.replace 1 0 5),
    .shared (.setWhitespace 7 ⟨" ", ""⟩), .shared (.create (Context.blockAt 7 [6])),
    .shared (.remove 7 6), .shared (.replace 8 3 11)]

theorem canonical_of_runs_straying :
    let o := View.sample.overlayAfter 0 straying
    o.toSealed.records.map (·.edit.ids) = [[1, 0, 5], [2], [2, 1], [4, 3, 11]] ∧
      o.toSealed.created.map (fun c => (c.id, c.node.children, c.after)) =
        [(5, [0], 0), (11, [1], 2)] ∧
      Canonical View.sample o := by
  refine ⟨by decide +kernel, by decide +kernel, ?_⟩
  exact canonical_of_runs (.built Context.finish_strayNodes)
    (View.runs_overlayAfter fun _ _ => trivial)

end Overlay

end TreeEdit
