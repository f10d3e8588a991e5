import Mathlib.Logic.Relation
import TreeEdit.Proofs.Detection
import TreeEdit.Proofs.Mirroring

/-!
# What holds of every store

Slots are added by a builder, by an editor, by an overlay, by the copying of a path and by a replay.
A builder, an editor and an overlay check a value before they add it. A copied node differs from its
model in one child, and a replay does not check at all, but renames the children of a value that an
overlay has checked. A value is valid or not by its attributes and the number of its children, so
all of them only add valid values: `Store.Valid` is kept by every step and holds of all trees that
can come about.

`Store.Arises` are the stores that can come about, and `Store.wellFormed_of_arises` puts together
what is known of them. No walk along children or along links runs in a circle, in whatever
generation.
-/

namespace TreeEdit

/-! ### Valid values -/

theorem Node.validate_setChild (n : Node) (i : Nat) (c : NodeId) :
    (n.setChild i c).validate = n.validate := by
  simp [validate, setChild]

namespace Store

variable {s s' : Store} {n : Node}

/-- Every slot holds a valid value. -/
def Valid (s : Store) : Prop :=
  ∀ id n, s.get? id = some n → n.validate = .ok ()

namespace Valid

theorem empty : Store.empty.Valid := by
  intro id n h
  rw [get?_eq_none_of_size_le (by simp [Store.empty, size, Layer.stop])] at h
  cases h

theorem layer (h : s.Valid) : s.layer.Valid := fun id n hn => h id n (by simpa using hn)

theorem append_singleton (h : s.Valid) (hn : n.validate = .ok ()) : (s.append [n]).Valid := by
  intro id m hm
  rcases get?_append_eq_some [n] hm with hold | ⟨k, rfl, hk⟩
  · exact h id m hold
  · obtain rfl : n = m := by
      rw [List.getElem?_singleton] at hk
      split at hk
      · exact Option.some.inj hk
      · cases hk
    exact hn

theorem alloc (h : s.Valid) (n : Node) : (s.alloc n).1.Valid := by
  rcases alloc_cases s n with ⟨err, herr⟩ | ⟨hok, hcheck, -⟩
  · rwa [herr]
  · rw [hok]
    exact h.append_singleton ((check_eq_ok_iff s n).1 hcheck).1

theorem build (nodes : List Node) : (Store.build nodes).Valid :=
  build_induction empty (fun _ n hs => hs.alloc n) nodes

/-- The target of an edit gets a checked value, and a copy is as valid as its model. -/
theorem edited {f : Forward} {root : NodeId} {e : Edit} {above : List NodeId} {current : Node}
    {r : Rebuilt} (h : s.Valid) (done : Edited s f root e above current s' r) : s'.Valid := by
  intro id n hn
  rcases done.slot_cases (lt_size_of_get? hn) with hlt | ⟨i, a, ha, rfl⟩
  · rw [done.copied.old id hlt] at hn
    exact h id n hn
  · cases i with
    | zero =>
      rw [Nat.add_zero, done.copied.bottom, Option.some.injEq] at hn
      rw [← hn]
      exact ((check_eq_ok_iff s _).1 done.checked).1
    | succ i =>
      have hp := List.getElem?_eq_getElem (Nat.lt_of_succ_lt (List.getElem?_eq_some_iff.1 ha).1)
      obtain ⟨m, hm, -, hget⟩ := done.copied.above i _ a hp ha
      rw [hget, Option.some.injEq] at hn
      rw [← hn, Node.validate_setChild]
      exact h a m hm

end Valid

theorem valid_finish {nodes : List Node} {root : NodeId} {t : Tree}
    (h : (build nodes).finish root = .ok t) : t.store.Valid := by
  obtain ⟨-, -, -, links, hstore, -⟩ := finish_eq_ok h
  rw [hstore]
  exact Valid.build nodes

end Store

/-! ### Editors -/

theorem Context.valid_run {c : Context} (h : c.store.Valid) (calls : List Call) :
    (c.run calls).store.Valid := by
  refine run_induction (P := fun c => c.store.Valid) (fun c call hc => ?_) h calls
  have hstep := step_perform c call
  generalize c.perform call = out at hstep ⊢
  obtain ⟨c', answer⟩ := out
  dsimp only at hstep ⊢
  cases hstep with
  | refused err store root forward limits => rwa [store]
  | created n asked checked recent store root forward limits =>
    rw [store]
    exact hc.append_singleton ((Store.check_eq_ok_iff _ n).1 checked).1
  | edited asked found done root forward limits => exact hc.edited done

/-! ### Overlays -/

namespace Overlay

variable {v : View} {o o' : Overlay} {g : SharedGuard}

/-- The shadow holds valid values, and the log has made valid nodes. -/
structure Valid (o : Overlay) : Prop where
  shadow : o.shadow.Valid
  created : ∀ c ∈ o.created, c.node.validate = .ok ()

theorem Valid.step (h : o.Valid) (hstep : Step o g o') : o'.Valid := by
  cases hstep with
  | refused guard limits => exact ⟨h.shadow, h.created⟩
  | created n checked room =>
    have hn := ((Store.check_eq_ok_iff _ _).1 checked).1
    refine ⟨h.shadow.append_singleton hn, fun c hc => ?_⟩
    rcases List.mem_append.1 hc with hc | hc
    · exact h.created c hc
    · -- the log names the origins of the children, where the shadow lists their latest copies
      rw [List.mem_singleton.1 hc, Node.validate_mapChildren]
      rwa [Node.validate_mapChildren] at hn
  | recorded guard limits get_target planned depth rebuilt =>
    obtain ⟨above, current, -, done⟩ := edited_of_plan planned rebuilt
    exact ⟨h.shadow.edited done, h.created⟩

theorem valid_of_runs {P : Overlay → Prop} (hv : v.tree.store.Valid) (h : v.Runs P o) : o.Valid :=
  h.induction (fun _ _ _ => ⟨hv.layer, fun c hc => by cases hc⟩)
    fun _ _ _ _ _ ho hstep => ho.step hstep

end Overlay

/-! ### Replays -/

namespace Replay

variable {r r' : Replay} {c : Created} {most : Nat}

theorem valid_step {ev : Event} (h : r.store.Valid)
    (hev : ∀ c, ev = .bring c → c.node.validate = .ok ()) (hstep : r.step most ev = .ok r') :
    r'.store.Valid := by
  cases ev with
  | enter =>
    cases hstep
    exact h
  | bring c =>
    obtain ⟨-, rfl⟩ := importNode_eq_ok hstep
    refine h.append_singleton ?_
    rw [Node.validate_mapChildren]
    exact hev c rfl
  | redo record =>
    obtain ⟨above, current, store, rebuilt, done, rfl⟩ := applyRecord_eq_ok hstep
    exact h.edited done

theorem valid_foldlM {es : List Event} (h : r.store.Valid)
    (hes : ∀ c, .bring c ∈ es → c.node.validate = .ok ())
    (hfold : es.foldlM (step most) r = .ok r') : r'.store.Valid := by
  induction es generalizing r with
  | nil =>
    cases hfold
    exact h
  | cons ev es ih =>
    obtain ⟨r₁, hstep, hrest⟩ := Verdict.bind_eq_ok_iff.1 hfold
    have hfirst := valid_step h (fun c hc => hes c (hc ▸ List.mem_cons_self)) hstep
    exact ih hfirst (fun c hc => hes c (List.mem_cons_of_mem _ hc)) hrest

end Replay

theorem View.valid_merge {v : View} {os : List Overlay} {outcome : MergeOutcome}
    (hv : v.tree.store.Valid) (hos : ∀ o ∈ os, o.Valid)
    (h : v.merge (os.map Overlay.toSealed) = .ok outcome) : outcome.tree.store.Valid := by
  obtain ⟨-, r, hreplay, htree⟩ := View.merge_eq_ok h
  rw [View.replay_eq_script] at hreplay
  rw [htree]
  refine Replay.valid_foldlM (r := v.replayStart) hv.layer (fun c hc => ?_) hreplay
  obtain ⟨log, hlog, hc⟩ := List.mem_flatMap.1 hc
  obtain ⟨o, ho, rfl⟩ := List.mem_map.1 (View.mem_inWorkerOrder.1 hlog)
  exact (hos o ho).created c (Sealed.mem_created_of_bring hc)

theorem Lineage.valid {t : Tree} (h : Lineage t) : t.store.Valid := by
  induction h with
  | built h => exact Store.valid_finish h
  | edited limits calls h ih => exact Context.valid_run ih.layer calls
  | merged h runs merge ih =>
    exact View.valid_merge ih (fun o ho => Overlay.valid_of_runs ih (runs o ho)) merge

/-! ### Stores that can come about -/

namespace Store

/-- The stores that can come about: of a builder, of a tree, and of an overlay. The store of an
editor is that of its current tree, whatever the answers to its requests were. -/
inductive Arises : Store → Prop
  | building (nodes : List Node) : Arises (build nodes)
  | tree {t : Tree} (h : Lineage t) : Arises t.store
  | recording {v : View} {o : Overlay} (h : Lineage v.tree) (runs : v.Runs (fun _ => True) o) :
      Arises o.shadow

/-- The second slot is a child of the first. -/
def Lists (s : Store) (p c : NodeId) : Prop :=
  ∃ n, s.get? p = some n ∧ c ∈ n.children

/-- Every slot holds a valid value and lists earlier slots, which exist; no slot is below itself;
and a link leads to a slot that lists the node. Nothing is said of generations: it holds of nodes
that have been taken out or copied as well. -/
structure WellFormed (s : Store) : Prop where
  filled : ∀ id, (∃ n, s.get? id = some n) ↔ id < s.size
  valid : ∀ id n, s.get? id = some n → n.validate = .ok ()
  earlier : ∀ p c, s.Lists p c → c < p ∧ ∃ n, s.get? c = some n
  acyclic : ∀ id, ¬Relation.TransGen s.Lists id id
  linked : ∀ c p, s.parent? c = some p → s.Lists p c

theorem Sound.lt_of_lists {s : Store} {p c : NodeId} (hs : s.Sound) (h : s.Lists p c) : c < p := by
  obtain ⟨n, hn, hc⟩ := h
  exact hs.earlier p n hn c hc

theorem Sound.wellFormed {s : Store} (hs : s.Sound) (hvalid : s.Valid) : s.WellFormed where
  filled id := ⟨fun ⟨_, hn⟩ => lt_size_of_get? hn, hs.full id⟩
  valid := hvalid
  earlier p c h := by
    have hlt := hs.lt_of_lists h
    obtain ⟨n, hn, -⟩ := h
    exact ⟨hlt, hs.full c (Nat.lt_trans hlt (lt_size_of_get? hn))⟩
  acyclic id h := by
    -- going down a chain of children the slots only get smaller
    have hlt : ∀ x, Relation.TransGen s.Lists id x → x < id := by
      intro x hx
      induction hx with
      | single h => exact hs.lt_of_lists h
      | tail _ h ih => exact Nat.lt_trans (hs.lt_of_lists h) ih
    exact Nat.lt_irrefl id (hlt id h)
  linked c p h := by
    have hlisted := hs.listed c p h
    obtain ⟨n, hn⟩ := hs.full p (lt_size_of_mem_under hlisted)
    exact ⟨n, hn, by rwa [hs.under_eq hn] at hlisted⟩

/-- Whatever is built, edited, recorded and merged, in whatever order and with whatever refusals,
the stores on the way are well formed. -/
theorem wellFormed_of_arises {s : Store} (h : Arises s) : s.WellFormed := by
  cases h with
  | building nodes => exact (sound_build nodes).wellFormed (.build nodes)
  | tree h => exact h.sound.store.wellFormed h.valid
  | recording h runs =>
    exact (Overlay.Sound.of_runs h.sound runs).shadow.wellFormed
      (Overlay.valid_of_runs h.valid runs).shadow

/-- A merged tree, edited on. Slot 5 was made by a worker, and its copy came in without a check. -/
theorem wellFormed_of_arises_merged :
    ∃ outcome, View.sample.merge [(View.sample.overlayAfter 0 View.wrapping).toSealed] =
        .ok outcome ∧
      ((Context.ofTree outcome.tree).run [.remove 15 3]).store.WellFormed := by
  have hbuilt : Lineage View.sample.tree := .built Context.finish_strayNodes
  have hruns : ∀ o ∈ [View.sample.overlayAfter 0 View.wrapping],
      View.sample.Runs (fun _ => True) o :=
    List.forall_mem_singleton.2 (View.runs_overlayAfter fun _ _ => trivial)
  have hok : ((Replay.events 0 (View.sample.overlayAfter 0 View.wrapping).created
      (View.sample.overlayAfter 0 View.wrapping).records).foldlM
        (Replay.step View.sample.shared.limits.maxDepth) View.sample.replayStart).isOk = true := by
    decide +kernel
  obtain ⟨r, hreplay⟩ : ∃ r, View.sample.replay
      [(View.sample.overlayAfter 0 View.wrapping).toSealed] = .ok r := by
    rw [View.replay_singleton]
    exact Verdict.exists_eq_ok hok
  obtain ⟨outcome, hmerge, -⟩ := View.exists_merge hbuilt.sound hruns (by decide +kernel) hreplay
  have hmerged : Lineage outcome.tree := .merged hbuilt hruns hmerge
  exact ⟨outcome, hmerge, wellFormed_of_arises (.tree (.edited .single [.remove 15 3] hmerged))⟩

end Store

end TreeEdit
