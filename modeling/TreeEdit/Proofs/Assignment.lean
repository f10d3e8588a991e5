import TreeEdit.Proofs.Agreement
import TreeEdit.Proofs.InPlace
import TreeEdit.Proofs.Recording
import TreeEdit.Proofs.Refinement

/-!
# Edits as assignments

An editor copies the path to the target of every edit and notes the copies in two tables. Seen
through the tables there is one value for each node that is not a copy, `Store.values`: that of its
latest copy, with every child taken back to the node that it goes back to. `Assigns` says what a
request may do to these values. It is an assignment to a single node: the target of an edit gets the
value that the request asks for, and a new node gets the value that it is made with. All other nodes
keep their values, those above the target as well as those that are not part of the tree.
`perform_assigns` says that every editor and every overlay works like that, as long as no generation
reaches a slot twice.
-/

namespace TreeEdit

/-! ### Requests on renamed slots -/

/-- The request with its slots renamed. -/
def Call.mapIds (f : NodeId → NodeId) : Call → Call
  | create n => create (n.mapChildren f)
  | replace parent old new => replace (f parent) (f old) (f new)
  | insert side parent new sibling => insert side (f parent) (f new) (f sibling)
  | remove parent child => remove (f parent) (f child)
  | setWhitespace node whitespace => setWhitespace (f node) whitespace
  | setComments node leading trailing => setComments (f node) leading trailing

theorem Node.children_mapChildren_of_split (n : Node) {left right : List NodeId} {x : NodeId}
    (f : NodeId → NodeId) (place : n.children = left ++ x :: right) :
    (n.mapChildren f).children = left.map f ++ f x :: right.map f := by
  simp [mapChildren, place]

theorem not_mem_map_of_first {ids left right : List NodeId} {f : NodeId → NodeId} {x : NodeId}
    (place : ids = left ++ x :: right) (first : x ∉ left)
    (inj : ∀ a ∈ ids, ∀ b ∈ ids, f a = f b → a = b) : f x ∉ left.map f := by
  intro hmem
  obtain ⟨a, ha, heq⟩ := List.mem_map.1 hmem
  obtain rfl := inj a (by simp [place, ha]) x (by simp [place]) heq
  exact first ha

/-- A request turns renamed values as it turns values, if no two children get one name. -/
theorem Call.Turns.mapIds {call : Call} {n n' : Node} {f : NodeId → NodeId} (h : call.Turns n n')
    (inj : ∀ a ∈ n.children, ∀ b ∈ n.children, f a = f b → a = b) :
    (call.mapIds f).Turns (n.mapChildren f) (n'.mapChildren f) := by
  cases h with
  | @replace _ left right parent old new place first =>
    have hturns := Turns.replace (f parent) (f old) (f new)
      (n.children_mapChildren_of_split f place) (not_mem_map_of_first place first inj)
    simpa [Call.mapIds, Node.mapChildren] using hturns
  | @insertBefore _ left right parent new sibling place first =>
    have hturns := Turns.insertBefore (f parent) (f new) (f sibling)
      (n.children_mapChildren_of_split f place) (not_mem_map_of_first place first inj)
    simpa [Call.mapIds, Node.mapChildren] using hturns
  | @insertAfter _ left right parent new sibling place first =>
    have hturns := Turns.insertAfter (f parent) (f new) (f sibling)
      (n.children_mapChildren_of_split f place) (not_mem_map_of_first place first inj)
    simpa [Call.mapIds, Node.mapChildren] using hturns
  | @remove _ left right parent child place first =>
    have hturns := Turns.remove (f parent) (f child)
      (n.children_mapChildren_of_split f place) (not_mem_map_of_first place first inj)
    simpa [Call.mapIds, Node.mapChildren] using hturns
  | setWhitespace n node whitespace => exact .setWhitespace _ (f node) whitespace
  | setComments n node leading trailing => exact .setComments _ (f node) leading trailing

namespace OverlayCall

/-- The request with its slots renamed. -/
def mapIds (f : NodeId → NodeId) : OverlayCall → OverlayCall
  | shared call => shared (call.mapIds f)
  | insertAt parent index new => insertAt (f parent) index (f new)

/-- The node whose value a request changes. -/
def target? : OverlayCall → Option NodeId
  | shared call => call.target?
  | insertAt parent _ _ => some parent

/-- The value of the target before and after a request. -/
inductive Turns : OverlayCall → Node → Node → Prop
  | shared {call : Call} {n n' : Node} (turns : call.Turns n n') : Turns (.shared call) n n'
  | insertAt {n : Node} {left right : List NodeId} (parent new : NodeId)
      (place : n.children = left ++ right) :
      Turns (.insertAt parent left.length new) n { n with children := left ++ new :: right }

theorem mapIds_mapIds (f g : NodeId → NodeId) (call : OverlayCall) :
    (call.mapIds f).mapIds g = call.mapIds fun x => g (f x) := by
  cases call with
  | insertAt parent index new => rfl
  | shared call =>
    cases call with
    | create n => simp [mapIds, Call.mapIds, Node.mapChildren_mapChildren]
    | replace parent old new => rfl
    | insert side parent new sibling => rfl
    | remove parent child => rfl
    | setWhitespace node whitespace => rfl
    | setComments node leading trailing => rfl

theorem Turns.mapIds {call : OverlayCall} {n n' : Node} {f : NodeId → NodeId} (h : call.Turns n n')
    (inj : ∀ a ∈ n.children, ∀ b ∈ n.children, f a = f b → a = b) :
    (call.mapIds f).Turns (n.mapChildren f) (n'.mapChildren f) := by
  cases h with
  | shared turns => exact .shared (turns.mapIds inj)
  | @insertAt _ left right parent new place =>
    have hplace : (n.mapChildren f).children = left.map f ++ right.map f := by
      simp [Node.mapChildren, place]
    have hturns := Turns.insertAt (f parent) (f new) hplace
    simpa [OverlayCall.mapIds, Node.mapChildren] using hturns

variable {o : Overlay} {call : OverlayCall} {e : Edit} {n : Node}

theorem target?_of_edit? (h : call.edit? o = some e) : call.target? = some e.target := by
  cases call with
  | insertAt parent index new => cases h; rfl
  | shared call =>
    cases call with
    | insert side parent new sibling =>
      simp only [edit?] at h
      split at h
      · cases h
        rfl
      · cases h
    | create n => cases h
    | replace parent old new => cases h; rfl
    | remove parent child => cases h; rfl
    | setWhitespace node whitespace => cases h; rfl
    | setComments node leading trailing => cases h; rfl

/-- An edit that fits revises the latest copy of its target as the request says, with all slots
taken to their latest copies. -/
theorem turns_revise (h : call.edit? o = some e)
    (hn : o.shadow.get? (e.mapIds o.forward.resolve).target = some n)
    (hfits : (e.mapIds o.forward.resolve).Fits n) :
    (call.mapIds o.forward.resolve).Turns n ((e.mapIds o.forward.resolve).revise n) := by
  cases call with
  | insertAt parent index new =>
    cases h
    obtain ⟨left, right, hplace, rfl⟩ :
        ∃ left right, n.children = left ++ right ∧ left.length = index :=
      ⟨_, _, (List.take_append_drop index n.children).symm, List.length_take_of_le hfits⟩
    have hinsert := insertIdx_length_add left right 0 (o.forward.resolve new)
    rw [Nat.add_zero, List.insertIdx_zero, ← hplace] at hinsert
    rw [Edit.mapIds, Edit.revise, Node.insertChild, hinsert]
    exact .insertAt _ _ hplace
  | shared call =>
    refine .shared (Call.turns_revise (s := o.shadow) ?_ hn hfits)
    cases call with
    | insert side parent new sibling =>
      simp only [edit?] at h
      split at h
      · rename_i index hindex
        cases h
        simp only [Call.mapIds, Call.edit?, hindex]
        rfl
      · cases h
    | create n => cases h
    | replace parent old new => cases h; rfl
    | remove parent child => cases h; rfl
    | setWhitespace node whitespace => cases h; rfl
    | setComments node leading trailing => cases h; rfl

end OverlayCall

/-! ### Values of nodes that are no copies -/

theorem Forward.origin_of_original {f : Forward} {x : NodeId} (h : f.origins.get? x = none) :
    f.origin x = x := by
  rw [origin, h]
  rfl

/-- What a slot goes back to is not a copy. -/
theorem Forward.Coherent.origins_origin {f : Forward} {n : Nat} (h : f.Coherent n) (x : NodeId) :
    f.origins.get? (f.origin x) = none :=
  h.descending.origins_of_origin_eq (h.origin_origin x)

namespace Store

variable {s s' : Store} {f : Forward} {root x : NodeId} {e : Edit} {above : List NodeId}
  {current : Node} {r : Rebuilt}

/-- The values of the nodes that are no copies. -/
def values (s : Store) (f : Forward) (x : NodeId) : Option Node :=
  if (f.origins.get? x).isSome then none else s.valueOf f x

theorem values_of_original (h : f.origins.get? x = none) : s.values f x = s.valueOf f x := by
  rw [values, h]
  rfl

theorem values_of_copy {y : NodeId} (h : f.origins.get? x = some y) : s.values f x = none := by
  rw [values, h]
  rfl

theorem valueOf_of_le (hlink : f.links.get? x = none) (hx : s.size ≤ x) : s.valueOf f x = none := by
  rw [valueOf, Forward.resolve_of_current hlink, get?_eq_none_of_size_le hx]
  rfl

theorem values_of_le (hf : f.Coherent s.size) (hx : s.size ≤ x) : s.values f x = none := by
  rw [values_of_original (hf.descending.origins_of_le hx), valueOf_of_le (hf.links_of_le hx) hx]

/-- One more node: its value is assigned, and nothing else changes. -/
theorem values_append (hf : f.Coherent s.size) (n : Node) :
    (s.append [n]).values f =
      Function.update (s.values f) s.size (some (n.mapChildren f.origin)) := by
  funext x
  rcases Nat.lt_trichotomy x s.size with hx | rfl | hx
  · rw [Function.update_of_ne (Nat.ne_of_lt hx)]
    cases ho : f.origins.get? x with
    | some y => rw [values_of_copy ho, values_of_copy ho]
    | none => rw [values_of_original ho, values_of_original ho, valueOf_append hf.ascending _ hx]
  · rw [Function.update_self, values_of_original (hf.descending.origins_of_le (Nat.le_refl _)),
      valueOf_append_size hf]
  · rw [Function.update_of_ne (Nat.ne_of_gt hx), values_of_le hf (Nat.le_of_lt hx)]
    exact values_of_le (hf.mono (by simp)) (by simpa using hx)

namespace Edited

variable (ht : s.Traced f root) (h : Edited s f root e above current s' r) (hs : s.Sound)
include ht h hs

/-- The value of the target before an edit. -/
theorem values_target : s.values f (f.origin e.target) = some (current.mapChildren f.origin) := by
  have hreached := h.reached_of_mem_spine hs List.mem_cons_self
  rw [values_of_original (ht.coherent.origins_origin _), valueOf, ht.coherent.resolve_origin,
    ht.resolve_eq_self hreached, h.get_target]
  rfl

/-- No two children of the target go back to one node. -/
theorem origin_inj_children :
    ∀ a ∈ current.children, ∀ b ∈ current.children, f.origin a = f.origin b → a = b := by
  have hreached : ∀ a ∈ current.children, a ∈ s.preorder root := fun a ha =>
    mem_preorder_of_mem_under (h.reached_of_mem_spine hs List.mem_cons_self)
      ((h.under_target hs).symm ▸ ha)
  exact fun a ha b hb heq => ht.origin_inj (hreached a ha) (hreached b hb) heq

/-- A new slot is a copy, or there is none. -/
theorem values_of_size_le (hx : s.size ≤ x) : s'.values (f.record r) x = none := by
  obtain ⟨i, rfl⟩ := Nat.exists_eq_add_of_le hx
  rcases Nat.lt_or_ge i (e.target :: above).length with hi | hi
  · refine values_of_copy (y := f.origin (e.target :: above)[i]) ?_
    rw [h.record_eq]
    exact Forward.origins_recordSpine_getElem? f _
      (fun a ha => h.lt_size_of_mem_spine hs ha) (List.getElem?_eq_getElem hi)
  · have hnone : (f.record r).origins.get? (s.size + i) = none := by
      rw [h.record_eq, Forward.origins_recordSpine_of_le f (by omega)]
      exact ht.coherent.descending.origins_of_le hx
    rw [values_of_original hnone]
    refine valueOf_of_le ?_ (by rw [h.copied.size_eq]; omega)
    rw [h.record_eq]
    exact ht.coherent.links_recordSpine_of_le (ht.copyable h hs) hx

/-- An edit: its target is assigned the revised value, and nothing else changes. -/
theorem values_eq :
    s'.values (f.record r) =
      Function.update (s.values f) (f.origin e.target)
        (some ((e.revise current).mapChildren f.origin)) := by
  have hrevise : (e.mapIds f.origin).revise (current.mapChildren f.origin) =
      (e.revise current).mapChildren f.origin :=
    Edit.revise_mapChildren fun x hx a ha heq =>
      h.origin_inj_children ht hs a ha x (h.fits.oldChild?_mem hx) heq
  have htarget : f.origin e.target < s.size :=
    Nat.lt_of_le_of_lt (ht.coherent.descending.origin_le _) h.target_lt
  funext x
  rcases Nat.lt_or_ge x s.size with hx | hx
  · have hold : (f.record r).origins.get? x = f.origins.get? x := by
      rw [h.record_eq, Forward.origins_recordSpine_of_lt f hx]
    cases ho : f.origins.get? x with
    | some y =>
      have hne : x ≠ f.origin e.target := by
        rintro rfl
        rw [ht.coherent.origins_origin] at ho
        cases ho
      rw [Function.update_of_ne hne, values_of_copy ho, values_of_copy (hold.trans ho)]
    | none =>
      rw [values_of_original (hold.trans ho), h.valueOf_eq ht hs hx,
        Forward.origin_of_original ho]
      by_cases heq : x = f.origin e.target
      · have hvalue := h.values_target ht hs
        rw [values_of_original (ht.coherent.origins_origin _)] at hvalue
        rw [heq, if_pos rfl, Function.update_self, hvalue, Option.map_some, hrevise]
      · rw [if_neg heq, Function.update_of_ne heq, values_of_original ho]
  · have hne : x ≠ f.origin e.target := fun heq => absurd htarget (Nat.not_lt.2 (heq ▸ hx))
    rw [Function.update_of_ne hne, values_of_le ht.coherent hx, h.values_of_size_le ht hs hx]

end Edited

end Store

/-- What a request may do to the values of nodes, if slots go back to nodes by `f`: nothing if it is
refused, and otherwise one assignment. -/
inductive Assigns (f : NodeId → NodeId) (values : NodeId → Option Node) (call : OverlayCall) :
    Verdict (Option NodeId) → (NodeId → Option Node) → Prop
  | refused (err : Error) : Assigns f values call (.error err) values
  | created {n : Node} {id : NodeId} (asked : call = .shared (.create n))
      (fresh : values id = none) :
      Assigns f values call (.ok (some id)) (Function.update values id (some (n.mapChildren f)))
  | edited {target : NodeId} {n n' : Node} (asked : call.target? = some target)
      (value : values (f target) = some n) (turns : (call.mapIds f).Turns n n') :
      Assigns f values call (.ok none) (Function.update values (f target) (some n'))

/-- An edit leaves alone what its target does not go back to. -/
theorem Assigns.eq_of_ne {f : NodeId → NodeId} {values values' : NodeId → Option Node}
    {call : OverlayCall} {target x : NodeId} (h : Assigns f values call (.ok none) values')
    (asked : call.target? = some target) (hx : x ≠ f target) : values' x = values x := by
  cases h with
  | edited asked' value turns =>
    obtain rfl := Option.some.inj (asked'.symm.trans asked)
    exact Function.update_of_ne hx _ _

/-! ### Editors -/

namespace Context

variable {c : Context}

/-- The values of the nodes that are no copies. -/
def values (c : Context) : NodeId → Option Node :=
  c.store.values c.forward

theorem traced_perform (hs : c.Sound) (ht : c.store.Traced c.forward c.root)
    (once : c.tree.ReachesOnce) (call : Call) :
    (c.perform call).1.store.Traced (c.perform call).1.forward (c.perform call).1.root := by
  have hstep := step_perform c call
  generalize (c.perform call).1 = c', (c.perform call).2 = answer at hstep ⊢
  cases hstep with
  | refused err store root forward limits => rwa [store, root, forward]
  | created n asked checked recent store root forward limits =>
    rw [store, root, forward]
    exact ht.append hs.root _
  | edited asked found done root forward limits =>
    rw [root, forward]
    exact ht.edited done hs.store once

/-- An editor whose generations reach no slot twice. -/
theorem traced_run {t : Tree} (ht : t.Sound) (limits : Limits) (calls : List Call)
    (once : ∀ earlier, earlier <+: calls → ((ofTree t limits).run earlier).tree.ReachesOnce) :
    ((ofTree t limits).run calls).store.Traced ((ofTree t limits).run calls).forward
      ((ofTree t limits).run calls).root := by
  induction calls using List.reverseRecOn with
  | nil => exact Store.traced_empty _ _
  | append_singleton calls call ih =>
    have hbefore := ih fun earlier hle => once earlier (hle.trans (List.prefix_append _ _))
    rw [run_append_singleton]
    exact traced_perform ((Sound.ofTree ht limits).run calls) hbefore
      (once calls (List.prefix_append _ _)) call

/-- The states of the editors of all trees, if no generation on the way has reached a slot twice. -/
def RunsOnce (c : Context) : Prop :=
  ∃ (t : Tree) (limits : Limits) (calls : List Call), Lineage t ∧
    (∀ earlier, earlier <+: calls → ((ofTree t limits).run earlier).tree.ReachesOnce) ∧
    c = (ofTree t limits).run calls

theorem assigns_of_traced (hs : c.Sound) (ht : c.store.Traced c.forward c.root) (call : Call) :
    Assigns c.forward.origin c.values (.shared call) (c.perform call).2
      (c.perform call).1.values := by
  have hstep := step_perform c call
  generalize (c.perform call).1 = c', (c.perform call).2 = answer at hstep ⊢
  cases hstep with
  | refused err store root forward limits =>
    rw [values, values, store, forward]
    exact .refused err
  | created n asked checked recent store root forward limits =>
    rw [values, values, store, forward, Store.values_append ht.coherent]
    exact .created (congrArg _ asked) (Store.values_of_le ht.coherent (Nat.le_refl _))
  | edited asked found done root forward limits =>
    have hturns := (Call.turns_revise asked done.get_target done.fits).mapIds
      (done.origin_inj_children ht hs.store)
    rw [values, values, forward, done.values_eq ht hs.store]
    exact .edited (Call.target?_of_edit? asked) (done.values_target ht hs.store) (.shared hturns)

end Context

/-! ### Overlays -/

namespace Overlay

variable {v : View} {o : Overlay}

/-- The values of the nodes that are no copies. -/
def values (o : Overlay) : NodeId → Option Node :=
  o.shadow.values o.forward

theorem assigns_create (ht : o.shadow.Traced o.forward o.root) (n : Node) :
    Assigns o.forward.origin o.values (.shared (.create n)) ((o.create n).2.map some)
      (o.create n).1.values := by
  rcases o.create_cases n with ⟨err, herr⟩ | ⟨hok, -, -⟩
  · rw [herr]
    exact .refused err
  · rw [hok]
    have horigin : (n.mapChildren o.forward.resolve).mapChildren o.forward.origin =
        n.mapChildren o.forward.origin := by
      rw [Node.mapChildren_mapChildren]
      exact Node.mapChildren_congr fun x _ => ht.coherent.origin_resolve x
    show Assigns _ (o.shadow.values o.forward) _ (.ok (some o.shadow.size))
      ((o.shadow.append _).values o.forward)
    rw [Store.values_append ht.coherent, horigin]
    exact .created rfl (Store.values_of_le ht.coherent (Nat.le_refl _))

theorem assigns_record (hs : o.shadow.Sound) (ht : o.shadow.Traced o.forward o.root)
    {call : OverlayCall} {e : Edit} (asked : call.edit? o = some e) (g : SharedGuard) :
    Assigns o.forward.origin o.values call ((o.record g e).2.2.map fun _ => none)
      (o.record g e).1.values := by
  rcases o.record_cases g e with ⟨guard, err, -, hnext, hanswer⟩ |
    ⟨node, way, value, shadow, r, guard, -, -, hplanned, -, -, hrebuild, hnext, hanswer⟩
  · rw [hnext, hanswer]
    exact .refused err
  · obtain ⟨above, current, -, done⟩ := edited_of_plan hplanned hrebuild
    rw [hnext, hanswer]
    show Assigns _ (o.shadow.values o.forward) _ (.ok none) (shadow.values (o.forward.record r))
    have hturns := (OverlayCall.turns_revise asked done.get_target done.fits).mapIds
      (done.origin_inj_children ht hs)
    have hcall : (call.mapIds o.forward.resolve).mapIds o.forward.origin =
        call.mapIds o.forward.origin := by
      rw [OverlayCall.mapIds_mapIds]
      exact congrArg (call.mapIds ·) (funext ht.coherent.origin_resolve)
    have htarget : o.forward.origin (e.mapIds o.forward.resolve).target =
        o.forward.origin e.target := by
      rw [Edit.target_mapIds, ht.coherent.origin_resolve]
    have hvalue := done.values_target ht hs
    rw [hcall] at hturns
    rw [htarget] at hvalue
    rw [done.values_eq ht hs, htarget]
    exact .edited (OverlayCall.target?_of_edit? asked) hvalue hturns

theorem assigns_of_traced (hs : o.shadow.Sound) (ht : o.shadow.Traced o.forward o.root)
    (g : SharedGuard) (call : OverlayCall) :
    Assigns o.forward.origin o.values call (o.perform g call).2.2 (o.perform g call).1.values := by
  rcases o.perform_cases call with ⟨n, rfl⟩ | ⟨e, asked, hperform⟩ | ⟨err, -, hperform⟩
  · exact assigns_create ht n
  · rw [hperform g]
    exact assigns_record hs ht asked g
  · rw [hperform g]
    exact .refused err

end Overlay

/-- Path copying amounts to editing in place. As long as no generation of an editor or of an overlay
has reached a slot twice, a request that is carried out assigns a value to one node: to the node
that the target of an edit goes back to, the old value with the edit applied to it, or to a new
node, what it is made with. A request that is refused assigns nothing. -/
theorem perform_assigns :
    (∀ (c : Context) (call : Call), c.RunsOnce →
      Assigns c.forward.origin c.values (.shared call) (c.perform call).2
        (c.perform call).1.values) ∧
    ∀ (v : View) (o : Overlay) (g : SharedGuard) (call : OverlayCall), Lineage v.tree →
      v.Runs Overlay.ReachesOnce o →
      Assigns o.forward.origin o.values call (o.perform g call).2.2
        (o.perform g call).1.values := by
  constructor
  · rintro c call ⟨t, limits, calls, ht, once, rfl⟩
    exact Context.assigns_of_traced ((Context.Sound.ofTree ht.sound limits).run calls)
      (Context.traced_run ht.sound limits calls once) call
  · intro v o g call hv runs
    exact Overlay.assigns_of_traced (Overlay.Sound.of_runs hv.sound runs).shadow
      (Overlay.traced_of_runs hv.sound runs) g call

/-- Slot 7, the latest copy of slot 4, lists slot 6. Slot 2 has been taken out. -/
def Context.leaving : Context :=
  (ofTree strayTree .single).run (strayCalls.take 3)

/-- The latest copy of slot 5 lists that of slot 0. Slots 1 and 2 have been taken out, and list
slots that have been copied since. -/
def Overlay.leaving : Overlay :=
  View.sample.overlayAfter 0 View.wrapping

theorem perform_assigns_leaving :
    ((Context.leaving.values 4).map (·.children) = some [6, 3] ∧
      ((Context.leaving.perform (.remove 7 6)).1.values 4).map (·.children) = some [3] ∧
      ∀ x, x ≠ 4 → (Context.leaving.perform (.remove 7 6)).1.values x = Context.leaving.values x) ∧
    (Overlay.leaving.values 5).map (·.children) = some [0] ∧
      ((Overlay.leaving.perform View.sample.shared (.shared (.remove 5 0))).1.values 5).map
        (·.children) = some [] ∧
      ∀ x, x ≠ 5 →
        (Overlay.leaving.perform View.sample.shared (.shared (.remove 5 0))).1.values x =
          Overlay.leaving.values x := by
  have hrun : Context.leaving.RunsOnce := by
    refine ⟨Context.strayTree, .single, Context.strayCalls.take 3,
      .built Context.finish_strayNodes, fun earlier hle => ?_, rfl⟩
    have hall : ∀ part ∈ (Context.strayCalls.take 3).inits,
        ((Context.ofTree Context.strayTree .single).run part).tree.ReachesOnce := by decide +kernel
    exact hall earlier ((List.mem_inits _ _).2 hle)
  have hruns : View.sample.Runs Overlay.ReachesOnce Overlay.leaving :=
    View.runs_overlayAfter (by decide +kernel)
  have hcontext := perform_assigns.1 Context.leaving (.remove 7 6) hrun
  have hoverlay := perform_assigns.2 View.sample Overlay.leaving View.sample.shared
    (.shared (.remove 5 0)) (.built Context.finish_strayNodes) hruns
  have hanswer : (Context.leaving.perform (.remove 7 6)).2 = .ok none := by decide +kernel
  have hanswer' : (Overlay.leaving.perform View.sample.shared (.shared (.remove 5 0))).2.2 =
      .ok none := by decide +kernel
  rw [hanswer] at hcontext
  rw [hanswer'] at hoverlay
  have horigin : Context.leaving.forward.origin 7 = 4 := by decide +kernel
  have horigin' : Overlay.leaving.forward.origin 5 = 5 := by decide +kernel
  refine ⟨⟨by decide +kernel, by decide +kernel, fun x hx => ?_⟩, by decide +kernel,
    by decide +kernel, fun x hx => ?_⟩
  · exact hcontext.eq_of_ne rfl (horigin.symm ▸ hx)
  · exact hoverlay.eq_of_ne rfl (horigin'.symm ▸ hx)

end TreeEdit
