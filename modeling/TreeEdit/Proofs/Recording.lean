import TreeEdit.Overlay.View
import TreeEdit.Proofs.Editing

/-!
# What a request does to an overlay

`Overlay.Step` lists the outcomes of a request to an overlay: it is refused and only the counts of
the worker's guard may change, a node is made, or an edit is carried out on the shadow and recorded.
`View.Runs` are the overlays that come from a view by requests, with a condition on every state on
the way. Whatever the requests, a log only names slots of the view and slots of nodes that the log
has made before; this is part of `Overlay.Sound`.
-/

namespace TreeEdit

/-! ### Slots that an edit names -/

namespace Edit

/-- The slots that an edit names. -/
def ids : Edit → List NodeId
  | replace parent old new => [parent, old, new]
  | insert parent _ new => [parent, new]
  | remove parent child => [parent, child]
  | setWhitespace node _ => [node]
  | setComments node _ _ => [node]

theorem target_mem_ids (e : Edit) : e.target ∈ e.ids := by
  cases e <;> simp [ids, target]

@[simp] theorem ids_mapIds (f : NodeId → NodeId) (e : Edit) : (e.mapIds f).ids = e.ids.map f := by
  cases e <;> rfl

theorem mapIds_mapIds (f g : NodeId → NodeId) (e : Edit) :
    (e.mapIds f).mapIds g = e.mapIds fun x => g (f x) := by
  cases e <;> rfl

theorem mapIds_congr {f g : NodeId → NodeId} {e : Edit} (h : ∀ x ∈ e.ids, f x = g x) :
    e.mapIds f = e.mapIds g := by
  cases e <;> simp_all [ids, mapIds]

end Edit

/-- The slots that an edit names exist when it has been carried out. -/
theorem Store.Edited.lt_size_of_mem_ids {s s' : Store} {f : Forward} {root x : NodeId} {e : Edit}
    {above : List NodeId} {current : Node} {r : Rebuilt}
    (h : Edited s f root e above current s' r) (hs : s.Sound) (hx : x ∈ e.ids) : x < s.size := by
  have htarget := h.target_lt
  have hchild : ∀ c ∈ current.children, c < s.size := fun c hc =>
    Nat.lt_trans (hs.earlier _ _ h.get_target c hc) htarget
  have hfits := h.fits
  have hnew : ∀ y, e.entering? = some y → y < s.size := fun y hy =>
    h.lt_size_of_entering hy (mem_preorder_self s y)
  cases e with
  | replace parent old new =>
    simp only [Edit.ids, List.mem_cons, List.not_mem_nil, or_false] at hx
    rcases hx with rfl | rfl | rfl
    · exact htarget
    · exact hchild x hfits
    · by_cases hsame : x = old
      · exact hchild x (hsame ▸ hfits)
      · exact hnew x (by simp [Edit.entering?, hsame])
  | insert parent index new =>
    simp only [Edit.ids, List.mem_cons, List.not_mem_nil, or_false] at hx
    rcases hx with rfl | rfl
    · exact htarget
    · exact hnew x rfl
  | remove parent child =>
    simp only [Edit.ids, List.mem_cons, List.not_mem_nil, or_false] at hx
    rcases hx with rfl | rfl
    · exact htarget
    · exact hchild x hfits
  | setWhitespace node whitespace => rwa [List.mem_singleton.1 hx]
  | setComments node leading trailing => rwa [List.mem_singleton.1 hx]

/-! ### One request -/

/-- The edit that a request asks for. A sibling is looked up in the shadow, by the latest copies. -/
def OverlayCall.edit? (o : Overlay) : OverlayCall → Option Edit
  | .shared (.insert side parent new sibling) =>
    match o.shadow.siblingIndex (o.forward.resolve parent) (o.forward.resolve sibling)
        side.offset with
    | .ok index => some (.insert parent index new)
    | .error _ => none
  | .shared call => call.edit? o.shadow
  | .insertAt parent index new => some (.insert parent index new)

namespace Overlay

variable {v : View} {o o' : Overlay} {g : SharedGuard} {call : OverlayCall} {e : Edit}

/-- The outcomes of a request. -/
inductive Step (o : Overlay) (g : SharedGuard) : Overlay → Prop
  | refused (guard : Guard) (limits : guard.limits = o.guard.limits) : Step o g { o with guard }
  | created (n : Node)
      (checked : o.shadow.check (n.mapChildren o.forward.resolve) = .ok ())
      (room : o.shadow.checkRoom 1 = .ok ()) :
      Step o g
        { o with
          shadow := o.shadow.append [n.mapChildren o.forward.resolve]
          created := o.created ++
            [⟨o.shadow.size, n.mapChildren o.forward.origin, o.recordCount⟩] }
  | recorded {e : Edit} {node value : Node} {way : Path} {shadow : Store} {r : Rebuilt}
      (guard : Guard) (limits : guard.limits = o.guard.limits)
      (get_target : o.shadow.get? (o.forward.resolve e.target) = some node)
      (planned : o.shadow.plan o.forward o.guard.limits.maxDepth o.root
        (e.mapIds o.forward.resolve) = .ok (way, value))
      (depth : way.length ≤ g.limits.maxDepth)
      (rebuilt : o.shadow.rebuild way value = (shadow, .ok r))
      (inside : o.checkBlock node.stableId way = .ok ()) :
      Step o g { o.commit node.stableId e shadow r with guard }

/-- A node is refused and nothing changes, or it is put at the end of the shadow and of the log. -/
theorem create_cases (o : Overlay) (n : Node) :
    (∃ err, o.create n = (o, .error err)) ∨
      o.create n =
        ({ o with
           shadow := o.shadow.append [n.mapChildren o.forward.resolve]
           created := o.created ++
             [⟨o.shadow.size, n.mapChildren o.forward.origin, o.recordCount⟩] },
          .ok o.shadow.size) ∧
        o.shadow.check (n.mapChildren o.forward.resolve) = .ok () ∧
        o.shadow.checkRoom 1 = .ok () := by
  unfold create
  rcases o.shadow.alloc_cases (n.mapChildren o.forward.resolve) with
    ⟨err, herr⟩ | ⟨hok, hcheck, hroom⟩
  · rw [herr]
    exact Or.inl ⟨err, rfl⟩
  · rw [hok]
    exact Or.inr ⟨rfl, hcheck, hroom⟩

theorem step_create (o : Overlay) (g : SharedGuard) (n : Node) : Step o g (o.create n).1 := by
  rcases o.create_cases n with ⟨err, herr⟩ | ⟨hok, hcheck, hroom⟩
  · rw [herr]
    exact .refused o.guard rfl
  · rw [hok]
    exact .created n hcheck hroom

/-- An edit that the guards have let pass is refused and changes nothing, or it is recorded. -/
theorem carryOut_cases (o : Overlay) (target : StableId) (e : Edit) (way : Path) (value : Node) :
    (∃ err, o.shadow.rebuild way value = (o.shadow, .error err) ∧
      o.carryOut target e way value = (o, .error err)) ∨
    ∃ shadow r, o.shadow.rebuild way value = (shadow, .ok r) ∧
      o.carryOut target e way value = (o.commit target e shadow r, .ok ()) := by
  rcases o.shadow.rebuild_cases way value with ⟨err, herr⟩ | ⟨shadow, r, hok⟩
  · exact Or.inl ⟨err, herr, by rw [carryOut, herr]⟩
  · exact Or.inr ⟨shadow, r, hok, by rw [carryOut, hok]⟩

/-- A planned edit is refused and leaves the overlay as it was, or it is recorded. -/
theorem settle_cases (o : Overlay) (g : SharedGuard) (target : StableId) (e : Edit) (way : Path)
    (value : Node) :
    (∃ g' err, o.settle g target e way value = (o, g', .error err)) ∨
    ∃ shadow r g', way.length ≤ g.limits.maxDepth ∧
      o.shadow.rebuild way value = (shadow, .ok r) ∧
      o.settle g target e way value = (o.commit target e shadow r, g', .ok ()) := by
  unfold settle SharedGuard.admitDepth
  by_cases hdepth : way.length > g.limits.maxDepth
  · rw [if_pos hdepth]
    exact Or.inl ⟨_, _, rfl⟩
  · rw [if_neg hdepth]
    dsimp only
    split
    · exact Or.inl ⟨_, _, rfl⟩
    · rename_i reserved _
      rcases o.carryOut_cases target e way value with ⟨err, -, hcarry⟩ |
        ⟨shadow, r, hrebuild, hcarry⟩
      · exact Or.inl ⟨reserved, err, by rw [hcarry]⟩
      · exact Or.inr ⟨shadow, r, reserved, Nat.not_lt.1 hdepth, hrebuild, by rw [hcarry]⟩

/-- What an edit comes to: it is refused and only the worker's guard may change, or it is planned
inside the block, and the shadow rebuilt. -/
theorem record_cases (o : Overlay) (g : SharedGuard) (e : Edit) :
    (∃ guard err, guard.limits = o.guard.limits ∧ (o.record g e).1 = { o with guard } ∧
      (o.record g e).2.2 = .error err) ∨
    ∃ node way value shadow r guard, guard.limits = o.guard.limits ∧
      o.shadow.get? (o.forward.resolve e.target) = some node ∧
      o.shadow.plan o.forward o.guard.limits.maxDepth o.root (e.mapIds o.forward.resolve) =
        .ok (way, value) ∧
      o.checkBlock node.stableId way = .ok () ∧
      way.length ≤ g.limits.maxDepth ∧ o.shadow.rebuild way value = (shadow, .ok r) ∧
      (o.record g e).1 = { o.commit node.stableId e shadow r with guard } ∧
      (o.record g e).2.2 = .ok () := by
  unfold record
  dsimp only
  cases hnode : o.shadow.node (e.mapIds o.forward.resolve).target with
  | error err => exact Or.inl ⟨o.guard, err, rfl, rfl, rfl⟩
  | ok node =>
    dsimp only
    cases henter : o.guard.enter (some node.stableId) with
    | error err => exact Or.inl ⟨o.guard, err, rfl, rfl, rfl⟩
    | ok guard =>
      -- the plan is made by the guard after it was entered, which has the same limits
      have hlimits : guard.limits = o.guard.limits := Guard.limits_of_enter henter
      dsimp only
      cases guard.checkBudget (some node.stableId) with
      | error err => exact Or.inl ⟨guard.leave, err, hlimits, rfl, rfl⟩
      | ok u =>
        dsimp only
        cases hplan : ({ o with guard } : Overlay).plan node.stableId
            (e.mapIds o.forward.resolve) with
        | error err => exact Or.inl ⟨guard.leave, err, hlimits, rfl, rfl⟩
        | ok out =>
          obtain ⟨way, value⟩ := out
          dsimp only
          rcases ({ o with guard } : Overlay).settle_cases g node.stableId e way value with
            ⟨g', err, hsettle⟩ | ⟨shadow, r, g', hdepth, hrebuild, hsettle⟩
          · rw [hsettle]
            exact Or.inl ⟨guard.leave, err, hlimits, rfl, rfl⟩
          · obtain ⟨⟨way', value'⟩, hplanned, hrest⟩ := Verdict.bind_eq_ok_iff.1 hplan
            obtain ⟨u', hblock, hout⟩ := Verdict.bind_eq_ok_iff.1 hrest
            cases hout
            rw [Edit.target_mapIds, Store.node_eq_ok_iff] at hnode
            dsimp only at hplanned hrebuild
            rw [hlimits] at hplanned
            rw [hsettle]
            exact Or.inr ⟨node, way, value, shadow, r, guard.commit.leave, hlimits, hnode,
              hplanned, hblock, hdepth, hrebuild, rfl, rfl⟩

theorem step_record (o : Overlay) (g : SharedGuard) (e : Edit) : Step o g (o.record g e).1 := by
  rcases o.record_cases g e with ⟨guard, err, hlimits, hnext, -⟩ |
    ⟨node, way, value, shadow, r, guard, hlimits, hnode, hplanned, hblock, hdepth, hrebuild, hnext,
      -⟩
  · rw [hnext]
    exact .refused guard hlimits
  · rw [hnext]
    exact .recorded guard hlimits hnode hplanned hdepth hrebuild hblock

/-- A request makes a node, records the edit that it asks for, or names a sibling that is none and
is refused at once. -/
theorem perform_cases (o : Overlay) (call : OverlayCall) :
    (∃ n, call = .shared (.create n)) ∨
      (∃ e, call.edit? o = some e ∧ ∀ g, o.perform g call = unitAnswer (o.record g e)) ∨
      ∃ err, call.edit? o = none ∧ ∀ g, o.perform g call = (o, g, .error err) := by
  cases call with
  | insertAt parent index new => exact Or.inr (Or.inl ⟨_, rfl, fun _ => rfl⟩)
  | shared call =>
    cases call with
    | create n => exact Or.inl ⟨n, rfl⟩
    | replace parent old new => exact Or.inr (Or.inl ⟨_, rfl, fun _ => rfl⟩)
    | remove parent child => exact Or.inr (Or.inl ⟨_, rfl, fun _ => rfl⟩)
    | setWhitespace node whitespace => exact Or.inr (Or.inl ⟨_, rfl, fun _ => rfl⟩)
    | setComments node leading trailing => exact Or.inr (Or.inl ⟨_, rfl, fun _ => rfl⟩)
    | insert side parent new sibling =>
      simp only [perform, unitAnswer, insert, OverlayCall.edit?]
      cases o.shadow.siblingIndex (o.forward.resolve parent) (o.forward.resolve sibling)
          side.offset with
      | error err => exact Or.inr (Or.inr ⟨err, rfl, fun _ => rfl⟩)
      | ok index => exact Or.inr (Or.inl ⟨_, rfl, fun _ => rfl⟩)

theorem perform_of_edit? (h : call.edit? o = some e) (g : SharedGuard) :
    o.perform g call = unitAnswer (o.record g e) := by
  rcases o.perform_cases call with ⟨n, rfl⟩ | ⟨e', he', hperform⟩ | ⟨err, hnone, -⟩
  · cases h
  · rw [h] at he'
    cases he'
    exact hperform g
  · rw [h] at hnone
    cases hnone

/-- A request has one of the outcomes. -/
theorem step_perform (o : Overlay) (g : SharedGuard) (call : OverlayCall) :
    Step o g (o.perform g call).1 := by
  rcases o.perform_cases call with ⟨n, rfl⟩ | ⟨e, -, he⟩ | ⟨err, -, herr⟩
  · exact step_create o g n
  · rw [he]
    exact step_record o g e
  · rw [herr]
    exact .refused o.guard rfl

end Overlay

/-! ### Runs -/

/-- The overlays that come from a view by requests. The guard that all overlays share may be in any
state at each request; the condition holds of every state on the way. -/
inductive View.Runs (v : View) (P : Overlay → Prop) : Overlay → Prop
  | issue (worker : WorkerId) (block : Option NodeId)
      (accepted : ∀ b, block = some b → v.checkBlock b = .ok ())
      (here : P { v.newOverlay block with worker }) : Runs v P { v.newOverlay block with worker }
  | call {o : Overlay} (g : SharedGuard) (limits : g.limits = v.shared.limits)
      (request : OverlayCall) (before : Runs v P o) (here : P (o.perform g request).1) :
      Runs v P (o.perform g request).1

namespace View.Runs

variable {v : View} {P : Overlay → Prop} {o : Overlay}

theorem here (h : v.Runs P o) : P o := by
  cases h with
  | issue worker block accepted here => exact here
  | call g limits request before here => exact here

/-- What a view issues and every outcome of a request keeps holds of all overlays of the view. -/
theorem induction {I : Overlay → Prop} (h : v.Runs P o)
    (issue : ∀ worker block, P { v.newOverlay block with worker } →
      I { v.newOverlay block with worker })
    (step : ∀ o o' g, g.limits = v.shared.limits → v.Runs P o → I o → Overlay.Step o g o' → I o') :
    I o := by
  induction h with
  | issue worker block accepted here => exact issue worker block here
  | @call o g limits request before here ih =>
    exact step _ _ g limits before ih (o.step_perform g request)

theorem mono {Q : Overlay → Prop} (h : v.Runs P o) (hPQ : ∀ o, P o → Q o) : v.Runs Q o := by
  induction h with
  | issue worker block accepted here => exact .issue worker block accepted (hPQ _ here)
  | call g limits request _ here ih => exact .call g limits request ih (hPQ _ here)

end View.Runs

/-- Carry out requests in order, whatever their answers, with the shared guard as it is. -/
def Overlay.run (o : Overlay) (g : SharedGuard) (calls : List OverlayCall) : Overlay :=
  calls.foldl (fun o call => (o.perform g call).1) o

theorem View.Runs.run {v : View} {P : Overlay → Prop} {o : Overlay} {g : SharedGuard}
    (limits : g.limits = v.shared.limits) (h : v.Runs P o) (calls : List OverlayCall)
    (here : ∀ part, part <+: calls → P (o.run g part)) : v.Runs P (o.run g calls) := by
  induction calls generalizing o with
  | nil => exact h
  | cons call calls ih =>
    refine ih (.call g limits call h (here [call] (by simp))) fun part hpart => ?_
    exact here (call :: part) (List.cons_prefix_cons.2 ⟨rfl, hpart⟩)

/-! ### Sound overlays -/

/-- A slot of the view, or of a node that a log has made. -/
def Named (base : Nat) (created : List Created) (id : NodeId) : Prop :=
  id < base ∨ ∃ c ∈ created, c.id = id

theorem Named.mono {base : Nat} {created more : List Created} {id : NodeId}
    (h : Named base created id) (hsub : created ⊆ more) : Named base more id :=
  h.imp_right fun ⟨c, hc, hid⟩ => ⟨c, hsub hc, hid⟩

/-- The children of a node that a log makes are named before it. -/
def CreatedInOrder (base : Nat) (created : List Created) : Prop :=
  ∀ before c, before ++ [c] <+: created → ∀ x ∈ c.node.children, Named base before x

theorem CreatedInOrder.append_singleton {base : Nat} {created : List Created} {c : Created}
    (h : CreatedInOrder base created) (hc : ∀ x ∈ c.node.children, Named base created x) :
    CreatedInOrder base (created ++ [c]) := by
  intro before d hle
  rcases List.prefix_concat_iff.1 hle with heq | hle
  · obtain ⟨rfl, hd⟩ := List.append_inj' heq rfl
    cases hd
    exact hc
  · exact h before d hle

namespace Overlay

/-- What holds of every overlay of a view. -/
structure Sound (v : View) (o : Overlay) : Prop where
  of_view : o.viewId = v.id
  shadow : o.shadow.Sound
  root : o.root < o.shadow.size
  base : v.tree.store.size ≤ o.shadow.size
  ascending : o.forward.Ascending o.shadow.size
  named : ∀ x, x < o.shadow.size → Named v.tree.store.size o.created (o.forward.origin x)
  original : ∀ x, Named v.tree.store.size o.created x → o.forward.origin x = x
  inOrder : CreatedInOrder v.tree.store.size o.created
  ids : ∀ c ∈ o.created, v.tree.store.size ≤ c.id ∧ c.id < o.shadow.size
  distinct : (o.created.map (·.id)).Nodup
  after : ∀ c ∈ o.created, c.after ≤ o.recordCount
  sorted : o.created.Pairwise (·.after ≤ ·.after)
  fresh : ∀ x, o.shadow.size ≤ x → o.forward.origins.get? x = none
  own : ∀ r ∈ o.records, r.worker = o.worker
  recorded : ∀ k r, o.records[k]? = some r → ∀ x ∈ r.edit.ids,
    Named v.tree.store.size (o.created.filter (·.after ≤ k)) x

variable {v : View} {o o' : Overlay} {g : SharedGuard} {n : Node}

theorem Sound.newOverlay (hv : v.tree.Sound) (worker : WorkerId) (block : Option NodeId) :
    Sound v { v.newOverlay block with worker } where
  of_view := rfl
  shadow := hv.store.layer
  root := by simpa [View.newOverlay] using hv.root
  base := by simp [View.newOverlay]
  ascending x y h := by simp [View.newOverlay, Table.get?] at h
  named x hx := Or.inl (by simpa [View.newOverlay, Forward.origin, Table.get?] using hx)
  original _ _ := rfl
  inOrder before c hle := by simp [View.newOverlay] at hle
  ids c hc := by simp [View.newOverlay] at hc
  distinct := by simp [View.newOverlay]
  after c hc := by simp [View.newOverlay] at hc
  sorted := by simp [View.newOverlay]
  fresh x _ := by simp [View.newOverlay, Table.get?]
  own r hr := by simp [View.newOverlay, records] at hr
  recorded k r hr := by simp [View.newOverlay, records] at hr

theorem Sound.lt_size_of_named (h : Sound v o) {x : NodeId}
    (hx : Named v.tree.store.size o.created x) : x < o.shadow.size := by
  rcases hx with hlt | ⟨c, hc, rfl⟩
  · exact Nat.lt_of_lt_of_le hlt h.base
  · exact (h.ids c hc).2

/-- What a recorded edit does to the shadow. -/
theorem edited_of_plan {s s' : Store} {f : Forward} {most : Nat} {root : NodeId} {e : Edit}
    {way : Path} {value : Node} {r : Rebuilt} (hplan : s.plan f most root e = .ok (way, value))
    (hrebuild : s.rebuild way value = (s', .ok r)) :
    ∃ above current, way = ⟨e.target, above⟩ ∧ Store.Edited s f root e above current s' r := by
  have happly : s.applyEdit f most root e = (s', .ok r) :=
    (Store.applyEdit_of_plan hplan).trans hrebuild
  obtain ⟨above, current, hpath, hedited⟩ := Store.applyEdit_eq_ok happly
  have hway := (Store.plan_eq_ok_iff.1 hplan).1
  exact ⟨above, current, Except.ok.inj (hway.symm.trans hpath), hedited⟩

/-- The slots that a recorded edit was asked for with exist. -/
theorem Sound.lt_size_of_mem_ids (h : Sound v o) {e : Edit} {above : List NodeId} {current : Node}
    {shadow : Store} {r : Rebuilt}
    (hedited : Store.Edited o.shadow o.forward o.root (e.mapIds o.forward.resolve) above current
      shadow r) {x : NodeId} (hx : x ∈ e.ids) : x < o.shadow.size := by
  have hlt := hedited.lt_size_of_mem_ids h.shadow
    (by rw [Edit.ids_mapIds]; exact List.mem_map_of_mem hx)
  exact Nat.lt_of_le_of_lt (Forward.le_resolve h.ascending x) hlt

theorem Sound.create (h : Sound v o)
    (checked : o.shadow.check (n.mapChildren o.forward.resolve) = .ok ()) :
    Sound v
      { o with
        shadow := o.shadow.append [n.mapChildren o.forward.resolve]
        created := o.created ++
          [⟨o.shadow.size, n.mapChildren o.forward.origin, o.recordCount⟩] } := by
  have hchildren := ((Store.check_eq_ok_iff _ _).1 checked).2.1
  have hsize : (o.shadow.append [n.mapChildren o.forward.resolve]).size = o.shadow.size + 1 := by
    simp
  have hgrow : o.created ⊆ o.created ++
      [⟨o.shadow.size, n.mapChildren o.forward.origin, o.recordCount⟩] :=
    List.subset_append_left _ _
  have hnamed : ∀ x ∈ (n.mapChildren o.forward.origin).children,
      Named v.tree.store.size o.created x := by
    intro x hx
    obtain ⟨y, hy, rfl⟩ := List.mem_map.1 hx
    have hlt := hchildren _ (List.mem_map_of_mem hy)
    exact h.named y (Nat.lt_of_le_of_lt (Forward.le_resolve h.ascending y) hlt)
  constructor
  · exact h.of_view
  · exact h.shadow.append_singleton hchildren
  · exact hsize ▸ Nat.lt_succ_of_lt h.root
  · exact hsize ▸ Nat.le_succ_of_le h.base
  · exact h.ascending.mono (hsize ▸ Nat.le_succ _)
  · intro x hx
    rcases Nat.lt_or_ge x o.shadow.size with hlt | hge
    · exact (h.named x hlt).mono hgrow
    · rw [hsize] at hx
      obtain rfl : x = o.shadow.size := Nat.le_antisymm (Nat.le_of_lt_succ hx) hge
      refine Or.inr ⟨_, List.mem_append_right _ List.mem_cons_self, ?_⟩
      simp [Forward.origin, h.fresh _ hge]
  · intro x hx
    rcases hx with hx | ⟨c, hc, rfl⟩
    · exact h.original x (Or.inl hx)
    · rcases List.mem_append.1 hc with hc | hc
      · exact h.original c.id (Or.inr ⟨c, hc, rfl⟩)
      · rw [List.mem_singleton.1 hc]
        simp [Forward.origin, h.fresh _ (Nat.le_refl _)]
  · exact h.inOrder.append_singleton hnamed
  · intro c hc
    rw [hsize]
    rcases List.mem_append.1 hc with hc | hc
    · exact ⟨(h.ids c hc).1, Nat.lt_succ_of_lt (h.ids c hc).2⟩
    · rw [List.mem_singleton.1 hc]
      exact ⟨h.base, Nat.lt_succ_self _⟩
  · rw [List.map_append, List.nodup_append]
    refine ⟨h.distinct, by simp, fun a ha b hb => ?_⟩
    obtain ⟨c, hc, rfl⟩ := List.mem_map.1 ha
    rw [List.mem_singleton.1 hb]
    exact Nat.ne_of_lt (h.ids c hc).2
  · intro c hc
    rcases List.mem_append.1 hc with hc | hc
    · exact h.after c hc
    · rw [List.mem_singleton.1 hc]
      exact Nat.le_refl _
  · refine List.pairwise_append.2 ⟨h.sorted, List.pairwise_singleton _ _, fun c hc d hd => ?_⟩
    rw [List.mem_singleton.1 hd]
    exact h.after c hc
  · intro x hx
    rw [hsize] at hx
    exact h.fresh x (Nat.le_of_succ_le hx)
  · exact h.own
  · intro k r hr x hx
    exact (h.recorded k r hr x hx).mono (List.filter_subset _ hgrow)

theorem Sound.commit (h : Sound v o) {e : Edit} {above : List NodeId} {current : Node}
    {shadow : Store} {r : Rebuilt} (target : StableId)
    (hedited : Store.Edited o.shadow o.forward o.root (e.mapIds o.forward.resolve) above current
      shadow r) : Sound v (o.commit target e shadow r) := by
  have hnodup := hedited.linksUp.nodup h.shadow
  have hlt : ∀ a ∈ (e.mapIds o.forward.resolve).target :: above, a < o.shadow.size := fun a ha =>
    hedited.lt_size_of_mem_spine h.shadow ha
  have hsize := hedited.copied.size_eq
  have hrecord := hedited.record_eq
  have hids : ∀ x ∈ e.ids, x < o.shadow.size := fun x hx => h.lt_size_of_mem_ids hedited hx
  constructor
  · exact h.of_view
  · exact hedited.sound h.shadow
  · exact hedited.root_lt
  · exact Nat.le_trans h.base hedited.size_le
  · show (o.forward.record r).Ascending shadow.size
    rw [hrecord, hsize]
    exact h.ascending.recordSpine hnodup hlt
  · show ∀ x, x < shadow.size → Named _ o.created ((o.forward.record r).origin x)
    rw [hrecord, hsize]
    intro x hx
    rcases Nat.lt_or_ge x o.shadow.size with hold | hge
    · rw [Forward.origin_recordSpine_of_lt _ hold]
      exact h.named x hold
    · obtain ⟨i, rfl⟩ := Nat.exists_eq_add_of_le hge
      have hi := List.getElem?_eq_getElem (Nat.lt_of_add_lt_add_left hx)
      rw [Forward.origin_recordSpine_getElem? _ _ hlt hi]
      exact h.named _ (hlt _ (List.mem_of_getElem? hi))
  · intro x hx
    show (o.forward.record r).origin x = x
    rw [hrecord, Forward.origin_recordSpine_of_lt _ (h.lt_size_of_named hx)]
    exact h.original x hx
  · exact h.inOrder
  · intro c hc
    exact ⟨(h.ids c hc).1, Nat.lt_of_lt_of_le (h.ids c hc).2 hedited.size_le⟩
  · exact h.distinct
  · intro c hc
    exact Nat.le_succ_of_le (h.after c hc)
  · exact h.sorted
  · show ∀ x, shadow.size ≤ x → (o.forward.record r).origins.get? x = none
    rw [hrecord, hsize]
    intro x hx
    rw [Forward.origins_recordSpine_of_le _ hx]
    exact h.fresh x (Nat.le_trans (Nat.le_add_right _ _) hx)
  · rw [records_commit]
    intro entry hentry
    rcases List.mem_append.1 hentry with hentry | hentry
    · exact h.own entry hentry
    · rw [List.mem_singleton.1 hentry]
      rfl
  · intro k entry hk x hx
    rw [records_commit, List.getElem?_append] at hk
    split at hk
    · exact h.recorded k entry hk x hx
    · rename_i hlast
      rw [length_records] at hlast hk
      obtain ⟨hzero, rfl⟩ : k - o.recordCount = 0 ∧ entry = _ := by
        cases hsub : k - o.recordCount with
        | zero =>
          rw [hsub] at hk
          exact ⟨rfl, (Option.some.inj hk).symm⟩
        | succ m =>
          rw [hsub] at hk
          cases hk
      rw [Edit.ids_mapIds] at hx
      obtain ⟨y, hy, rfl⟩ := List.mem_map.1 hx
      -- all nodes made so far come before the record
      have hall : o.created.filter (·.after ≤ k) = o.created := by
        refine List.filter_eq_self.2 fun c hc => ?_
        simpa using Nat.le_trans (h.after c hc) (Nat.not_lt.1 hlast)
      show Named _ (o.created.filter (·.after ≤ k)) _
      rw [hall, hrecord, Forward.origin_recordSpine_of_lt _ (hids y hy)]
      exact h.named y (hids y hy)

theorem Sound.with_guard (h : Sound v o) (guard : Guard) : Sound v { o with guard } :=
  ⟨h.of_view, h.shadow, h.root, h.base, h.ascending, h.named, h.original, h.inOrder, h.ids,
    h.distinct, h.after, h.sorted, h.fresh, h.own, h.recorded⟩

theorem Sound.step (h : Sound v o) (hstep : Step o g o') : Sound v o' := by
  cases hstep with
  | refused guard limits => exact h.with_guard guard
  | created n checked room => exact h.create checked
  | @recorded e node value way shadow r guard limits get_target planned depth rebuilt =>
    obtain ⟨above, current, -, hedited⟩ := edited_of_plan planned rebuilt
    exact (h.commit node.stableId hedited).with_guard guard

theorem Sound.of_runs {P : Overlay → Prop} (hv : v.tree.Sound) (h : v.Runs P o) : Sound v o :=
  h.induction (fun worker block _ => .newOverlay hv worker block)
    fun _ _ _ _ _ hsound hstep => hsound.step hstep

end Overlay

end TreeEdit
