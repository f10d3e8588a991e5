import TreeEdit.Proofs.Accounting
import TreeEdit.Proofs.InPlace

/-!
# Editing in sequence and through an overlay

A view can be edited in sequence by a `Context`, or by one worker through an unrestricted overlay.
The two differ on the way to an edit: a context refuses to make a node with children of an older
generation where an overlay goes on to the latest copies, and an overlay asks the guard that all
workers share once the edit is planned.

`Context.Agrees` says that a context and an overlay have the same store, root, copies and counts.
Requests that only name slots of the current generation, and that the shared guard grants, keep it
so and get the same answers, refusals included.
-/

namespace TreeEdit

/-! ### Slots of the current generation -/

/-- The slots that a request names. -/
def Call.ids : Call → List NodeId
  | create n => n.children
  | replace parent old new => [parent, old, new]
  | insert _ parent new sibling => [parent, new, sibling]
  | remove parent child => [parent, child]
  | setWhitespace node _ => [node]
  | setComments node _ _ => [node]

namespace Forward

variable {f : Forward}

theorem resolve_eq_self {x : NodeId} (h : f.isSuperseded x = false) : f.resolve x = x :=
  resolve_of_current (isSuperseded_eq_false_iff.1 h)

theorem mapIds_resolve_eq_self {e : Edit} (h : ∀ x ∈ e.ids, f.isSuperseded x = false) :
    e.mapIds f.resolve = e := by
  have hmap : e.mapIds f.resolve = e.mapIds fun x => x :=
    Edit.mapIds_congr fun x hx => resolve_eq_self (h x hx)
  rw [hmap]
  cases e <;> rfl

end Forward

/-! ### What the shared guard is asked -/

namespace Overlay

variable {o : Overlay} {g : SharedGuard} {e : Edit}

/-- The path that an edit is presented with to the shared guard, if the edit gets that far: its
target exists, the worker's own guard lets it pass, and it can be planned. -/
def presented (o : Overlay) (e : Edit) : Verdict Path := do
  let current := e.mapIds o.forward.resolve
  let node ← o.shadow.node current.target
  let guard ← o.guard.enter (some node.stableId)
  guard.checkBudget (some node.stableId)
  let (path, _) ← ({ o with guard } : Overlay).plan node.stableId current
  return path

/-- The shared guard does not refuse a request: it allows the length of the path that is presented
to it, and has an edit left. A request that is refused before is not presented at all. -/
def Granted (o : Overlay) (g : SharedGuard) (call : Call) : Prop :=
  ∀ e way, call.edit? o.shadow = some e → o.presented e = .ok way →
    way.length ≤ g.limits.maxDepth ∧ g.modifications < g.limits.maxModifications

theorem plan_unrestricted (h : o.block = none) (target : StableId) (e : Edit) :
    o.plan target e = o.shadow.plan o.forward o.guard.limits.maxDepth o.root e := by
  unfold plan checkBlock
  rw [h]
  cases o.shadow.plan o.forward o.guard.limits.maxDepth o.root e <;> rfl

theorem presented_of_plan {node value : Node} {guard : Guard} {way : Path}
    (hnode : o.shadow.node (e.mapIds o.forward.resolve).target = .ok node)
    (henter : o.guard.enter (some node.stableId) = .ok guard)
    (hbudget : guard.checkBudget (some node.stableId) = .ok ())
    (hplan : ({ o with guard } : Overlay).plan node.stableId (e.mapIds o.forward.resolve) =
      .ok (way, value)) : o.presented e = .ok way := by
  simp only [presented, hnode, henter, hbudget, hplan, bind, Except.bind]
  rfl

/-- An edit that is granted only depends on the rebuilding. -/
theorem settle_of_granted {way : Path} (hdepth : way.length ≤ g.limits.maxDepth)
    (hcount : g.modifications < g.limits.maxModifications) (target : StableId) (e : Edit)
    (value : Node) :
    ∃ g', o.settle g target e way value =
      ((o.carryOut target e way value).1, g', (o.carryOut target e way value).2) := by
  unfold settle SharedGuard.admitDepth SharedGuard.reserve
  simp only [if_neg (Nat.not_lt.2 hdepth), if_pos hcount]
  exact ⟨_, rfl⟩

/-- Carry out requests in order, whatever their answers. The shared guard, which other workers use
as well, is in a state of its own at each of them. -/
def runUnder (o : Overlay) (requests : List (SharedGuard × Call)) : Overlay :=
  requests.foldl (fun o request => (o.perform request.1 (.shared request.2)).1) o

theorem runUnder_append_singleton (o : Overlay) (requests : List (SharedGuard × Call))
    (g : SharedGuard) (call : Call) :
    o.runUnder (requests ++ [(g, call)]) =
      ((o.runUnder requests).perform g (.shared call)).1 := by
  simp [runUnder]

end Overlay

/-! ### Contexts and overlays that agree -/

namespace Context

variable {c : Context} {o : Overlay} {g : SharedGuard} {call : Call} {e : Edit}

/-- A context and an unrestricted overlay with the same slots, links, root, copies and counts. -/
structure Agrees (c : Context) (o : Overlay) : Prop where
  store : o.shadow = c.store
  root : o.root = c.root
  forward : o.forward = c.forward
  guard : o.guard = c.guard
  unrestricted : o.block = none

/-- The two answers to a request are the same, and so is all that is left behind. -/
structure SameStep {α : Type} (left : Context × Verdict α)
    (right : Overlay × SharedGuard × Verdict α) : Prop where
  answer : right.2.2 = left.2
  next : Agrees left.1 right.1

theorem SameStep.map {α : Type} {left : Context × Verdict α}
    {right : Overlay × SharedGuard × Verdict α} (h : SameStep left right)
    (f : α → Option NodeId) :
    SameStep (left.map id (·.map f)) (right.1, right.2.1, right.2.2.map f) :=
  ⟨congrArg (Except.map f) h.answer, h.next⟩

theorem run_append_singleton (c : Context) (calls : List Call) (call : Call) :
    c.run (calls ++ [call]) = ((c.run calls).perform call).1 := by
  simp [run]

namespace Agrees

theorem create (h : Agrees c o) {n : Node}
    (current : ∀ x ∈ n.children, c.forward.isSuperseded x = false) (g : SharedGuard) :
    SameStep (c.create n) ((o.create n).1, g, (o.create n).2) := by
  have hfind : n.children.find? c.forward.isSuperseded = none :=
    List.find?_eq_none.2 fun x hx => by simp [current x hx]
  have hnode : n.mapChildren c.forward.resolve = n :=
    Node.mapChildren_eq_self fun x hx => Forward.resolve_eq_self (current x hx)
  unfold Context.create Overlay.create
  rw [hfind, h.forward, hnode, h.store]
  rcases c.store.alloc_cases n with ⟨err, herr⟩ | ⟨hok, -, -⟩
  · rw [herr]
    exact ⟨rfl, rfl, h.root, rfl, h.guard, h.unrestricted⟩
  · rw [hok]
    exact ⟨rfl, rfl, h.root, rfl, h.guard, h.unrestricted⟩

theorem record (h : Agrees c o) (e : Edit) (current : ∀ x ∈ e.ids, c.forward.isSuperseded x = false)
    (granted : ∀ way, o.presented e = .ok way →
      way.length ≤ g.limits.maxDepth ∧ g.modifications < g.limits.maxModifications) :
    SameStep (c.apply e) (o.record g e) := by
  have hedit : e.mapIds o.forward.resolve = e := by
    rw [h.forward]
    exact Forward.mapIds_resolve_eq_self current
  unfold Context.apply Overlay.record
  rw [hedit, ← h.store, ← h.forward, ← h.guard, ← h.root]
  dsimp only
  cases hnode : o.shadow.node e.target with
  | error err => exact ⟨rfl, h⟩
  | ok node =>
    dsimp only
    cases henter : o.guard.enter (some node.stableId) with
    | error err => exact ⟨rfl, h⟩
    | ok guard =>
      dsimp only
      cases hbudget : guard.checkBudget (some node.stableId) with
      | error err => exact ⟨rfl, rfl, rfl, rfl, rfl, h.unrestricted⟩
      | ok u =>
        have hplan := Overlay.plan_unrestricted (o := { o with guard }) h.unrestricted
          node.stableId e
        dsimp only at hplan ⊢
        rw [hplan, Store.applyEdit]
        cases hplanned : o.shadow.plan o.forward guard.limits.maxDepth o.root e with
        | error err => exact ⟨rfl, rfl, rfl, rfl, rfl, h.unrestricted⟩
        | ok out =>
          obtain ⟨way, value⟩ := out
          have hpresented : o.presented e = .ok way := by
            rw [hplanned] at hplan
            exact Overlay.presented_of_plan (by rwa [hedit]) henter hbudget (by rwa [hedit])
          obtain ⟨hdepth, hcount⟩ := granted way hpresented
          obtain ⟨g', hsettle⟩ := Overlay.settle_of_granted (o := { o with guard }) hdepth hcount
            node.stableId e value
          dsimp only
          rw [hsettle, Overlay.carryOut]
          cases o.shadow.rebuild way value with
          | mk store answer =>
            cases answer with
            | error err => exact ⟨rfl, rfl, rfl, rfl, rfl, h.unrestricted⟩
            | ok r => exact ⟨rfl, rfl, rfl, rfl, rfl, h.unrestricted⟩

theorem insert (h : Agrees c o) {side : Side} {parent new sibling : NodeId}
    (current : ∀ x ∈ (Call.insert side parent new sibling).ids, c.forward.isSuperseded x = false)
    (granted : o.Granted g (.insert side parent new sibling)) :
    SameStep (c.insert side parent new sibling) (o.insert g side parent new sibling) := by
  have hparent : o.forward.resolve parent = parent := by
    rw [h.forward]
    exact Forward.resolve_eq_self (current parent (by simp [Call.ids]))
  have hsibling : o.forward.resolve sibling = sibling := by
    rw [h.forward]
    exact Forward.resolve_eq_self (current sibling (by simp [Call.ids]))
  unfold Context.insert Overlay.insert
  dsimp only
  rw [hparent, hsibling, ← h.store]
  cases hindex : o.shadow.siblingIndex parent sibling side.offset with
  | error err => exact ⟨rfl, h⟩
  | ok index =>
    refine h.record _ (fun x hx => current x ?_) fun way hway => ?_
    · simp only [Edit.ids, Call.ids, List.mem_cons, List.not_mem_nil, or_false] at hx ⊢
      exact hx.imp_right Or.inl
    · exact granted _ way (by rw [Call.edit?, hindex]) hway

/-- A request that names slots of the current generation, and that the shared guard grants, gets one
answer from both, and the two still agree. -/
theorem perform (h : Agrees c o) (current : ∀ x ∈ call.ids, c.forward.isSuperseded x = false)
    (granted : o.Granted g call) : SameStep (c.perform call) (o.perform g (.shared call)) := by
  cases call with
  | create n => exact (h.create current g).map some
  | insert side parent new sibling => exact (h.insert current granted).map _
  | replace parent old new =>
    exact (h.record (.replace parent old new) current fun way => granted _ way rfl).map _
  | remove parent child =>
    exact (h.record (.remove parent child) current fun way => granted _ way rfl).map _
  | setWhitespace node whitespace =>
    exact (h.record (.setWhitespace node whitespace) current fun way => granted _ way rfl).map _
  | setComments node leading trailing =>
    exact (h.record (.setComments node leading trailing) current fun way =>
      granted _ way rfl).map _

end Agrees

/-! ### Runs -/

theorem agrees_context (v : View) : Agrees v.context v.overlay.2 :=
  ⟨rfl, rfl, rfl, rfl, rfl⟩

/-- From any view, requests that only name slots of the current generation at their time, and that
the shared guard grants, get the same answers in sequence and through an overlay: the same slots for
new nodes and the same refusals. After each of them the slots, links, roots, copies and counts are
the same. -/
theorem overlay_agrees (v : View) (requests : List (SharedGuard × Call))
    (current : ∀ part g call, part ++ [(g, call)] <+: requests → ∀ x ∈ call.ids,
      (v.context.run (part.map (·.2))).forward.isSuperseded x = false)
    (granted : ∀ part g call, part ++ [(g, call)] <+: requests →
      (v.overlay.2.runUnder part).Granted g call) :
    (∀ part, part <+: requests →
      Agrees (v.context.run (part.map (·.2))) (v.overlay.2.runUnder part)) ∧
    ∀ part g call, part ++ [(g, call)] <+: requests →
      ((v.overlay.2.runUnder part).perform g (.shared call)).2.2 =
        ((v.context.run (part.map (·.2))).perform call).2 := by
  have hstep : ∀ part, part <+: requests →
      Agrees (v.context.run (part.map (·.2))) (v.overlay.2.runUnder part) := by
    intro part
    induction part using List.reverseRecOn with
    | nil => exact fun _ => agrees_context v
    | append_singleton part request ih =>
      obtain ⟨g, call⟩ := request
      intro hle
      have hbefore := ih ((List.prefix_append _ _).trans hle)
      rw [List.map_append, List.map_singleton, run_append_singleton,
        Overlay.runUnder_append_singleton]
      exact (hbefore.perform (current part g call hle) (granted part g call hle)).next
  refine ⟨hstep, fun part g call hle => ?_⟩
  have hbefore := hstep part ((List.prefix_append _ _).trans hle)
  exact (hbefore.perform (current part g call hle) (granted part g call hle)).answer

/-- Six requests, three of them refused by both. The shared guard has one edit left at the last. -/
def sharedRequests : List (SharedGuard × Call) :=
  [({}, .create (blockAt 6 [0])), ({}, .remove 4 0), ({}, .replace 1 0 5),
    ({}, .create (blockAt 7 [0, 0])), ({}, .insert .before 8 3 3),
    (⟨.batch, 49999, 7⟩, .remove 8 3)]

theorem overlay_agrees_shared :
    (∀ part g call, part ++ [(g, call)] <+: sharedRequests → ∀ x ∈ call.ids,
      (View.sample.context.run (part.map (·.2))).forward.isSuperseded x = false) ∧
    (∀ part g call, part ++ [(g, call)] <+: sharedRequests →
      (View.sample.overlay.2.runUnder part).Granted g call) ∧
    Agrees (View.sample.context.run (sharedRequests.map (·.2)))
      (View.sample.overlay.2.runUnder sharedRequests) := by
  have hnext : ∀ part g call, part ++ [(g, call)] <+: sharedRequests →
      part ∈ sharedRequests.inits ∧ sharedRequests[part.length]? = some (g, call) := by
    rintro part g call ⟨rest, hrest⟩
    rw [List.mem_inits, ← hrest]
    exact ⟨⟨_, (List.append_assoc _ _ _).symm⟩, by simp⟩
  have hcurrent : ∀ part g call, part ++ [(g, call)] <+: sharedRequests → ∀ x ∈ call.ids,
      (View.sample.context.run (part.map (·.2))).forward.isSuperseded x = false := by
    have hall : ∀ part ∈ sharedRequests.inits, ∀ request ∈ sharedRequests[part.length]?,
        ∀ x ∈ request.2.ids,
          (View.sample.context.run (part.map (·.2))).forward.isSuperseded x = false := by
      decide +kernel
    intro part g call hle
    exact hall part (hnext part g call hle).1 (g, call) (hnext part g call hle).2
  have hgranted : ∀ part g call, part ++ [(g, call)] <+: sharedRequests →
      (View.sample.overlay.2.runUnder part).Granted g call := by
    have hall : ∀ part ∈ sharedRequests.inits, ∀ request ∈ sharedRequests[part.length]?,
        ∀ e ∈ request.2.edit? (View.sample.overlay.2.runUnder part).shadow,
        ∀ way ∈ ((View.sample.overlay.2.runUnder part).presented e).toOption,
          way.length ≤ request.1.limits.maxDepth ∧
            request.1.modifications < request.1.limits.maxModifications := by
      decide +kernel
    intro part g call hle e way hedit hway
    exact hall part (hnext part g call hle).1 (g, call) (hnext part g call hle).2 e hedit way
      (by rw [hway]; rfl)
  exact ⟨hcurrent, hgranted,
    (overlay_agrees View.sample sharedRequests hcurrent hgranted).1 _ (List.prefix_refl _)⟩

end Context

end TreeEdit
