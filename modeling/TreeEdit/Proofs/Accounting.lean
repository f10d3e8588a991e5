import TreeEdit.Proofs.Fidelity
import TreeEdit.Proofs.Planning

/-!
# Refused requests and the count of a view

A view counts the edits of all its overlays. A request takes its share of the count after the plan
is made and before the shadow is rebuilt, and does not give it back. `Overlay.Outcome` lists what a
request can come to: in three of the four cases the count and the logs go on together, and in the
fourth the edit is planned, counted and then refused.

A `Session` is a view with the overlays that it has issued, and acts of the workers in any order.
`Session.count_eq_recordTotal` says that a refused request leaves its overlay as it was, and that
the count is the number of records as long as the shadows are trees and slots do not run out. The
condition is not empty: `Session.leakActs` refuses a request and counts it.
-/

namespace TreeEdit

/-! ### One request -/

/-- An overlay whose guard has seen the given level, and is as it was otherwise. -/
def Overlay.withDeepest (o : Overlay) (deepest : Nat) : Overlay :=
  { o with guard := { o.guard with deepest } }

/-- A shared guard that has seen a path of the given length, and is as it was otherwise. -/
def SharedGuard.withDeepest (g : SharedGuard) (deepest : Nat) : SharedGuard :=
  { g with deepest }

theorem Guard.leave_of_enter {g g' : Guard} {place : Option StableId}
    (h : g.enter place = .ok g') : g'.leave = { g with deepest := g'.deepest } := by
  obtain ⟨-, rfl⟩ := enter_eq_ok_iff.1 h
  rfl

namespace SharedGuard

variable {g g' : SharedGuard} {place : Option StableId}

theorem admitDepth_eq_ok {depth : Nat} (h : g.admitDepth depth place = .ok g') :
    g' = g.withDeepest (max g.deepest depth) := by
  unfold admitDepth at h
  split at h
  · cases h
  · cases h
    rfl

theorem reserve_eq_ok (h : g.reserve place = .ok g') :
    g' = { g with modifications := g.modifications + 1 } := by
  unfold reserve at h
  split at h
  · cases h
    rfl
  · cases h

end SharedGuard

namespace Overlay

variable {v : View} {o o' : Overlay} {g g' : SharedGuard} {e : Edit}

/-- What a request can come to, with the overlay and the shared guard after it and its answer. -/
inductive Outcome (o : Overlay) (g : SharedGuard) :
    Overlay → SharedGuard → Verdict (Option NodeId) → Prop
  /-- Refused before anything was counted. -/
  | refused (err : Error) (d m : Nat) :
      Outcome o g (o.withDeepest d) (g.withDeepest m) (.error err)
  /-- Planned and counted, and then refused. -/
  | spent {e : Edit} {way : Path} {value : Node} (err : Error) (d m : Nat)
      (planned : o.shadow.plan o.forward o.guard.limits.maxDepth o.root e = .ok (way, value))
      (failed : o.shadow.rebuild way value = (o.shadow, .error err)) :
      Outcome o g (o.withDeepest d)
        { g with modifications := g.modifications + 1, deepest := m } (.error err)
  /-- A node was made. -/
  | made {o' : Overlay} (id : NodeId) (log : o'.recordCount = o.recordCount) :
      Outcome o g o' g (.ok (some id))
  /-- An edit was carried out, counted and recorded. -/
  | recorded {o' : Overlay} {g' : SharedGuard} (log : o'.recordCount = o.recordCount + 1)
      (count : g'.modifications = g.modifications + 1) : Outcome o g o' g' (.ok none)

theorem Outcome.unchanged (o : Overlay) (g : SharedGuard) (err : Error) :
    Outcome o g o g (.error err) :=
  .refused err o.guard.deepest g.deepest

theorem outcome_create (o : Overlay) (g : SharedGuard) (n : Node) :
    Outcome o g (o.create n).1 g ((o.create n).2.map some) := by
  rcases o.create_cases n with ⟨err, herr⟩ | ⟨hok, -, -⟩
  · rw [herr]
    exact .unchanged o g err
  · rw [hok]
    exact .made o.shadow.size rfl

/-- The outcomes of an edit that has been planned, under the guard with one more level open. -/
theorem outcome_settle (o : Overlay) (g : SharedGuard) (guard : Guard) (target : StableId)
    (e : Edit) {edit : Edit} {way : Path} {value : Node}
    (planned : o.shadow.plan o.forward o.guard.limits.maxDepth o.root edit = .ok (way, value)) :
    (∃ g' err, ({ o with guard } : Overlay).settle g target e way value =
        ({ o with guard }, g', .error err) ∧
      Outcome o g (o.withDeepest guard.deepest) g' (.error err)) ∨
    ∃ g' done, ({ o with guard } : Overlay).settle g target e way value = (done, g', .ok ()) ∧
      done.recordCount = o.recordCount + 1 ∧ g'.modifications = g.modifications + 1 := by
  unfold settle
  cases hdepth : g.admitDepth way.length (some target) with
  | error err => exact Or.inl ⟨g, err, rfl, .refused err _ g.deepest⟩
  | ok admitted =>
    obtain rfl := SharedGuard.admitDepth_eq_ok hdepth
    dsimp only
    cases hreserve : (g.withDeepest (max g.deepest way.length)).reserve (some target) with
    | error err => exact Or.inl ⟨_, err, rfl, .refused err _ _⟩
    | ok reserved =>
      obtain rfl := SharedGuard.reserve_eq_ok hreserve
      dsimp only
      rcases ({ o with guard } : Overlay).carryOut_cases target e way value with
        ⟨err, hrebuild, hcarry⟩ | ⟨shadow, r, -, hcarry⟩
      · rw [hcarry]
        exact Or.inl ⟨_, err, rfl, .spent err _ _ planned hrebuild⟩
      · rw [hcarry]
        exact Or.inr ⟨_, _, rfl, rfl, rfl⟩

theorem outcome_record (o : Overlay) (g : SharedGuard) (e : Edit) :
    Outcome o g (o.record g e).1 (o.record g e).2.1 ((o.record g e).2.2.map fun _ => none) := by
  unfold record
  dsimp only
  cases o.shadow.node (e.mapIds o.forward.resolve).target with
  | error err => exact .unchanged o g err
  | ok node =>
    dsimp only
    cases henter : o.guard.enter (some node.stableId) with
    | error err => exact .unchanged o g err
    | ok guard =>
      have hlimits : guard.limits = o.guard.limits := Guard.limits_of_enter henter
      have hleave : ({ o with guard } : Overlay).leave = o.withDeepest guard.deepest := by
        rw [leave, Guard.leave_of_enter henter]
        rfl
      dsimp only
      cases guard.checkBudget (some node.stableId) with
      | error err => exact hleave ▸ .refused err guard.deepest g.deepest
      | ok u =>
        dsimp only
        cases hplan : ({ o with guard } : Overlay).plan node.stableId
            (e.mapIds o.forward.resolve) with
        | error err => exact hleave ▸ .refused err guard.deepest g.deepest
        | ok out =>
          obtain ⟨way, value⟩ := out
          obtain ⟨⟨way', value'⟩, hplanned, hrest⟩ := Verdict.bind_eq_ok_iff.1 hplan
          obtain ⟨u', -, hout⟩ := Verdict.bind_eq_ok_iff.1 hrest
          cases hout
          dsimp only at hplanned ⊢
          rw [hlimits] at hplanned
          rcases outcome_settle o g guard node.stableId e hplanned with
            ⟨g', err, hsettle, hrefused⟩ | ⟨g', done, hsettle, hlog, hcount⟩
          · rw [hsettle]
            exact hleave ▸ hrefused
          · rw [hsettle]
            exact .recorded hlog hcount

/-- A request has one of the outcomes. -/
theorem outcome_perform (o : Overlay) (g : SharedGuard) (call : OverlayCall) :
    Outcome o g (o.perform g call).1 (o.perform g call).2.1 (o.perform g call).2.2 := by
  rcases o.perform_cases call with ⟨n, rfl⟩ | ⟨e, -, he⟩ | ⟨err, -, herr⟩
  · exact outcome_create o g n
  · rw [he]
    exact outcome_record o g e
  · rw [herr]
    exact .unchanged o g err

/-- A request that is refused leaves the overlay as it was, but for the deepest level seen. -/
theorem eq_withDeepest_of_refused {request : OverlayCall} {err : Error}
    (h : (o.perform g request).2.2 = .error err) :
    ∃ d, (o.perform g request).1 = o.withDeepest d := by
  have hout := o.outcome_perform g request
  generalize o.perform g request = out at h hout ⊢
  obtain ⟨next, shared, answer⟩ := out
  dsimp only at h hout ⊢
  subst h
  cases hout with
  | refused err d m => exact ⟨d, rfl⟩
  | spent err d m planned failed => exact ⟨d, rfl⟩

end Overlay

/-- A view that differs in its counts has the same overlays. -/
theorem Overlay.Sound.of_eq {v w : View} {o : Overlay} (h : Overlay.Sound v o) (id : w.id = v.id)
    (tree : w.tree = v.tree) : Overlay.Sound w o := by
  cases w
  dsimp only at id tree
  subst id tree
  exact { h with }

/-! ### Sessions -/

/-- A view and the overlays that it has issued. -/
structure Session where
  view : View
  overlays : List Overlay := []

namespace Session

/-- What can happen in a session. -/
inductive Act
  /-- An overlay is issued for the whole tree. -/
  | issue
  /-- An overlay is asked for that is restricted to a block. -/
  | issueFor (block : NodeId)
  /-- A request is made to the overlay of the given number. -/
  | call (k : Nat) (request : OverlayCall)

/-- One act and its answer. A request to an overlay that has not been issued does nothing. -/
def act (s : Session) : Act → Session × Verdict (Option NodeId)
  | .issue => ({ view := s.view.overlay.1, overlays := s.overlays ++ [s.view.overlay.2] }, .ok none)
  | .issueFor block =>
    match s.view.overlayForBlock block with
    | .ok (view, o) => ({ view, overlays := s.overlays ++ [o] }, .ok none)
    | .error err => (s, .error err)
  | .call k request =>
    match s.overlays[k]? with
    | some o =>
      let (next, shared, answer) := o.perform s.view.shared request
      ({ view := { s.view with shared }, overlays := s.overlays.set k next }, answer)
    | none => (s, .ok none)

/-- The acts of a list in order, whatever their answers. -/
def run (s : Session) (acts : List Act) : Session :=
  acts.foldl (fun s a => (s.act a).1) s

/-- A tree is offered, and no overlay issued yet. -/
def start (id : Nat) (t : Tree) (config : Config) : Session :=
  { view := .ofTree id t config }

/-- The number of records of some overlays. -/
def recordTotal : List Overlay → Nat
  | [] => 0
  | o :: os => o.recordCount + recordTotal os

/-- The edits that the view has counted. -/
def count (s : Session) : Nat :=
  s.view.shared.modifications

variable {s s' : Session} {o next : Overlay} {k : Nat} {request : OverlayCall} {err : Error}
  {acts : List Act} {a : Act}

theorem run_append_singleton (s : Session) (acts : List Act) (a : Act) :
    s.run (acts ++ [a]) = ((s.run acts).act a).1 := by
  simp [run]

theorem act_call (h : s.overlays[k]? = some o) (request : OverlayCall) :
    s.act (.call k request) =
      ({ view := { s.view with shared := (o.perform s.view.shared request).2.1 }
         overlays := s.overlays.set k (o.perform s.view.shared request).1 },
        (o.perform s.view.shared request).2.2) := by
  simp only [act, h]

/-- What one act does to a session. -/
inductive Step (s : Session) : Session → Prop
  | stays : Step s s
  | issued (block : Option NodeId)
      (accepted : ∀ b, block = some b → s.view.checkBlock b = .ok ()) :
      Step s { view := s.view.issued, overlays := s.overlays ++ [s.view.newOverlay block] }
  | called {k : Nat} {o : Overlay} (get : s.overlays[k]? = some o) (request : OverlayCall) :
      Step s
        { view := { s.view with shared := (o.perform s.view.shared request).2.1 }
          overlays := s.overlays.set k (o.perform s.view.shared request).1 }

theorem step_act (s : Session) (a : Act) : Step s (s.act a).1 := by
  cases a with
  | issue => exact .issued none fun b hb => by cases hb
  | issueFor block =>
    simp only [act, View.overlayForBlock]
    cases hcheck : s.view.checkBlock block with
    | error err => exact .stays
    | ok u =>
      refine .issued (some block) fun b hb => ?_
      cases hb
      exact hcheck
  | call k request =>
    cases hget : s.overlays[k]? with
    | none =>
      simp only [act, hget]
      exact .stays
    | some o =>
      rw [act_call hget]
      exact .called hget request

theorem recordTotal_append (os ps : List Overlay) :
    recordTotal (os ++ ps) = recordTotal os + recordTotal ps := by
  induction os with
  | nil => simp [recordTotal]
  | cons o os ih => simp [recordTotal, ih, Nat.add_assoc]

theorem recordTotal_set {os : List Overlay} (h : os[k]? = some o) (next : Overlay) :
    recordTotal (os.set k next) + o.recordCount = recordTotal os + next.recordCount := by
  induction os generalizing k with
  | nil => simp at h
  | cons first os ih =>
    cases k with
    | zero =>
      obtain rfl : first = o := by simpa using h
      simp only [List.set_cons_zero, recordTotal]
      omega
    | succ k =>
      have := ih (by simpa using h)
      simp only [List.set_cons_succ, recordTotal]
      omega

/-! ### Sound sessions -/

/-- The tree is sound, and so is every overlay. -/
structure Sound (s : Session) : Prop where
  tree : s.view.tree.Sound
  overlays : ∀ o ∈ s.overlays, Overlay.Sound s.view o

theorem Sound.start {t : Tree} (ht : t.Sound) (id : Nat) (config : Config) :
    (start id t config).Sound :=
  ⟨ht, fun o ho => by cases ho⟩

theorem Sound.step (h : s.Sound) (hstep : Step s s') : s'.Sound := by
  cases hstep with
  | stays => exact h
  | issued block accepted =>
    refine ⟨h.tree, fun o ho => ?_⟩
    rcases List.mem_append.1 ho with ho | ho
    · exact (h.overlays o ho).of_eq rfl rfl
    · rw [List.mem_singleton.1 ho]
      exact (Overlay.Sound.newOverlay h.tree s.view.nextWorker block).of_eq rfl rfl
  | @called k o get request =>
    have ho := (h.overlays o (List.mem_of_getElem? get)).step
      (o.step_perform s.view.shared request)
    refine ⟨h.tree, fun p hp => ?_⟩
    rcases List.mem_or_eq_of_mem_set hp with hp | rfl
    · exact (h.overlays p hp).of_eq rfl rfl
    · exact ho.of_eq rfl rfl

theorem Sound.run (h : s.Sound) (acts : List Act) : (s.run acts).Sound := by
  induction acts generalizing s with
  | nil => exact h
  | cons a acts ih => exact ih (h.step (s.step_act a))

/-! ### What an act adds to the count -/

/-- A refused request leaves every overlay as it was, but for the deepest level that one of them
has seen. -/
theorem overlays_of_refused (h : (s.act (.call k request)).2 = .error err) :
    ∃ o deepest, s.overlays[k]? = some o ∧
      (s.act (.call k request)).1.overlays = s.overlays.set k (o.withDeepest deepest) := by
  cases hget : s.overlays[k]? with
  | none =>
    simp only [act, hget] at h
    cases h
  | some o =>
    rw [act_call hget] at h ⊢
    obtain ⟨d, hd⟩ := Overlay.eq_withDeepest_of_refused h
    exact ⟨o, d, rfl, by rw [hd]⟩

/-- Records and count go on together, except that a request may be counted and then refused. That
does not happen in a shadow that is a tree, as long as there is room. -/
theorem count_act (h : s.Sound) (a : Act) :
    (s.act a).1.count + recordTotal s.overlays = s.count + recordTotal (s.act a).1.overlays ∨
      (s.act a).1.count + recordTotal s.overlays =
          s.count + recordTotal (s.act a).1.overlays + 1 ∧
        ∃ o ∈ s.overlays, o.IsTree →
          ∃ m n, (s.act a).2 = .error (.treeState (.exhausted m n)) := by
  cases a with
  | issue =>
    left
    simp [act, count, View.overlay, recordTotal_append, recordTotal, View.newOverlay,
      Overlay.recordCount]
  | issueFor block =>
    left
    simp only [act, View.overlayForBlock]
    cases s.view.checkBlock block with
    | error err => rfl
    | ok u =>
      show s.count + _ = s.count + recordTotal (s.overlays ++ [s.view.newOverlay (some block)])
      simp [recordTotal_append, recordTotal, View.newOverlay, Overlay.recordCount]
  | call k request =>
    cases hget : s.overlays[k]? with
    | none =>
      left
      simp only [act, hget]
    | some o =>
      rw [act_call hget]
      have hset := recordTotal_set hget
      have hout := o.outcome_perform s.view.shared request
      generalize o.perform s.view.shared request = out at hout ⊢
      obtain ⟨next, shared, answer⟩ := out
      have hnext := hset next
      dsimp only [count] at hout ⊢
      cases hout with
      | refused err d m =>
        have hlog : (o.withDeepest d).recordCount = o.recordCount := rfl
        left
        dsimp only [SharedGuard.withDeepest]
        omega
      | @spent e way value err d m planned failed =>
        have hlog : (o.withDeepest d).recordCount = o.recordCount := rfl
        refine Or.inr ⟨by dsimp only; omega, o, List.mem_of_getElem? hget, fun htree => ?_⟩
        have hs := (h.overlays o (List.mem_of_getElem? hget)).shadow
        rcases Store.rebuild_of_plan hs (Store.uniqueListers_of_nodup htree.once) htree.linked
            planned with ⟨s', r, hok⟩ | ⟨m, n, hfull⟩
        · rw [hok] at failed
          cases failed
        · rw [hfull] at failed
          cases failed
          exact ⟨m, n, rfl⟩
      | made id log => exact Or.inl (by omega)
      | recorded log count => exact Or.inl (by omega)

/-- Whether an act was refused for want of slots. -/
def isOutOfRoom : Verdict (Option NodeId) → Bool
  | .error (.treeState (.exhausted ..)) => true
  | _ => false

/-- All shadows are trees, all along a run. -/
def Trees (s : Session) (acts : List Act) : Prop :=
  ∀ part, part <+: acts → ∀ o ∈ (s.run part).overlays, o.IsTree

/-- No act of a run is refused for want of slots. -/
def HasRoom (s : Session) (acts : List Act) : Prop :=
  ∀ part a, part ++ [a] <+: acts → isOutOfRoom ((s.run part).act a).2 = false

/-- One act of a run through trees, with room. -/
theorem count_act_of_trees (h : s.Sound) (trees : s.Trees acts) (room : s.HasRoom acts)
    {part : List Act} (hpart : part ++ [a] <+: acts) :
    (s.run (part ++ [a])).count + recordTotal (s.run part).overlays =
      (s.run part).count + recordTotal (s.run (part ++ [a])).overlays := by
  rw [run_append_singleton]
  refine (count_act (h.run part) a).resolve_right ?_
  rintro ⟨-, o, ho, hfull⟩
  obtain ⟨m, n, hanswer⟩ := hfull (trees part ((List.prefix_append part [a]).trans hpart) o ho)
  have hroom := room part a hpart
  rw [hanswer] at hroom
  cases hroom

theorem recordTotal_le_count (h : s.Sound) (hle : recordTotal s.overlays ≤ s.count)
    (acts : List Act) : recordTotal (s.run acts).overlays ≤ (s.run acts).count := by
  induction acts generalizing s with
  | nil => exact hle
  | cons a acts ih =>
    have hnext : recordTotal (s.act a).1.overlays ≤ (s.act a).1.count := by
      rcases count_act h a with heq | ⟨heq, -⟩ <;> omega
    exact ih (h.step (s.step_act a)) hnext

/-- What happens to a refused request, and what the view counts. In every session that begins with
the tree of a view, a refused request leaves all overlays as they were, and the view counts no fewer
edits than the logs hold. As long as the shadows are trees and slots do not run out, the view counts
exactly the records, and a refused request is not counted. -/
theorem count_eq_recordTotal {t : Tree} (ht : Lineage t) (id : Nat) (config : Config)
    (acts : List Act) :
    (∀ k request err, (((start id t config).run acts).act (.call k request)).2 = .error err →
      ∃ o deepest, ((start id t config).run acts).overlays[k]? = some o ∧
        (((start id t config).run acts).act (.call k request)).1.overlays =
          ((start id t config).run acts).overlays.set k (o.withDeepest deepest)) ∧
    recordTotal ((start id t config).run acts).overlays ≤ ((start id t config).run acts).count ∧
    ((start id t config).Trees acts → (start id t config).HasRoom acts →
      ((start id t config).run acts).count =
          recordTotal ((start id t config).run acts).overlays ∧
        ∀ part k request err, part ++ [.call k request] <+: acts →
          (((start id t config).run part).act (.call k request)).2 = .error err →
          (((start id t config).run part).act (.call k request)).1.count =
            ((start id t config).run part).count) := by
  have hs : (start id t config).Sound := .start ht.sound id config
  refine ⟨fun k request err => overlays_of_refused, recordTotal_le_count hs (Nat.le_refl 0) acts,
    fun trees room => ⟨?_, fun part k request err hpart hrefused => ?_⟩⟩
  · induction acts using List.reverseRecOn with
    | nil => rfl
    | append_singleton acts a ih =>
      have hearlier := ih (fun part hpart => trees part (hpart.trans (List.prefix_append _ _)))
        fun part b hpart => room part b (hpart.trans (List.prefix_append _ _))
      have hstep := count_act_of_trees hs trees room (List.prefix_refl _)
      omega
  · -- the overlay keeps its log, so the count has to stay as well
    obtain ⟨o, deepest, hget, hset⟩ := overlays_of_refused hrefused
    have hstep := count_act_of_trees hs trees room hpart
    have htotal := recordTotal_set hget (o.withDeepest deepest)
    have hlog : (o.withDeepest deepest).recordCount = o.recordCount := rfl
    rw [run_append_singleton, hset] at hstep
    omega

/-! ### A request that is counted and refused -/

/-- Two overlays of one view. The first wraps slot 0 and is refused twice, the second is refused
before and after it changes slot 3. -/
def pairActs : List Act :=
  [.issue, .issue, .call 0 (.shared (.create (Context.blockAt 6 [0]))),
    .call 1 (.shared (.remove 2 3)), .call 0 (.shared (.replace 1 0 5)),
    .call 1 (.shared (.setWhitespace 3 ⟨" ", ""⟩)), .call 0 (.insertAt 4 7 5),
    .call 1 (.shared (.remove 4 9)), .call 0 (.shared (.create (Context.blockAt 7 [0, 0])))]

theorem count_eq_recordTotal_pair :
    (start 0 Context.strayTree {}).Trees pairActs ∧
      (start 0 Context.strayTree {}).HasRoom pairActs ∧
      ((start 0 Context.strayTree {}).run pairActs).count = 2 ∧
      ((start 0 Context.strayTree {}).run pairActs).count =
        recordTotal ((start 0 Context.strayTree {}).run pairActs).overlays := by
  have htrees : (start 0 Context.strayTree {}).Trees pairActs := by
    have hall : ∀ part ∈ pairActs.inits, ∀ o ∈ ((start 0 Context.strayTree {}).run part).overlays,
        o.IsTree := by decide +kernel
    exact fun part hpart => hall part ((List.mem_inits _ _).2 hpart)
  have hroom : (start 0 Context.strayTree {}).HasRoom pairActs := by
    have hall : ∀ part ∈ pairActs.inits, ∀ a ∈ pairActs,
        isOutOfRoom (((start 0 Context.strayTree {}).run part).act a).2 = false := by
      decide +kernel
    intro part a hpart
    exact hall part ((List.mem_inits _ _).2 ((List.prefix_append part [a]).trans hpart)) a
      (hpart.subset (by simp))
  exact ⟨htrees, hroom, by decide +kernel,
    ((count_eq_recordTotal (.built Context.finish_strayNodes) 0 {} pairActs).2.2 htrees hroom).1⟩

/-- Leave the link of slot 0 stray, as `Context.strayCalls` does, and insert slot 0 once more where
it is. -/
def leakActs : List Act :=
  [.issue, .call 0 (.shared (.remove 4 2)), .call 0 (.shared (.create (Context.blockAt 6 [0]))),
    .call 0 (.shared (.insert .before 4 6 3)), .call 0 (.shared (.remove 4 6)),
    .call 0 (.shared (.insert .before 4 2 3))]

/-- A request that is refused since its target lists the new child already, and is counted all the
same. -/
theorem count_leak :
    (((start 0 Context.strayTree {}).run leakActs).act (.call 0 (.insertAt 1 0 0))).2 =
        .error (.node (.repeatedChild (Context.blockAt 4 []).stableId 0)) ∧
      ((start 0 Context.strayTree {}).run leakActs).count = 4 ∧
      ((start 0 Context.strayTree {}).run (leakActs ++ [.call 0 (.insertAt 1 0 0)])).count = 5 ∧
      recordTotal ((start 0 Context.strayTree {}).run
        (leakActs ++ [.call 0 (.insertAt 1 0 0)])).overlays = 4 := by
  decide +kernel

end Session

end TreeEdit
