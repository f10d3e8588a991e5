import TreeEdit.Edit.Context
import TreeEdit.Proofs.Settling

/-!
# What a request does to an editor

`Context.Step` lists the outcomes of a request: it is refused and the generation stays, a node is
made, or an edit is carried out. `Context.step_perform` says that there are no others. What every
step keeps is then kept by every run.
-/

namespace TreeEdit

/-- The edit that a request asks for, with the place of a sibling looked up. -/
def Call.edit? (s : Store) : Call → Option Edit
  | create _ => none
  | replace parent old new => some (.replace parent old new)
  | insert side parent new sibling =>
    match s.siblingIndex parent sibling side.offset with
    | .ok index => some (.insert parent index new)
    | .error _ => none
  | remove parent child => some (.remove parent child)
  | setWhitespace node whitespace => some (.setWhitespace node whitespace)
  | setComments node leading trailing => some (.setComments node leading trailing)

/-- The child that a request brings into the tree. -/
def Call.entering? : Call → Option NodeId
  | replace _ old new => if new = old then none else some new
  | insert _ _ new _ => some new
  | _ => none

theorem Call.entering?_of_edit? {s : Store} {call : Call} {e : Edit}
    (h : call.edit? s = some e) : e.entering? = call.entering? := by
  cases call with
  | create n => cases h
  | insert side parent new sibling =>
    simp only [edit?] at h
    split at h
    · cases h
      rfl
    · cases h
  | replace parent old new => cases h; rfl
  | remove parent child => cases h; rfl
  | setWhitespace node whitespace => cases h; rfl
  | setComments node leading trailing => cases h; rfl

namespace Guard

theorem limits_of_enter {g g' : Guard} {place : Option StableId} (h : g.enter place = .ok g') :
    g'.limits = g.limits := by
  obtain ⟨-, rfl⟩ := enter_eq_ok_iff.1 h
  rfl

end Guard

namespace Context

variable {c c' : Context} {call : Call} {e : Edit}

/-! ### One request -/

/-- The outcomes of a request. -/
inductive Step (c : Context) (call : Call) : Context → Verdict (Option NodeId) → Prop
  | refused {c' : Context} (err : Error) (store : c'.store = c.store) (root : c'.root = c.root)
      (forward : c'.forward = c.forward) (limits : c'.guard.limits = c.guard.limits) :
      Step c call c' (.error err)
  | created {c' : Context} (n : Node) (asked : call = .create n)
      (checked : c.store.check n = .ok ())
      (recent : ∀ x ∈ n.children, c.forward.isSuperseded x = false)
      (store : c'.store = c.store.append [n]) (root : c'.root = c.root)
      (forward : c'.forward = c.forward) (limits : c'.guard.limits = c.guard.limits) :
      Step c call c' (.ok (some c.store.size))
  | edited {c' : Context} {e : Edit} {above : List NodeId} {current : Node} {r : Rebuilt}
      (asked : call.edit? c.store = some e)
      (found : c.store.path c.guard.limits.maxDepth c.root e.target = .ok ⟨e.target, above⟩)
      (done : Store.Edited c.store c.forward c.root e above current c'.store r)
      (root : c'.root = r.root) (forward : c'.forward = c.forward.record r)
      (limits : c'.guard.limits = c.guard.limits) : Step c call c' (.ok none)

theorem step_create (c : Context) (n : Node) :
    Step c (.create n) (c.perform (.create n)).1 (c.perform (.create n)).2 := by
  simp only [perform, create]
  cases hfind : n.children.find? c.forward.isSuperseded with
  | some stale => exact .refused _ rfl rfl rfl rfl
  | none =>
    have hrecent : ∀ x ∈ n.children, c.forward.isSuperseded x = false := by
      simpa using List.find?_eq_none.1 hfind
    rcases c.store.alloc_cases n with ⟨err, herr⟩ | ⟨hok, hcheck, -⟩
    · rw [herr]
      exact .refused _ rfl rfl rfl rfl
    · rw [hok]
      exact .created n rfl hcheck hrecent rfl rfl rfl rfl

theorem step_apply (asked : call.edit? c.store = some e) :
    Step c call (c.apply e).1 ((c.apply e).2.map fun _ => none) := by
  unfold apply
  cases c.store.node e.target with
  | error err => exact .refused err rfl rfl rfl rfl
  | ok target =>
    dsimp only
    cases henter : c.guard.enter (some target.stableId) with
    | error err => exact .refused err rfl rfl rfl rfl
    | ok guard =>
      have hlimits : guard.limits = c.guard.limits := Guard.limits_of_enter henter
      dsimp only
      cases guard.checkBudget (some target.stableId) with
      | error err =>
        show Step c call { c with guard := guard.leave } (.error err)
        exact .refused err rfl rfl rfl hlimits
      | ok u =>
        dsimp only
        rcases c.store.applyEdit_cases c.forward guard.limits.maxDepth c.root e with
          ⟨err, happly⟩ | ⟨store, r, happly⟩
        · rw [happly]
          exact .refused err rfl rfl rfl hlimits
        · obtain ⟨above, current, hpath, hedited⟩ := Store.applyEdit_eq_ok happly
          rw [happly]
          rw [hlimits] at hpath
          exact .edited asked hpath hedited rfl rfl hlimits

/-- A request makes a node, asks for an edit, or names a sibling that is none. -/
theorem perform_cases (c : Context) (call : Call) :
    (∃ n, call = .create n) ∨
      (∃ e, call.edit? c.store = some e ∧
        c.perform call = (c.apply e).map id (·.map fun _ => none)) ∨
      ∃ err side parent new sibling, call = .insert side parent new sibling ∧
        c.store.siblingIndex parent sibling side.offset = .error err ∧
        c.perform call = (c, .error err) := by
  cases call with
  | create n => exact Or.inl ⟨n, rfl⟩
  | replace parent old new => exact Or.inr (Or.inl ⟨_, rfl, rfl⟩)
  | remove parent child => exact Or.inr (Or.inl ⟨_, rfl, rfl⟩)
  | setWhitespace node whitespace => exact Or.inr (Or.inl ⟨_, rfl, rfl⟩)
  | setComments node leading trailing => exact Or.inr (Or.inl ⟨_, rfl, rfl⟩)
  | insert side parent new sibling =>
    simp only [perform, insert, Call.edit?]
    cases hindex : c.store.siblingIndex parent sibling side.offset with
    | error err => exact Or.inr (Or.inr ⟨err, side, parent, new, sibling, rfl, hindex, rfl⟩)
    | ok index => exact Or.inr (Or.inl ⟨_, rfl, rfl⟩)

/-- A request has one of the outcomes. -/
theorem step_perform (c : Context) (call : Call) :
    Step c call (c.perform call).1 (c.perform call).2 := by
  rcases c.perform_cases call with ⟨n, rfl⟩ | ⟨e, asked, hperform⟩ |
    ⟨err, side, parent, new, sibling, -, -, hperform⟩
  · exact step_create c n
  · rw [hperform]
    exact step_apply asked
  · rw [hperform]
    exact .refused err rfl rfl rfl rfl

/-! ### Sound editors -/

/-- The store is sound, the root exists, and only slots that exist have been copied. -/
structure Sound (c : Context) : Prop where
  store : c.store.Sound
  root : c.root < c.store.size
  forward : ∀ x, c.store.size ≤ x → c.forward.isSuperseded x = false

theorem Sound.ofTree {t : Tree} (ht : t.Sound) (limits : Limits) : (ofTree t limits).Sound where
  store := ht.store.layer
  root := by simpa [Context.ofTree] using ht.root
  forward _ _ := rfl

theorem Sound.step {answer : Verdict (Option NodeId)} (h : c.Sound)
    (hstep : Step c call c' answer) : c'.Sound := by
  cases hstep with
  | refused err store root forward limits =>
    exact ⟨store ▸ h.store, by rw [store, root]; exact h.root,
      by rw [store, forward]; exact h.forward⟩
  | created n asked checked recent store root forward limits =>
    have hchildren := ((Store.check_eq_ok_iff _ n).1 checked).2.1
    refine ⟨store ▸ h.store.append_singleton hchildren, ?_, fun x hx => ?_⟩
    · rw [store, root, Store.size_append]
      exact Nat.lt_succ_of_lt h.root
    · rw [store, Store.size_append] at hx
      rw [forward]
      exact h.forward x (Nat.le_of_succ_le hx)
  | @edited e above current r asked found done root forward limits =>
    refine ⟨done.sound h.store, ?_, fun x hx => ?_⟩
    · rw [root]
      exact done.root_lt
    · rw [done.copied.size_eq] at hx
      have hold := Nat.le_trans (Nat.le_add_right _ _) hx
      rw [forward, done.isSuperseded_record h.store]
      refine ⟨h.forward x hold, fun hmem => ?_⟩
      exact absurd (done.lt_size_of_mem_spine h.store hmem) (Nat.not_lt.2 hold)

theorem Sound.perform (h : c.Sound) (call : Call) : (c.perform call).1.Sound :=
  h.step (step_perform c call)

/-! ### Runs -/

@[simp] theorem run_nil (c : Context) : c.run [] = c := rfl

@[simp] theorem run_cons (c : Context) (call : Call) (calls : List Call) :
    c.run (call :: calls) = (c.perform call).1.run calls := rfl

/-- What every request keeps is kept by every run. -/
theorem run_induction {P : Context → Prop} (step : ∀ c call, P c → P (c.perform call).1)
    (start : P c) (calls : List Call) : P (c.run calls) := by
  induction calls generalizing c with
  | nil => exact start
  | cons call calls ih => exact ih (step c call start)

theorem Sound.run (h : c.Sound) (calls : List Call) : (c.run calls).Sound :=
  run_induction (fun _ call hc => hc.perform call) h calls

/-- If a property passes from one state of a sound editor to the next exactly under a condition,
then it holds all along a run exactly if the condition does. -/
theorem Sound.run_iff {P : Context → Prop} {Q : Context → Call → Prop}
    (step : ∀ c call, c.Sound → P c → (P (c.perform call).1 ↔ Q c call)) (h : c.Sound)
    (start : P c) (calls : List Call) :
    (∀ earlier, earlier <+: calls → P (c.run earlier)) ↔
      ∀ earlier call, earlier ++ [call] <+: calls → Q (c.run earlier) call := by
  induction calls generalizing c with
  | nil => simp [start]
  | cons first calls ih =>
    constructor
    · intro hall earlier call hle
      have hnext := hall [first] (by simp)
      cases earlier with
      | nil =>
        obtain rfl : call = first := by simpa using hle
        exact (step c call h start).1 hnext
      | cons second earlier =>
        obtain ⟨rfl, hrest⟩ := List.cons_prefix_cons.1 hle
        refine (ih (h.perform second) hnext).1 (fun early hearly => ?_) earlier call hrest
        exact hall (second :: early) (List.cons_prefix_cons.2 ⟨rfl, hearly⟩)
    · intro hall earlier hle
      cases earlier with
      | nil => exact start
      | cons second earlier =>
        obtain ⟨rfl, hrest⟩ := List.cons_prefix_cons.1 hle
        have hnext := (step c second h start).2 (hall [] second (by simp))
        refine (ih (h.perform second) hnext).2 (fun early call hearly => ?_) earlier hrest
        exact hall (second :: early) call (List.cons_prefix_cons.2 ⟨rfl, hearly⟩)

end Context

end TreeEdit
