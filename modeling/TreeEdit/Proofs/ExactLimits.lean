import TreeEdit.Proofs.Refinement
import TreeEdit.Proofs.Refusing

/-!
# The limits of an editor

An editor opens a level and asks for budget before it looks at an edit, and counts the edit and
closes the level after it has been carried out. In between it can be refused for many reasons, and
then the level is closed and nothing is counted. `Guard.Advances` says what one request does to the
guard. Over a run it adds up: the count is the number of edits that have been carried out, and no
level is left open.
-/

namespace TreeEdit

/-- Whether a request asks for an edit. -/
def Call.isEdit (call : Call) : Bool :=
  call.target?.isSome

/-! ### What a request does to a guard -/

namespace Guard

variable {g g' g'' : Guard} {k l : Nat}

/-- A guard after some more edits: it has counted them, within its limit. -/
structure Advances (k : Nat) (g g' : Guard) : Prop where
  limits : g'.limits = g.limits
  depth : g'.depth = g.depth
  count : g'.modifications = g.modifications + k
  within : k ≠ 0 → g'.modifications ≤ g.limits.maxModifications

theorem Advances.refl (g : Guard) : Advances 0 g g :=
  ⟨rfl, rfl, rfl, fun h => absurd rfl h⟩

theorem Advances.trans (h : Advances k g g') (h' : Advances l g' g'') :
    Advances (k + l) g g'' where
  limits := h'.limits.trans h.limits
  depth := h'.depth.trans h.depth
  count := by rw [h'.count, h.count, Nat.add_assoc]
  within hne := by
    by_cases hl : l = 0
    · subst hl
      rw [h'.count]
      exact h.within hne
    · rw [← h.limits]
      exact h'.within hl

end Guard

namespace Context

variable {c : Context} {call : Call} {e : Edit}

theorem Alike.advances {c' : Context} (h : Alike c c') : Guard.Advances 0 c.guard c'.guard where
  limits := h.limits
  depth := h.depth
  count := h.modifications
  within hne := absurd rfl hne

/-- An edit that is carried out is counted, and was within the limit. -/
theorem advances_apply (h : (c.apply e).2 = .ok ()) :
    Guard.Advances 1 c.guard (c.apply e).1.guard := by
  -- there are four places to be refused at, and each of them answers with an error
  unfold apply at h ⊢
  cases hnode : c.store.node e.target with
  | error err =>
    rw [hnode] at h
    cases h
  | ok target =>
    rw [hnode] at h
    dsimp only at h ⊢
    cases henter : c.guard.enter (some target.stableId) with
    | error err =>
      rw [henter] at h
      cases h
    | ok guard =>
      rw [henter] at h
      dsimp only at h ⊢
      cases hbudget : guard.checkBudget (some target.stableId) with
      | error err =>
        rw [hbudget] at h
        cases h
      | ok u =>
        rw [hbudget] at h
        dsimp only at h ⊢
        rcases c.store.applyEdit_cases c.forward guard.limits.maxDepth c.root e with
          ⟨err, happly⟩ | ⟨store, r, happly⟩
        · rw [happly] at h
          cases h
        · rw [happly]
          obtain ⟨-, rfl⟩ := Guard.enter_eq_ok_iff.1 henter
          have hleft := Guard.checkBudget_eq_ok_iff.1 hbudget
          exact ⟨rfl, rfl, rfl, fun _ => hleft⟩

theorem guard_create (c : Context) (n : Node) : (c.create n).1.guard = c.guard := by
  unfold create
  split <;> rfl

/-- A request that is accepted is counted if it is an edit. -/
theorem advances_perform (h : (c.perform call).2.isOk = true) :
    Guard.Advances call.isEdit.toNat c.guard (c.perform call).1.guard := by
  rcases c.perform_cases call with ⟨n, rfl⟩ | ⟨e, asked, hperform⟩ |
    ⟨err, side, parent, new, sibling, rfl, -, hperform⟩
  · have hguard : (c.perform (.create n)).1.guard = c.guard := guard_create c n
    rw [hguard]
    exact .refl c.guard
  · rw [hperform] at h ⊢
    rw [Call.isEdit, Call.target?_of_edit? asked]
    refine advances_apply ?_
    cases hanswer : (c.apply e).2 with
    | ok u => rfl
    | error err =>
      rw [Prod.map_snd, hanswer] at h
      cases h
  · rw [hperform] at h
    cases h

/-- A run counts the edits that are accepted. -/
theorem advances_run (c : Context) (calls : List Call) :
    Guard.Advances ((c.accepted calls).countP Call.isEdit) c.guard (c.run calls).guard := by
  induction calls generalizing c with
  | nil => exact .refl c.guard
  | cons call calls ih =>
    rw [run_cons, accepted]
    cases hanswer : (c.perform call).2 with
    | error err =>
      have hsame := (alike_of_refused hanswer).1.advances
      have hall := hsame.trans (ih (c.perform call).1)
      rwa [Nat.zero_add] at hall
    | ok id =>
      have hok : (c.perform call).2.isOk = true := by rw [hanswer]; rfl
      have hall := (advances_perform hok).trans (ih (c.perform call).1)
      have hcount : (call :: (c.perform call).1.accepted calls).countP Call.isEdit =
          call.isEdit.toNat + ((c.perform call).1.accepted calls).countP Call.isEdit := by
        rw [List.countP_cons, Nat.add_comm]
        cases call.isEdit <;> rfl
      exact hcount ▸ hall

/-! ### An editor that has no budget left -/

theorem apply_of_spent (hdepth : c.guard.depth < c.guard.limits.maxDepth)
    (hspent : c.guard.modifications = c.guard.limits.maxModifications) {n : Node}
    (hn : c.store.get? e.target = some n) :
    (c.apply e).2 = .error (.limit .modifications (c.guard.limits.maxModifications + 1)
      c.guard.limits.maxModifications (some n.stableId)) := by
  obtain ⟨guard, henter, hlimits, hcount⟩ : ∃ guard,
      c.guard.enter (some n.stableId) = .ok guard ∧
      guard.limits = c.guard.limits ∧ guard.modifications = c.guard.modifications :=
    ⟨_, Guard.enter_eq_ok_iff.2 ⟨hdepth, rfl⟩, rfl, rfl⟩
  have hbudget : guard.checkBudget (some n.stableId) =
      .error (.limit .modifications (c.guard.limits.maxModifications + 1)
        c.guard.limits.maxModifications (some n.stableId)) := by
    rw [Guard.checkBudget_eq_error_iff, hlimits, hcount, hspent]
    exact ⟨Nat.le_refl _, rfl⟩
  unfold apply
  rw [Store.node_eq_ok_iff.2 hn]
  dsimp only
  rw [henter]
  dsimp only
  rw [hbudget]

/-- Every edit is refused. -/
theorem exists_error_of_spent
    (hspent : c.guard.modifications = c.guard.limits.maxModifications)
    (hedit : call.isEdit = true) : ∃ err, (c.perform call).2 = .error err := by
  cases hanswer : (c.perform call).2 with
  | error err => exact ⟨err, rfl⟩
  | ok id =>
    have hok : (c.perform call).2.isOk = true := by rw [hanswer]; rfl
    have hone := advances_perform hok
    rw [hedit] at hone
    have hle := hone.within Nat.one_ne_zero
    rw [hone.count, hspent] at hle
    exact absurd hle (Nat.not_succ_le_self _)

/-- An edit of a node that exists is refused for want of budget. A sibling is looked up before that,
so it has to be one. -/
theorem perform_of_spent (hdepth : c.guard.depth < c.guard.limits.maxDepth)
    (hspent : c.guard.modifications = c.guard.limits.maxModifications) {target : NodeId} {n : Node}
    (asked : call.target? = some target) (hn : c.store.get? target = some n)
    (hsibling : ∀ side new sibling, call = .insert side target new sibling →
      sibling ∈ n.children) :
    (c.perform call).2 = .error (.limit .modifications (c.guard.limits.maxModifications + 1)
      c.guard.limits.maxModifications (some n.stableId)) := by
  rcases c.perform_cases call with ⟨m, rfl⟩ | ⟨e, hedit, hperform⟩ |
    ⟨err, side, parent, new, sibling, rfl, hindex, -⟩
  · cases asked
  · obtain rfl := Option.some.inj ((Call.target?_of_edit? hedit).symm.trans asked)
    rw [hperform, Prod.map_snd, apply_of_spent hdepth hspent hn]
    rfl
  · obtain rfl := Option.some.inj asked
    have hmem := hsibling side new sibling rfl
    rw [Store.siblingIndex_eq_ok_iff.2 ⟨n, hn, hmem, rfl⟩] at hindex
    cases hindex

/-- The path of an edit that is carried out is within the limit, and one slot is added for each node
of it. -/
theorem exists_path_of_ok (hd : 1 ≤ c.guard.limits.maxDepth) {target : NodeId}
    (asked : call.target? = some target) (h : (c.perform call).2.isOk = true) :
    ∃ way, c.store.path c.guard.limits.maxDepth c.root target = .ok way ∧
      way.length ≤ c.guard.limits.maxDepth ∧
      (c.perform call).1.store.size = c.store.size + way.length := by
  have hstep := step_perform c call
  generalize (c.perform call).1 = c', (c.perform call).2 = answer at hstep h ⊢
  cases hstep with
  | refused err store root forward limits => cases h
  | created n made checked recent store root forward limits =>
    subst made
    cases asked
  | @edited e above current r hedit found done root forward limits =>
    obtain rfl := Option.some.inj ((Call.target?_of_edit? hedit).symm.trans asked)
    obtain ⟨-, -, -, hlength, -⟩ := Store.path_eq_ok_iff.1 found
    exact ⟨_, found, Nat.add_le_of_le_sub hd hlength, done.copied.size_eq⟩

/-! ### Runs -/

/-- The limits `d` on the depth and `m` on the number of edits are exact in a state in which some
edits have been carried out. -/
structure KeepsLimits (c : Context) (d m edits : Nat) : Prop where
  count : c.guard.modifications = edits
  le : c.guard.modifications ≤ m
  closed : c.guard.depth = 0
  /-- The path of an edit that is carried out next has at most `d` nodes. -/
  path : ∀ call target, call.target? = some target → (c.perform call).2.isOk = true →
    ∃ way, c.store.path d c.root target = .ok way ∧ way.length ≤ d ∧
      (c.perform call).1.store.size = c.store.size + way.length
  /-- Once the budget is spent it stays so, and every edit is refused, for this reason if the target
  and the sibling are there. -/
  spent : c.guard.modifications = m → (∀ more, (c.run more).guard.modifications = m) ∧
    ∀ call target, call.target? = some target → ∃ err, (c.perform call).2 = .error err ∧
      (c.perform call).1.store = c.store ∧ (c.perform call).1.root = c.root ∧
      (c.perform call).1.guard.modifications = m ∧
      ∀ n, c.store.get? target = some n →
        (∀ side new sibling, call = .insert side target new sibling → sibling ∈ n.children) →
        err = .limit .modifications (m + 1) m (some n.stableId)

theorem keepsLimits_of_advances {g : Guard} {edits : Nat} (hd : 1 ≤ g.limits.maxDepth)
    (fresh : g.modifications = 0) (closed : g.depth = 0) (h : Guard.Advances edits g c.guard) :
    KeepsLimits c g.limits.maxDepth g.limits.maxModifications edits := by
  have hlimits := h.limits
  have hcount : c.guard.modifications = edits := by rw [h.count, fresh, Nat.zero_add]
  constructor
  · exact hcount
  · by_cases hnone : edits = 0
    · rw [hcount, hnone]
      exact Nat.zero_le _
    · exact h.within hnone
  · exact h.depth.trans closed
  · intro call target asked hok
    rw [← hlimits] at hd ⊢
    exact exists_path_of_ok hd asked hok
  · intro hspent
    have hfull : c.guard.modifications = c.guard.limits.maxModifications := by
      rw [hlimits, hspent]
    constructor
    · intro more
      have hmore := c.advances_run more
      by_cases hnone : (c.accepted more).countP Call.isEdit = 0
      · rw [hmore.count, hnone, hspent, Nat.add_zero]
      · have hle := hmore.within hnone
        rw [hmore.count] at hle
        omega
    · intro call target asked
      have hedit : call.isEdit = true := by rw [Call.isEdit, asked, Option.isSome_some]
      obtain ⟨err, herr⟩ := exists_error_of_spent hfull hedit
      have halike := (alike_of_refused herr).1
      refine ⟨err, herr, halike.store, halike.root, halike.modifications.trans hspent, ?_⟩
      intro n hn hsibling
      have hdepth : c.guard.depth < c.guard.limits.maxDepth := by
        rw [h.depth, closed, hlimits]
        exact hd
      have hanswer := perform_of_spent hdepth hfull asked hn hsibling
      rw [herr, hlimits] at hanswer
      exact Except.error.inj hanswer

/-- From any tree and after any requests, accepted or refused, an editor has counted the edits that
were carried out, at most as many as it may, and no level is open. No edit along a longer path than
allowed is carried out, and none at all once the count has come to its limit. -/
theorem limits_exact (t : Tree) {d m : Nat} (hd : 1 ≤ d) (calls : List Call) :
    KeepsLimits ((ofTree t ⟨d, m⟩).run calls) d m
      (((ofTree t ⟨d, m⟩).accepted calls).countP Call.isEdit) :=
  keepsLimits_of_advances (g := { limits := ⟨d, m⟩ }) hd rfl rfl
    ((ofTree t ⟨d, m⟩).advances_run calls)

/-- Two edits that are carried out, with three requests between them that are not: the path is too
long, the sibling is none, and the child is not listed. -/
def tightCalls : List Call :=
  [.create (leafAt 6), .setWhitespace 2 ⟨" ", ""⟩, .setWhitespace 0 ⟨" ", ""⟩,
    .insert .before 7 5 0, .remove 7 0, .insert .after 7 5 3]

theorem limits_exact_tight :
    let c := (ofTree strayTree ⟨2, 2⟩).run tightCalls
    c.guard.modifications = 2 ∧
      (c.perform (.remove 8 3)).2 =
        .error (.limit .modifications 3 2 (some (blockAt 1 []).stableId)) ∧
      (c.perform (.insert .before 8 9 0)).2.isOk = false ∧
      (c.perform (.create (leafAt 7))).2 = .ok (some 9) ∧
      KeepsLimits c 2 2 2 := by
  refine ⟨by decide +kernel, by decide +kernel, by decide +kernel, by decide +kernel, ?_⟩
  have hcount : ((ofTree strayTree ⟨2, 2⟩).accepted tightCalls).countP Call.isEdit = 2 := by
    decide +kernel
  have hkeeps := limits_exact strayTree (d := 2) (m := 2) (by decide) tightCalls
  rwa [hcount] at hkeeps

end Context

end TreeEdit
