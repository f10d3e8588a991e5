import TreeEdit.Proofs.Generation

/-!
# Refused requests leave no trace

A request to an editor can be refused at many places: the target, a sibling, the level, the budget,
the path, the child list, what comes in, the new value, the room, a link of the path. None of them
comes after something has been added or counted: the copies of an edit go into the store one by one,
and `Store.applyEdit_cases` says that none of them is refused once the first is in. `Context.Alike`
says that two states of an editor differ in nothing that a later request could see; a refused
request ends in a state that is alike, and states that are alike answer alike. So a run may be
thinned out to the requests that are accepted.
-/

namespace TreeEdit

theorem Verdict.eq_error_of_map {α β : Type} {f : α → β} {x : Verdict α} {err : Error}
    (h : x.map f = .error err) : x = .error err := by
  cases x with
  | error e =>
    cases h
    rfl
  | ok a => cases h

namespace Context

variable {c c' d : Context} {call : Call} {e : Edit}

/-! ### States that are alike -/

/-- Two states of an editor that differ at most in the deepest level seen and in how often the store
has been opened for writing. -/
structure Alike (c c' : Context) : Prop where
  store : c'.store = c.store
  root : c'.root = c.root
  forward : c'.forward = c.forward
  limits : c'.guard.limits = c.guard.limits
  modifications : c'.guard.modifications = c.guard.modifications
  depth : c'.guard.depth = c.guard.depth

namespace Alike

theorem refl (c : Context) : Alike c c :=
  ⟨rfl, rfl, rfl, rfl, rfl, rfl⟩

theorem symm (h : Alike c c') : Alike c' c :=
  ⟨h.store.symm, h.root.symm, h.forward.symm, h.limits.symm, h.modifications.symm, h.depth.symm⟩

theorem trans (h : Alike c c') (h' : Alike c' d) : Alike c d :=
  ⟨h'.store.trans h.store, h'.root.trans h.root, h'.forward.trans h.forward,
    h'.limits.trans h.limits, h'.modifications.trans h.modifications, h'.depth.trans h.depth⟩

/-- A level that was opened and closed again leaves the deepest level seen, and no other trace. -/
theorem leave_of_enter {guard : Guard} {place : Option StableId}
    (h : c.guard.enter place = .ok guard) (revision : Nat) :
    Alike c { c with guard := guard.leave, revision } ∧ c.guard.deepest ≤ guard.leave.deepest := by
  obtain ⟨-, rfl⟩ := Guard.enter_eq_ok_iff.1 h
  exact ⟨⟨rfl, rfl, rfl, rfl, rfl, rfl⟩, Nat.le_max_left _ _⟩

end Alike

/-! ### A refused request -/

theorem alike_create {n : Node} {err : Error} (h : (c.create n).2 = .error err) :
    Alike c (c.create n).1 ∧ c.guard.deepest ≤ (c.create n).1.guard.deepest := by
  unfold create at h ⊢
  split
  · exact ⟨.refl c, Nat.le_refl _⟩
  · rename_i hrecent
    rw [hrecent] at h
    rcases c.store.alloc_cases n with ⟨e, he⟩ | ⟨hok, -, -⟩
    · rw [he]
      exact ⟨⟨rfl, rfl, rfl, rfl, rfl, rfl⟩, Nat.le_refl _⟩
    · rw [hok] at h
      cases h

theorem alike_apply {err : Error} (h : (c.apply e).2 = .error err) :
    Alike c (c.apply e).1 ∧ c.guard.deepest ≤ (c.apply e).1.guard.deepest := by
  unfold apply at h ⊢
  cases hnode : c.store.node e.target with
  | error err => exact ⟨.refl c, Nat.le_refl _⟩
  | ok target =>
    rw [hnode] at h
    dsimp only at h ⊢
    cases henter : c.guard.enter (some target.stableId) with
    | error err => exact ⟨.refl c, Nat.le_refl _⟩
    | ok guard =>
      rw [henter] at h
      dsimp only at h ⊢
      cases hbudget : guard.checkBudget (some target.stableId) with
      | error err => exact Alike.leave_of_enter henter c.revision
      | ok u =>
        rw [hbudget] at h
        dsimp only at h ⊢
        -- the store that comes back from a refused edit is the one that went in
        rcases c.store.applyEdit_cases c.forward guard.limits.maxDepth c.root e with
          ⟨err', happly⟩ | ⟨store, r, happly⟩
        · rw [happly]
          exact Alike.leave_of_enter henter (c.revision + 1)
        · rw [happly] at h
          cases h

/-- A refused request leaves a state that is alike, in which the deepest level seen may have
risen. -/
theorem alike_of_refused {err : Error} (h : (c.perform call).2 = .error err) :
    Alike c (c.perform call).1 ∧ c.guard.deepest ≤ (c.perform call).1.guard.deepest := by
  rcases c.perform_cases call with ⟨n, rfl⟩ | ⟨e, -, hperform⟩ |
    ⟨err', side, parent, new, sibling, -, -, hperform⟩
  · exact alike_create (Verdict.eq_error_of_map h)
  · rw [hperform] at h ⊢
    exact alike_apply (Verdict.eq_error_of_map h)
  · rw [hperform]
    exact ⟨.refl c, Nat.le_refl _⟩

/-! ### States that are alike answer alike -/

/-- Two outcomes of a request with one answer and with states that are alike. -/
def SameOutcome {α : Type} (out out' : Context × Verdict α) : Prop :=
  out'.2 = out.2 ∧ Alike out.1 out'.1

theorem SameOutcome.map {α β : Type} {out out' : Context × Verdict α} (h : SameOutcome out out')
    (f : α → β) : SameOutcome (out.map id (·.map f)) (out'.map id (·.map f)) :=
  ⟨congrArg (Except.map f) h.1, h.2⟩

namespace Alike

theorem create (h : Alike c c') (n : Node) : SameOutcome (c.create n) (c'.create n) := by
  unfold Context.create
  rw [h.forward, h.store]
  cases n.children.find? c.forward.isSuperseded with
  | some stale => exact ⟨rfl, h⟩
  | none => exact ⟨rfl, rfl, h.root, rfl, h.limits, h.modifications, h.depth⟩

theorem apply (h : Alike c c') (e : Edit) : SameOutcome (c.apply e) (c'.apply e) := by
  unfold Context.apply Guard.enter Guard.checkBudget
  rw [h.store, h.forward, h.root, h.depth, h.limits, h.modifications]
  cases c.store.node e.target with
  | error err => exact ⟨rfl, h⟩
  | ok target =>
    by_cases hdepth : c.guard.depth + 1 > c.guard.limits.maxDepth
    · simp only [if_pos hdepth]
      exact ⟨rfl, h⟩
    · simp only [if_neg hdepth]
      by_cases hcount : c.guard.modifications + 1 > c.guard.limits.maxModifications
      · simp only [if_pos hcount]
        exact ⟨rfl, rfl, rfl, rfl, rfl, rfl, rfl⟩
      · simp only [if_neg hcount]
        cases c.store.applyEdit c.forward c.guard.limits.maxDepth c.root e with
        | mk store answer =>
          cases answer with
          | error err => exact ⟨rfl, rfl, rfl, rfl, rfl, rfl, rfl⟩
          | ok r => exact ⟨rfl, rfl, rfl, rfl, rfl, rfl, rfl⟩

theorem insert (h : Alike c c') (side : Side) (parent new sibling : NodeId) :
    SameOutcome (c.insert side parent new sibling) (c'.insert side parent new sibling) := by
  unfold Context.insert
  rw [h.store]
  cases c.store.siblingIndex parent sibling side.offset with
  | error err => exact ⟨rfl, h⟩
  | ok index => exact h.apply _

/-- The answer to a request does not depend on the deepest level seen. -/
theorem perform (h : Alike c c') (call : Call) :
    SameOutcome (c.perform call) (c'.perform call) := by
  cases call with
  | create n => exact (h.create n).map some
  | insert side parent new sibling => exact (h.insert side parent new sibling).map _
  | replace parent old new => exact (h.apply _).map _
  | remove parent child => exact (h.apply _).map _
  | setWhitespace node whitespace => exact (h.apply _).map _
  | setComments node leading trailing => exact (h.apply _).map _

end Alike

/-! ### Runs without the refused requests -/

/-- The answers to requests that are made in order. -/
def answers (c : Context) : List Call → List (Verdict (Option NodeId))
  | [] => []
  | call :: calls => (c.perform call).2 :: (c.perform call).1.answers calls

/-- The requests of a run that are accepted. -/
def accepted (c : Context) : List Call → List Call
  | [] => []
  | call :: calls =>
    if (c.perform call).2.isOk then call :: (c.perform call).1.accepted calls
    else (c.perform call).1.accepted calls

/-- From a state that is alike, the accepted requests get the same answers and lead to a state that
is alike. -/
theorem Alike.run_accepted (h : Alike c d) (calls : List Call) :
    Alike (c.run calls) (d.run (c.accepted calls)) ∧
      d.answers (c.accepted calls) = (c.answers calls).filter (·.isOk) := by
  induction calls generalizing c d with
  | nil => exact ⟨h, rfl⟩
  | cons call calls ih =>
    rw [run_cons, accepted, answers]
    cases hanswer : (c.perform call).2 with
    | error err =>
      -- the thinned out run stays where it is
      have hnext : Alike (c.perform call).1 d := (alike_of_refused hanswer).1.symm.trans h
      exact ih hnext
    | ok id =>
      obtain ⟨hsame, hnext⟩ := h.perform call
      obtain ⟨hrun, hanswers⟩ := ih hnext
      refine ⟨hrun, ?_⟩
      show (d.perform call).2 :: (d.perform call).1.answers _ = _
      rw [hsame, hanswer, hanswers]
      rfl

/-- A refused request changes nothing but the deepest level seen, in whatever state the editor is.
The accepted requests of a run, without the others, get the same answers and so the same slots for
new nodes, and lead to the same store, root, copies and counts. -/
theorem refused_leaves_no_trace (c : Context) :
    (∀ call err, (c.perform call).2 = .error err →
      Alike c (c.perform call).1 ∧ c.guard.deepest ≤ (c.perform call).1.guard.deepest) ∧
    ∀ calls, Alike (c.run calls) (c.run (c.accepted calls)) ∧
      c.answers (c.accepted calls) = (c.answers calls).filter (·.isOk) :=
  ⟨fun _ _ => alike_of_refused, (Alike.refl c).run_accepted⟩

/-- Ten requests, four of them accepted. The others name a child twice, a node that is no child, a
sibling that is none, a target of an older generation, a child of an older generation, and a child
that is part of the tree. -/
def mixedCalls : List Call :=
  [.create (blockAt 6 [0, 0]), .create (blockAt 6 [0]), .remove 4 0, .replace 1 0 5,
    .insert .before 4 5 1, .setWhitespace 4 ⟨" ", ""⟩, .create (blockAt 7 [1]),
    .setWhitespace 0 ⟨" ", ""⟩, .insert .after 13 3 3, .remove 13 3]

theorem refused_leaves_no_trace_mixed :
    (((ofTree strayTree .single).perform (.insert .before 4 0 3)).2 =
        .error (.node (.alreadyAttached (leafAt 3).stableId 0)) ∧
      Alike (ofTree strayTree .single)
        ((ofTree strayTree .single).perform (.insert .before 4 0 3)).1 ∧
      ((ofTree strayTree .single).perform (.insert .before 4 0 3)).1.guard.deepest = 1) ∧
    (ofTree strayTree .single).accepted mixedCalls =
        [.create (blockAt 6 [0]), .replace 1 0 5, .setWhitespace 0 ⟨" ", ""⟩, .remove 13 3] ∧
      Alike ((ofTree strayTree .single).run mixedCalls)
        ((ofTree strayTree .single).run ((ofTree strayTree .single).accepted mixedCalls)) := by
  have hrefused : ((ofTree strayTree .single).perform (.insert .before 4 0 3)).2 =
      .error (.node (.alreadyAttached (leafAt 3).stableId 0)) := by decide +kernel
  obtain ⟨hone, hrun⟩ := refused_leaves_no_trace (ofTree strayTree .single)
  exact ⟨⟨hrefused, (hone _ _ hrefused).1, by decide +kernel⟩, by decide +kernel,
    (hrun mixedCalls).1⟩

end Context

end TreeEdit
