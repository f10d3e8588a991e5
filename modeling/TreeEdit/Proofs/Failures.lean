import TreeEdit.Edit.Context
import TreeEdit.Proofs.Sound

/-!
# What planning and rebuilding are refused for

`Verdict.FailsFor` says of which kind the refusals of a request are. Whatever a plan or a rebuilding
is refused for, it is something about the nodes and slots that it names, except that a path may be
too long: `Store.failsFor_plan` and `Store.failsFor_rebuild`.
-/

namespace TreeEdit

/-- The refusal is about a node or a slot. -/
def Error.IsLocal : Error → Prop
  | .limit .. => False
  | .conflict .. => False
  | .config .. => False
  | _ => True

/-- The refusal is about a path with more nodes than allowed. -/
def Error.IsDepthLimit (most : Nat) (e : Error) : Prop :=
  ∃ attempted place, e = .limit .recursionDepth attempted most place

namespace Verdict

variable {α β : Type} {P Q : Error → Prop}

/-- If the request is refused, then for a reason of the given kind. -/
def FailsFor (P : Error → Prop) : Verdict α → Prop
  | .error e => P e
  | .ok _ => True

theorem FailsFor.mono {a : Verdict α} (h : a.FailsFor P) (hPQ : ∀ e, P e → Q e) :
    a.FailsFor Q := by
  cases a with
  | error e => exact hPQ e h
  | ok x => trivial

theorem FailsFor.bind {a : Verdict α} {f : α → Verdict β} (ha : a.FailsFor P)
    (hf : ∀ x, (f x).FailsFor P) : FailsFor P (a >>= f) := by
  cases a with
  | error e => exact ha
  | ok x => exact hf x

theorem FailsFor.map {a : Verdict α} (h : a.FailsFor P) (f : α → β) :
    FailsFor P (a.map f) := by
  cases a with
  | error e => exact h
  | ok x => trivial

end Verdict

open Verdict (FailsFor)

theorem Node.failsFor_validate (n : Node) : n.validate.FailsFor Error.IsLocal := by
  rw [validate, Hints.validate]
  repeat' split
  all_goals trivial

namespace Store

variable (s : Store) (f : Forward)

theorem failsFor_node (id : NodeId) : (s.node id).FailsFor Error.IsLocal := by
  rw [node]
  split <;> trivial

theorem failsFor_path (most : Nat) (root target : NodeId) :
    (s.path most root target).FailsFor fun e => e.IsLocal ∨ e.IsDepthLimit most := by
  refine ((s.failsFor_node target).mono fun _ => Or.inl).bind fun n => ?_
  dsimp only
  split
  · exact Or.inr ⟨_, _, rfl⟩
  · split
    · exact Or.inl trivial
    · trivial

theorem failsFor_position (parent : Node) (child : NodeId) :
    (s.position parent child).FailsFor Error.IsLocal := by
  rw [position, notAChild]
  repeat' split
  all_goals trivial

theorem failsFor_siblingIndex (parent sibling : NodeId) (offset : Nat) :
    (s.siblingIndex parent sibling offset).FailsFor Error.IsLocal :=
  (s.failsFor_node parent).bind fun n => (s.failsFor_position n sibling).bind fun _ => trivial

theorem failsFor_detachedWalk (root : NodeId) (leaving : Option NodeId) (seen : IdSet)
    (stack : List NodeId) :
    (s.detachedWalk f root leaving seen stack).FailsFor Error.IsLocal := by
  fun_induction detachedWalk s f root leaving seen stack <;> trivial

theorem failsFor_replacement (root : NodeId) (current : Node) (e : Edit) :
    (s.replacement f root current e).FailsFor Error.IsLocal := by
  cases e with
  | replace parent old new =>
    refine (s.failsFor_position current old).bind fun index => ?_
    split
    · exact (s.failsFor_detachedWalk f root _ _ _).bind fun _ => trivial
    · trivial
  | insert parent index new =>
    rw [replacement]
    split
    · trivial
    · exact (s.failsFor_detachedWalk f root _ _ _).bind fun _ => trivial
  | remove parent child => exact (s.failsFor_position current child).bind fun _ => trivial
  | setWhitespace target whitespace => trivial
  | setComments target leading trailing => trivial

theorem failsFor_plan (most : Nat) (root : NodeId) (e : Edit) :
    (s.plan f most root e).FailsFor fun e => e.IsLocal ∨ e.IsDepthLimit most :=
  (s.failsFor_path most root e.target).bind fun _ =>
    ((s.failsFor_node e.target).mono fun _ => Or.inl).bind fun current =>
      ((s.failsFor_replacement f root current e).mono fun _ => Or.inl).bind fun value =>
        (value.failsFor_validate.mono fun _ => Or.inl).bind fun _ => trivial

theorem failsFor_check (n : Node) : (s.check n).FailsFor Error.IsLocal := by
  refine n.failsFor_validate.bind fun _ => ?_
  repeat' split
  all_goals trivial

theorem failsFor_checkRoom (count : Nat) : (s.checkRoom count).FailsFor Error.IsLocal := by
  rw [checkRoom]
  split <;> trivial

theorem failsFor_push (n : Node) : (s.push n).2.FailsFor Error.IsLocal := by
  have hroom := s.failsFor_checkRoom 1
  rw [push]
  cases hcheck : s.checkRoom 1 with
  | error err =>
    rw [hcheck] at hroom
    exact hroom
  | ok u => trivial

theorem failsFor_alloc (n : Node) : (s.alloc n).2.FailsFor Error.IsLocal := by
  have hvalue := s.failsFor_check n
  rw [alloc]
  cases hcheck : s.check n with
  | error err =>
    rw [hcheck] at hvalue
    exact hvalue
  | ok u => exact s.failsFor_push n

theorem failsFor_ancestorCopies (child copy : NodeId) (above : List NodeId) :
    (s.ancestorCopies child copy above).FailsFor Error.IsLocal := by
  induction above generalizing child copy with
  | nil => trivial
  | cons id above ih =>
    refine (s.failsFor_node id).bind fun n => ?_
    split
    · trivial
    · exact (ih id (copy + 1)).bind fun _ => trivial

theorem failsFor_planCopies (way : Path) (value : Node) :
    (s.planCopies way value).FailsFor Error.IsLocal :=
  (s.failsFor_check value).bind fun _ =>
    (s.failsFor_checkRoom way.length).bind fun _ =>
      (s.failsFor_ancestorCopies _ _ _).bind fun _ => trivial

theorem failsFor_pushCopies (values : List (Node × NodeId)) :
    (s.pushCopies values).2.FailsFor Error.IsLocal := by
  induction values generalizing s with
  | nil => trivial
  | cons first rest ih =>
    have hpush := s.failsFor_push first.1
    rw [pushCopies]
    split <;> rename_i heq
    · rwa [heq] at hpush
    · exact (ih _).map _

theorem failsFor_rebuild (way : Path) (value : Node) :
    (s.rebuild way value).2.FailsFor Error.IsLocal := by
  have hplan := s.failsFor_planCopies way value
  rw [rebuild]
  split <;> rename_i values heq
  · rwa [heq] at hplan
  · have hpush := s.failsFor_pushCopies (values.zip (way.target :: way.above))
    split <;> rename_i heq'
    · rwa [heq'] at hpush
    · trivial

theorem failsFor_applyEdit (most : Nat) (root : NodeId) (e : Edit) :
    (s.applyEdit f most root e).2.FailsFor fun e => e.IsLocal ∨ e.IsDepthLimit most := by
  have hplan := s.failsFor_plan f most root e
  rw [applyEdit]
  split <;> rename_i heq
  · rwa [heq] at hplan
  · exact (s.failsFor_rebuild _ _).mono fun _ => Or.inl

end Store

end TreeEdit
