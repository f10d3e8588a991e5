import TreeEdit.Overlay.Merge
import TreeEdit.Proofs.Recording

/-!
# Replay as a fold of events

`Sealed.events` is the order in which a replay goes through a log: a node that the worker made is
brought over when the log comes to the record it was made before. `View.script` puts the events of a
batch together, and `View.replay_eq_script` says that a replay is a fold over it. So the generations
between the first and the merged one are those of the beginnings of the script.

`Replay.events_induction` is the induction over one log. It gives for each record that the nodes
made before it have been brought over.
-/

namespace TreeEdit

/-! ### Events -/

/-- One event of a replay. -/
inductive Event
  /-- The log of another worker begins. -/
  | enter
  /-- A node that the worker made is brought over. -/
  | bring (c : Created)
  /-- An edit is carried out again. -/
  | redo (record : Record)

namespace Replay

/-- One event. -/
def step (most : Nat) (r : Replay) : Event → Verdict Replay
  | .enter => .ok { r with imported := ∅ }
  | .bring c => r.importNode c
  | .redo record => r.applyRecord most record

/-- The events of the records from the given number on. -/
def events (index : Nat) (pending : List Created) : List Record → List Event
  | [] => pending.map .bring
  | record :: records =>
    (pending.takeWhile (·.after ≤ index)).map .bring ++
      .redo record :: events (index + 1) (pending.dropWhile (·.after ≤ index)) records

theorem foldlM_bring (most : Nat) (r : Replay) (cs : List Created) :
    (cs.map Event.bring).foldlM (step most) r = cs.foldlM importNode r := by
  rw [List.foldlM_map]
  rfl

theorem applyRecords_eq (most index : Nat) (pending : List Created) (records : List Record)
    (r : Replay) :
    r.applyRecords most index pending records =
      (events index pending records).foldlM (step most) r := by
  induction records generalizing index pending r with
  | nil => rw [applyRecords, events, foldlM_bring]
  | cons record records ih =>
    rw [applyRecords, events, List.foldlM_append, foldlM_bring]
    refine bind_congr fun r₁ => ?_
    rw [List.foldlM_cons]
    refine bind_congr fun r₂ => ?_
    exact ih _ _ r₂

theorem mem_of_bring_mem_events {index : Nat} {pending : List Created} {records : List Record}
    {c : Created} (h : Event.bring c ∈ events index pending records) : c ∈ pending := by
  induction records generalizing index pending with
  | nil => simpa [events] using h
  | cons record records ih =>
    simp only [events, List.mem_append, List.mem_map, List.mem_cons, reduceCtorEq, false_or,
      Event.bring.injEq, exists_eq_right] at h
    rcases h with h | h
    · exact (List.takeWhile_prefix _).subset h
    · exact (List.dropWhile_suffix _).subset (ih h)

end Replay

/-- The events of one log. -/
def Sealed.events (log : Sealed) : List Event :=
  .enter :: Replay.events 0 log.created log.records

/-- The nodes that a log brings over are those that it has made. -/
theorem Sealed.mem_created_of_bring {log : Sealed} {c : Created} (h : .bring c ∈ log.events) :
    c ∈ log.created := by
  rcases List.mem_cons.1 h with h | h
  · cases h
  · exact Replay.mem_of_bring_mem_events h

/-- The events of a batch. -/
def View.script (logs : List Sealed) : List Event :=
  (View.inWorkerOrder logs).flatMap Sealed.events

theorem Replay.applyLog_eq (most : Nat) (r : Replay) (log : Sealed) :
    applyLog most r log = log.events.foldlM (step most) r := by
  rw [applyLog, applyRecords_eq]
  rfl

theorem Replay.foldlM_applyLog (most : Nat) (r : Replay) (logs : List Sealed) :
    logs.foldlM (applyLog most) r = (logs.flatMap Sealed.events).foldlM (step most) r := by
  induction logs generalizing r with
  | nil => rfl
  | cons log logs ih =>
    rw [List.foldlM_cons, List.flatMap_cons, List.foldlM_append, applyLog_eq]
    exact bind_congr fun r₁ => ih r₁

/-- A replay goes through its script. -/
theorem View.replay_eq_script (v : View) (logs : List Sealed) :
    v.replay logs =
      (View.script logs).foldlM (Replay.step v.shared.limits.maxDepth) v.replayStart :=
  Replay.foldlM_applyLog _ _ _

/-! ### What holds all along -/

namespace Replay

variable {most : Nat} {es fs : List Event} {ev : Event} {Q : Replay → Prop} {r r₁ r' : Replay}

/-- A condition holds of every state that some events lead through. -/
def Along (most : Nat) (Q : Replay → Prop) (es : List Event) (r : Replay) : Prop :=
  ∀ part, part <+: es → ∀ r', part.foldlM (step most) r = .ok r' → Q r'

theorem Along.left (h : Along most Q (es ++ fs) r) : Along most Q es r := fun part hpart =>
  h part (hpart.trans (List.prefix_append es fs))

theorem Along.right (h : Along most Q (es ++ fs) r) (hfold : es.foldlM (step most) r = .ok r₁) :
    Along most Q fs r₁ := by
  intro part hpart r' hr'
  refine h (es ++ part) ((List.prefix_append_right_inj es).2 hpart) r' ?_
  rw [List.foldlM_append]
  exact Verdict.bind_eq_ok_iff.2 ⟨r₁, hfold, hr'⟩

theorem foldlM_singleton (most : Nat) (r : Replay) (ev : Event) :
    [ev].foldlM (step most) r = step most r ev := by
  rw [List.foldlM_cons]
  exact bind_pure _

theorem Along.head (h : Along most Q (ev :: es) r) (hstep : step most r ev = .ok r₁) : Q r₁ :=
  h [ev] (by simp) r₁ (by rwa [foldlM_singleton])

theorem Along.tail (h : Along most Q (ev :: es) r) (hstep : step most r ev = .ok r₁) :
    Along most Q es r₁ :=
  have h' : Along most Q ([ev] ++ es) r := h
  h'.right (by rwa [foldlM_singleton])

theorem foldlM_concat (h : es.foldlM (step most) r = .ok r₁) (hstep : step most r₁ ev = .ok r') :
    (es ++ [ev]).foldlM (step most) r = .ok r' := by
  rw [List.foldlM_append]
  exact Verdict.bind_eq_ok_iff.2 ⟨r₁, h, by rwa [foldlM_singleton]⟩

theorem Along.nil (h : Q r) : Along most Q [] r := by
  intro part hpart r' hfold
  rw [List.prefix_nil.1 hpart] at hfold
  cases hfold
  exact h

theorem Along.concat (h : Along most Q es r) (hfold : es.foldlM (step most) r = .ok r₁)
    (hstep : step most r₁ ev = .ok r') (hQ : Q r') : Along most Q (es ++ [ev]) r := by
  intro part hpart r₂ hpart₂
  rcases List.prefix_concat_iff.1 hpart with rfl | hle
  · rw [foldlM_concat hfold hstep] at hpart₂
    cases hpart₂
    exact hQ
  · exact h part hle r₂ hpart₂

end Replay

namespace View

variable {logs : List Sealed}

/-- Logs that are in the order of their workers are replayed as they are. -/
theorem inWorkerOrder_of_sorted (sorted : logs.Pairwise (·.worker ≤ ·.worker)) :
    inWorkerOrder logs = logs :=
  List.mergeSort_of_pairwise (sorted.imp fun h => decide_eq_true h)

theorem along_of_sorted (sorted : logs.Pairwise (·.worker ≤ ·.worker)) {most : Nat}
    {Q : Replay → Prop} {r : Replay}
    (along : ∀ part ∈ (logs.flatMap Sealed.events).inits,
      ∀ r' ∈ (part.foldlM (Replay.step most) r).toOption, Q r') :
    Replay.Along most Q (script logs) r := by
  intro part hpart r' hr'
  rw [script, inWorkerOrder_of_sorted sorted] at hpart
  exact along part ((List.mem_inits _ _).2 hpart) r' (by rw [hr']; rfl)

end View

namespace Replay

variable {most : Nat} {es fs : List Event} {ev : Event} {Q : Replay → Prop} {r r₁ r' : Replay}

/-! ### Induction over one log -/

variable {created : List Created} {records : List Record} {I : List Created → Nat → Replay → Prop}

theorem bring_induction
    (bring : ∀ done c k r r', done ++ [c] <+: created → I done k r → r.importNode c = .ok r' →
      Q r' → I (done ++ [c]) k r')
    {done due : List Created} {k : Nat} (hle : done ++ due <+: created) (start : I done k r)
    (hfold : (due.map Event.bring).foldlM (step most) r = .ok r')
    (hQ : Along most Q (due.map Event.bring) r) : I (done ++ due) k r' := by
  induction due generalizing done r with
  | nil =>
    cases hfold
    rwa [List.append_nil]
  | cons c due ih =>
    rw [List.map_cons] at hfold hQ
    obtain ⟨r₁, hstep, hrest⟩ := Verdict.bind_eq_ok_iff.1 hfold
    have hnext : done ++ [c] <+: created := List.IsPrefix.trans (by simp) hle
    rw [List.append_cons] at hle ⊢
    exact ih hle (bring done c k r r₁ hnext start hstep (hQ.head hstep)) hrest (hQ.tail hstep)

theorem takeWhile_after {pending : List Created} (hsorted : pending.Pairwise (·.after ≤ ·.after))
    {k : Nat} {c : Created} (hc : c ∈ pending) (hk : c.after ≤ k) :
    c ∈ pending.takeWhile (·.after ≤ k) := by
  induction pending with
  | nil => cases hc
  | cons d pending ih =>
    obtain ⟨hfirst, hsorted⟩ := List.pairwise_cons.1 hsorted
    have hd : d.after ≤ k := by
      rcases List.mem_cons.1 hc with rfl | hc
      · exact hk
      · exact Nat.le_trans (hfirst c hc) hk
    rw [List.takeWhile_cons_of_pos (by simpa using hd)]
    rcases List.mem_cons.1 hc with rfl | hc
    · exact List.mem_cons_self
    · exact List.mem_cons_of_mem _ (ih hsorted hc)

/-- The induction over one log, started in the middle. -/
theorem events_induction_from
    (bring : ∀ done c k r r', done ++ [c] <+: created → I done k r → r.importNode c = .ok r' →
      Q r' → I (done ++ [c]) k r')
    (redo : ∀ done k record r r', records[k]? = some record → done <+: created →
      (∀ c ∈ created, c.after ≤ k → c ∈ done) → I done k r → r.applyRecord most record = .ok r' →
      Q r' → I done (k + 1) r')
    (hsorted : created.Pairwise (·.after ≤ ·.after)) {done pending : List Created}
    {past rest : List Record} (hcreated : created = done ++ pending)
    (hrecords : records = past ++ rest) (start : I done past.length r)
    (hfold : (events past.length pending rest).foldlM (step most) r = .ok r')
    (hQ : Along most Q (events past.length pending rest) r) : I created records.length r' := by
  -- the invariant speaks of the whole log, so what is done and what is pending go along
  induction rest generalizing past done pending r with
  | nil =>
    subst hcreated hrecords
    rw [List.append_nil]
    exact bring_induction bring (List.prefix_refl _) start hfold hQ
  | cons record rest ih =>
    rw [events] at hfold hQ
    rw [List.foldlM_append] at hfold
    obtain ⟨r₁, hdue, hfold⟩ := Verdict.bind_eq_ok_iff.1 hfold
    obtain ⟨r₂, hstep, hrest⟩ := Verdict.bind_eq_ok_iff.1 hfold
    have hsplit := List.takeWhile_append_dropWhile (p := fun c : Created => c.after ≤ past.length)
      (l := pending)
    have hle : done ++ pending.takeWhile (·.after ≤ past.length) <+: created := by
      rw [hcreated]
      exact (List.prefix_append_right_inj done).2 (List.takeWhile_prefix _)
    have hall : ∀ c ∈ created, c.after ≤ past.length →
        c ∈ done ++ pending.takeWhile (·.after ≤ past.length) := by
      intro c hc hafter
      rw [hcreated] at hc hsorted
      rcases List.mem_append.1 hc with hc | hc
      · exact List.mem_append_left _ hc
      · exact List.mem_append_right _
          (takeWhile_after (List.pairwise_append.1 hsorted).2.1 hc hafter)
    have hmid := bring_induction bring hle start hdue hQ.left
    have hget : records[past.length]? = some record := by
      rw [hrecords, List.getElem?_append_right (Nat.le_refl _), Nat.sub_self]
      rfl
    have hnext := redo _ _ record r₁ r₂ hget hle hall hmid hstep ((hQ.right hdue).head hstep)
    have htail := (hQ.right hdue).tail hstep
    have hlen : past.length + 1 = (past ++ [record]).length := by simp
    rw [hlen] at hnext hrest htail
    refine ih ?_ ?_ hnext hrest htail
    · rw [List.append_assoc, hsplit, hcreated]
    · rw [hrecords, List.append_assoc, List.singleton_append]

/-- The induction over one log: bringing over the next node keeps an invariant, and so does the next
record once all nodes made before it have been brought over. -/
theorem events_induction
    (bring : ∀ done c k r r', done ++ [c] <+: created → I done k r → r.importNode c = .ok r' →
      Q r' → I (done ++ [c]) k r')
    (redo : ∀ done k record r r', records[k]? = some record → done <+: created →
      (∀ c ∈ created, c.after ≤ k → c ∈ done) → I done k r → r.applyRecord most record = .ok r' →
      Q r' → I done (k + 1) r')
    (hsorted : created.Pairwise (·.after ≤ ·.after)) (start : I [] 0 r)
    (hfold : (events 0 created records).foldlM (step most) r = .ok r')
    (hQ : Along most Q (events 0 created records) r) : I created records.length r' :=
  events_induction_from bring redo hsorted (List.nil_append created).symm
    (List.nil_append records).symm start hfold hQ

end Replay

end TreeEdit
