import TreeEdit.Overlay.Conflict
import TreeEdit.Proofs.Sound

/-!
# What a search for conflicts finds

`Sealed.targets` notes for each stable name the workers that change it, and `Sealed.removers` for
each node of the view the first worker that takes it out. `View.conflicts_eq_nil_iff` says what it
means that nothing is found: all records of one stable name are of one worker, and whoever changes
something at or below a node that is taken out is the first to take it out. A log alone has no
conflict at all.
-/

namespace TreeEdit

namespace Sealed

variable {logs : List Sealed} {log : Sealed} {found : List (StableId × List WorkerId)}
  {target t : StableId} {worker : WorkerId}

/-! ### Places that several workers change -/

/-- The workers of a place after one more note. -/
theorem lookup_noteTarget (target : StableId) (worker : WorkerId)
    (found : List (StableId × List WorkerId)) (t : StableId) :
    (noteTarget target worker found).lookup t =
      if t = target then
        match found.lookup target with
        | some workers => some (if worker ∈ workers then workers else workers ++ [worker])
        | none => some [worker]
      else found.lookup t := by
  induction found with
  | nil =>
    by_cases h : t = target
    · simp [noteTarget, h]
    · simp [noteTarget, List.lookup_cons, h, beq_eq_false_iff_ne.2 h]
  | cons place found ih =>
    obtain ⟨u, workers⟩ := place
    by_cases hu : u = target
    · subst hu
      by_cases h : t = u
      · simp [noteTarget, h]
      · simp [noteTarget, List.lookup_cons, h, beq_eq_false_iff_ne.2 h]
    · have hne := beq_eq_false_iff_ne.2 (Ne.symm hu)
      by_cases h : t = u
      · subst h
        simp [noteTarget, hu]
      · simp only [noteTarget, if_neg hu, List.lookup_cons, beq_eq_false_iff_ne.2 h, hne, ih]

/-- A condition on every place and its workers, with one more note. -/
theorem forall_mem_noteTarget {Q : StableId → List WorkerId → Prop} (single : Q target [worker])
    (grow : ∀ workers, Q target workers → worker ∉ workers → Q target (workers ++ [worker]))
    (h : ∀ place ∈ found, Q place.1 place.2) :
    ∀ place ∈ noteTarget target worker found, Q place.1 place.2 := by
  induction found with
  | nil =>
    intro place hplace
    rwa [List.mem_singleton.1 hplace]
  | cons first found ih =>
    obtain ⟨hfirst, hrest⟩ := List.forall_mem_cons.1 h
    simp only [noteTarget]
    split
    · rename_i htarget
      refine List.forall_mem_cons.2 ⟨?_, hrest⟩
      rw [htarget] at hfirst ⊢
      dsimp only
      split
      · exact hfirst
      · exact grow _ hfirst ‹_›
    · exact List.forall_mem_cons.2 ⟨hfirst, ih hrest⟩

/-- Every record is noted. -/
theorem exists_lookup_foldl (records : List Record) (found : List (StableId × List WorkerId))
    {record : Record}
    (h : record ∈ records ∨ ∃ workers, found.lookup record.target = some workers ∧
      record.worker ∈ workers) :
    ∃ workers,
      (records.foldl (fun found r => noteTarget r.target r.worker found) found).lookup
        record.target = some workers ∧ record.worker ∈ workers := by
  induction records generalizing found with
  | nil => simpa using h
  | cons first records ih =>
    -- the record is the first of all, comes later, or has been noted before
    refine ih _ ?_
    by_cases hrest : record ∈ records
    · exact Or.inl hrest
    · right
      rw [lookup_noteTarget]
      by_cases htarget : record.target = first.target
      · rw [if_pos htarget, ← htarget]
        rcases h with hmem | ⟨workers, hlookup, hworker⟩
        · obtain rfl := (List.mem_cons.1 hmem).resolve_right hrest
          split
          · refine ⟨_, rfl, ?_⟩
            split
            · assumption
            · simp
          · exact ⟨_, rfl, List.mem_singleton.2 rfl⟩
        · rw [hlookup]
          refine ⟨_, rfl, ?_⟩
          split
          · exact hworker
          · exact List.mem_append_left _ hworker
      · rw [if_neg htarget]
        rcases h with hmem | hnoted
        · obtain rfl := (List.mem_cons.1 hmem).resolve_right hrest
          exact absurd rfl htarget
        · exact hnoted

theorem mem_of_lookup_eq_some {workers : List WorkerId} (h : found.lookup t = some workers) :
    (t, workers) ∈ found := by
  induction found with
  | nil => cases h
  | cons place found ih =>
    obtain ⟨u, ws⟩ := place
    rw [List.lookup_cons] at h
    split at h
    · rename_i heq
      cases h
      rw [eq_of_beq heq]
      exact List.mem_cons_self
    · exact List.mem_cons_of_mem _ (ih h)

/-- If no place is in conflict, the records of a place are of one worker. -/
theorem worker_eq_of_sameTargets (h : sameTargets logs = []) {r₁ r₂ : Record}
    (h₁ : r₁ ∈ logs.flatMap (·.records)) (h₂ : r₂ ∈ logs.flatMap (·.records))
    (htarget : r₁.target = r₂.target) : r₁.worker = r₂.worker := by
  obtain ⟨workers, hlookup, hw₁⟩ := exists_lookup_foldl _ [] (Or.inl h₁)
  obtain ⟨others, hsame, hw₂⟩ := exists_lookup_foldl _ [] (Or.inl h₂)
  rw [← htarget, hlookup, Option.some.injEq] at hsame
  subst hsame
  have hfew := List.filterMap_eq_nil_iff.1 h _ (mem_of_lookup_eq_some hlookup)
  have hlen : workers.length ≤ 1 := by
    by_contra hmany
    simp [Nat.not_le.1 hmany] at hfew
  obtain ⟨w, rfl⟩ := List.length_eq_one_iff.1 (Nat.le_antisymm hlen (List.length_pos_of_mem hw₁))
  rw [List.mem_singleton.1 hw₁, List.mem_singleton.1 hw₂]

/-- The workers of a place are different, and each of them has a record of it. -/
theorem forall_mem_targets {records : List Record} :
    ∀ place ∈ records.foldl (fun found r => noteTarget r.target r.worker found) [],
      place.2.Nodup ∧ ∀ w ∈ place.2, ∃ r ∈ records, r.target = place.1 ∧ r.worker = w := by
  induction records using List.reverseRecOn with
  | nil => simp
  | append_singleton records last ih =>
    rw [List.foldl_append]
    have hlast : ∃ r ∈ records ++ [last], r.target = last.target ∧ r.worker = last.worker :=
      ⟨last, by simp, rfl, rfl⟩
    refine forall_mem_noteTarget (Q := fun t ws => ws.Nodup ∧ ∀ w ∈ ws,
      ∃ r ∈ records ++ [last], r.target = t ∧ r.worker = w) ⟨by simp, by simp⟩ ?_ ?_
    · rintro workers ⟨hnodup, hall⟩ hnew
      refine ⟨List.nodup_append.2 ⟨hnodup, by simp, fun a ha b hb heq => ?_⟩, fun w hw => ?_⟩
      · exact hnew (List.mem_singleton.1 hb ▸ heq ▸ ha)
      · rcases List.mem_append.1 hw with hw | hw
        · exact hall w hw
        · exact List.mem_singleton.1 hw ▸ hlast
    · intro place hplace
      obtain ⟨hnodup, hall⟩ := ih place hplace
      refine ⟨hnodup, fun w hw => ?_⟩
      obtain ⟨r, hr, hrest⟩ := hall w hw
      exact ⟨r, List.mem_append_left _ hr, hrest⟩

/-- No place is in conflict exactly if the records of each place are of one worker. -/
theorem sameTargets_eq_nil_iff :
    sameTargets logs = [] ↔
      ∀ r₁ ∈ logs.flatMap (·.records), ∀ r₂ ∈ logs.flatMap (·.records),
        r₁.target = r₂.target → r₁.worker = r₂.worker := by
  refine ⟨fun h r₁ h₁ r₂ h₂ => worker_eq_of_sameTargets h h₁ h₂, fun h => ?_⟩
  refine List.filterMap_eq_nil_iff.2 fun place hplace => ?_
  obtain ⟨hnodup, hall⟩ := forall_mem_targets place hplace
  obtain ⟨node, workers⟩ := place
  -- two workers of one place would be different ones
  match workers, hnodup, hall with
  | [], _, _ => rfl
  | [w], _, _ => rfl
  | w₁ :: w₂ :: rest, hnodup, hall =>
    obtain ⟨r₁, h₁, ht₁, rfl⟩ := hall w₁ List.mem_cons_self
    obtain ⟨r₂, h₂, ht₂, rfl⟩ := hall w₂ (List.mem_cons_of_mem _ List.mem_cons_self)
    have heq := h r₁ h₁ r₂ h₂ (ht₁.trans ht₂.symm)
    exact absurd heq (List.ne_of_not_mem_cons (List.nodup_cons.1 hnodup).1)

theorem reason_of_mem_sameTargets {conflict : Conflict} (h : conflict ∈ sameTargets logs) :
    conflict.reason = .sameTarget := by
  obtain ⟨place, -, hplace⟩ := List.mem_filterMap.1 h
  dsimp only at hplace
  split at hplace
  · rw [← Option.some.inj hplace]
  · cases hplace

/-! ### Changes inside subtrees that are taken out -/

theorem getElem?_foldl_insertIfNew (ids : List NodeId) (found : IdMap) (w : WorkerId)
    (id : NodeId) :
    (ids.foldl (fun found id => found.insertIfNew id w) found)[id]? =
      found[id]?.or (if id ∈ ids then some w else none) := by
  induction ids generalizing found with
  | nil => simp
  | cons first ids ih =>
    rw [List.foldl_cons, ih, Std.ExtTreeMap.getElem?_insertIfNew]
    by_cases hid : first = id
    · subst hid
      by_cases hmem : first ∈ found <;> simp [hmem]
    · have hne : compare first id ≠ .eq := fun heq => hid (Nat.compare_eq_eq.1 heq)
      simp [hne, Ne.symm hid]

/-- The worker kept for a node is that of the first log that takes it out. -/
theorem getElem?_removers (logs : List Sealed) (id : NodeId) :
    (removers logs)[id]? = (logs.find? fun log => id ∈ log.removals).map (·.worker) := by
  have hfold : ∀ (logs : List Sealed) (found : IdMap),
      (logs.foldl (fun found log =>
        log.removals.foldl (fun found id => found.insertIfNew id log.worker) found) found)[id]? =
        found[id]?.or ((logs.find? fun log => id ∈ log.removals).map (·.worker)) := by
    intro logs
    induction logs with
    | nil => simp
    | cons log logs ih =>
      intro found
      rw [List.foldl_cons, ih, getElem?_foldl_insertIfNew, List.find?_cons]
      by_cases hid : id ∈ log.removals <;> cases found[id]? <;> simp [hid]
  rw [removers, hfold]
  simp

theorem removedAround?_eq_none_iff {t : Tree} {found : IdMap} {x : NodeId} :
    removedAround? t found worker x = none ↔
      ∀ c ∈ x :: t.ancestors x, ∀ w, found[c]? = some w → w = worker := by
  rw [removedAround?, List.findSome?_eq_none_iff]
  refine forall₂_congr fun c _ => ?_
  cases found[c]? with
  | none => simp
  | some w => simp

/-- Of some losses, only such are kept, and none is kept only if there is none. -/
theorem firstLosses_spec (losses : List Loss) :
    firstLosses losses ⊆ losses ∧ (firstLosses losses = [] → losses = []) := by
  induction losses using List.reverseRecOn with
  | nil => exact ⟨fun _ h => h, fun _ => rfl⟩
  | append_singleton losses loss ih =>
    obtain ⟨hsub, hnil⟩ := ih
    have hlast : firstLosses (losses ++ [loss]) =
        if (firstLosses losses).any fun k => k.node == loss.node && k.worker == loss.worker
        then firstLosses losses else firstLosses losses ++ [loss] := by
      simp [firstLosses]
    rw [hlast]
    split
    · rename_i hknown
      refine ⟨fun k hk => List.mem_append_left _ (hsub hk), fun h => ?_⟩
      rw [h] at hknown
      cases hknown
    · refine ⟨?_, by simp⟩
      exact List.append_subset.2 ⟨fun k hk => List.mem_append_left _ (hsub hk),
        List.subset_append_right _ _⟩

end Sealed

/-- If whoever changes something at or below a node that is taken out is the first to take it out,
the only conflicts are places that several workers change. -/
theorem View.conflicts_eq_sameTargets {v : View} {logs : List Sealed}
    (h : ∀ log ∈ logs, ∀ x ∈ log.baseTargets, ∀ c ∈ x :: v.tree.ancestors x, ∀ w,
      (Sealed.removers logs)[c]? = some w → w = log.worker) :
    v.conflicts logs = Sealed.sameTargets logs := by
  have hlosses : logs.flatMap (Sealed.losses v.tree (Sealed.removers logs)) = [] := by
    refine List.flatMap_eq_nil_iff.2 fun log hlog => List.filterMap_eq_nil_iff.2 fun x hx => ?_
    rw [Option.map_eq_none_iff, Sealed.removedAround?_eq_none_iff]
    exact h log hlog x hx
  rw [View.conflicts, hlosses]
  exact List.append_nil _

/-- What it means that no conflict is found. -/
theorem View.conflicts_eq_nil_iff {v : View} (hv : v.tree.Sound) {logs : List Sealed}
    (base : ∀ log ∈ logs, log.baseSize = v.tree.store.size) :
    v.conflicts logs = [] ↔
      (∀ r₁ ∈ logs.flatMap (·.records), ∀ r₂ ∈ logs.flatMap (·.records),
        r₁.target = r₂.target → r₁.worker = r₂.worker) ∧
      ∀ log ∈ logs, ∀ x ∈ log.baseTargets, ∀ c ∈ x :: v.tree.ancestors x, ∀ w,
        (Sealed.removers logs)[c]? = some w → w = log.worker := by
  have hlosses : ∀ log ∈ logs, ∀ loss ∈ Sealed.losses v.tree (Sealed.removers logs) log,
      v.tree.stableId? loss.node ≠ none := by
    intro log _ loss hloss
    obtain ⟨x, -, hfound⟩ := List.mem_filterMap.1 hloss
    obtain ⟨⟨c, w⟩, hround, rfl⟩ := Option.map_eq_some_iff.1 hfound
    obtain ⟨c', -, hc'⟩ := List.exists_of_findSome?_eq_some hround
    -- what is taken out is a slot of the view, so it has a name
    cases hw : (Sealed.removers logs)[c']? with
    | none => simp [hw] at hc'
    | some w' =>
      obtain rfl : c' = c := by
        simp only [hw] at hc'
        split at hc' <;> simp_all
      rw [Sealed.getElem?_removers] at hw
      obtain ⟨log', hfind, -⟩ := Option.map_eq_some_iff.1 hw
      have hmem := List.find?_some hfind
      simp only [decide_eq_true_eq, Sealed.removals, List.mem_filter, Sealed.isBase] at hmem
      rw [base log' (List.mem_of_find?_eq_some hfind)] at hmem
      obtain ⟨n, hn⟩ := hv.store.full c' hmem.2
      simp [Tree.stableId?, Tree.get?, hn]
  rw [View.conflicts, List.append_eq_nil_iff, Sealed.sameTargets_eq_nil_iff]
  refine and_congr_right fun _ => ?_
  obtain ⟨hsub, hnil⟩ :=
    Sealed.firstLosses_spec (logs.flatMap (Sealed.losses v.tree (Sealed.removers logs)))
  have hnone : (Sealed.firstLosses (logs.flatMap
      (Sealed.losses v.tree (Sealed.removers logs)))).filterMap (fun loss =>
        (v.tree.stableId? loss.node).map fun node =>
          (⟨node, [loss.remover, loss.worker], .detachedSubtree⟩ : Conflict)) = [] ↔
      logs.flatMap (Sealed.losses v.tree (Sealed.removers logs)) = [] := by
    constructor
    · intro h
      refine hnil (List.eq_nil_iff_forall_not_mem.2 fun loss hloss => ?_)
      obtain ⟨log, hlog, hmem⟩ := List.mem_flatMap.1 (hsub hloss)
      exact hlosses log hlog loss hmem
        (Option.map_eq_none_iff.1 (List.filterMap_eq_nil_iff.1 h loss hloss))
    · intro h
      rw [h]
      rfl
  rw [hnone, List.flatMap_eq_nil_iff]
  refine forall₂_congr fun log _ => ?_
  rw [Sealed.losses, List.filterMap_eq_nil_iff]
  refine forall₂_congr fun x _ => ?_
  rw [Option.map_eq_none_iff, Sealed.removedAround?_eq_none_iff]

/-- A log alone has no conflict. -/
theorem View.conflicts_singleton (v : View) {log : Sealed}
    (own : ∀ r ∈ log.records, r.worker = log.worker) : v.conflicts [log] = [] := by
  have hsame : Sealed.sameTargets [log] = [] := by
    refine Sealed.sameTargets_eq_nil_iff.2 fun r₁ h₁ r₂ h₂ _ => ?_
    simp only [List.flatMap_cons, List.flatMap_nil, List.append_nil] at h₁ h₂
    rw [own r₁ h₁, own r₂ h₂]
  have hloss : Sealed.losses v.tree (Sealed.removers [log]) log = [] := by
    refine List.filterMap_eq_nil_iff.2 fun x _ => ?_
    rw [Option.map_eq_none_iff, Sealed.removedAround?_eq_none_iff]
    intro c _ w hw
    rw [Sealed.getElem?_removers] at hw
    obtain ⟨other, hfind, rfl⟩ := Option.map_eq_some_iff.1 hw
    rw [List.mem_singleton.1 (List.mem_of_find?_eq_some hfind)]
  simp [View.conflicts, hsame, hloss, Sealed.firstLosses]

end TreeEdit
