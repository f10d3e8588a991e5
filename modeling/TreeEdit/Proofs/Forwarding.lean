import TreeEdit.Proofs.PathCopy

/-!
# From nodes to copies and back

A `Forward` holds two tables: from a node to the copy that took its place, and from a copy to the
node it goes back to. `Coherent` says that they belong together: links lead to later slots, the
slots of one chain of links have one origin, and the latest copy of the origin is the latest copy of
the slot. A rebuilding keeps this as long as no node of its path has been copied before, since then
each chain gets longer at its end and none forks.
-/

namespace TreeEdit

namespace Forward

variable {f : Forward} {n : Nat} {x y a : NodeId}

theorem isSuperseded_eq_false_iff : f.isSuperseded x = false ↔ f.links.get? x = none := by
  rw [isSuperseded, Table.contains, Option.isSome_eq_false_iff, Option.isNone_iff_eq_none]

/-! ### Following links -/

/-- Links lead from earlier slots to later ones, all below a bound. -/
def Ascending (f : Forward) (n : Nat) : Prop :=
  ∀ x y, f.links.get? x = some y → x < y ∧ n > y

theorem Ascending.mono {m : Nat} (h : f.Ascending n) (hm : n ≤ m) : f.Ascending m := fun x y hxy =>
  ⟨(h x y hxy).1, Nat.lt_of_lt_of_le (h x y hxy).2 hm⟩

theorem Ascending.links_of_le (h : f.Ascending n) (hx : n ≤ x) : f.links.get? x = none := by
  cases hy : f.links.get? x with
  | none => rfl
  | some y =>
    obtain ⟨hlt, hn⟩ := h x y hy
    exact absurd (Nat.lt_trans hlt hn) (Nat.not_lt.2 hx)

theorem follow_eq_follow (h : f.Ascending n) {steps more : Nat} (hs : f.links.size ≤ steps + x)
    (hm : f.links.size ≤ more + x) : f.follow steps x = f.follow more x := by
  induction steps generalizing x more with
  | zero =>
    have hnone : f.links.get? x = none := by
      cases hx : f.links.get? x with
      | none => rfl
      | some y =>
        have := Nat.succ_le_of_lt (Table.lt_size_of_get?_eq_some hx)
        omega
    cases more with
    | zero => rfl
    | succ more => simp [follow, hnone]
  | succ steps ih =>
    cases hx : f.links.get? x with
    | none => cases more <;> simp [follow, hx]
    | some y =>
      have hlt := Nat.succ_le_of_lt (h x y hx).1
      have hsize := Nat.succ_le_of_lt (Table.lt_size_of_get?_eq_some hx)
      obtain ⟨more, rfl⟩ : ∃ k, more = k + 1 := ⟨more - 1, by omega⟩
      simp only [follow, hx]
      exact ih (by omega) (by omega)

theorem resolve_of_link (h : f.Ascending n) (hx : f.links.get? x = some y) :
    f.resolve x = f.resolve y := by
  have hsize := Nat.succ_le_of_lt (Table.lt_size_of_get?_eq_some hx)
  have hlt := Nat.succ_le_of_lt (h x y hx).1
  obtain ⟨steps, hsteps⟩ : ∃ k, f.links.size = k + 1 := ⟨f.links.size - 1, by omega⟩
  rw [resolve, hsteps]
  simp only [follow, hx]
  exact follow_eq_follow h (by omega) (by omega)

theorem resolve_of_current (hx : f.links.get? x = none) : f.resolve x = x := by
  rw [resolve]
  cases f.links.size with
  | zero => rfl
  | succ steps => simp [follow, hx]

/-- To go from a slot to its latest copy, go along its link first. -/
theorem chain_induction (h : f.Ascending n) {P : NodeId → Prop}
    (last : ∀ x, f.links.get? x = none → P x)
    (link : ∀ x y, f.links.get? x = some y → P y → P x) (x : NodeId) : P x := by
  -- links lead to later slots, so each step leaves fewer places of the table ahead
  induction hk : f.links.size - x using Nat.strong_induction_on generalizing x with
  | _ k ih =>
    cases hx : f.links.get? x with
    | none => exact last x hx
    | some y =>
      have hlt := Nat.succ_le_of_lt (h x y hx).1
      have hsize := Nat.succ_le_of_lt (Table.lt_size_of_get?_eq_some hx)
      exact link x y hx (ih (f.links.size - y) (by omega) y rfl)

theorem le_resolve (h : f.Ascending n) (x : NodeId) : x ≤ f.resolve x := by
  refine chain_induction h (P := fun x => x ≤ f.resolve x) (fun x hx => ?_) (fun x y hx hy => ?_) x
  · rw [resolve_of_current hx]
  · rw [resolve_of_link h hx]
    exact Nat.le_trans (Nat.le_of_lt (h x y hx).1) hy

theorem resolve_lt (h : f.Ascending n) (hx : x < n) : f.resolve x < n := by
  refine chain_induction h (P := fun x => x < n → f.resolve x < n) (fun x hx hlt => ?_)
    (fun x y hx hy _ => ?_) x hx
  · rwa [resolve_of_current hx]
  · rw [resolve_of_link h hx]
    exact hy (h x y hx).2

theorem links_resolve (h : f.Ascending n) (x : NodeId) : f.links.get? (f.resolve x) = none := by
  refine chain_induction h (P := fun x => f.links.get? (f.resolve x) = none) (fun x hx => ?_)
    (fun x y hx hy => ?_) x
  · rwa [resolve_of_current hx]
  · rwa [resolve_of_link h hx]

/-! ### Recording copies -/

/-- The copies of the nodes of a spine take the slots from `n` on. -/
def recordSpine (f : Forward) (spine : List NodeId) (n : Nat) : Forward :=
  (spine.zipIdx n).foldl recordCopy f

theorem recordSpine_cons (f : Forward) (a : NodeId) (spine : List NodeId) (n : Nat) :
    f.recordSpine (a :: spine) n = (f.recordCopy (a, n)).recordSpine spine (n + 1) := rfl

theorem links_recordCopy (f : Forward) (a b x : NodeId) :
    (f.recordCopy (a, b)).links.get? x = if x = a then some b else f.links.get? x :=
  Table.get?_insert f.links a b x

theorem origins_recordCopy (f : Forward) (a b x : NodeId) :
    (f.recordCopy (a, b)).origins.get? x =
      if x = b then some (f.origin a) else f.origins.get? x :=
  Table.get?_insert f.origins b (f.origin a) x

variable {spine : List NodeId}

theorem links_recordSpine_of_not_mem (f : Forward) (n : Nat) (hx : x ∉ spine) :
    (f.recordSpine spine n).links.get? x = f.links.get? x := by
  induction spine generalizing f n with
  | nil => rfl
  | cons a spine ih =>
    obtain ⟨hxa, hx⟩ := not_or.1 (mt List.mem_cons.2 hx)
    rw [recordSpine_cons, ih _ _ hx, links_recordCopy, if_neg hxa]

theorem links_recordSpine_getElem? (f : Forward) (n : Nat) (hspine : spine.Nodup) {i : Nat}
    (ha : spine[i]? = some a) : (f.recordSpine spine n).links.get? a = some (n + i) := by
  induction spine generalizing f n i with
  | nil => simp at ha
  | cons b spine ih =>
    obtain ⟨hb, hspine⟩ := List.nodup_cons.1 hspine
    rw [recordSpine_cons]
    cases i with
    | zero =>
      obtain rfl : b = a := by simpa using ha
      rw [links_recordSpine_of_not_mem _ _ hb, links_recordCopy, if_pos rfl]
      rfl
    | succ i =>
      rw [ih _ _ hspine (by simpa using ha), Nat.add_right_comm, Nat.add_assoc]

theorem isSuperseded_recordSpine (f : Forward) (n : Nat) (hspine : spine.Nodup) (x : NodeId) :
    (f.recordSpine spine n).isSuperseded x = false ↔ f.isSuperseded x = false ∧ x ∉ spine := by
  rw [isSuperseded_eq_false_iff, isSuperseded_eq_false_iff]
  by_cases hx : x ∈ spine
  · obtain ⟨i, hi⟩ := List.mem_iff_getElem?.1 hx
    simp [links_recordSpine_getElem? f n hspine hi, hx]
  · simp [links_recordSpine_of_not_mem f n hx, hx]

theorem origins_recordSpine_of_lt (f : Forward) (hx : x < n) :
    (f.recordSpine spine n).origins.get? x = f.origins.get? x := by
  induction spine generalizing f n with
  | nil => rfl
  | cons a spine ih =>
    rw [recordSpine_cons, ih _ (Nat.lt_succ_of_lt hx), origins_recordCopy,
      if_neg (Nat.ne_of_lt hx)]

theorem origin_recordSpine_of_lt (f : Forward) (hx : x < n) :
    (f.recordSpine spine n).origin x = f.origin x := by
  rw [origin, origin, origins_recordSpine_of_lt f hx]

theorem origins_recordSpine_getElem? (f : Forward) (n : Nat) (hlt : ∀ a ∈ spine, a < n) {i : Nat}
    (ha : spine[i]? = some a) :
    (f.recordSpine spine n).origins.get? (n + i) = some (f.origin a) := by
  induction spine generalizing f n i with
  | nil => simp at ha
  | cons b spine ih =>
    have hb := hlt b List.mem_cons_self
    rw [recordSpine_cons]
    cases i with
    | zero =>
      obtain rfl : b = a := by simpa using ha
      show ((f.recordCopy (b, n)).recordSpine spine (n + 1)).origins.get? n = some (f.origin b)
      rw [origins_recordSpine_of_lt _ (Nat.lt_succ_self n), origins_recordCopy, if_pos rfl]
    | succ i =>
      have han := hlt a (List.mem_of_getElem? ha)
      have := ih (f.recordCopy (b, n)) (n + 1)
        (fun c hc => Nat.lt_succ_of_lt (hlt c (List.mem_cons_of_mem _ hc))) (by simpa using ha)
      rw [Nat.add_right_comm, Nat.add_assoc] at this
      rw [this, origin, origin, origins_recordCopy, if_neg (Nat.ne_of_lt han)]

theorem origin_recordSpine_getElem? (f : Forward) (n : Nat) (hlt : ∀ a ∈ spine, a < n) {i : Nat}
    (ha : spine[i]? = some a) : (f.recordSpine spine n).origin (n + i) = f.origin a := by
  rw [origin, origins_recordSpine_getElem? f n hlt ha]
  rfl

theorem origins_recordSpine_of_le (f : Forward) (hx : n + spine.length ≤ x) :
    (f.recordSpine spine n).origins.get? x = f.origins.get? x := by
  induction spine generalizing f n with
  | nil => rfl
  | cons a spine ih =>
    rw [List.length_cons] at hx
    have hne : x ≠ n := by
      rintro rfl
      omega
    rw [recordSpine_cons, ih _ (by omega), origins_recordCopy, if_neg hne]

/-- New links lead to new slots, whatever was copied before. -/
theorem Ascending.recordSpine (hf : f.Ascending n) (hspine : spine.Nodup)
    (hlt : ∀ a ∈ spine, a < n) : (f.recordSpine spine n).Ascending (n + spine.length) := by
  intro x y hxy
  by_cases hx : x ∈ spine
  · obtain ⟨i, hi⟩ := List.mem_iff_getElem?.1 hx
    rw [links_recordSpine_getElem? f n hspine hi, Option.some.injEq] at hxy
    subst hxy
    have hlen := (List.getElem?_eq_some_iff.1 hi).1
    exact ⟨Nat.lt_of_lt_of_le (hlt x hx) (Nat.le_add_right n i), by omega⟩
  · rw [links_recordSpine_of_not_mem f n hx] at hxy
    obtain ⟨hlt, hn⟩ := hf x y hxy
    exact ⟨hlt, by omega⟩

/-! ### Origins come earlier -/

/-- A copy goes back to an earlier slot, and all copies are below a bound. -/
def Descending (f : Forward) (n : Nat) : Prop :=
  ∀ x y, f.origins.get? x = some y → y < x ∧ n > x

namespace Descending

theorem empty (n : Nat) : Forward.empty.Descending n := fun x y h => by
  simp [Forward.empty, Table.get?] at h

theorem mono {m : Nat} (h : f.Descending n) (hm : n ≤ m) : f.Descending m := fun x y hxy =>
  ⟨(h x y hxy).1, Nat.lt_of_lt_of_le (h x y hxy).2 hm⟩

theorem origins_of_le (h : f.Descending n) (hx : n ≤ x) : f.origins.get? x = none := by
  cases ho : f.origins.get? x with
  | none => rfl
  | some y => exact absurd (h x y ho).2 (Nat.not_lt.2 hx)

theorem origin_of_le (h : f.Descending n) (hx : n ≤ x) : f.origin x = x := by
  rw [origin, h.origins_of_le hx]
  rfl

theorem origin_le (h : f.Descending n) (x : NodeId) : f.origin x ≤ x := by
  cases ho : f.origins.get? x with
  | none => simp [origin, ho]
  | some y =>
    rw [origin, ho]
    exact Nat.le_of_lt (h x y ho).1

/-- A slot that goes back to itself is no copy. -/
theorem origins_of_origin_eq (h : f.Descending n) (hx : f.origin x = x) :
    f.origins.get? x = none := by
  cases ho : f.origins.get? x with
  | none => rfl
  | some y =>
    rw [origin, ho] at hx
    exact absurd (h x y ho).1 (hx ▸ Nat.lt_irrefl _)

/-- The origin of a slot after a rebuilding: that of the model if the slot is one of the copies. -/
theorem origin_recordSpine_cases (h : f.Descending n) (hlt : ∀ a ∈ spine, a < n) (x : NodeId) :
    (x < n ∧ (f.recordSpine spine n).origin x = f.origin x) ∨
      (∃ i a, spine[i]? = some a ∧ x = n + i ∧ (f.recordSpine spine n).origin x = f.origin a) ∨
      (n + spine.length ≤ x ∧ (f.recordSpine spine n).origins.get? x = none) := by
  rcases Nat.lt_or_ge x n with hold | hge
  · exact Or.inl ⟨hold, origin_recordSpine_of_lt f hold⟩
  · obtain ⟨i, rfl⟩ := Nat.exists_eq_add_of_le hge
    rcases Nat.lt_or_ge i spine.length with hi | hi
    · have hget := List.getElem?_eq_getElem hi
      exact Or.inr (Or.inl ⟨i, _, hget, rfl, origin_recordSpine_getElem? f n hlt hget⟩)
    · refine Or.inr (Or.inr ⟨by omega, ?_⟩)
      rw [origins_recordSpine_of_le f (by omega), h.origins_of_le hge]

/-- New copies go back to old slots, whatever was copied before. -/
theorem recordSpine (h : f.Descending n) (hlt : ∀ a ∈ spine, a < n) :
    (f.recordSpine spine n).Descending (n + spine.length) := by
  intro x y ho
  rcases h.origin_recordSpine_cases hlt x with ⟨hx, -⟩ | ⟨i, a, ha, rfl, -⟩ | ⟨-, hnone⟩
  · rw [origins_recordSpine_of_lt f hx] at ho
    exact ⟨(h x y ho).1, Nat.lt_of_lt_of_le hx (Nat.le_add_right _ _)⟩
  · rw [origins_recordSpine_getElem? f n hlt ha, Option.some.injEq] at ho
    subst ho
    have hlen := (List.getElem?_eq_some_iff.1 ha).1
    have hold := Nat.lt_of_le_of_lt (h.origin_le a) (hlt a (List.mem_of_getElem? ha))
    exact ⟨Nat.lt_of_lt_of_le hold (Nat.le_add_right n i), by omega⟩
  · rw [hnone] at ho
    cases ho

end Descending

/-! ### One origin for a chain of links -/

/-- The slots of one chain of links have one origin. -/
def KeepsOrigins (f : Forward) : Prop :=
  ∀ x y, f.links.get? x = some y → f.origin y = f.origin x

/-- New links lead to copies, whatever was copied before. -/
theorem KeepsOrigins.recordSpine (h : f.KeepsOrigins) (hf : f.Ascending n) (hspine : spine.Nodup)
    (hlt : ∀ a ∈ spine, a < n) : (f.recordSpine spine n).KeepsOrigins := by
  intro x y hxy
  by_cases hx : x ∈ spine
  · obtain ⟨i, hi⟩ := List.mem_iff_getElem?.1 hx
    rw [links_recordSpine_getElem? f n hspine hi, Option.some.injEq] at hxy
    subst hxy
    rw [origin_recordSpine_getElem? f n hlt hi, origin_recordSpine_of_lt f (hlt x hx)]
  · rw [links_recordSpine_of_not_mem f n hx] at hxy
    obtain ⟨hxy', hn⟩ := hf x y hxy
    rw [origin_recordSpine_of_lt f hn, origin_recordSpine_of_lt f (Nat.lt_trans hxy' hn), h x y hxy]

theorem KeepsOrigins.origin_resolve (h : f.KeepsOrigins) (hf : f.Ascending n) (x : NodeId) :
    f.origin (f.resolve x) = f.origin x := by
  refine chain_induction hf (P := fun x => f.origin (f.resolve x) = f.origin x)
    (fun x hx => ?_) (fun x y hx hy => ?_) x
  · rw [resolve_of_current hx]
  · rw [resolve_of_link hf hx, hy, h x y hx]

/-! ### The two tables together -/

/-- Links and origins fit each other, and speak of slots below a bound only. -/
structure Coherent (f : Forward) (n : Nat) : Prop where
  ascending : f.Ascending n
  origin_earlier : ∀ x o, f.origins.get? x = some o → o < x ∧ n > x
  origin_link : f.KeepsOrigins
  origin_origin : ∀ x, f.origin (f.origin x) = f.origin x
  resolve_origin : ∀ x, f.resolve (f.origin x) = f.resolve x

namespace Coherent

theorem empty (n : Nat) : Forward.empty.Coherent n where
  ascending x y h := by simp [Forward.empty, Table.get?] at h
  origin_earlier := Descending.empty n
  origin_link x y h := by simp [Forward.empty, Table.get?] at h
  origin_origin x := rfl
  resolve_origin x := rfl

theorem mono {m : Nat} (h : f.Coherent n) (hm : n ≤ m) : f.Coherent m where
  ascending := h.ascending.mono hm
  origin_earlier := Descending.mono h.origin_earlier hm
  origin_link := h.origin_link
  origin_origin := h.origin_origin
  resolve_origin := h.resolve_origin

theorem links_of_le (h : f.Coherent n) (hx : n ≤ x) : f.links.get? x = none :=
  h.ascending.links_of_le hx

theorem descending (h : f.Coherent n) : f.Descending n :=
  h.origin_earlier

theorem origin_resolve (h : f.Coherent n) (x : NodeId) : f.origin (f.resolve x) = f.origin x :=
  h.origin_link.origin_resolve h.ascending x

/-- Slots of one origin have one latest copy. -/
theorem resolve_eq_iff (h : f.Coherent n) :
    f.resolve x = f.resolve y ↔ f.origin x = f.origin y := by
  constructor
  · intro heq
    rw [← h.origin_resolve x, heq, h.origin_resolve]
  · intro heq
    rw [← h.resolve_origin x, heq, h.resolve_origin]

end Coherent

/-- The nodes of a path that can be copied: distinct, below a bound, and not copied before. -/
structure Copyable (f : Forward) (spine : List NodeId) (n : Nat) : Prop where
  nodup : spine.Nodup
  lt : ∀ a ∈ spine, a < n
  current : ∀ a ∈ spine, f.links.get? a = none

namespace Coherent

theorem links_recordSpine_of_le (hf : f.Coherent n) (h : f.Copyable spine n) (hx : n ≤ x) :
    (f.recordSpine spine n).links.get? x = none := by
  have hnot : x ∉ spine := fun hmem => absurd (h.lt x hmem) (Nat.not_lt.2 hx)
  rw [links_recordSpine_of_not_mem f n hnot, hf.links_of_le hx]

/-- A link that was there before is still there. -/
theorem links_recordSpine_of_link (h : f.Copyable spine n) (hx : f.links.get? x = some y) :
    (f.recordSpine spine n).links.get? x = some y := by
  have hnot : x ∉ spine := fun hmem => by
    rw [h.current x hmem] at hx
    cases hx
  rwa [links_recordSpine_of_not_mem f n hnot]

/-- A slot whose latest copy is not copied keeps it. -/
theorem resolve_recordSpine_of_not_mem (hf : f.Coherent n) (h : f.Copyable spine n)
    (hx : f.resolve x ∉ spine) : (f.recordSpine spine n).resolve x = f.resolve x := by
  have hup := hf.ascending.recordSpine h.nodup h.lt
  refine chain_induction hf.ascending (P := fun x => f.resolve x ∉ spine →
    (f.recordSpine spine n).resolve x = f.resolve x) (fun x hx hmem => ?_)
    (fun x y hx ih hmem => ?_) x hx
  · rw [resolve_of_current hx] at hmem ⊢
    exact resolve_of_current (by rwa [links_recordSpine_of_not_mem f n hmem])
  · rw [resolve_of_link hf.ascending hx] at hmem ⊢
    rw [resolve_of_link hup (links_recordSpine_of_link h hx), ih hmem]

/-- A slot whose latest copy is copied has that copy from then on. -/
theorem resolve_recordSpine_getElem? (hf : f.Coherent n) (h : f.Copyable spine n) {i : Nat}
    (hx : spine[i]? = some (f.resolve x)) : (f.recordSpine spine n).resolve x = n + i := by
  have hup := hf.ascending.recordSpine h.nodup h.lt
  refine chain_induction hf.ascending (P := fun x => spine[i]? = some (f.resolve x) →
    (f.recordSpine spine n).resolve x = n + i) (fun x hx hi => ?_) (fun x y hx ih hi => ?_) x hx
  · rw [resolve_of_current hx] at hi
    rw [resolve_of_link hup (links_recordSpine_getElem? f n h.nodup hi)]
    exact resolve_of_current (hf.links_recordSpine_of_le h (Nat.le_add_right n i))
  · rw [resolve_of_link hf.ascending hx] at hi
    rw [resolve_of_link hup (links_recordSpine_of_link h hx), ih hi]

theorem resolve_recordSpine_congr (hf : f.Coherent n) (h : f.Copyable spine n)
    (hxy : f.resolve x = f.resolve y) :
    (f.recordSpine spine n).resolve x = (f.recordSpine spine n).resolve y := by
  by_cases hx : f.resolve x ∈ spine
  · obtain ⟨i, hi⟩ := List.mem_iff_getElem?.1 hx
    rw [hf.resolve_recordSpine_getElem? h hi, hf.resolve_recordSpine_getElem? h (hxy ▸ hi)]
  · rw [hf.resolve_recordSpine_of_not_mem h hx, hf.resolve_recordSpine_of_not_mem h (hxy ▸ hx), hxy]

/-- Recording the copies of a path keeps the tables together. -/
theorem recordSpine (hf : f.Coherent n) (h : f.Copyable spine n) :
    (f.recordSpine spine n).Coherent (n + spine.length) where
  ascending := hf.ascending.recordSpine h.nodup h.lt
  origin_earlier := hf.descending.recordSpine h.lt
  origin_link := hf.origin_link.recordSpine hf.ascending h.nodup h.lt
  origin_origin x := by
    have hold : ∀ a, a < n → (f.recordSpine spine n).origin (f.origin a) = f.origin a := by
      intro a ha
      rw [origin_recordSpine_of_lt f (Nat.lt_of_le_of_lt (hf.descending.origin_le a) ha),
        hf.origin_origin]
    rcases hf.descending.origin_recordSpine_cases h.lt x with
      ⟨hx, ho⟩ | ⟨i, a, ha, rfl, ho⟩ | ⟨-, hnone⟩
    · rw [ho, hold x hx]
    · rw [ho, hold a (h.lt a (List.mem_of_getElem? ha))]
    · simp [origin, hnone]
  resolve_origin x := by
    rcases hf.descending.origin_recordSpine_cases h.lt x with
      ⟨hx, ho⟩ | ⟨i, a, ha, rfl, ho⟩ | ⟨-, hnone⟩
    · rw [ho]
      exact hf.resolve_recordSpine_congr h (hf.resolve_origin x)
    · have hcurrent := resolve_of_current (h.current a (List.mem_of_getElem? ha))
      rw [ho, hf.resolve_recordSpine_getElem? h (i := i) (by rw [hf.resolve_origin, hcurrent, ha]),
        resolve_of_current (hf.links_recordSpine_of_le h (Nat.le_add_right n i))]
    · simp [origin, hnone]

end Coherent

end Forward

end TreeEdit
