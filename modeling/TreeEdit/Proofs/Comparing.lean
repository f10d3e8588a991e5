import TreeEdit.Proofs.Unfolding
import TreeEdit.Tree.Compare

/-!
# Comparison decides equality of unfoldings

`Tree.structurallyEq` compares two subtrees with a stack of pairs of slots. In sound stores it
accepts exactly if both subtrees unfold to the same tree of attributes. The short cut for equal
slots is right as long as both trees do read one store.
-/

namespace TreeEdit

theorem map_eq_map_iff_zip {α β γ : Type} {f : α → γ} {g : β → γ} {xs : List α} {ys : List β}
    (hlen : xs.length = ys.length) :
    xs.map f = ys.map g ↔ ∀ p ∈ xs.zip ys, f p.1 = g p.2 := by
  induction xs generalizing ys with
  | nil =>
    obtain rfl : ys = [] := List.length_eq_zero_iff.1 hlen.symm
    simp
  | cons x xs ih =>
    cases ys with
    | nil => cases hlen
    | cons y ys => simp [ih (Nat.succ.inj hlen)]

namespace Store

variable {s t : Store} {a b : NodeId} {m n : Node}

theorem unfold_eq_unfold_iff (hs : s.Sound) (ht : t.Sound) (hm : s.get? a = some m)
    (hn : t.get? b = some n) :
    s.unfold a = t.unfold b ↔
      (m.attributes = n.attributes ∧ m.children.length = n.children.length) ∧
        ∀ p ∈ m.children.zip n.children, s.unfold p.1 = t.unfold p.2 := by
  rw [hs.unfold_eq hm, ht.unfold_eq hn, spread, spread, Rose.node.injEq]
  constructor
  · rintro ⟨hattributes, hchildren⟩
    have hlen : m.children.length = n.children.length := by
      simpa using congrArg List.length hchildren
    exact ⟨⟨hattributes, hlen⟩, (map_eq_map_iff_zip hlen).1 hchildren⟩
  · rintro ⟨⟨hattributes, hlen⟩, hpairs⟩
    exact ⟨hattributes, (map_eq_map_iff_zip hlen).2 hpairs⟩

theorem samePairs_cons {shared : Bool} {rest : List (NodeId × NodeId)}
    (hskip : ¬(shared && a == b) = true) (hm : s.get? a = some m) (hn : t.get? b = some n) :
    s.samePairs shared t ((a, b) :: rest) =
      if m.attributes = n.attributes ∧ m.children.length = n.children.length then
        s.samePairs shared t (((m.children.zip n.children).filter (·.1 < a)).reverse ++ rest)
      else false := by
  rw [samePairs, if_neg hskip]
  split
  · rename_i m' n' hm' hn'
    obtain rfl : m = m' := Option.some.inj (hm.symm.trans hm')
    obtain rfl : n = n' := Option.some.inj (hn.symm.trans hn')
    rfl
  · rename_i hmissing
    exact (hmissing m n hm hn).elim

/-- The stack of pairs is worked off exactly if all pairs unfold to equal trees. -/
theorem samePairs_iff (shared : Bool) (hs : s.Sound) (ht : t.Sound)
    (one : shared = true → ∀ id, s.unfold id = t.unfold id) (stack : List (NodeId × NodeId))
    (exist : ∀ p ∈ stack, p.1 < s.size ∧ p.2 < t.size) :
    s.samePairs shared t stack = true ↔ ∀ p ∈ stack, s.unfold p.1 = t.unfold p.2 := by
  induction stack using samePairs.induct shared s t with
  | case1 => simp [samePairs]
  | case2 a b rest hskip ih =>
    rw [Bool.and_eq_true, beq_iff_eq] at hskip
    obtain ⟨hshared, rfl⟩ := hskip
    rw [samePairs, if_pos (by simp [hshared]), ih (List.forall_mem_cons.1 exist).2,
      List.forall_mem_cons]
    simp [one hshared a]
  | case3 a b rest hskip m n hm hn heq ih =>
    have hbelow : (m.children.zip n.children).filter (·.1 < a) = m.children.zip n.children := by
      refine List.filter_eq_self.2 fun p hp => ?_
      simpa using hs.earlier a m hm p.1 (List.of_mem_zip hp).1
    have hzip : ∀ p ∈ m.children.zip n.children, p.1 < s.size ∧ p.2 < t.size := by
      intro p hp
      obtain ⟨h1, h2⟩ := List.of_mem_zip hp
      exact ⟨Nat.lt_trans (hs.earlier a m hm _ h1) (lt_size_of_get? hm),
        Nat.lt_trans (ht.earlier b n hn _ h2) (lt_size_of_get? hn)⟩
    have hexist : ∀ p ∈ ((m.children.zip n.children).filter (·.1 < a)).reverse ++ rest,
        p.1 < s.size ∧ p.2 < t.size := by
      rw [hbelow]
      intro p hp
      rcases List.mem_append.1 hp with hp | hp
      · exact hzip p (List.mem_reverse.1 hp)
      · exact exist p (List.mem_cons_of_mem _ hp)
    rw [samePairs_cons hskip hm hn, if_pos heq, ih hexist, hbelow, List.forall_mem_append,
      List.forall_mem_cons]
    show _ ↔ s.unfold a = t.unfold b ∧ _
    rw [unfold_eq_unfold_iff hs ht hm hn]
    simp [heq]
  | case4 a b rest hskip m n hm hn hne =>
    rw [samePairs_cons hskip hm hn, if_neg hne]
    simp only [Bool.false_eq_true, false_iff]
    intro hall
    exact hne ((unfold_eq_unfold_iff hs ht hm hn).1 (hall (a, b) List.mem_cons_self)).1
  | case5 a b rest hskip hmissing =>
    obtain ⟨ha, hb⟩ := exist (a, b) List.mem_cons_self
    obtain ⟨m, hm⟩ := hs.full a ha
    obtain ⟨n, hn⟩ := ht.full b hb
    exact (hmissing m n hm hn).elim

end Store

/-- Two subtrees compare as equal exactly if they unfold to the same tree of attributes. -/
theorem Tree.structurallyEq_iff {s t : Tree} {a b : NodeId} (shared : Bool) (hs : s.store.Sound)
    (ht : t.store.Sound) (one : shared = true → ∀ id, s.store.unfold id = t.store.unfold id)
    (ha : a < s.store.size) (hb : b < t.store.size) :
    structurallyEq shared s a t b = true ↔ s.store.unfold a = t.store.unfold b := by
  rw [structurallyEq, Store.samePairs_iff shared hs ht one [(a, b)] (by simp [ha, hb])]
  simp

end TreeEdit
