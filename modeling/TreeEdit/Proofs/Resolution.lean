import TreeEdit.Proofs.Generation
import TreeEdit.Proofs.Lineage

/-!
# Resolving paths

The links from a slot make up one chain, and every walk up a tree reads this chain. `Tree.path`
stops when it gets too long and asks where it ends, `Tree.isAttached`, `Tree.depth?` and
`Store.isAttached` only go as far as the number of slots. `Tree.Resolves` and `Tree.WalksAgree` say
what each of them answers in terms of the chain, and `Tree.resolves_of_lineage` that they do so in
every tree there is, for slots of earlier generations and slots that do not exist as well.
-/

namespace TreeEdit

namespace Store

variable {s : Store} {id root : NodeId} {above : List NodeId} {most : Nat} {n : Node}

/-! ### Refusals -/

theorem path_of_get?_eq_none (h : s.get? id = none) :
    s.path most root id = .error (.treeState (.unknownNode id s.size)) := by
  unfold path node
  rw [h]
  rfl

/-- A chain that is too long is refused before anyone asks where it ends. -/
theorem path_of_length_lt (hn : s.get? id = some n) (hup : s.LinksUp id above)
    (hlen : max most 1 < above.length + 1) :
    s.path most root id =
      .error (.limit .recursionDepth (max most 1 + 1) most (some n.stableId)) := by
  have hmore : most - 1 < above.length := by omega
  have hlength : (above.take (most - 1)).length + 2 = max most 1 + 1 := by
    rw [List.length_take]
    omega
  rw [path_of_climb hn (climb_of_linksUp hup _), decide_eq_true hmore, if_pos rfl, hlength]

theorem path_of_chainTop_ne (hn : s.get? id = some n) (hup : s.LinksUp id above)
    (hlen : above.length + 1 ≤ max most 1) (htop : chainTop id above ≠ root) :
    s.path most root id =
      .error (.treeState (.unreachable n.stableId (s.nameOf root)
        (s.nameOf (chainTop id above)))) := by
  have hclimb : s.climb (most - 1) id = (above, false) := climb_eq_false_iff.2 ⟨hup, by omega⟩
  rw [path_of_climb hn hclimb, if_neg Bool.false_ne_true]
  exact if_neg htop

/-! ### Success -/

/-- The path that is found is the chain. -/
theorem path_eq_ok_iff_of_linksUp (hup : s.LinksUp id above) {way : Path} :
    s.path most root id = .ok way ↔
      way = { target := id, above } ∧ (∃ n, s.get? id = some n) ∧ chainTop id above = root ∧
        above.length + 1 ≤ max most 1 := by
  rw [path_eq_ok_iff]
  constructor
  · rintro ⟨rfl, hn, hway, hlen, hroot⟩
    obtain rfl := hup.unique hway
    exact ⟨rfl, hn, hroot, by omega⟩
  · rintro ⟨rfl, hn, htop, hlen⟩
    refine ⟨rfl, hn, hup, ?_, htop⟩
    show above.length ≤ most - 1
    omega

/-- Every step down a chain is a link and an entry of a child list. -/
theorem LinksUp.isChain (hs : s.Sound) (h : s.LinksUp id above) :
    (id :: above).IsChain fun c p => s.parent? c = some p ∧ c ∈ s.children p := by
  induction above generalizing id with
  | nil => exact .singleton id
  | cons p above ih =>
    have hlisted : id ∈ s.children p := by
      rw [← hs.under_eq_children]
      exact hs.listed id p h.1
    exact .cons_cons ⟨h.1, hlisted⟩ (ih h.2)

/-- A chain has no more slots than the store. -/
theorem LinksUp.length_lt_size (hs : s.Sound) (h : s.LinksUp id above) (hid : id < s.size) :
    above.length < s.size := by
  have hsub : (id :: above) ⊆ List.range s.size := fun x hx =>
    List.mem_range.2 (h.lt_size hs hid hx)
  have hlen := ((h.nodup hs).subperm hsub).length_le
  rwa [List.length_range] at hlen

end Store

namespace Tree

open Context (strayed)
open Store (LinksUp chainTop)

variable {t : Tree} {id : NodeId} {above : List NodeId}

/-! ### The walks of a tree -/

/-- What resolving a path answers for a slot whose links lead through a list of slots. -/
structure Resolves (t : Tree) (most : Nat) (id : NodeId) (above : List NodeId) : Prop where
  found_iff : (∃ way, t.path most id = .ok way) ↔
    (∃ n, t.get? id = some n) ∧ chainTop id above = t.root ∧ above.length + 1 ≤ max most 1
  nodes : ∀ way, t.path most id = .ok way → way.nodes = (id :: above).reverse
  ends : ∀ way, t.path most id = .ok way →
    way.nodes.head? = some t.root ∧ way.nodes.getLast? = some id
  linked : ∀ way, t.path most id = .ok way →
    way.nodes.IsChain fun p c => t.parent? c = some p ∧ c ∈ t.children p
  depth : ∀ way, t.path most id = .ok way → t.depth? id = some (way.nodes.length - 1)
  unknown : t.get? id = none →
    t.path most id = .error (.treeState (.unknownNode id t.store.size))
  tooLong : ∀ n, t.get? id = some n → max most 1 < above.length + 1 →
    t.path most id = .error (.limit .recursionDepth (max most 1 + 1) most (some n.stableId))
  elsewhere : ∀ n, t.get? id = some n → above.length + 1 ≤ max most 1 →
    chainTop id above ≠ t.root →
    t.path most id = .error (.treeState (.unreachable n.stableId (t.store.nameOf t.root)
      (t.store.nameOf (chainTop id above))))

/-- What the walks that are bounded by the number of slots answer for a slot whose links lead
through a list of slots. -/
structure WalksAgree (t : Tree) (id : NodeId) (above : List NodeId) : Prop where
  ancestors : t.ancestors id = above
  isAttached : t.isAttached id = true ↔ ∃ way, t.path t.store.size id = .ok way
  depth : (t.depth? id).isSome = true ↔ ∃ way, t.path t.store.size id = .ok way
  descendants : t.isAttached id = true → id ∈ t.descendants t.root
  hangs : t.store.isAttached t.root none id = true ↔ ∃ way, t.path t.store.size id = .ok way
  hangs_leaving : ∀ root leaving, t.store.isAttached root leaving id = true ↔
    (∃ n, t.get? id = some n) ∧ chainTop id above = root ∧ ∀ x ∈ id :: above, leaving ≠ some x

theorem exists_get?_iff (ht : t.store.Sound) : (∃ n, t.get? id = some n) ↔ id < t.store.size := by
  constructor
  · rintro ⟨n, hn⟩
    exact Store.lt_size_of_get? hn
  · exact ht.full id

/-- The number of slots is no limit. -/
theorem exists_path_size_iff (ht : t.store.Sound) (hup : t.store.LinksUp id above) :
    (∃ way, t.path t.store.size id = .ok way) ↔
      (∃ n, t.get? id = some n) ∧ chainTop id above = t.root := by
  simp only [path, Store.path_eq_ok_iff_of_linksUp hup, exists_and_right, exists_eq, true_and]
  refine and_congr_right fun hn => and_iff_left_of_imp fun _ => ?_
  have hlen := hup.length_lt_size ht ((exists_get?_iff ht).1 hn)
  omega

theorem isAttached_iff_of_linksUp (ht : t.store.Sound) (hup : t.store.LinksUp id above) :
    t.isAttached id = true ↔ (∃ n, t.get? id = some n) ∧ chainTop id above = t.root := by
  rw [isAttached_iff, ancestors_eq ht hup, exists_get?_iff ht]

theorem Sound.resolves (ht : t.Sound) (most : Nat) (hup : t.store.LinksUp id above) :
    t.Resolves most id above := by
  have hfound : ∀ way, t.path most id = .ok way ↔ way = { target := id, above } ∧
      (∃ n, t.get? id = some n) ∧ chainTop id above = t.root ∧ above.length + 1 ≤ max most 1 :=
    fun way => Store.path_eq_ok_iff_of_linksUp hup
  constructor
  · simp only [hfound, exists_and_right, exists_eq, true_and]
  · rintro way h
    rw [((hfound way).1 h).1]
    rfl
  · rintro way h
    obtain ⟨rfl, -, htop, -⟩ := (hfound way).1 h
    refine ⟨?_, by simp [Path.nodes]⟩
    rw [Path.nodes, List.head?_reverse, List.getLast?_cons, ← htop]
    rfl
  · rintro way h
    rw [((hfound way).1 h).1, Path.nodes, List.isChain_reverse]
    exact hup.isChain ht.store
  · rintro way h
    obtain ⟨rfl, hn, htop, -⟩ := (hfound way).1 h
    rw [depth?, if_pos ((isAttached_iff_of_linksUp ht.store hup).2 ⟨hn, htop⟩),
      ancestors_eq ht.store hup]
    simp [Path.nodes]
  · exact Store.path_of_get?_eq_none
  · intro n hn hlen
    exact Store.path_of_length_lt hn hup hlen
  · intro n hn hlen htop
    exact Store.path_of_chainTop_ne hn hup hlen htop

theorem Sound.walksAgree (ht : t.Sound) (hup : t.store.LinksUp id above) :
    t.WalksAgree id above := by
  have hattached := isAttached_iff_of_linksUp ht.store hup
  have hhangs : ∀ root leaving, t.store.isAttached root leaving id = true ↔
      (∃ n, t.get? id = some n) ∧ chainTop id above = root ∧
        ∀ x ∈ id :: above, leaving ≠ some x := by
    intro root leaving
    rw [Store.isAttached_iff ht.store, hup.hangs_iff, exists_get?_iff ht.store]
  constructor
  · exact ancestors_eq ht.store hup
  · rw [hattached, exists_path_size_iff ht.store hup]
  · rw [exists_path_size_iff ht.store hup, ← hattached, depth?]
    cases t.isAttached id <;> simp
  · intro h
    rw [descendants_eq ht.root]
    exact mem_preorder_of_isAttached ht.store h
  · rw [hhangs, exists_path_size_iff ht.store hup]
    simp
  · exact hhangs

/-- In every tree there is, the links from a slot lead through one list of slots, and all walks up
the tree answer as that list says, whatever limit there is on the length of a path. -/
theorem resolves_of_lineage {t : Tree} (h : Lineage t) (id : NodeId) (most : Nat) :
    ∃ above, t.store.LinksUp id above ∧ (∀ others, t.store.LinksUp id others → others = above) ∧
      t.Resolves most id above ∧ t.WalksAgree id above := by
  have hup := linksUp_ancestors h.sound.store id
  exact ⟨t.ancestors id, hup, fun others hothers => hothers.unique hup, h.sound.resolves most hup,
    h.sound.walksAgree hup⟩

/-- The path to slot 1 is found, and the chain of slot 0, which ends outside of the tree, is refused
for its length where it is too long. -/
theorem resolves_of_lineage_strayed :
    Lineage strayed ∧ (∃ way, strayed.path 3 1 = .ok way ∧ way.nodes = [9, 2, 1]) ∧
      strayed.Resolves 3 0 [6, 7] ∧ strayed.WalksAgree 0 [6, 7] ∧
      ∃ n, strayed.path 2 0 = .error (.limit .recursionDepth 3 2 (some n)) := by
  have hlineage : Lineage strayed := .edited _ _ (.built Context.finish_strayNodes)
  have hone : strayed.store.LinksUp 1 [2, 9] := by decide +kernel
  have hzero : strayed.store.LinksUp 0 [6, 7] := by decide +kernel
  obtain ⟨n, hn⟩ : ∃ n, strayed.get? 0 = some n := Option.isSome_iff_exists.1 (by decide +kernel)
  refine ⟨hlineage, ?_, ?_, ?_, n.stableId, ?_⟩
  · obtain ⟨above, -, honly, hpath, -⟩ := resolves_of_lineage hlineage 1 3
    obtain rfl := honly [2, 9] hone
    obtain ⟨way, hway⟩ := hpath.found_iff.2
      ⟨Option.isSome_iff_exists.1 (by decide +kernel), by decide +kernel, by decide⟩
    exact ⟨way, hway, hpath.nodes way hway⟩
  · obtain ⟨above, -, honly, hpath, -⟩ := resolves_of_lineage hlineage 0 3
    rwa [← honly [6, 7] hzero] at hpath
  · obtain ⟨above, -, honly, -, hwalks⟩ := resolves_of_lineage hlineage 0 3
    rwa [← honly [6, 7] hzero] at hwalks
  · obtain ⟨above, -, honly, hpath, -⟩ := resolves_of_lineage hlineage 0 2
    obtain rfl := honly [6, 7] hzero
    exact hpath.tooLong n hn (by decide)

end Tree

end TreeEdit
