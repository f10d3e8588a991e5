import TreeEdit.Proofs.Generation
import TreeEdit.Proofs.Lineage
import TreeEdit.Proofs.Unfolding
import TreeEdit.Tree.Print

/-!
# The order of a traversal

`Tree.descendants` lists the nodes of a subtree. `Tree.Traverses` says what is in the list: it is
the preorder of the child lists, a loop with a stack of slots ends with it, and it is as long as the
tree of attributes has nodes. `Store.ways` gives the same nodes together with the way that leads to
each of them, and a dump prints one line for each, indented by the length of the way.
`Tree.traverses_of_lineage` has all this of every tree there is.
-/

namespace TreeEdit

/-! ### The loop -/

/-- A traversal under way: the nodes gone through so far, and a stack with the next node at its
end. -/
structure Traversal where
  order : List NodeId := []
  stack : List NodeId

/-- One turn: the node at the end of the stack is next, and its children take its place, the first
child at the end. -/
def Tree.turn (t : Tree) (w : Traversal) : Traversal :=
  match w.stack.getLast? with
  | none => w
  | some id =>
    { order := w.order ++ [id], stack := w.stack.dropLast ++ (t.children id).reverse }

namespace Store

variable {s : Store} {id : NodeId} {n : Node}

/-- What a stack still has to come. -/
def ahead (s : Store) (stack : List NodeId) : List NodeId :=
  stack.reverse.flatMap s.preorder

theorem ahead_append_singleton (s : Store) (stack : List NodeId) (id : NodeId) :
    s.ahead (stack ++ [id]) = id :: s.ahead (stack ++ (s.under id).reverse) := by
  rw [ahead, ahead, List.reverse_append, List.reverse_append, List.reverse_reverse,
    List.flatMap_append, List.flatMap_append, List.reverse_singleton, List.flatMap_singleton,
    preorder_eq, List.cons_append]

theorem ahead_eq_nil_iff {stack : List NodeId} : s.ahead stack = [] ↔ stack = [] := by
  constructor
  · intro h
    cases stack using List.reverseRecOn with
    | nil => rfl
    | append_singleton stack id =>
      rw [ahead_append_singleton] at h
      cases h
  · rintro rfl
    rfl

end Store

namespace Tree

variable {t : Tree} {id : NodeId}

/-- A turn takes one node off what is to come. -/
theorem turn_eq (ht : t.store.Sound) (w : Traversal) {rest : List NodeId}
    (h : t.store.ahead w.stack = id :: rest) :
    (t.turn w).order = w.order ++ [id] ∧ t.store.ahead (t.turn w).stack = rest := by
  obtain ⟨order, stack⟩ := w
  cases stack using List.reverseRecOn with
  | nil => cases h
  | append_singleton stack last =>
    rw [Store.ahead_append_singleton, List.cons.injEq, ht.under_eq_children] at h
    obtain ⟨rfl, rfl⟩ := h
    simp [turn, Tree.children]

/-- After some turns, the nodes gone through are the first ones of the preorder. -/
theorem iterate_turn (ht : t.store.Sound) (id : NodeId) (turns : Nat) :
    (t.turn^[turns] { stack := [id] }).order = (t.store.preorder id).take turns ∧
      t.store.ahead (t.turn^[turns] { stack := [id] }).stack =
        (t.store.preorder id).drop turns := by
  induction turns with
  | zero => simp [Store.ahead]
  | succ turns ih =>
    obtain ⟨horder, hahead⟩ := ih
    rw [Function.iterate_succ_apply']
    cases hrest : (t.store.preorder id).drop turns with
    | nil =>
      -- the stack has run empty, and further turns do nothing
      have hstack := Store.ahead_eq_nil_iff.1 (hahead.trans hrest)
      have hlen := List.drop_eq_nil_iff.1 hrest
      have hturn : t.turn (t.turn^[turns] { stack := [id] }) =
          t.turn^[turns] { stack := [id] } := by
        rw [turn, hstack]
        rfl
      rw [hturn, horder, hahead, hrest, List.take_of_length_le hlen,
        List.take_of_length_le (Nat.le_succ_of_le hlen)]
      exact ⟨rfl, (List.drop_eq_nil_iff.2 (Nat.le_succ_of_le hlen)).symm⟩
    | cons next rest =>
      obtain ⟨horder', hahead'⟩ := turn_eq ht _ (hahead.trans hrest)
      have hnext : (t.store.preorder id)[turns]? = some next := by
        rw [← List.head?_drop, hrest]
        rfl
      rw [horder', horder, hahead', List.take_add_one, hnext, ← List.tail_drop, hrest]
      exact ⟨rfl, rfl⟩

theorem descendants_eq_cons (ht : t.store.Sound) (hid : id < t.store.size) :
    t.descendants id = id :: (t.children id).flatMap t.descendants := by
  rw [descendants_eq hid, Store.preorder_eq, ht.under_eq_children]
  congr 1
  refine List.flatMap_congr fun c hc => (descendants_eq ?_).symm
  rw [← ht.under_eq_children] at hc
  exact Nat.lt_trans (Store.lt_of_mem_under hc) hid

end Tree

/-! ### The size -/

mutual

/-- The number of nodes of a tree of attributes. -/
def Rose.size : Rose → Nat
  | .absent => 0
  | .node _ children => Rose.sizeAll children + 1

/-- The number of nodes of some trees of attributes. -/
def Rose.sizeAll : List Rose → Nat
  | [] => 0
  | t :: ts => t.size + Rose.sizeAll ts

end

theorem Store.sizeAll_map_unfold {s : Store} {ids : List NodeId}
    (h : ∀ c ∈ ids, (s.unfold c).size = (s.preorder c).length) :
    Rose.sizeAll (ids.map s.unfold) = (ids.flatMap s.preorder).length := by
  induction ids with
  | nil => rfl
  | cons c ids ih =>
    obtain ⟨hc, hids⟩ := List.forall_mem_cons.1 h
    rw [List.map_cons, Rose.sizeAll, hc, ih hids, List.flatMap_cons, List.length_append]

theorem Store.Sound.size_unfold {s : Store} (hs : s.Sound) {id : NodeId} (hid : id < s.size) :
    (s.unfold id).size = (s.preorder id).length := by
  induction id using Nat.strong_induction_on with
  | _ id ih =>
    obtain ⟨n, hn⟩ := hs.full id hid
    have hchildren : ∀ c ∈ n.children, (s.unfold c).size = (s.preorder c).length := fun c hc =>
      have hlt := hs.earlier id n hn c hc
      ih c hlt (Nat.lt_trans hlt hid)
    rw [hs.unfold_eq hn, spread, Rose.size, sizeAll_map_unfold hchildren, preorder_eq,
      hs.under_eq hn, List.length_cons]

/-! ### The ways down -/

namespace Store

variable {s : Store} {id : NodeId} {above : List NodeId} {way : Path}

/-- The ways from a slot to the nodes below it, in preorder. The slots above the start are given
nearest first. -/
def ways (s : Store) (above : List NodeId) (id : NodeId) : List Path :=
  { target := id, above } :: (s.under id).attach.flatMap fun ⟨c, _⟩ => s.ways (id :: above) c
termination_by id
decreasing_by exact lt_of_mem_under ‹_›

theorem ways_eq (s : Store) (above : List NodeId) (id : NodeId) :
    s.ways above id = { target := id, above } :: (s.under id).flatMap (s.ways (id :: above)) := by
  rw [ways]
  congr 1
  exact List.flatMap_subtype (fun _ _ => rfl) |>.trans (by rw [List.unattach_attach])

theorem map_target_ways (s : Store) (above : List NodeId) (id : NodeId) :
    (s.ways above id).map Path.target = s.preorder id := by
  induction id using Nat.strong_induction_on generalizing above with
  | _ id ih =>
    rw [ways_eq, preorder_eq, List.map_cons, List.map_flatMap]
    congr 1
    exact List.flatMap_congr fun c hc => ih c (lt_of_mem_under hc) (id :: above)

/-- A way goes from each node to one of its children, and comes from where it has started. -/
theorem isChain_of_mem_ways (h : way ∈ s.ways above id)
    (hstart : (id :: above).IsChain fun c p => c ∈ s.under p) :
    (way.target :: way.above).IsChain (fun c p => c ∈ s.under p) ∧
      (id :: above) <:+ (way.target :: way.above) := by
  induction id using Nat.strong_induction_on generalizing above with
  | _ id ih =>
    rw [ways_eq, List.mem_cons, List.mem_flatMap] at h
    rcases h with rfl | ⟨c, hc, hway⟩
    · exact ⟨hstart, List.suffix_refl _⟩
    · obtain ⟨hchain, hsuffix⟩ := ih c (lt_of_mem_under hc) hway (.cons_cons hc hstart)
      exact ⟨hchain, (List.suffix_cons c _).trans hsuffix⟩

/-- What a dump prints of a way: the node at its end, and its length. -/
def printed? (s : Store) (way : Path) : Option (Node × Nat) :=
  (s.get? way.target).map (·, way.above.length)

theorem depthWalk_map (s : Store) (stack : List Path) :
    s.depthWalk (stack.map fun way => (way.target, way.above.length)) =
      (stack.flatMap fun way => s.ways way.above way.target).filterMap s.printed? := by
  -- the walk is told of slots and depths alone, so the ways are brought back at each turn
  generalize hpairs : stack.map (fun way => (way.target, way.above.length)) = pairs
  induction pairs using depthWalk.induct s generalizing stack with
  | case1 =>
    rw [List.map_eq_nil_iff.1 hpairs, depthWalk]
    rfl
  | case2 id depth rest hnone ih =>
    obtain ⟨way, ways, rfl, hway, hways⟩ := List.map_eq_cons_iff.1 hpairs
    obtain ⟨rfl, rfl⟩ := Prod.mk.inj hway
    have hunder : s.under way.target = [] := by rw [under, children, hnone]; rfl
    have hprinted : s.printed? way = none := by rw [printed?, hnone]; rfl
    rw [depthWalk, hnone, List.flatMap_cons, ways_eq, hunder, List.flatMap_nil]
    exact (ih ways hways).trans (List.filterMap_cons_none hprinted).symm
  | case3 id depth rest n hn ih =>
    obtain ⟨way, ways, rfl, hway, hways⟩ := List.map_eq_cons_iff.1 hpairs
    obtain ⟨rfl, rfl⟩ := Prod.mk.inj hway
    have hprinted : s.printed? way = some (n, way.above.length) := by rw [printed?, hn]; rfl
    have hnext := ih ((s.under way.target).map (⟨·, way.target :: way.above⟩) ++ ways) (by
      rw [List.map_append, List.map_map, hways]
      rfl)
    rw [depthWalk, hn, List.flatMap_cons, ways_eq, List.cons_append,
      List.filterMap_cons_some hprinted]
    dsimp only
    rw [hnext, List.flatMap_append, List.flatMap_map]

end Store

/-! ### Lines -/

namespace Text

/-- A text without a line break. -/
def Inline (s : String) : Prop :=
  '\n' ∉ s.toList

instance (s : String) : Decidable (Inline s) :=
  inferInstanceAs (Decidable ('\n' ∉ s.toList))

theorem Inline.append {a b : String} (ha : Inline a) (hb : Inline b) : Inline (a ++ b) := by
  rw [Inline, String.toList_append, List.mem_append]
  exact fun h => h.elim ha hb

theorem inline_join {l : List String} (h : ∀ s ∈ l, Inline s) : Inline (String.join l) := by
  rw [Inline, String.toList_join, List.mem_flatMap]
  rintro ⟨s, hs, hmem⟩
  exact h s hs hmem

theorem inline_toDigits {b : Nat} (hb : 1 < b) (n : Nat) :
    Inline (String.ofList (Nat.toDigits b n)) := by
  rw [Inline, String.toList_ofList]
  induction n using Nat.strong_induction_on with
  | _ n ih =>
    rw [Nat.toDigits_eq_if hb]
    split
    · simp
    · have hlt : n / b < n := Nat.div_lt_self (by omega) hb
      simpa using ih (n / b) hlt

theorem inline_escape (c : Char) : Inline (escape c) := by
  unfold escape
  split_ifs with hquote hbackslash hnewline
  · decide
  · decide
  · decide
  · decide
  · decide
  · decide
  · exact (Inline.append (by decide) (inline_toDigits (by decide) _)).append (by decide)
  · have hne : c ≠ '\n' := by simpa using hnewline
    simpa [Inline] using hne.symm

theorem inline_quoted (s : String) : Inline (quoted s) := by
  refine (Inline.append (by decide) (inline_join ?_)).append (by decide)
  intro part hpart
  obtain ⟨c, -, rfl⟩ := List.mem_map.1 hpart
  exact inline_escape c

end Text

open Text (Inline)

theorem Position.inline_describe (p : Position) : Inline p.describe :=
  (Text.Inline.append (Text.inline_toDigits (by decide) p.line) (by decide)).append
    (Text.inline_toDigits (by decide) p.column)

theorem StableId.inline_describe (n : StableId) : Inline n.describe := by
  have hkind : Inline n.kind.name := by
    cases n.kind <;> decide
  have hrange : Inline n.range.describe :=
    (n.range.start.inline_describe.append (by decide)).append n.range.stop.inline_describe
  exact (hkind.append (by decide)).append hrange

/-- The name of a construct begins with a letter. -/
theorem Kind.exists_name (k : Kind) : ∃ c cs, k.name.toList = c :: cs ∧ c ≠ ' ' := by
  cases k <;> exact ⟨_, _, rfl, by decide⟩

/-- A text is one line, with the given number of spaces at its beginning. -/
def IsLine (indent : Nat) (text : String) : Prop :=
  ∃ label, text.toList = List.replicate indent ' ' ++ label ++ ['\n'] ∧ '\n' ∉ label ∧
    ∃ c, label.head? = some c ∧ c ≠ ' '

theorem Text.toList_pushn (c : Char) (count : Nat) :
    ("".pushn c count).toList = List.replicate count c := by
  rw [String.pushn_eq_repeat_push]
  induction count with
  | zero => rfl
  | succ count ih => rw [Nat.repeat, String.toList_push, ih, List.replicate_succ']

theorem Node.isLine_line (n : Node) (depth : Nat) : IsLine (2 * depth) (n.line depth) := by
  -- the text comes after the name, so the name alone decides how the line begins
  have hline : ∀ text, Inline text →
      IsLine (2 * depth) ("".pushn ' ' (2 * depth) ++ n.stableId.describe ++ text ++ "\n") := by
    intro text htext
    obtain ⟨c, cs, hname, hc⟩ := n.stableId.kind.exists_name
    refine ⟨(n.stableId.describe ++ text).toList, ?_, n.stableId.inline_describe.append htext, c,
      ?_, hc⟩
    · simp only [String.toList_append, Text.toList_pushn, List.append_assoc]
      rfl
    · have hdescribe : n.stableId.describe =
          n.stableId.kind.name ++ ("@" ++ n.stableId.range.describe) := String.append_assoc
      rw [hdescribe, String.toList_append, String.toList_append, hname]
      rfl
  unfold line
  cases n.attributes.text with
  | none => exact hline "" (by decide)
  | some text => exact hline _ (Text.Inline.append (by decide) (Text.inline_quoted text))

/-! ### Trees -/

namespace Tree

variable {t : Tree} {id : NodeId}

/-- The ways from a slot to the nodes below it, in preorder. -/
def ways (t : Tree) (id : NodeId) : List Path :=
  t.store.ways [] id

/-- The line of the node at the end of a way, indented by two spaces for each step. -/
def Prints (t : Tree) (way : Path) (text : String) : Prop :=
  ∃ n, t.get? way.target = some n ∧ text = n.line way.above.length ∧
    IsLine (2 * way.above.length) text

/-- What a traversal from a slot comes to. -/
structure Traverses (t : Tree) (id : NodeId) : Prop where
  recursive : t.descendants id = id :: (t.children id).flatMap t.descendants
  loop : ∀ turns,
    (t.turn^[turns] { stack := [id] }).order = (t.descendants id).take turns ∧
      ((t.turn^[turns] { stack := [id] }).stack = [] ↔ (t.descendants id).length ≤ turns)
  length_eq : (t.descendants id).length = (t.store.unfold id).size
  targets : (t.ways id).map Path.target = t.descendants id
  steps : ∀ way ∈ t.ways id,
    way.nodes.head? = some id ∧ way.nodes.IsChain fun p c => c ∈ t.children p
  lines : ∃ lines, t.dump id = String.join lines ∧ List.Forall₂ t.Prints (t.ways id) lines

theorem forall₂_prints {ways : List Path} (h : ∀ way ∈ ways, ∃ n, t.get? way.target = some n) :
    List.Forall₂ t.Prints ways
      ((ways.filterMap t.store.printed?).map fun entry => entry.1.line entry.2) := by
  induction ways with
  | nil => exact .nil
  | cons way ways ih =>
    obtain ⟨⟨n, hn⟩, hways⟩ := List.forall_mem_cons.1 h
    have hprinted : t.store.printed? way = some (n, way.above.length) := by
      rw [Store.printed?, show t.store.get? way.target = some n from hn]
      rfl
    rw [List.filterMap_cons_some hprinted, List.map_cons]
    exact .cons ⟨n, hn, rfl, n.isLine_line _⟩ (ih hways)

theorem traverses (ht : t.store.Sound) (hid : id < t.store.size) : t.Traverses id := by
  have hpre : t.descendants id = t.store.preorder id := descendants_eq hid
  have htargets : (t.ways id).map Path.target = t.store.preorder id := t.store.map_target_ways [] id
  constructor
  · exact descendants_eq_cons ht hid
  · intro turns
    obtain ⟨horder, hahead⟩ := iterate_turn ht id turns
    rw [hpre, ← Store.ahead_eq_nil_iff (s := t.store), hahead, List.drop_eq_nil_iff]
    exact ⟨horder, Iff.rfl⟩
  · rw [hpre, ht.size_unfold hid]
  · rw [hpre, htargets]
  · intro way hway
    obtain ⟨hchain, hsuffix⟩ := Store.isChain_of_mem_ways hway (.singleton id)
    refine ⟨?_, List.isChain_reverse.2 (hchain.imp fun c p hc => ?_)⟩
    · obtain ⟨before, hbefore⟩ := hsuffix
      rw [Path.nodes, ← hbefore, List.reverse_append]
      rfl
    · rwa [Tree.children, ← ht.under_eq_children]
  · refine ⟨_, ?_, forall₂_prints fun way hway => ?_⟩
    · have hwalk := t.store.depthWalk_map [{ target := id, above := [] }]
      rw [List.flatMap_singleton] at hwalk
      exact congrArg (fun entries => String.join (entries.map fun entry => entry.1.line entry.2))
        hwalk
    · have hmem : way.target ∈ t.store.preorder id := htargets ▸ List.mem_map_of_mem hway
      exact ht.full way.target (Nat.lt_of_le_of_lt (Store.le_of_mem_preorder hmem) hid)

/-- From every slot of every tree, the loop with a stack ends, with the preorder of the child lists,
which is as long as the tree of attributes has nodes. So these are the numbers of nodes that a tree
and a view count. A dump prints one line for each entry, in order, and indents it by two spaces for
each step of the way to the node. -/
theorem traverses_of_lineage (t : Tree) (ht : Lineage t) :
    (∀ id, t.store.contains id = true → t.Traverses id) ∧ t.nodeCount = t.rose.size ∧
      ∀ v : View, v.tree = t → ∀ id, t.store.contains id = true →
        v.subtreeSize id = (t.store.unfold id).size := by
  have htraverses : ∀ id, t.store.contains id = true → t.Traverses id := fun id hid =>
    traverses ht.sound.store (of_decide_eq_true hid)
  refine ⟨htraverses, (htraverses t.root (decide_eq_true ht.sound.root)).length_eq, ?_⟩
  rintro v rfl id hid
  exact (htraverses id hid).length_eq

/-- Slot 11 is the root, and slot 0 is reached in two ways. -/
def sharing : Tree :=
  ((Context.ofTree Context.strayTree .single).run Context.strayCalls).tree

theorem traverses_of_lineage_sharing :
    sharing.descendants 11 = [11, 2, 1, 0, 10, 0, 3] ∧ sharing.Traverses 11 ∧
      sharing.rose.size = 7 := by
  have hlineage : Lineage sharing := .edited .single _ (.built Context.finish_strayNodes)
  obtain ⟨htraverses, hcount, -⟩ := traverses_of_lineage sharing hlineage
  exact ⟨by decide +kernel, htraverses 11 (by decide +kernel),
    hcount.symm.trans (by decide +kernel)⟩

end Tree

end TreeEdit
