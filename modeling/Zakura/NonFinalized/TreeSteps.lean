import Zakura.NonFinalized.TreesCore

/-!
One pool's trees and anchors over a range of heights: adding the next height,
removing the last one, and removing all heights up to a finalized root.
-/

namespace Zakura.NonFinalized

open FiniteMap Fallible Option Finmap

namespace TreeIndex

variable [CommitmentHasher] {pool : ShieldedPool} {index next : TreeIndex} {low high height : Nat}
  {tree : NoteCommitmentTree}

/-- The index holds the trees and anchors of exactly the heights from `low` to `high`: every
anchor is the root of the tree at its height, and the lowest height has its own tree. -/
structure Spans (pool : ShieldedPool) (index : TreeIndex) (low high : Nat) : Prop where
  nonempty : low ≤ high
  within : ∀ key value, index.treesByHeight.lookup key = some value → low ≤ key ∧ key ≤ high
  first : (index.treesByHeight.lookup low).isSome
  outside : ∀ key, index.anchorsByHeight.lookup key ≠ none → low ≤ key ∧ key ≤ high
  roots : ∀ key, low ≤ key → key ≤ high →
    index.anchorsByHeight.lookup key = (index.treeAt key).map (·.root pool)
  anchors : index.anchors = index.anchorsByHeight.bag

structure Added (pool : ShieldedPool) (height : Nat) (tree : NoteCommitmentTree)
    (index next : TreeIndex) : Prop where
  treeFresh : index.isNewTree pool height tree = true → index.treesByHeight.lookup height = none
  anchorFresh : index.anchorsByHeight.lookup height = none
  trees : next.treesByHeight = if index.isNewTree pool height tree then
    index.treesByHeight.insert height tree else index.treesByHeight
  anchorsByHeight : next.anchorsByHeight = index.anchorsByHeight.insert height (tree.root pool)
  anchors : next.anchors = tree.root pool ::ₘ index.anchors

theorem addTreeAndAnchor_eq_ok :
    index.addTreeAndAnchor pool height tree = .ok next ↔ Added pool height tree index next := by
  simp only [addTreeAndAnchor, ite_error_eq_ok, Except.ok.injEq, not_and, not_isSome_iff_eq_none]
  constructor
  · rintro ⟨treeFresh, anchorFresh, rfl⟩
    exact ⟨treeFresh, anchorFresh, rfl, rfl, rfl⟩
  · cases next
    rintro ⟨treeFresh, anchorFresh, rfl, rfl, rfl⟩
    exact ⟨treeFresh, anchorFresh, rfl⟩

section

variable (spans : Spans pool index low high)
include spans

theorem Spans.keys_le : ∀ key ∈ index.treesByHeight.keys, key ≤ high := by
  intro key member
  obtain ⟨value, found⟩ := mem_keys_iff.mp member
  exact (spans.within key value found).2

theorem Spans.tree_absent (above : high < height) : index.treesByHeight.lookup height = none := by
  cases found : index.treesByHeight.lookup height with
  | none => rfl
  | some value => exact absurd (spans.within height value found).2 (by omega)

theorem Spans.anchor_absent (above : high < height) :
    index.anchorsByHeight.lookup height = none := by
  by_contra found
  exact absurd (spans.outside height found).2 (by omega)

theorem Spans.treeForTip : index.treeForTip = index.treeAt high :=
  lastValue_eq_floor spans.keys_le

theorem Spans.treeAt_isSome (above : low ≤ height) : ∃ tree, index.treeAt height = some tree := by
  obtain ⟨first, found⟩ := isSome_iff_exists.mp spans.first
  cases lookup : index.treeAt height with
  | some tree => exact ⟨tree, rfl⟩
  | none =>
    have absent := floor_eq_none.mp lookup low above
    simp [found] at absent

theorem Added.treeAt (added : Added pool (high + 1) tree index next) :
    next.treeAt (high + 1) = if index.isNewTree pool (high + 1) tree then some tree
      else index.treeAt high := by
  unfold TreeIndex.treeAt
  rw [added.trees]
  split
  · exact floor_of_lookup (lookup_insert _)
  · rw [floor, spans.tree_absent (by omega), none_or]

end

section

variable (added : Added pool (high + 1) tree index next)
include added

theorem Added.treeAt_below (below : height ≤ high) : next.treeAt height = index.treeAt height := by
  unfold TreeIndex.treeAt
  rw [added.trees]
  split
  · refine floor_congr (Nat.zero_le height) ?_ ?_
    · rw [floor, floor, lookup_insert_of_ne _ (by omega)]
    · intro key _ within
      rw [lookup_insert_of_ne _ (by omega)]
  · rfl

theorem Added.root (spans : Spans pool index low high) :
    (next.treeAt (high + 1)).map (·.root pool) = some (tree.root pool) := by
  rw [added.treeAt spans]
  by_cases isNew : index.isNewTree pool (high + 1) tree = true
  · rw [if_pos isNew, map_some]
  rw [if_neg isNew]
  obtain ⟨_, found⟩ := spans.treeAt_isSome spans.nonempty
  simp only [isNewTree, Nat.add_eq_zero_iff, one_ne_zero, and_false, Nat.add_sub_cancel, found,
    all_some, false_or, decide_eq_true_eq, ne_eq, not_not] at isNew
  rw [found, map_some, isNew]

theorem Added.spans (spans : Spans pool index low high) : Spans pool next low (high + 1) := by
  have below := spans.nonempty
  refine ⟨by omega, ?_, ?_, ?_, ?_, ?_⟩
  · intro key value found
    rw [added.trees] at found
    split at found
    · rw [lookup_insert_ite] at found
      split at found
      · omega
      · have old := spans.within key value found
        omega
    · have old := spans.within key value found
      omega
  · rw [added.trees]
    split
    · rw [lookup_insert_ite, if_neg (by omega)]
      exact spans.first
    · exact spans.first
  · intro key found
    rw [added.anchorsByHeight, lookup_insert_ite] at found
    split at found
    · omega
    · have old := spans.outside key found
      omega
  · intro key above within
    rw [added.anchorsByHeight, lookup_insert_ite]
    by_cases top : key = high + 1
    · rw [if_pos top, top, added.root spans]
    · rw [if_neg top, added.treeAt_below (by omega)]
      exact spans.roots key above (by omega)
  · rw [added.anchors, added.anchorsByHeight, bag_insert added.anchorFresh, spans.anchors]

end

theorem Added.agree {wide wideNext narrow narrowNext : TreeIndex} {wideLow narrowLow : Nat}
    (wideSpans : Spans pool wide wideLow high) (narrowSpans : Spans pool narrow narrowLow high)
    (wideAdded : Added pool (high + 1) tree wide wideNext)
    (narrowAdded : Added pool (high + 1) tree narrow narrowNext) (low_le : low ≤ high)
    (agree : ∀ height, low ≤ height → height ≤ high → narrow.treeAt height = wide.treeAt height) :
    ∀ height, low ≤ height → height ≤ high + 1 →
      narrowNext.treeAt height = wideNext.treeAt height := by
  intro height above within
  by_cases top : height = high + 1
  · have isNew : narrow.isNewTree pool (high + 1) tree = wide.isNewTree pool (high + 1) tree := by
      simp [isNewTree, agree high low_le (le_refl _)]
    rw [top, narrowAdded.treeAt narrowSpans, wideAdded.treeAt wideSpans, isNew,
      agree high low_le (le_refl _)]
  · rw [narrowAdded.treeAt_below (by omega), wideAdded.treeAt_below (by omega)]
    exact agree height above (by omega)

theorem Spans.add (spans : Spans pool index low high) (tree : NoteCommitmentTree) :
    ∃ next, index.addTreeAndAnchor pool (high + 1) tree = .ok next := by
  have treeFresh : index.treesByHeight.lookup (high + 1) = none := spans.tree_absent (by omega)
  have anchorFresh := spans.anchor_absent (show high < high + 1 by omega)
  exact ⟨⟨_, _, _⟩, addTreeAndAnchor_eq_ok.mpr ⟨fun _ => treeFresh, anchorFresh, rfl, rfl, rfl⟩⟩

theorem add_to_empty (pool : ShieldedPool) (height : Nat) (tree : NoteCommitmentTree) :
    ∃ next, empty.addTreeAndAnchor pool height tree = .ok next := by
  have absent : empty.treesByHeight.lookup height = none := lookup_empty height
  have anchorAbsent : empty.anchorsByHeight.lookup height = none := lookup_empty height
  simp [addTreeAndAnchor, absent, anchorAbsent]

theorem spans_of_new (added : empty.addTreeAndAnchor pool height tree = .ok next) :
    Spans pool next height height ∧ next.treeAt height = some tree := by
  have facts := addTreeAndAnchor_eq_ok.mp added
  have none (key : Nat) : empty.treesByHeight.lookup key = none := lookup_empty key
  have isNew : empty.isNewTree pool height tree = true := by
    have absent : empty.treeAt (height - 1) = Option.none :=
      floor_eq_none.mpr fun key _ => none key
    simp [isNewTree, absent]
  have trees := facts.trees
  rw [if_pos isNew] at trees
  have here : next.treeAt height = some tree := by
    unfold TreeIndex.treeAt
    rw [trees]
    exact floor_of_lookup (lookup_insert _)
  refine ⟨⟨le_refl _, ?_, ?_, ?_, ?_, ?_⟩, here⟩
  · intro key value found
    rw [trees, lookup_insert_ite] at found
    split at found
    · omega
    · simp [none] at found
  · rw [trees, lookup_insert]
    rfl
  · intro key found
    rw [facts.anchorsByHeight, lookup_insert_ite] at found
    split at found
    · omega
    · exact absurd (lookup_empty key) found
  · intro key above within
    obtain rfl : key = height := by omega
    rw [here, facts.anchorsByHeight, lookup_insert, map_some]
  · rw [facts.anchors, facts.anchorsByHeight, bag_insert facts.anchorFresh]
    rfl

theorem Added.removeTip (spans : Spans pool index low high)
    (added : Added pool (high + 1) tree index next) {tipHeight : Option Nat}
    (isTip : tipHeight.any (high + 1 < ·) = false) :
    next.removeTreeAndAnchor pool .tip tipHeight (high + 1) = .ok index := by
  have restored : next.treesByHeight.erase (high + 1) = index.treesByHeight := by
    rw [added.trees]
    split
    · exact erase_insert (spans.tree_absent (by omega)) _
    · exact erase_absent (spans.tree_absent (by omega))
  have removed : next.removeHeight pool (high + 1) = .ok (tree.root pool, index) := by
    unfold removeHeight
    rw [added.anchorsByHeight, lookup_insert]
    dsimp only
    rw [if_pos (by rw [added.anchors]; exact Multiset.mem_cons_self _ _), restored,
      erase_insert added.anchorFresh, added.anchors, Multiset.erase_cons_head]
  simp [removeTreeAndAnchor, removedHeights, removed, restoreNext, isTip, bind, Except.bind, pure,
    Except.pure]

omit [CommitmentHasher] in
theorem removeHeights_ok (pool : ShieldedPool) {heights : List Nat}
    (bagged : index.anchors = index.anchorsByHeight.bag) (distinct : heights.Nodup)
    (present : ∀ key ∈ heights, index.anchorsByHeight.lookup key ≠ none) : ∃ cleared : TreeIndex,
      heights.foldlM (fun current removed => return (← current.removeHeight pool removed).2) index =
        .ok cleared ∧ (∀ key, cleared.treesByHeight.lookup key =
        if key ∈ heights then none else index.treesByHeight.lookup key) ∧
      (∀ key, cleared.anchorsByHeight.lookup key =
        if key ∈ heights then none else index.anchorsByHeight.lookup key) ∧
      cleared.anchors = cleared.anchorsByHeight.bag := by
  induction heights generalizing index with
  | nil => exact ⟨index, rfl, by simp, by simp, bagged⟩
  | cons height rest ih =>
    obtain ⟨anchor, found⟩ := ne_none_iff_exists'.mp (present height (by simp))
    rw [List.nodup_cons] at distinct
    have member : anchor ∈ index.anchors := by
      rw [bagged]
      exact mem_bag.mpr ⟨height, found⟩
    obtain ⟨step, isStep⟩ : ∃ step : TreeIndex, step = ⟨index.treesByHeight.erase height,
      index.anchorsByHeight.erase height, index.anchors.erase anchor⟩ := ⟨_, rfl⟩
    have removed : index.removeHeight pool height = .ok (anchor, step) := by
      rw [removeHeight, found]
      dsimp only
      rw [if_pos member, isStep]
    have stepTrees (key : Nat) : step.treesByHeight.lookup key =
        if key = height then none else index.treesByHeight.lookup key := by
      rw [isStep, lookup_erase_ite]
    have stepAnchors (key : Nat) : step.anchorsByHeight.lookup key =
        if key = height then none else index.anchorsByHeight.lookup key := by
      rw [isStep, lookup_erase_ite]
    have stepBag : step.anchors = step.anchorsByHeight.bag := by
      rw [isStep, bagged, ← bag_erase found, Multiset.erase_cons_head]
    obtain ⟨cleared, ran, trees, anchors, bag⟩ := ih stepBag distinct.2 (by
      intro key later
      rw [stepAnchors, if_neg fun same : key = height => distinct.1 (same ▸ later)]
      exact present key (by simp [later]))
    refine ⟨cleared, ?_, ?_, ?_, bag⟩
    · rw [List.foldlM_cons, bind_eq_ok]
      exact ⟨step, by simp [removed, bind, Except.bind, pure, Except.pure], ran⟩
    · intro key
      rw [trees, stepTrees]
      by_cases same : key = height <;> simp [same]
    · intro key
      rw [anchors, stepAnchors]
      by_cases same : key = height <;> simp [same]

structure RootRemoved (root : Nat) (index next : TreeIndex) : Prop where
  lookup : ∀ key, next.treesByHeight.lookup key =
    if key ≤ root then none else if key = root + 1 then index.treeAt key
    else index.treesByHeight.lookup key
  anchorsByHeight : ∀ key, next.anchorsByHeight.lookup key =
    if key ≤ root then none else index.anchorsByHeight.lookup key
  anchors : next.anchors = next.anchorsByHeight.bag

omit [CommitmentHasher] in
theorem RootRemoved.treeAt {root : Nat} (removed : RootRemoved root index next)
    (above : root < height) : next.treeAt height = index.treeAt height := by
  have start : next.treeAt (root + 1) = index.treeAt (root + 1) := by
    have here := removed.lookup (root + 1)
    rw [if_neg (by omega), if_pos rfl] at here
    cases found : index.treeAt (root + 1) with
    | some tree =>
      rw [found] at here
      exact floor_of_lookup here
    | none =>
      rw [found] at here
      refine floor_eq_none.mpr ?_
      intro key within
      by_cases top : key = root + 1
      · rw [top, here]
      · rw [removed.lookup key, if_pos (by omega)]
  refine floor_congr (show root + 1 ≤ height by omega) start ?_
  intro key later _
  rw [removed.lookup key, if_neg (by omega), if_neg (by omega)]

theorem RootRemoved.spans {root : Nat} (spans : Spans pool index low high) (low_le : low ≤ root)
    (root_lt : root < high) (removed : RootRemoved root index next) :
    Spans pool next (root + 1) high := by
  refine ⟨root_lt, ?_, ?_, ?_, ?_, removed.anchors⟩
  · intro key value found
    rw [removed.lookup, ite_none_left_eq_some] at found
    obtain ⟨_, found⟩ := found
    split at found
    · omega
    · have old := spans.within key value found
      omega
  · rw [removed.lookup, if_neg (by omega), if_pos rfl]
    obtain ⟨_, found⟩ := spans.treeAt_isSome (show low ≤ root + 1 by omega)
    rw [found]
    rfl
  · intro key found
    rw [removed.anchorsByHeight] at found
    split at found
    · simp at found
    · have old := spans.outside key found
      omega
  · intro key above within
    rw [removed.anchorsByHeight, if_neg (by omega), removed.treeAt (by omega)]
    exact spans.roots key (by omega) within

theorem Spans.removeRoot {root : Nat} (spans : Spans pool index low high) (low_le : low ≤ root)
    (root_lt : root < high) : ∃ cleared next : TreeIndex, (index.removedHeights .root root).foldlM
        (fun current removed => return (← current.removeHeight pool removed).2) index =
          .ok cleared ∧
      cleared.restoreNext (some high) root (index.highestRemovedTree .root root) = .ok next ∧
      next.anchors = cleared.anchors ∧ RootRemoved root index next := by
  have listed (key : Nat) : key ∈ index.removedHeights .root root ↔
      index.anchorsByHeight.lookup key ≠ none ∧ key ≤ root := by
    simp only [removedHeights, mem_ascending, Finset.mem_filter, mem_keys_iff, ne_none_iff_exists']
  obtain ⟨cleared, ran, trees, anchors, bag⟩ := removeHeights_ok pool spans.anchors
    (show (index.removedHeights .root root).Nodup from nodup_ascending _)
    (fun key member => ((listed key).mp member).1)
  have below {Value : Type} (map : FiniteMap Nat Value) (key : Nat)
      (covered : map.lookup key ≠ none → index.anchorsByHeight.lookup key ≠ none) :
      (if key ∈ index.removedHeights .root root then none else map.lookup key) =
        if key ≤ root then none else map.lookup key := by
    by_cases within : key ≤ root
    · rw [if_pos within]
      by_cases found : map.lookup key = none
      · rw [found, ite_self]
      · rw [if_pos ((listed key).mpr ⟨covered found, within⟩)]
    · rw [if_neg within, if_neg fun member => within ((listed key).mp member).2]
  have anchorsBelow (key : Nat) := (anchors key).trans (below _ key id)
  have treesBelow (key : Nat) : cleared.treesByHeight.lookup key =
      if key ≤ root then none else index.treesByHeight.lookup key := by
    refine (trees key).trans (below _ key fun found => ?_)
    obtain ⟨value, found⟩ := ne_none_iff_exists'.mp found
    have inside := spans.within key value found
    obtain ⟨_, treeFound⟩ := spans.treeAt_isSome inside.1
    rw [spans.roots key inside.1 inside.2, treeFound]
    simp
  obtain ⟨previous, cached⟩ := spans.treeAt_isSome low_le
  have above : cleared.treesByHeight.lookup (root + 1) = index.treesByHeight.lookup (root + 1) := by
    rw [treesBelow, if_neg (by omega)]
  have nextTree : index.treeAt (root + 1) =
      (index.treesByHeight.lookup (root + 1)).or (some previous) := by
    rw [← cached]
    rfl
  refine ⟨cleared, { cleared with treesByHeight := if (index.treesByHeight.lookup (root + 1)).isNone
    then cleared.treesByHeight.insert (root + 1) previous else cleared.treesByHeight }, ran, ?_, rfl,
    ?_, anchorsBelow, bag⟩
  · unfold restoreNext highestRemovedTree
    rw [above]
    cases found : index.treesByHeight.lookup (root + 1) with
    | none => simp [root_lt, cached, expect, bind, Except.bind, pure, Except.pure]
    | some value => simp
  intro key
  by_cases top : key = root + 1
  · rw [if_neg (show ¬key ≤ root by omega), if_pos top, top, nextTree]
    cases found : index.treesByHeight.lookup (root + 1) with
    | none => rw [isNone_none, if_pos rfl, lookup_insert, none_or]
    | some value => rw [isNone_some, if_neg (by simp), above, found, some_or]
  rw [if_neg top]
  split
  · rw [lookup_insert_ite, if_neg top, treesBelow]
  · rw [treesBelow]

end TreeIndex

end Zakura.NonFinalized
