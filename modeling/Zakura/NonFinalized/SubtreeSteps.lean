import Zakura.NonFinalized.TreeSteps

/-!
The Sprout trees by anchor, the subtrees of the other pools, and one pool's part of
pushing a block and of popping it again.
-/

namespace Zakura.NonFinalized

open FiniteMap Fallible Option Finmap

variable {height high low : Nat} {subtrees : Subtrees} {index : TreeIndex}

namespace SproutIndex

variable [CommitmentHasher] {sprout next : SproutIndex} {tree : NoteCommitmentTree}

/-- The trees by anchor are filed under their roots, for exactly the anchors that are present. -/
structure Keyed (sprout : SproutIndex) : Prop where
  root : ∀ anchor tree, sprout.treesByAnchor.lookup anchor = some tree → tree.root .sprout = anchor
  present : ∀ anchor, (sprout.treesByAnchor.lookup anchor).isSome ↔ anchor ∈ sprout.index.anchors

theorem Keyed.lookup_root (keyed : sprout.Keyed) (anchor : Root) :
    (sprout.treesByAnchor.lookup anchor).map (·.root .sprout) =
      if anchor ∈ sprout.index.anchors then some anchor else none := by
  have present := keyed.present anchor
  cases found : sprout.treesByAnchor.lookup anchor with
  | none =>
    rw [found] at present
    rw [map_none, if_neg (by simpa using present)]
  | some tree =>
    rw [found] at present
    rw [map_some, keyed.root anchor tree found, if_pos (by simpa using present)]

theorem keyed_empty : Keyed .empty := by
  refine ⟨?_, ?_⟩
  · intro anchor tree found
    simp [empty, lookup_empty] at found
  · intro anchor
    simp [empty, TreeIndex.empty, lookup_empty]

theorem addTreeAndAnchor_eq_ok : sprout.addTreeAndAnchor height tree = .ok next ↔
      TreeIndex.Added .sprout height tree sprout.index next.index ∧
        next.treesByAnchor = sprout.treesByAnchor.insert (tree.root .sprout) tree := by
  simp only [addTreeAndAnchor, bind_eq_ok, pure_eq_ok, TreeIndex.addTreeAndAnchor_eq_ok]
  constructor
  · rintro ⟨index, added, rfl⟩
    exact ⟨added, rfl⟩
  rintro ⟨added, _⟩
  refine ⟨next.index, added, ?_⟩
  cases next
  simp_all

theorem Keyed.add (keyed : sprout.Keyed) (added : sprout.addTreeAndAnchor height tree = .ok next) :
    next.Keyed := by
  obtain ⟨added, byAnchor⟩ := addTreeAndAnchor_eq_ok.mp added
  refine ⟨?_, ?_⟩
  · rw [byAnchor]
    exact forall_lookup_insert keyed.root rfl
  intro anchor
  rw [byAnchor, lookup_insert_ite, added.anchors, Multiset.mem_cons]
  split
  next same =>
    simp [same]
  next different =>
    simp [different, keyed.present anchor]

theorem Keyed.removeHeight (keyed : sprout.Keyed) {anchor : Root}
    (removed : sprout.index.removeHeight .sprout height = .ok (anchor, index)) :
    ∃ next, sprout.removeHeight height = .ok next ∧ next.index = index ∧ next.Keyed := by
  refine ⟨⟨index, if anchor ∈ index.anchors then sprout.treesByAnchor
    else sprout.treesByAnchor.erase anchor⟩, ?_, rfl, ?_⟩
  · simp [SproutIndex.removeHeight, removed, bind, Except.bind, pure, Except.pure]
  have remaining : index.anchors = sprout.index.anchors.erase anchor := by
    unfold TreeIndex.removeHeight at removed
    split at removed
    · simp at removed
    split at removed
    · obtain ⟨rfl, rfl⟩ := removed
      rfl
    · simp at removed
  have others {query : Root} (different : query ≠ anchor) :
      query ∈ index.anchors ↔ query ∈ sprout.index.anchors := by
    rw [remaining, Multiset.mem_erase_of_ne different]
  refine ⟨?_, ?_⟩
  · intro query tree found
    split at found
    · exact keyed.root query tree found
    · exact keyed.root query tree (lookup_erase_eq_some.mp found).2
  intro query
  split_ifs with still
  · rw [keyed.present query]
    by_cases same : query = anchor
    · rw [same]
      exact iff_of_true (Multiset.mem_of_mem_erase (remaining ▸ still)) still
    · exact (others same).symm
  · by_cases same : query = anchor
    · subst query
      simp [still]
    · simp [same, keyed.present, others]

theorem Keyed.removeHeights {heights : List Nat} (keyed : sprout.Keyed) (removed : heights.foldlM
      (fun current height => return (← current.removeHeight .sprout height).2) sprout.index = .ok
      index) :
    ∃ next, heights.foldlM (fun current height => current.removeHeight height) sprout = .ok next ∧
      next.index = index ∧ next.Keyed := by
  induction heights generalizing sprout with
  | nil =>
    rw [List.foldlM_nil, pure_eq_ok] at removed
    exact ⟨sprout, rfl, removed, keyed⟩
  | cons height rest ih =>
    rw [List.foldlM_cons, bind_eq_ok] at removed
    obtain ⟨_, first, removed⟩ := removed
    rw [bind_eq_ok] at first
    obtain ⟨⟨_, same⟩, first, result⟩ := first
    rw [pure_eq_ok] at result
    dsimp only at result
    subst same
    obtain ⟨middle, ran, index, middleKeyed⟩ := keyed.removeHeight first
    rw [← index] at removed
    obtain ⟨next, rest, facts⟩ := ih middleKeyed removed
    exact ⟨next, by rw [List.foldlM_cons, bind_eq_ok]; exact ⟨middle, ran, rest⟩, facts⟩

theorem Keyed.removeTreeAndAnchor (keyed : sprout.Keyed) {position : RevertPosition}
    {tipHeight : Option Nat}
    (removed : sprout.index.removeTreeAndAnchor .sprout position tipHeight height = .ok index) :
    ∃ next, sprout.removeTreeAndAnchor position tipHeight height = .ok next ∧
      next.index = index ∧ next.Keyed := by
  rw [TreeIndex.removeTreeAndAnchor, bind_eq_ok] at removed
  obtain ⟨_, removedHeights, restored⟩ := removed
  obtain ⟨middle, ran, rfl, middleKeyed⟩ := keyed.removeHeights removedHeights
  have anchors : index.anchors = middle.index.anchors := by
    unfold TreeIndex.restoreNext at restored
    split at restored
    · rw [bind_eq_ok] at restored
      obtain ⟨_, _, result⟩ := restored
      rw [pure_eq_ok] at result
      rw [← result]
    · rw [Except.ok.injEq] at restored
      rw [← restored]
  refine ⟨{ middle with index := index }, ?_, rfl, ⟨middleKeyed.root, ?_⟩⟩
  · rw [SproutIndex.removeTreeAndAnchor, bind_eq_ok]
    exact ⟨middle, ran, by rw [bind_eq_ok]; exact ⟨index, restored, rfl⟩⟩
  · intro anchor
    rw [middleKeyed.present anchor, anchors]

end SproutIndex

namespace Subtrees

variable {size newSize newHigh : Nat}

/-- Subtrees completed above `low` and up to `high`, one after the other, all within a tree of the
given size. -/
structure Ordered (subtrees : Subtrees) (low high size : Nat) : Prop where
  bounds : ∀ index data, subtrees.lookup index = some data →
    low < data.endHeight ∧ data.endHeight ≤ high ∧ (index + 1) * trackedSubtreeSize ≤ size
  ascending : ∀ first second firstData secondData, subtrees.lookup first = some firstData →
    subtrees.lookup second = some secondData → first < second →
    firstData.endHeight < secondData.endHeight

theorem ordered_empty (low high size : Nat) : Ordered ∅ low high size := by
  refine ⟨?_, ?_⟩
  · intro index data found
    simp [lookup_empty] at found
  · intro first second firstData secondData found
    simp [lookup_empty] at found

theorem Ordered.mono (ordered : Ordered subtrees low high size) (higher : high ≤ newHigh)
    (larger : size ≤ newSize) : Ordered subtrees low newHigh newSize := by
  refine ⟨?_, ordered.ascending⟩
  intro index data found
  have bounds := ordered.bounds index data found
  exact ⟨bounds.1, bounds.2.1.trans higher, bounds.2.2.trans larger⟩

theorem completedAt_eq_some {subtree : NoteCommitmentSubtree}
    (found : subtrees.completedAt height = some subtree) :
    subtrees.lookup subtree.index = some subtree.data ∧ subtree.data.endHeight = height := by
  obtain ⟨index, _, selected⟩ := List.exists_of_findSome?_eq_some found
  cases lookup : subtrees.lookup index with
  | none => simp [lookup] at selected
  | some data =>
    rw [lookup] at selected
    dsimp only at selected
    split at selected
    next atHeight =>
      obtain rfl := some.inj selected
      exact ⟨lookup, atHeight⟩
    · simp at selected

variable {data : NoteCommitmentSubtreeData} {index query : Nat}

theorem completedAt_isSome (found : subtrees.lookup index = some data)
    (atHeight : data.endHeight = height) : (subtrees.completedAt height).isSome := by
  unfold completedAt
  rw [List.findSome?_isSome_iff]
  refine ⟨index, ?_, ?_⟩
  · rw [mem_ascending, mem_keys_iff]
    exact ⟨data, found⟩
  · simp [found, atHeight]

theorem addCompleted_completedAt (tipHeight : Option Nat) :
    subtrees.addCompleted (tipHeight.bind fun tip => subtrees.completedAt tip) = subtrees := by
  cases found : tipHeight.bind fun tip => subtrees.completedAt tip with
  | none => rfl
  | some subtree =>
    obtain ⟨tip, _, completed⟩ := bind_eq_some_iff.mp found
    exact insert_lookup (completedAt_eq_some completed).1

theorem filter_lookup {kept : NoteCommitmentSubtreeData → Bool}
    (all : ∀ data, subtrees.lookup query = some data → kept data) :
    (subtrees.lookup query).filter kept = subtrees.lookup query := by
  cases found : subtrees.lookup query with
  | none => rfl
  | some data => rw [Option.filter_some, if_pos (all data found)]

section

variable (ordered : Ordered subtrees low high size)
include ordered

theorem Ordered.earlier (found : subtrees.lookup index = some data) :
    index < size / trackedSubtreeSize :=
  Nat.lt_of_succ_le ((Nat.le_div_iff_mul_le (by simp [trackedSubtreeSize])).mpr
    (ordered.bounds index data found).2.2)

theorem Ordered.popLastAt (above : high < height) : subtrees.popLastAt height = subtrees := by
  unfold Subtrees.popLastAt
  cases last : FiniteMap.lastKey subtrees with
  | none => rfl
  | some index =>
    dsimp only
    obtain ⟨data, found⟩ := mem_keys_iff.mp (lastKey_eq_some.mp last).1
    have bounds := ordered.bounds index data found
    rw [found, any_some, if_neg]
    simp only [decide_eq_true_eq]
    omega

theorem Ordered.insert (below : low ≤ high) (endHeight : data.endHeight = high + 1)
    (larger : size ≤ newSize)
    (complete : (size / trackedSubtreeSize + 1) * trackedSubtreeSize ≤ newSize) :
    Ordered (Finmap.insert (size / trackedSubtreeSize) data subtrees) low (high + 1) newSize := by
  refine ⟨?_, ?_⟩
  · intro index other found
    rcases lookup_insert_eq_some.mp found with ⟨same, rfl⟩ | ⟨_, found⟩
    · exact ⟨by omega, endHeight.le, same ▸ complete⟩
    · have bounds := ordered.bounds index other found
      exact ⟨bounds.1, by omega, bounds.2.2.trans larger⟩
  intro first second firstData secondData firstFound secondFound before
  rw [lookup_insert_ite] at firstFound secondFound
  split at secondFound
  · rw [if_neg (by omega)] at firstFound
    rw [some.injEq] at secondFound
    have bounds := ordered.bounds first firstData firstFound
    rw [← secondFound, endHeight]
    omega
  · have old := ordered.earlier secondFound
    rw [if_neg (by omega)] at firstFound
    exact ordered.ascending first second firstData secondData firstFound secondFound before

theorem Ordered.popLastAt_insert (endHeight : data.endHeight = height) :
    Subtrees.popLastAt height (Finmap.insert (size / trackedSubtreeSize) data subtrees) =
      subtrees := by
  have last : FiniteMap.lastKey (Finmap.insert (size / trackedSubtreeSize) data subtrees) =
      some (size / trackedSubtreeSize) := by
    refine lastKey_insert data ?_
    intro other member
    obtain ⟨_, found⟩ := mem_keys_iff.mp member
    exact (ordered.earlier found).le
  have absent : subtrees.lookup (size / trackedSubtreeSize) = none :=
    eq_none_iff_forall_ne_some.mpr fun _ found => (ordered.earlier found).false
  unfold Subtrees.popLastAt
  rw [last]
  dsimp only
  rw [Finmap.lookup_insert, any_some, if_pos (by simp [endHeight]), erase_insert absent]

theorem Ordered.popFirst (completed : (subtrees.completedAt (low + 1)).isSome) (query : Nat) :
    subtrees.popFirst.lookup query =
      (subtrees.lookup query).filter fun data => low + 1 < data.endHeight := by
  obtain ⟨subtree, found⟩ := isSome_iff_exists.mp completed
  obtain ⟨lookup, atRoot⟩ := completedAt_eq_some found
  have least : FiniteMap.firstKey subtrees = some subtree.index := by
    rw [firstKey_eq_some]
    refine ⟨mem_keys_iff.mpr ⟨subtree.data, lookup⟩, ?_⟩
    intro other member
    obtain ⟨data, otherFound⟩ := mem_keys_iff.mp member
    by_contra lower
    have before := ordered.ascending other subtree.index data subtree.data otherFound lookup (by omega)
    have bounds := ordered.bounds other data otherFound
    omega
  unfold Subtrees.popFirst
  rw [least]
  rw [lookup_erase_ite]
  split
  next same =>
    rw [same, lookup, filter_some, if_neg]
    simp [atRoot]
  rename_i different
  refine (filter_lookup ?_).symm
  intro data otherFound
  have bounds := ordered.bounds query data otherFound
  rw [decide_eq_true_eq]
  rcases Nat.lt_or_gt_of_ne different with before | after
  · have order := ordered.ascending _ _ _ _ otherFound lookup before
    omega
  · have order := ordered.ascending _ _ _ _ lookup otherFound after
    omega

end

end Subtrees

section

variable [CommitmentHasher] {pool : ShieldedPool} {block : Block} {finalized : Nat}
  {tipHeight remaining : Option Nat} {next fresh : TreeIndex} {nextSubtrees : Subtrees}

omit [CommitmentHasher] in
theorem nextBoundary_div (size : Nat) :
    NoteCommitmentTree.nextBoundary size / trackedSubtreeSize - 1 = size / trackedSubtreeSize := by
  unfold NoteCommitmentTree.nextBoundary
  rw [Nat.mul_div_cancel _ (by simp [trackedSubtreeSize]), Nat.add_sub_cancel]

theorem appendBatch_cases {batch : List NoteCommitment} {tree appended : NoteCommitmentTree}
    {completed : Option (Nat × SubtreeRoot)} (nonempty : batch ≠ [])
    (result : tree.appendBatch pool batch = .ok (appended, completed)) :
    appended.leaves = tree.leaves ++ batch ∧
      ∀ entry, completed = some entry → entry.1 = tree.size / trackedSubtreeSize ∧
        (tree.size / trackedSubtreeSize + 1) * trackedSubtreeSize ≤ appended.size := by
  unfold NoteCommitmentTree.appendBatch at result
  rw [if_neg nonempty] at result
  split at result
  · simp at result
  split at result
  · simp at result
  split at result
  next crosses =>
    obtain ⟨rfl, rfl⟩ := result
    refine ⟨rfl, ?_⟩
    rintro _ ⟨⟩
    refine ⟨nextBoundary_div _, ?_⟩
    simpa [NoteCommitmentTree.nextBoundary, NoteCommitmentTree.size] using crosses
  · obtain ⟨rfl, rfl⟩ := result
    exact ⟨rfl, by simp⟩

def RootsMove (pool : ShieldedPool) (block : Block) (index : TreeIndex) : Prop :=
  ∀ current tree completed, index.treeForTip = some current →
    current.appendBatch pool (block.noteCommitments pool) = .ok (tree, some completed) →
    tree.root pool ≠ current.root pool

/-- One pool's part of pushing a block: the tree is added at its height and a completed subtree
is recorded. -/
def PoolPushed (pool : ShieldedPool) (block : Block) (height : Nat) (tipHeight : Option Nat)
    (index : TreeIndex) (subtrees : Subtrees) (next : TreeIndex) (nextSubtrees : Subtrees) : Prop :=
  ∃ current updated, index.treeForTip = some current ∧
    updatePoolTree pool block height
      (current, tipHeight.bind fun tip => subtrees.completedAt tip) = .ok updated ∧
    index.addTreeAndAnchor pool height updated.1 = .ok next ∧
    nextSubtrees = subtrees.addCompleted updated.2

/-- The trees of a range of heights with the subtrees completed above a finalized height. -/
structure PoolSpans (pool : ShieldedPool) (index : TreeIndex) (subtrees : Subtrees)
    (low finalized high : Nat) : Prop where
  trees : index.Spans pool low high
  finalized_le : finalized ≤ high
  subtrees : ∀ tip, index.treeAt high = some tip → subtrees.Ordered finalized high tip.size

section

variable (before : PoolSpans pool index subtrees low finalized high)
  (pushed : PoolPushed pool block (high + 1) tipHeight index subtrees next nextSubtrees)
include before pushed

theorem PoolPushed.cases : ∃ current tree, index.treeAt high = some current ∧
      TreeIndex.Added pool (high + 1) tree index next ∧ current.size ≤ tree.size ∧
      (nextSubtrees = subtrees ∨ ∃ data completed,
        nextSubtrees = Finmap.insert (current.size / trackedSubtreeSize) data subtrees ∧
          data.endHeight = high + 1 ∧
          (current.size / trackedSubtreeSize + 1) * trackedSubtreeSize ≤ tree.size ∧
          current.appendBatch pool (block.noteCommitments pool) = .ok (tree, some completed)) := by
  obtain ⟨current, ⟨tree, _⟩, tip, updated, added, rfl⟩ := pushed
  rw [before.trees.treeForTip] at tip
  refine ⟨current, tree, tip, TreeIndex.addTreeAndAnchor_eq_ok.mp added, ?_⟩
  unfold updatePoolTree at updated
  split at updated
  · obtain ⟨rfl, rfl⟩ := updated
    exact ⟨le_refl _, .inl (Subtrees.addCompleted_completedAt tipHeight)⟩
  rename_i nonempty
  rw [bind_eq_ok] at updated
  obtain ⟨⟨_, completed⟩, result, updated⟩ := updated
  rw [mapError_eq_ok] at result
  obtain ⟨rfl, rfl⟩ := updated
  obtain ⟨leaves, facts⟩ := appendBatch_cases nonempty result
  refine ⟨by simp [NoteCommitmentTree.size, leaves], ?_⟩
  cases completed with
  | none => exact .inl rfl
  | some entry =>
    obtain ⟨position, complete⟩ := facts entry rfl
    refine .inr ⟨⟨entry.2, high + 1⟩, entry, ?_, rfl, complete, result⟩
    rw [← position]
    rfl

theorem PoolPushed.spans (moves : RootsMove pool block index) :
    PoolSpans pool next nextSubtrees low finalized (high + 1) := by
  obtain ⟨current, tree, tip, added, grows, change⟩ := pushed.cases before
  have higher := before.finalized_le
  refine ⟨added.spans before.trees, by omega, ?_⟩
  intro newTip found
  rw [added.treeAt before.trees] at found
  have ordered := before.subtrees current tip
  rcases change with same | ⟨_, completed, rfl, endHeight, complete, result⟩
  · rw [same]
    split at found
    · rw [some.injEq] at found
      exact ordered.mono (by omega) (found ▸ grows)
    · rw [tip, some.injEq] at found
      exact ordered.mono (by omega) (found ▸ le_refl _)
  have isNew : index.isNewTree pool (high + 1) tree = true := by
    have different := moves current tree completed (before.trees.treeForTip.trans tip) result
    simp [TreeIndex.isNewTree, tip, Ne.symm different]
  rw [if_pos isNew, some.injEq] at found
  subst found
  exact ordered.insert higher endHeight grows complete

theorem PoolPushed.popTip (isTip : remaining.any (high + 1 < ·) = false) :
    next.removeTreeAndAnchor pool .tip remaining (high + 1) = .ok index ∧
      nextSubtrees.popLastAt (high + 1) = subtrees := by
  obtain ⟨current, _, tip, added, _, change⟩ := pushed.cases before
  have ordered := before.subtrees current tip
  refine ⟨added.removeTip before.trees isTip, ?_⟩
  rcases change with same | ⟨_, _, rfl, endHeight, _⟩
  · rw [same]
    exact ordered.popLastAt (by omega)
  · exact ordered.popLastAt_insert endHeight

end

/-- One pool of a chain and of a chain that starts later: the trees from a height on, and the
subtrees completed above the cut. -/
structure PoolShifted (cut low high : Nat) (wide : TreeIndex) (wideSubtrees : Subtrees)
    (narrow : TreeIndex) (narrowSubtrees : Subtrees) : Prop where
  trees : ∀ height, low ≤ height → height ≤ high → narrow.treeAt height = wide.treeAt height
  subtrees : ∀ index, narrowSubtrees.lookup index =
    (wideSubtrees.lookup index).filter fun data => cut < data.endHeight

section

variable {wide wideNext narrow : TreeIndex} {cut : Nat}
  {wideSubtrees wideNextSubtrees narrowSubtrees : Subtrees}
  (wideSpans : PoolSpans pool wide wideSubtrees low finalized high)
  (narrowSpans : PoolSpans pool narrow narrowSubtrees cut cut high)
  (shifted : PoolShifted cut cut high wide wideSubtrees narrow narrowSubtrees)
  (pushed : PoolPushed pool block (high + 1) tipHeight wide wideSubtrees wideNext wideNextSubtrees)
include wideSpans narrowSpans shifted

theorem PoolShifted.treeForTip : narrow.treeForTip = wide.treeForTip := by
  rw [narrowSpans.trees.treeForTip, wideSpans.trees.treeForTip,
    shifted.trees high narrowSpans.finalized_le (le_refl _)]

include pushed

theorem PoolPushed.repeated (otherTip : Option Nat) : ∃ narrowNext narrowNextSubtrees,
      PoolPushed pool block (high + 1) otherTip narrow narrowSubtrees narrowNext
        narrowNextSubtrees ∧
      PoolShifted cut cut (high + 1) wideNext wideNextSubtrees narrowNext narrowNextSubtrees := by
  have cut_le := narrowSpans.finalized_le
  obtain ⟨current, ⟨tree, subtree⟩, tip, updated, added, rfl⟩ := pushed
  obtain ⟨narrowNext, narrowAdded⟩ := narrowSpans.trees.add tree
  have narrowTip := (shifted.treeForTip wideSpans narrowSpans).trans tip
  have agree := TreeIndex.Added.agree wideSpans.trees narrowSpans.trees
    (TreeIndex.addTreeAndAnchor_eq_ok.mp added) (TreeIndex.addTreeAndAnchor_eq_ok.mp narrowAdded)
    cut_le shifted.trees
  unfold updatePoolTree at updated
  split at updated
  next empty =>
    obtain ⟨rfl, rfl⟩ := updated
    refine ⟨narrowNext, narrowSubtrees, ⟨current,
      (current, otherTip.bind fun tip => narrowSubtrees.completedAt tip), narrowTip, ?_, narrowAdded,
      (Subtrees.addCompleted_completedAt otherTip).symm⟩, agree, ?_⟩
    · rw [updatePoolTree, if_pos empty]
    · rw [Subtrees.addCompleted_completedAt tipHeight]
      exact shifted.subtrees
  rename_i nonempty
  refine ⟨narrowNext, narrowSubtrees.addCompleted subtree, ⟨current, (tree, subtree), narrowTip,
    ?_, narrowAdded, rfl⟩, agree, ?_⟩
  · rw [updatePoolTree, if_neg nonempty]
    exact updated
  simp only [bind_eq_ok, pure_eq_ok, Prod.mk.injEq] at updated
  obtain ⟨⟨_, completed⟩, _, _, rfl⟩ := updated
  intro index
  cases completed with
  | none => exact shifted.subtrees index
  | some entry =>
    dsimp only [map_some, Subtrees.addCompleted]
    rw [lookup_insert_ite, lookup_insert_ite]
    split
    · rw [filter_some, if_pos (decide_eq_true (by dsimp only; omega))]
    · exact shifted.subtrees index

theorem PoolPushed.restart (otherTip : Option Nat) (moves : RootsMove pool block wide) :
    ∃ narrowNext narrowNextSubtrees, RootsMove pool block narrow ∧
      PoolPushed pool block (high + 1) otherTip narrow narrowSubtrees narrowNext
        narrowNextSubtrees ∧ narrowNext.treeForTip = wideNext.treeForTip ∧
      PoolShifted cut cut (high + 1) wideNext wideNextSubtrees narrowNext narrowNextSubtrees := by
  obtain ⟨narrowNext, narrowNextSubtrees, narrowPushed, nextShifted⟩ :=
    pushed.repeated wideSpans narrowSpans shifted otherTip
  have narrowMoves : RootsMove pool block narrow := by
    rw [RootsMove, shifted.treeForTip wideSpans narrowSpans]
    exact moves
  exact ⟨narrowNext, narrowNextSubtrees, narrowMoves, narrowPushed,
    nextShifted.treeForTip (pushed.spans wideSpans moves)
      (narrowPushed.spans narrowSpans narrowMoves), nextShifted⟩

end

omit [CommitmentHasher] in
theorem PoolShifted.trans {earlier later lowFirst lowSecond : Nat} {first second third : TreeIndex}
    {firstSubtrees secondSubtrees thirdSubtrees : Subtrees}
    (start : PoolShifted earlier lowFirst high first firstSubtrees second secondSubtrees)
    (cut_le : earlier ≤ later) (low_le : lowFirst ≤ lowSecond)
    (finish : PoolShifted later lowSecond high second secondSubtrees third thirdSubtrees) :
    PoolShifted later lowSecond high first firstSubtrees third thirdSubtrees := by
  refine ⟨?_, ?_⟩
  · intro height above below
    rw [finish.trees height above below, start.trees height (by omega) below]
  intro index
  rw [finish.subtrees, start.subtrees, filter_filter]
  congr 1
  funext data
  rw [← Bool.decide_and]
  exact decide_eq_decide.mpr (by omega)

section

variable (spans : PoolSpans pool index subtrees low finalized high)
include spans

theorem PoolSpans.restart {tree : NoteCommitmentTree} (found : index.treeAt high = some tree)
    (freshFound : fresh.treeAt high = some tree) :
    PoolShifted high high high index subtrees fresh ∅ := by
  refine ⟨?_, ?_⟩
  · intro height above below
    obtain rfl : height = high := by omega
    rw [found, freshFound]
  intro position
  rw [lookup_empty, eq_comm, filter_eq_none_iff]
  intro data lookup
  have bounds := (spans.subtrees tree found).bounds position data lookup
  simp only [decide_eq_true_eq]
  omega

theorem PoolSpans.shifted_self (start : Nat) :
    PoolShifted finalized start high index subtrees index subtrees := by
  refine ⟨fun _ _ _ => rfl, ?_⟩
  intro position
  obtain ⟨tip, isTip⟩ := spans.trees.treeAt_isSome spans.trees.nonempty
  exact (Subtrees.filter_lookup fun data found =>
    decide_eq_true ((spans.subtrees tip isTip).bounds position data found).1).symm

theorem PoolSpans.popRoot (low_le : low ≤ finalized + 1) (more : finalized + 1 < high) :
    ∃ next, index.removeTreeAndAnchor pool .root (some high) (finalized + 1) = .ok next ∧
      PoolShifted (finalized + 1) (finalized + 2) high index subtrees next
        (if (subtrees.completedAt (finalized + 1)).isSome then subtrees.popFirst else subtrees) ∧
      PoolSpans pool next
        (if (subtrees.completedAt (finalized + 1)).isSome then subtrees.popFirst else subtrees)
        (finalized + 2) (finalized + 1) high := by
  obtain ⟨cleared, next, ran, restored, _, removed⟩ := spans.trees.removeRoot low_le more
  obtain ⟨tip, isTip⟩ := spans.trees.treeAt_isSome spans.trees.nonempty
  have ordered := spans.subtrees tip isTip
  have lookup (query : Nat) :
      (if (subtrees.completedAt (finalized + 1)).isSome then subtrees.popFirst
        else subtrees).lookup query =
      (subtrees.lookup query).filter fun data => finalized + 1 < data.endHeight := by
    split
    next completed =>
      exact ordered.popFirst completed query
    rename_i incomplete
    refine (Subtrees.filter_lookup ?_).symm
    intro data found
    have bounds := ordered.bounds query data found
    have later : data.endHeight ≠ finalized + 1 :=
      fun same => incomplete (Subtrees.completedAt_isSome found same)
    exact decide_eq_true (by omega)
  have sameTree {height : Nat} (above : finalized + 2 ≤ height) :
      next.treeAt height = index.treeAt height := removed.treeAt (by omega)
  refine ⟨next, ?_, ⟨fun height above _ => sameTree above, lookup⟩, ?_⟩
  · rw [TreeIndex.removeTreeAndAnchor, bind_eq_ok]
    exact ⟨cleared, ran, restored⟩
  refine ⟨removed.spans spans.trees low_le more, more.le, ?_⟩
  intro newTip found
  rw [sameTree (by omega), isTip, some.injEq] at found
  subst found
  refine ⟨?_, ?_⟩
  · intro query data selected
    rw [lookup, filter_eq_some_iff, decide_eq_true_eq] at selected
    have bounds := ordered.bounds query data selected.1
    exact ⟨selected.2, bounds.2⟩
  · intro first second firstData secondData firstFound secondFound
    rw [lookup, filter_eq_some_iff] at firstFound secondFound
    exact ordered.ascending first second firstData secondData firstFound.1 secondFound.1

end

end

end Zakura.NonFinalized
