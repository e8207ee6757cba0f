import Zakura.Checkpoint.RangeWalk

/-!
Range processing keeps the verifier sound: a complete walk answers its range and moves
progress to the target, and a broken one only drops side-chain blocks.
-/

namespace Zakura.Checkpoint

open FiniteMap Fallible List

variable {Block Hash Error : Type} {rules : BlockRules Block Hash Error}
  {accepted : List (RequestBlock Block Hash)}

def Verified (chain : HashChain rules) (list : CheckpointList Hash)
    (accepted : List (RequestBlock Block Hash)) (answer : Answer Hash Error) : Prop :=
  ∃ request ∈ accepted, request.rx = answer.channel ∧
    answer.sent.result = .ok request.block.hash ∧
    request.block.hash = chain.hashAt request.block.height ∧
    ∃ checkpoint, list.hash checkpoint = some (chain.hashAt checkpoint) ∧
      request.block.height ≤ checkpoint

namespace CheckpointVerifier

def ProgressSound (chain : HashChain rules) (verifier : CheckpointVerifier Block Hash Error) :
    Prop :=
  match verifier.verifierProgress with
  | .beforeGenesis => True
  | .initialTip height => verifier.initialTipHash = some (chain.hashAt height)
  | .previousCheckpoint height => height ∈ verifier.checkpointList.checkpoints.keys
  | .finalCheckpoint => True

structure Sound (chain : HashChain rules) (accepted : List (RequestBlock Block Hash))
    (verifier : CheckpointVerifier Block Hash Error) : Prop where
  taken : verifier.checkpointList.TakenFrom chain
  progress : verifier.ProgressSound chain
  queue : QueueSound rules accepted verifier.queued
  below : ∀ height ∈ verifier.queued.keys, verifier.verifierProgress.Below height
  within : ∀ height ∈ verifier.queued.keys, height ≤ verifier.checkpointList.maxHeight
  accounts : (accepted.map RequestBlock.rx : List Nat) = verifier.outstanding
  unique : (accepted.map RequestBlock.rx).Nodup
  fresh : ∀ request ∈ accepted, request.rx < verifier.channels
  verified : ∀ answer ∈ verifier.okAnswers,
    Verified chain verifier.checkpointList accepted answer

inductive RangeEffect (chain : HashChain rules)
    (before after : CheckpointVerifier Block Hash Error) : Prop
  | idle : after.verifierProgress = before.verifierProgress →
      after.okAnswers = before.okAnswers → RangeEffect chain before after
  | verified {target : Nat} {kept : List (QueuedBlock Block Hash)} :
      before.verifierProgress ≠ .finalCheckpoint →
      target ∈ before.checkpointList.checkpoints.keys →
      before.verifierProgress.firstHeight ≤ target →
      after.verifierProgress = (if target = before.checkpointList.maxHeight
        then .finalCheckpoint else .previousCheckpoint target) →
      after.okAnswers = before.okAnswers ++
        kept.map (fun queued => before.answer queued.tx (.ok queued.block.hash)) →
      OnChain chain before.verifierProgress.firstHeight
        (target + 1 - before.verifierProgress.firstHeight) kept →
      RangeEffect chain before after

structure Requeued (before after : FiniteMap Nat (List (QueuedBlock Block Hash)))
    (kept : List (QueuedBlock Block Hash)) : Prop where
  entries : ∀ height blocks, after.lookup height = some blocks →
    before.lookup height = some blocks ∨
      ∃ queued ∈ kept, queued.block.height = height ∧ blocks = [queued]
  contents : contents after = kept + contents before

theorem requeue_spec {queue : FiniteMap Nat (List (QueuedBlock Block Hash))}
    {kept : List (QueuedBlock Block Hash)}
    (distinct : (kept.map fun queued => queued.block.height).Nodup)
    (absent : ∀ queued ∈ kept, queue.lookup queued.block.height = none) :
    Requeued queue (kept.foldl requeueBlock queue) kept := by
  induction kept generalizing queue with
  | nil => exact ⟨fun _ _ found => .inl found, by simp⟩
  | cons first rest ih =>
    rw [map_cons, nodup_cons] at distinct
    have missing := absent first mem_cons_self
    have single : requeueBlock queue first = queue.insert first.block.height [first] := by
      rw [requeueBlock, missing]
      rfl
    rw [foldl_cons, single]
    have stillAbsent (queued : QueuedBlock Block Hash) (listed : queued ∈ rest) :
        (queue.insert first.block.height [first]).lookup queued.block.height = none := by
      rw [lookup_insert_ite, if_neg]
      · exact absent queued (mem_cons_of_mem _ listed)
      · intro same
        exact distinct.1 (mem_map.mpr ⟨queued, listed, same⟩)
    have later := ih distinct.2 stillAbsent
    refine ⟨fun height blocks found => ?_, ?_⟩
    · rcases later.entries height blocks found with old | ⟨queued, listed, isHeight, alone⟩
      · rw [lookup_insert_ite] at old
        split at old
        next same =>
          exact .inr ⟨first, mem_cons_self, same.symm, (Option.some.inj old).symm⟩
        · exact .inl old
      · exact .inr ⟨queued, mem_cons_of_mem _ listed, isHeight, alone⟩
    · rw [later.contents, contents_insert missing, ← Multiset.cons_coe, ← Multiset.cons_coe]
      simp only [Multiset.coe_nil, Multiset.cons_add, zero_add, Multiset.add_cons]

section

variable {chain : HashChain rules} {verifier next : CheckpointVerifier Block Hash Error}

variable {kept : List (QueuedBlock Block Hash)} {target stop middle : Nat}

theorem outstanding_requeue (requeued : Requeued next.queued (next.requeue kept).queued kept) :
    (next.requeue kept).outstanding = next.outstanding + (kept.map QueuedBlock.tx : List Nat) := by
  unfold outstanding
  rw [requeued.contents, answers, Multiset.map_add, Multiset.map_coe]
  ac_rfl

theorem outstanding_accept (kept : List (QueuedBlock Block Hash)) : (next.accept kept).outstanding =
      next.outstanding + (kept.map QueuedBlock.tx : List Nat) := by
  have channels : (kept.map fun queued => next.answer queued.tx (.ok queued.block.hash)).map
      Answer.channel = kept.map QueuedBlock.tx := by
    rw [map_map]
    rfl
  unfold outstanding accept
  rw [map_append, channels, ← Multiset.coe_add]
  ac_rfl

theorem okAnswers_accept (next : CheckpointVerifier Block Hash Error)
    (kept : List (QueuedBlock Block Hash)) : (next.accept kept).okAnswers = next.okAnswers ++
      kept.map fun queued => next.answer queued.tx (.ok queued.block.hash) := by
  have all : (kept.map fun queued => next.answer queued.tx (.ok queued.block.hash)).filter
      (fun answer => answer.sent.result.isOk) =
        kept.map fun queued => next.answer queued.tx (.ok queued.block.hash) := by
    rw [filter_eq_self]
    intro answer listed
    obtain ⟨queued, _, rfl⟩ := mem_map.mp listed
    rfl
  rw [okAnswers, accept, filter_append, all]
  rfl

section

variable (ongoing : verifier.verifierProgress ≠ .finalCheckpoint)
include ongoing

theorem failRange_spec (sound : Sound chain accepted verifier)
    (reached : verifier.verifierProgress.firstHeight ≤ middle) (before : middle ≤ target)
    (walked : Walked verifier next middle (target + 1) kept)
    (onChain : OnChain chain (middle + 1) (target + 1 - middle - 1) kept) :
    ∃ final, next.failRange kept verifier.verifierProgress target = .ok final ∧
      Sound chain accepted final ∧ RangeEffect chain verifier final := by
  have heights (queued : QueuedBlock Block Hash) (listed : queued ∈ kept) :
      middle + 1 ≤ queued.block.height ∧ queued.block.height ≤ target := by
    have member : queued.block.height ∈ range' (middle + 1) (target + 1 - middle - 1) := by
      rw [← onChain.heights]
      exact mem_map.mpr ⟨queued, listed, rfl⟩
    have bounds := mem_range'_1.mp member
    omega
  have requeued : Requeued next.queued (next.requeue kept).queued kept := by
    refine requeue_spec (by rw [onChain.heights]; exact nodup_range') ?_
    intro queued listed
    have bounds := heights queued listed
    rw [walked.lookup, if_pos (by omega)]
  have entries (height : Nat) (blocks : List (QueuedBlock Block Hash))
      (found : (next.requeue kept).queued.lookup height = some blocks) :
      height ≠ middle ∧ height ∈ verifier.queued.keys ∧
        EntrySound rules accepted height blocks := by
    rcases requeued.entries height blocks found with old | ⟨queued, listed, rfl, rfl⟩
    · rw [walked.lookup, Option.ite_none_left_eq_some] at old
      exact ⟨by omega, mem_keys_iff.mpr ⟨blocks, old.2⟩, sound.queue height blocks old.2⟩
    obtain ⟨blocks, isQueued, member⟩ := walked.queued queued listed
    have bounds := heights queued listed
    exact ⟨by omega, mem_keys_iff.mpr ⟨blocks, isQueued⟩,
      (sound.queue _ blocks isQueued).single member⟩
  have keys (height : Nat) (listed : height ∈ (next.requeue kept).queued.keys) :
      height ≠ middle ∧ height ∈ verifier.queued.keys := by
    obtain ⟨blocks, found⟩ := mem_keys_iff.mp listed
    exact ⟨(entries height blocks found).1, (entries height blocks found).2.1⟩
  have frame : SameFrame verifier (next.requeue kept) :=
    walked.frame.trans ⟨rfl, rfl, rfl, rfl, rfl, rfl⟩
  have sameAnswers : (next.requeue kept).okAnswers = verifier.okAnswers := walked.okAnswers
  have sameProgress := frame.verifierProgress
  have stillOngoing : (next.requeue kept).verifierProgress ≠ .finalCheckpoint := by
    rwa [sameProgress]
  obtain ⟨_, newTarget, extends_, isTarget, spec⟩ := targetCheckpointHeight_spec stillOngoing
  have reduced : (newTarget == .waitingForBlocks ||
      newTarget.partialCmp (.checkpoint target) == some .lt) = true := by
    cases spec with
    | waitingForBlocks => rfl
    | checkpoint listed low high greatest =>
      rw [sameProgress] at extends_
      have bound := extends_.le_of_missing reached fun listed => (keys middle listed).1 rfl
      simp only [TargetHeight.partialCmp, Bool.or_eq_true, beq_iff_eq, reduceCtorEq, false_or,
        Option.some.injEq]
      exact Nat.compare_eq_lt.mpr (by omega)
  have unchanged : ((next.requeue kept).verifierProgress == verifier.verifierProgress) = true := by
    rw [sameProgress]
    exact beq_self_eq_true _
  refine ⟨next.requeue kept, ?_, ?_, .idle sameProgress sameAnswers⟩
  · dsimp only [failRange]
    rw [bind_of_ok (assert_of_true _ unchanged), bind_of_ok isTarget,
      bind_of_ok (assert_of_true _ reduced)]
    rfl
  refine ⟨?_, ?_, fun height blocks found => (entries height blocks found).2.2, ?_, ?_, ?_,
    sound.unique, ?_, ?_⟩
  · rw [frame.checkpointList]
    exact sound.taken
  · unfold ProgressSound
    rw [frame.verifierProgress, frame.initialTipHash, frame.checkpointList]
    exact sound.progress
  · intro height listed
    rw [sameProgress]
    exact sound.below height (keys height listed).2
  · intro height listed
    rw [frame.checkpointList]
    exact sound.within height (keys height listed).2
  · rw [sound.accounts, outstanding_requeue requeued, walked.balance]
  · rw [frame.channels]
    exact sound.fresh
  · rw [sameAnswers, frame.checkpointList]
    exact sound.verified

section

variable (ongoing : verifier.verifierProgress ≠ .finalCheckpoint)
  (reached : verifier.verifierProgress.firstHeight ≤ target)
include ongoing reached

theorem updateProgress_spec (listed : target ∈ verifier.checkpointList.checkpoints.keys) :
    ∃ tipHash, verifier.updateProgress target = .ok { verifier with
      initialTipHash := tipHash
      verifierProgress := if target = verifier.checkpointList.maxHeight
        then .finalCheckpoint else .previousCheckpoint target } := by
  have admitted : verifier.checkHeight target = .ok () := by
    have bound := verifier.checkpointList.maxHeight_spec.2 target listed
    unfold checkHeight
    rw [if_neg (by omega)]
    cases shape : verifier.verifierProgress with
    | beforeGenesis => rfl
    | initialTip height | previousCheckpoint height =>
      rw [shape, Progress.firstHeight] at reached
      exact if_neg (by omega)
    | finalCheckpoint => exact absurd shape ongoing
  unfold updateProgress
  rw [admitted]
  by_cases last : target = verifier.checkpointList.maxHeight
  · rw [if_pos last, if_pos last, bind_of_ok (verifiedCheckpointDiagnostics_ok _ _)]
    exact ⟨verifier.initialTipHash, rfl⟩
  have contained : verifier.checkpointList.contains target = true := by
    simpa [CheckpointList.contains] using listed
  rw [if_neg last, if_neg last, if_pos contained,
    bind_of_ok (verifiedCheckpointDiagnostics_ok _ _)]
  exact ⟨none, rfl⟩

theorem cmp_eq_gt (limit : Nat) :
    Progress.cmp (if target = limit then .finalCheckpoint else .previousCheckpoint target)
      verifier.verifierProgress = .gt := by
  cases shape : verifier.verifierProgress with
  | beforeGenesis => split <;> rfl
  | initialTip height | previousCheckpoint height =>
    rw [shape, Progress.firstHeight] at reached
    split
    · rfl
    have different : (height : Nat) ≠ target := by omega
    simp only [Progress.cmp, reduceCtorEq, Progress.previousCheckpoint.injEq,
      different.symm, ↓reduceIte]
    exact Nat.compare_eq_gt.mpr (by omega)
  | finalCheckpoint => exact absurd shape ongoing

end

end

structure Advanced (before after : CheckpointVerifier Block Hash Error) (target : Nat)
    (kept : List (QueuedBlock Block Hash)) : Prop where
  checkpointList : after.checkpointList = before.checkpointList
  channels : after.channels = before.channels
  progress : after.verifierProgress = (if target = before.checkpointList.maxHeight
    then .finalCheckpoint else .previousCheckpoint target)
  okAnswers : after.okAnswers = before.okAnswers ++
    kept.map (fun queued => before.answer queued.tx (.ok queued.block.hash))
  outstanding : after.outstanding = before.outstanding
  entries : ∀ height blocks, after.queued.lookup height = some blocks →
    before.queued.lookup height = some blocks
  keys : ∀ height, height ∈ after.queued.keys ↔ height ∈ before.queued.keys ∧ target < height

theorem Advanced.sound (advanced : Advanced verifier next target kept)
    (sound : Sound chain accepted verifier)
    (listed : target ∈ verifier.checkpointList.checkpoints.keys) (queued : ∀ block ∈ kept, ∃ blocks,
      verifier.queued.lookup block.block.height = some blocks ∧ block ∈ blocks)
    (bounded : ∀ block ∈ kept, block.block.height ≤ target)
    (hashes : ∀ block ∈ kept, block.block.hash = chain.hashAt block.block.height) :
    Sound chain accepted next := by
  have isOngoing (height : Nat) (member : height ∈ next.queued.keys) :
      target ≠ verifier.checkpointList.maxHeight := by
    have within := sound.within height ((advanced.keys height).mp member).1
    have above := ((advanced.keys height).mp member).2
    omega
  refine ⟨?_, ?_, ?_, ?_, ?_, ?_, sound.unique, ?_, ?_⟩
  · rw [advanced.checkpointList]
    exact sound.taken
  · unfold ProgressSound
    rw [advanced.progress, advanced.checkpointList]
    split_ifs
    · trivial
    · exact listed
  · exact fun height blocks found => sound.queue height blocks (advanced.entries _ _ found)
  · intro height member
    rw [advanced.progress, if_neg (isOngoing height member)]
    exact ⟨by simp, ((advanced.keys height).mp member).2⟩
  · intro height member
    rw [advanced.checkpointList]
    exact sound.within height ((advanced.keys height).mp member).1
  · rw [sound.accounts, advanced.outstanding]
  · rw [advanced.channels]
    exact sound.fresh
  rw [advanced.okAnswers, advanced.checkpointList]
  intro answer member
  rcases mem_append.mp member with old | new
  · exact sound.verified answer old
  obtain ⟨block, isKept, rfl⟩ := mem_map.mp new
  obtain ⟨blocks, found, isQueued⟩ := queued block isKept
  obtain ⟨hash, isHash⟩ := CheckpointList.hash_of_mem listed
  refine ⟨_, (sound.queue _ blocks found).accepted block isQueued, rfl, rfl,
    hashes block isKept, target, ?_, bounded block isKept⟩
  rw [isHash, (sound.taken target hash isHash).2]

section

variable (extends_ : Extends verifier.queued.keys verifier.verifierProgress.firstHeight stop)
  (before : target < stop)
  (greatest : ∀ height ∈ verifier.checkpointList.checkpoints.keys, height < stop → height ≤ target)
include extends_ before greatest

theorem Advanced.target_done (advanced : Advanced verifier next target kept) :
    ∃ newTarget, next.targetCheckpointHeight = .ok newTarget ∧
      (newTarget = .waitingForBlocks ∨ newTarget = .finishedVerifying) := by
  by_cases last : target = verifier.checkpointList.maxHeight
  · have progress := advanced.progress
    rw [if_pos last] at progress
    refine ⟨.finishedVerifying, ?_, .inr rfl⟩
    rw [targetCheckpointHeight, progress]
  have progress := advanced.progress
  rw [if_neg last] at progress
  have ongoing : next.verifierProgress ≠ .finalCheckpoint := by simp [progress]
  obtain ⟨_, newTarget, newExtends, isTarget, spec⟩ := targetCheckpointHeight_spec ongoing
  refine ⟨newTarget, isTarget, ?_⟩
  cases spec with
  | waitingForBlocks => exact .inl rfl
  | @checkpoint found listed low high =>
    rw [progress] at newExtends low
    simp only [Progress.firstHeight] at newExtends low
    have missing : stop ∉ next.queued.keys := fun member =>
      extends_.missing ((advanced.keys stop).mp member).1
    have bound := newExtends.le_of_missing (by omega) missing
    rw [advanced.checkpointList] at listed
    have small := greatest found listed (by omega)
    omega

variable (sound : Sound chain accepted verifier)
  (ongoing : verifier.verifierProgress ≠ .finalCheckpoint)
  (listed : target ∈ verifier.checkpointList.checkpoints.keys)
  (reached : verifier.verifierProgress.firstHeight ≤ target)
include sound ongoing listed reached

omit extends_ before greatest in
theorem accept_advanced
    (walked : Walked verifier next verifier.verifierProgress.firstHeight (target + 1) kept) :
    ∃ after, (next.accept kept).updateProgress target = .ok after ∧
      Advanced verifier after target kept := by
  have frame := walked.frame
  have sameList : (next.accept kept).checkpointList = verifier.checkpointList :=
    frame.checkpointList
  have sameProgress : (next.accept kept).verifierProgress = verifier.verifierProgress :=
    frame.verifierProgress
  rw [← sameList] at listed
  rw [← sameProgress] at ongoing reached
  obtain ⟨_, updated⟩ := updateProgress_spec ongoing reached listed
  refine ⟨_, updated, sameList, frame.channels, ?_, ?_, ?_, ?_, ?_⟩
  · rw [← sameList]
  · have accepts := next.okAnswers_accept kept
    unfold answer at accepts ⊢
    rw [walked.okAnswers, frame.resetGeneration] at accepts
    exact accepts
  · exact (outstanding_accept kept).trans walked.balance
  · intro height blocks found
    have walkedAway : next.queued.lookup height = some blocks := found
    rw [walked.lookup, Option.ite_none_left_eq_some] at walkedAway
    exact walkedAway.2
  intro height
  have keys : height ∈ (next.accept kept).queued.keys ↔ _ := walked.mem_keys
  refine keys.trans ⟨?_, ?_⟩
  · rintro ⟨isQueued, _⟩
    have above := (sound.below height isQueued).2
    exact ⟨isQueued, by omega⟩
  · rintro ⟨isQueued, above⟩
    exact ⟨isQueued, by omega⟩

theorem finishRange_spec
    (walked : Walked verifier next verifier.verifierProgress.firstHeight (target + 1) kept)
    (onChain : OnChain chain verifier.verifierProgress.firstHeight (target + 1 -
      verifier.verifierProgress.firstHeight) kept) :
    ∃ final, next.finishRange kept verifier.verifierProgress target = .ok final ∧
      Sound chain accepted final ∧ RangeEffect chain verifier final := by
  obtain ⟨final, updated, advanced⟩ := accept_advanced sound ongoing listed reached walked
  obtain ⟨newTarget, isTarget, done⟩ := advanced.target_done extends_ before greatest
  have rises : (final.verifierProgress.cmp verifier.verifierProgress == .gt) = true := by
    rw [advanced.progress, cmp_eq_gt ongoing reached]
    rfl
  have isDone : (newTarget == .waitingForBlocks || newTarget == .finishedVerifying) = true := by
    rcases done with rfl | rfl <;> rfl
  have bounded (block : QueuedBlock Block Hash) (isKept : block ∈ kept) :
      block.block.height ≤ target := by
    have member : block.block.height ∈ range' verifier.verifierProgress.firstHeight
        (target + 1 - verifier.verifierProgress.firstHeight) := by
      rw [← onChain.heights]
      exact mem_map.mpr ⟨block, isKept, rfl⟩
    have bounds := mem_range'_1.mp member
    omega
  refine ⟨final, ?_, advanced.sound sound listed walked.queued bounded onChain.hashes,
    .verified ongoing listed reached advanced.progress advanced.okAnswers onChain⟩
  unfold finishRange
  rw [bind_of_ok updated, bind_of_ok (assert_of_true _ rises)]
  by_cases last : target = verifier.checkpointList.maxHeight
  · have isMax : (target == final.checkpointList.maxHeight) = true := by
      rw [advanced.checkpointList, last]
      exact beq_self_eq_true _
    have finished := advanced.progress
    rw [if_pos last] at finished
    rw [if_pos finished, bind_of_ok (assert_of_true _ isMax),
      bind_of_ok isTarget, bind_of_ok (assert_of_true _ isDone)]
    rfl
  have atTarget := advanced.progress
  rw [if_neg last] at atTarget
  have isAt : (final.verifierProgress == .previousCheckpoint target) = true := by
    rw [atTarget]
    exact beq_self_eq_true _
  rw [if_neg (by simp [atTarget]), bind_of_ok (assert_of_true _ isAt),
    bind_of_ok isTarget, bind_of_ok (assert_of_true _ isDone)]
  rfl

theorem processTarget_spec [DecidableEq Hash] (free : rules.CollisionFree) :
    ∃ final, verifier.processTarget rules
        (chain.parentHash verifier.verifierProgress.firstHeight) target = .ok final ∧
      Sound chain accepted final ∧ RangeEffect chain verifier final := by
  obtain ⟨hash, isHash⟩ := CheckpointList.hash_of_mem listed
  obtain ⟨_, rfl⟩ := sound.taken target hash isHash
  obtain ⟨start, isStart, starts, proper⟩ := currentStartBound_of_ongoing ongoing
  have notInverted : (!start.inverted (.included target)) = true := by
    rw [proper target (by omega)]
    rfl
  have heights : verifier.queued.keysIn start (.included target) =
      range' verifier.verifierProgress.firstHeight
        (target + 1 - verifier.verifierProgress.firstHeight) := by
    refine keysIn_eq_of_mem pairwise_lt_range' fun height => ?_
    rw [mem_keysIn, starts, mem_range'_1]
    simp only [Bound.ends, decide_eq_true_eq]
    constructor
    · rintro ⟨_, low, high⟩
      omega
    · rintro ⟨low, high⟩
      exact ⟨extends_.present height low (by omega), low, by omega⟩
  have present (height : Nat) (low : verifier.verifierProgress.firstHeight ≤ height)
      (high : height < target + 1) : height ∈ verifier.queued.keys :=
    extends_.present height low (by omega)
  obtain ⟨_, isWalk, spec⟩ := processHeights_spec free (by omega) (by omega) sound.taken
    sound.queue present []
  unfold processTarget
  rw [bind_of_ok (expect_of_some _ isHash), bind_of_ok (expect_of_some _ isStart),
    bind_of_ok (assert_of_true _ notInverted)]
  rw [heights]
  rw [HashChain.parentHash] at isWalk
  rw [bind_of_ok isWalk]
  cases spec with
  | complete walked onChain =>
    dsimp only
    rw [bind_of_ok (assert_of_true _ (beq_self_eq_true _)), append_nil]
    exact finishRange_spec extends_ before greatest sound ongoing listed reached walked onChain
  | broken low high walked onChain =>
    rw [append_nil]
    exact failRange_spec ongoing sound low (by omega) walked onChain

end

section

variable [DecidableEq Hash] (free : rules.CollisionFree) (sound : Sound chain accepted verifier)
include free sound

theorem processFrom_spec (ongoing : verifier.verifierProgress ≠ .finalCheckpoint) :
    ∃ final, verifier.processFrom rules
        (chain.parentHash verifier.verifierProgress.firstHeight) = .ok final ∧
      Sound chain accepted final ∧ RangeEffect chain verifier final := by
  obtain ⟨_, _, extends_, isTarget, spec⟩ := targetCheckpointHeight_spec ongoing
  unfold processFrom
  rw [bind_of_ok isTarget]
  cases spec with
  | waitingForBlocks => exact ⟨verifier, rfl, sound, .idle rfl rfl⟩
  | checkpoint listed low high greatest =>
    exact processTarget_spec extends_ high greatest sound ongoing listed low free

theorem processCheckpointRange_spec : ∃ final, verifier.processCheckpointRange rules = .ok final ∧
      Sound chain accepted final ∧ RangeEffect chain verifier final := by
  have progress := sound.progress
  have processed := processFrom_spec free sound
  unfold ProgressSound at progress
  unfold processCheckpointRange previousCheckpointHash
  cases shape : verifier.verifierProgress with
  | beforeGenesis =>
    rw [shape] at processed
    exact processed (by simp)
  | initialTip height =>
    rw [shape] at processed progress
    rw [bind_of_ok (expect_of_some _ progress)]
    exact processed (by simp)
  | previousCheckpoint height =>
    rw [shape] at processed progress
    obtain ⟨hash, isHash⟩ := CheckpointList.hash_of_mem progress
    obtain ⟨_, rfl⟩ := sound.taken height hash isHash
    dsimp only
    rw [bind_of_ok (expect_of_some _ isHash)]
    exact processed (by simp)
  | finalCheckpoint => exact ⟨verifier, rfl, sound, .idle rfl rfl⟩

end

end

end CheckpointVerifier

end Zakura.Checkpoint
