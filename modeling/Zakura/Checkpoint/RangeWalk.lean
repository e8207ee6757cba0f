import Zakura.Checkpoint.TargetRange

/-!
The walk back from a target checkpoint: what leaves the queue, what is answered, and
how a broken walk is undone.
-/

namespace Zakura.Checkpoint

open FiniteMap Fallible List Option

variable {Block Hash Error : Type} {blocks kept later : List (QueuedBlock Block Hash)}
  {queued : QueuedBlock Block Hash} {height high low middle : Nat}
  {rules : BlockRules Block Hash Error} {accepted : List (RequestBlock Block Hash)}

/-- The blocks queued at a height: at least one, with different hashes, all accepted. -/
structure EntrySound (rules : BlockRules Block Hash Error)
    (accepted : List (RequestBlock Block Hash)) (height : Nat)
    (blocks : List (QueuedBlock Block Hash)) : Prop where
  nonempty : blocks ≠ []
  distinct : (blocks.map fun queued => queued.block.hash).Nodup
  height : ∀ queued ∈ blocks, queued.block.height = height
  binds : ∀ queued ∈ blocks,
    rules.Binds queued.block.block queued.block.hash queued.block.height
  accepted : ∀ queued ∈ blocks, ⟨queued.block, queued.tx⟩ ∈ accepted

def QueueSound (rules : BlockRules Block Hash Error) (accepted : List (RequestBlock Block Hash))
    (queue : FiniteMap Nat (List (QueuedBlock Block Hash))) : Prop :=
  ∀ height blocks, queue.lookup height = some blocks → EntrySound rules accepted height blocks

section

variable {more : List (RequestBlock Block Hash)}

theorem EntrySound.single (entry : EntrySound rules accepted height blocks)
    (listed : queued ∈ blocks) : EntrySound rules accepted height [queued] := by
  refine ⟨by simp, by simp, ?_, ?_, ?_⟩
  · simpa using entry.height queued listed
  · simpa using entry.binds queued listed
  · simpa using entry.accepted queued listed

theorem EntrySound.mono (entry : EntrySound rules accepted height blocks)
    (grows : accepted ⊆ more) : EntrySound rules more height blocks :=
  { entry with accepted := fun queued listed => grows (entry.accepted queued listed) }

end

namespace CheckpointVerifier

def outstanding (verifier : CheckpointVerifier Block Hash Error) : Multiset Nat :=
  (verifier.answers.map Answer.channel : List Nat) +
    (contents verifier.queued).map QueuedBlock.tx

def okAnswers (verifier : CheckpointVerifier Block Hash Error) : List (Answer Hash Error) :=
  verifier.answers.filter fun answer => answer.sent.result.isOk

structure SameFrame (before after : CheckpointVerifier Block Hash Error) : Prop where
  checkpointList : after.checkpointList = before.checkpointList
  initialTipHash : after.initialTipHash = before.initialTipHash
  verifierProgress : after.verifierProgress = before.verifierProgress
  resetReceiver : after.resetReceiver = before.resetReceiver
  resetGeneration : after.resetGeneration = before.resetGeneration
  channels : after.channels = before.channels

theorem SameFrame.trans {first second third : CheckpointVerifier Block Hash Error}
    (early : SameFrame first second) (late : SameFrame second third) : SameFrame first third :=
  ⟨late.1.trans early.1, late.2.trans early.2, late.3.trans early.3, late.4.trans early.4,
    late.5.trans early.5, late.6.trans early.6⟩

/-- The heights of a range have left the queue; the kept blocks are not answered yet. -/
structure Walked (before after : CheckpointVerifier Block Hash Error) (low high : Nat)
    (kept : List (QueuedBlock Block Hash)) : Prop where
  frame : SameFrame before after
  lookup : ∀ height, after.queued.lookup height =
    if low ≤ height ∧ height < high then none else before.queued.lookup height
  okAnswers : after.okAnswers = before.okAnswers
  balance : after.outstanding + (kept.map QueuedBlock.tx : List Nat) = before.outstanding
  queued : ∀ block ∈ kept, ∃ blocks,
    before.queued.lookup block.block.height = some blocks ∧ block ∈ blocks

theorem Walked.refl (verifier : CheckpointVerifier Block Hash Error) (height : Nat) :
    Walked verifier verifier height height [] := by
  refine ⟨⟨rfl, rfl, rfl, rfl, rfl, rfl⟩, ?_, rfl, by simp, by simp⟩
  intro other
  rw [if_neg (by omega)]

theorem Walked.trans {first second third : CheckpointVerifier Block Hash Error}
    {early late : List (QueuedBlock Block Hash)} (above : Walked first second middle high early)
    (below : Walked second third low middle late) (ordered : low ≤ middle) (bounded : middle ≤ high) :
    Walked first third low high (late ++ early) := by
  refine ⟨above.frame.trans below.frame, ?_, below.okAnswers.trans above.okAnswers, ?_, ?_⟩
  · intro height
    rw [below.lookup, above.lookup]
    by_cases inside : low ≤ height ∧ height < high
    · rw [if_pos inside]
      split
      · rfl
      · rw [if_pos (by omega)]
    · rw [if_neg inside, if_neg (by omega), if_neg (by omega)]
  · rw [map_append, ← Multiset.coe_add, ← add_assoc, below.balance, above.balance]
  · intro block listed
    rcases mem_append.mp listed with isLate | isEarly
    · obtain ⟨blocks, found, member⟩ := below.queued block isLate
      rw [above.lookup, ite_none_left_eq_some] at found
      exact ⟨blocks, found.2, member⟩
    · exact above.queued block isEarly

section

variable {before after : CheckpointVerifier Block Hash Error}
  (walked : Walked before after low high kept)
include walked

theorem Walked.queueSound {rules : BlockRules Block Hash Error}
    {accepted : List (RequestBlock Block Hash)} (sound : QueueSound rules accepted before.queued) :
    QueueSound rules accepted after.queued := by
  intro height blocks found
  rw [walked.lookup, ite_none_left_eq_some] at found
  exact sound height blocks found.2

theorem Walked.mem_keys :
    height ∈ after.queued.keys ↔ height ∈ before.queued.keys ∧ ¬(low ≤ height ∧ height < high) := by
  rw [mem_keys_iff, mem_keys_iff, walked.lookup]
  split <;> simp_all

end

section

variable [DecidableEq Hash] {verifier : CheckpointVerifier Block Hash Error}
  {chain : HashChain rules}

structure Selected (blocks : List (QueuedBlock Block Hash))
    (chosen : Option (QueuedBlock Block Hash)) (failed : List (Answer Hash Error)) : Prop where
  errors : ∀ answer ∈ failed, answer.sent.result.isOk = false
  balance : (failed.map Answer.channel : Multiset Nat) +
    (chosen.toList.map QueuedBlock.tx : List Nat) = (blocks.map QueuedBlock.tx : List Nat)

omit [DecidableEq Hash] in
theorem Selected.skip {chosen : Option (QueuedBlock Block Hash)} {failed : List (Answer Hash Error)}
    (selected : Selected blocks chosen failed) (queued : QueuedBlock Block Hash)
    (error : VerifyCheckpointError Hash Error) :
    Selected (queued :: blocks) chosen (verifier.answer queued.tx (.error error) :: failed) := by
  refine ⟨?_, ?_⟩
  · intro answer listed
    rcases mem_cons.mp listed with rfl | later
    · rfl
    · exact selected.errors answer later
  · rw [map_cons, map_cons, ← Multiset.cons_coe, ← Multiset.cons_coe,
      Multiset.cons_add, selected.balance]
    rfl

theorem selectValid_absent (verifier : CheckpointVerifier Block Hash Error) {expectedHash : Hash}
    (absent : ∀ queued ∈ blocks, queued.block.hash ≠ expectedHash)
    (valid : Option (QueuedBlock Block Hash)) :
    ∃ failed, verifier.selectValid expectedHash blocks valid = .ok (valid, failed) ∧
      Selected blocks none failed := by
  induction blocks with
  | nil => exact ⟨[], rfl, by simp, by simp⟩
  | cons queued rest ih =>
    obtain ⟨_, found, selected⟩ := ih fun other listed =>
      absent other (mem_cons_of_mem _ listed)
    unfold selectValid
    rw [if_neg (absent queued mem_cons_self), bind_of_ok found]
    exact ⟨_, rfl, selected.skip queued _⟩

theorem selectValid_spec (verifier : CheckpointVerifier Block Hash Error) (expectedHash : Hash)
    (distinct : (blocks.map fun queued => queued.block.hash).Nodup) : ∃ chosen failed,
      verifier.selectValid expectedHash blocks none = .ok (chosen, failed) ∧
        Selected blocks chosen failed ∧ ∀ queued, chosen = some queued →
          queued ∈ blocks ∧ queued.block.hash = expectedHash := by
  induction blocks with
  | nil => exact ⟨none, [], rfl, ⟨by simp, by simp⟩, by simp⟩
  | cons queued rest ih =>
    rw [map_cons, nodup_cons] at distinct
    rw [selectValid]
    by_cases same : queued.block.hash = expectedHash
    · have absent : ∀ other ∈ rest, other.block.hash ≠ expectedHash := by
        intro other listed equal
        exact distinct.1 (mem_map.mpr ⟨other, listed, equal.trans same.symm⟩)
      obtain ⟨failed, found, selected⟩ := selectValid_absent verifier absent (some queued)
      rw [if_pos same]
      refine ⟨some queued, failed, found, ⟨selected.errors, ?_⟩, ?_⟩
      · have balance := selected.balance
        simp only [toList_none, map_nil, Multiset.coe_nil, add_zero] at balance
        rw [balance, map_cons, toList_some, map_singleton, Multiset.coe_add]
        exact Multiset.coe_eq_coe.mpr perm_append_comm
      · rintro other ⟨⟩
        exact ⟨mem_cons_self, same⟩
    · obtain ⟨chosen, failed, found, selected, isChosen⟩ := ih distinct.2
      rw [if_neg same, bind_of_ok found]
      refine ⟨chosen, _, rfl, selected.skip queued _, ?_⟩
      intro other equal
      exact ⟨mem_cons_of_mem _ (isChosen other equal).1, (isChosen other equal).2⟩

theorem processHeight_spec (taken : verifier.checkpointList.TakenFrom chain)
    (entry : EntrySound rules accepted height blocks)
    (found : verifier.queued.lookup height = some blocks) :
    ∃ chosen next, verifier.processHeight height (chain.hashAt height) = .ok (chosen, next) ∧
      Walked verifier next height (height + 1) chosen.toList ∧
      ∀ queued, chosen = some queued → queued ∈ blocks ∧
        queued.block.hash = chain.hashAt height := by
  obtain ⟨chosen, failed, isSelected, selected, isChosen⟩ :=
    verifier.selectValid_spec (chain.hashAt height) entry.distinct
  have matched : decide (∀ hash ∈ verifier.checkpointList.hash height,
      chain.hashAt height = hash) = true := by
    rw [decide_eq_true_eq]
    intro hash isCheckpoint
    exact (taken height hash isCheckpoint).2.symm
  have filled : (!blocks.isEmpty) = true := by
    simpa using entry.nonempty
  unfold processHeight
  rw [bind_of_ok (expect_of_some _ found), bind_of_ok (assert_of_true _ filled),
    bind_of_ok (assert_of_true _ matched), bind_of_ok isSelected]
  refine ⟨chosen, _, rfl, ⟨⟨rfl, rfl, rfl, rfl, rfl, rfl⟩, ?_, ?_, ?_, ?_⟩, isChosen⟩
  · intro other
    rw [lookup_erase_ite]
    by_cases same : other = height
    · rw [if_pos same, if_pos (by omega)]
    · rw [if_neg same, if_neg (by omega)]
  · have none : failed.filter (fun answer => answer.sent.result.isOk) = [] :=
      filter_eq_nil_iff.mpr fun answer listed => by simp [selected.errors answer listed]
    rw [okAnswers, okAnswers, filter_append, none, append_nil]
  · have balance := selected.balance
    unfold outstanding
    rw [← contents_erase found, map_append, ← Multiset.coe_add, Multiset.map_add,
      Multiset.map_coe, ← balance]
    ac_rfl
  · intro queued listed
    obtain ⟨member, _⟩ := isChosen queued (by simpa using listed)
    exact ⟨blocks, by rw [entry.height queued member, found], member⟩

structure OnChain (chain : HashChain rules) (low count : Nat)
    (kept : List (QueuedBlock Block Hash)) : Prop where
  heights : (kept.map fun queued => queued.block.height) = range' low count
  hashes : ∀ queued ∈ kept, queued.block.hash = chain.hashAt queued.block.height

inductive WalkSpec (chain : HashChain rules) (verifier : CheckpointVerifier Block Hash Error)
    (low high : Nat) (later : List (QueuedBlock Block Hash)) : RangeWalk Block Hash Error → Prop
  | complete {kept : List (QueuedBlock Block Hash)}
      {next : CheckpointVerifier Block Hash Error} :
      Walked verifier next low high kept → OnChain chain low (high - low) kept →
      WalkSpec chain verifier low high later
        (.complete (kept ++ later) (chain.parentHash low) next)
  | broken {middle : Nat} {kept : List (QueuedBlock Block Hash)}
      {next : CheckpointVerifier Block Hash Error} : low ≤ middle → middle < high →
      Walked verifier next middle high kept → OnChain chain (middle + 1) (high - middle - 1) kept →
      WalkSpec chain verifier low high later (.broken (kept ++ later) next)

omit [DecidableEq Hash] in
theorem OnChain.concat (onChain : OnChain chain low (high - low) kept) (ordered : low ≤ high)
    (height : queued.block.height = high) (hash : queued.block.hash = chain.hashAt high) :
    OnChain chain low (high + 1 - low) (kept ++ [queued]) := by
  refine ⟨?_, ?_⟩
  · rw [map_append, onChain.heights, map_singleton, height, Nat.succ_sub ordered, range'_concat]
    simp [ordered]
  intro other listed
  rcases mem_append.mp listed with early | last
  · exact onChain.hashes other early
  · rw [mem_singleton.mp last, hash, height]

omit [DecidableEq Hash] in
theorem WalkSpec.extend {first second : CheckpointVerifier Block Hash Error}
    {walk : RangeWalk Block Hash Error} (ordered : low ≤ high)
    (step : Walked first second high (high + 1) [queued]) (height : queued.block.height = high)
    (hash : queued.block.hash = chain.hashAt high)
    (spec : WalkSpec chain second low high (queued :: later) walk) :
    WalkSpec chain first low (high + 1) later walk := by
  cases spec with
  | complete walked onChain =>
    rw [append_cons]
    exact .complete (step.trans walked ordered (by omega)) (onChain.concat ordered height hash)
  | @broken middle kept next reached before walked onChain =>
    rw [append_cons]
    refine .broken reached (by omega) (step.trans walked before.le (by omega)) ?_
    have shifted : OnChain chain (middle + 1) (high - (middle + 1)) kept := by
      rwa [← Nat.sub_sub]
    have extended := shifted.concat before height hash
    rwa [Nat.sub_sub]

theorem processHeights_spec (free : rules.CollisionFree) (ordered : low ≤ high)
    (within : high ≤ chain.tip + 1) (taken : verifier.checkpointList.TakenFrom chain)
    (sound : QueueSound rules accepted verifier.queued)
    (present : ∀ height, low ≤ height → height < high → height ∈ verifier.queued.keys)
    (later : List (QueuedBlock Block Hash)) :
    ∃ walk, processHeights rules (range' low (high - low)).reverse (chain.parentHash high)
        later verifier = .ok walk ∧ WalkSpec chain verifier low high later walk := by
  induction high, ordered using Nat.le_induction generalizing verifier later with
  | base =>
    rw [Nat.sub_self]
    refine ⟨_, rfl, ?_⟩
    exact WalkSpec.complete (Walked.refl verifier low) ⟨by simp, by simp⟩
  | succ high ordered ih =>
    have heights : (range' low (high + 1 - low)).reverse =
        high :: (range' low (high - low)).reverse := by
      rw [Nat.succ_sub ordered, range'_concat, reverse_append]
      simp [ordered]
    obtain ⟨blocks, found⟩ := mem_keys_iff.mp (present high ordered (by omega))
    have entry := sound high blocks found
    obtain ⟨chosen, next, processed, walked, isChosen⟩ := processHeight_spec taken entry found
    rw [heights, processHeights, HashChain.parentHash, bind_of_ok processed]
    cases chosen with
    | none =>
      refine ⟨_, rfl, ?_⟩
      have spec : WalkSpec chain verifier low (high + 1) later (.broken ([] ++ later) next) :=
        .broken ordered (by omega) walked ⟨by simp, by simp⟩
      exact spec
    | some queued =>
      obtain ⟨member, hash⟩ := isChosen queued rfl
      have binds := entry.binds queued member
      rw [hash] at binds
      obtain ⟨height, parent⟩ := chain.eq_of_hash free (by omega) binds
      have nextTaken : next.checkpointList.TakenFrom chain := by
        rwa [walked.frame.checkpointList]
      have nextPresent (other : Nat) (reached : low ≤ other) (before : other < high) :
          other ∈ next.queued.keys :=
        walked.mem_keys.mpr ⟨present other reached (by omega), by omega⟩
      obtain ⟨walk, isWalk, spec⟩ := ih (by omega) nextTaken
        (walked.queueSound sound) nextPresent (queued :: later)
      refine ⟨walk, ?_, spec.extend ordered walked height hash⟩
      dsimp only
      rw [parent]
      exact isWalk

end

end CheckpointVerifier

end Zakura.Checkpoint
