import Zakura.Checkpoint.RangeOutcome

/-!
Resets and queueing keep the verifier sound, and dropping it answers what is queued.
-/

namespace Zakura.Checkpoint

open FiniteMap Fallible List

variable {Block Hash Error : Type} {rules : BlockRules Block Hash Error}
  {verifier next : CheckpointVerifier Block Hash Error} {block : Block}
  {height generation channel : Nat} {accepted : List (RequestBlock Block Hash)}
  {chain : HashChain rules}

def HashChain.HasTip (chain : HashChain rules) : Option (Nat × Hash) → Prop
  | none => True
  | some (height, hash) => height ≤ chain.tip ∧ hash = chain.hashAt height

def Progress.Reached (progress : Progress Nat) : Option (Nat × Hash) → Prop
  | none => True
  | some (height, _) =>
    match progress with
    | .beforeGenesis => False
    | .initialTip verified | .previousCheckpoint verified => height ≤ verified
    | .finalCheckpoint => True

namespace CheckpointVerifier

section

theorem higherTip_cases (highest : Option (Option (Nat × Hash))) (tip : Option (Nat × Hash)) :
    higherTip highest tip = tip ∨ highest = some (higherTip highest tip) := by
  rcases highest with _ | _ | _
  · exact .inl rfl
  · exact .inl rfl
  rcases tip with _ | _
  · exact .inr rfl
  dsimp only [higherTip]
  split
  · exact .inl rfl
  · exact .inr rfl

variable {tip : Option (Nat × Hash)}

theorem highestTip_spec {resets : List (CheckpointReset Hash)} (holds : Option (Nat × Hash) → Prop)
    (each : ∀ reset ∈ resets, reset.generation = generation → holds reset.tip)
    (isHighest : highestTip generation resets = some tip) : holds tip := by
  have kept (highest : Option (Option (Nat × Hash))) (start : ∀ tip, highest = some tip → holds tip) :
      ∀ tip, resets.foldl (fun highest reset => if reset.generation ≠ generation then highest
        else some (higherTip highest reset.tip)) highest = some tip → holds tip := by
    clear isHighest
    induction resets generalizing highest with
    | nil => exact start
    | cons reset rest ih =>
      rw [foldl_cons]
      refine ih (fun other listed => each other (mem_cons_of_mem _ listed)) _ ?_
      intro tip isNext
      split at isNext
      · exact start tip isNext
      rename_i current
      obtain rfl := Option.some.inj isNext
      rcases higherTip_cases highest reset.tip with same | same
      · rw [same]
        exact each reset mem_cons_self (not_not.mp current)
      · exact start _ same
  exact kept none (by simp) tip isHighest

theorem progressSound_of_tip (isTip : chain.HasTip tip)
    (hash : verifier.initialTipHash = (progressFromTip verifier.checkpointList tip).1)
    (progress : verifier.verifierProgress = (progressFromTip verifier.checkpointList tip).2) :
    verifier.ProgressSound chain := by
  unfold ProgressSound
  rw [hash, progress]
  rcases tip with _ | ⟨_, _⟩
  · trivial
  dsimp only [progressFromTip]
  split_ifs
  · trivial
  · exact congrArg some isTip.2

theorem resetProgress_spec (sound : Sound chain accepted verifier) (isTip : chain.HasTip tip)
    (reached : verifier.verifierProgress.Reached tip) :
    ∃ next, verifier.resetProgress tip = .ok next ∧ Sound chain accepted next ∧
      next.resetGeneration = verifier.resetGeneration := by
  refine ⟨{ verifier with
      initialTipHash := (progressFromTip verifier.checkpointList tip).1
      verifierProgress := (progressFromTip verifier.checkpointList tip).2 }, ?_, ?_, rfl⟩
  · unfold resetProgress
    dsimp only
    rw [bind_of_ok (verifiedCheckpointDiagnostics_ok _ _)]
    rfl
  refine { sound with progress := progressSound_of_tip isTip rfl rfl, below := ?_ }
  · intro height listed
    obtain ⟨ongoing, above⟩ := sound.below height listed
    have within := sound.within height listed
    rcases tip with _ | ⟨tipHeight, hash⟩
    · exact ⟨by simp [progressFromTip], Nat.zero_le _⟩
    have before : tipHeight < height := by
      cases shape : verifier.verifierProgress with
      | beforeGenesis =>
        rw [shape] at reached
        exact reached.elim
      | initialTip verified | previousCheckpoint verified =>
        rw [shape] at reached above
        exact lt_of_le_of_lt reached above
      | finalCheckpoint => exact absurd shape ongoing
    have shape : (progressFromTip verifier.checkpointList (some (tipHeight, hash))).2 =
        .initialTip tipHeight := by
      rw [progressFromTip, if_neg (by omega)]
    rw [shape]
    exact ⟨by simp, before⟩

def ResetsBack (chain : HashChain rules) (verifier : CheckpointVerifier Block Hash Error) : Prop :=
  ∀ reset ∈ verifier.resetReceiver, reset.generation = verifier.resetGeneration →
    chain.HasTip reset.tip ∧ verifier.verifierProgress.Reached reset.tip

theorem applyPendingReset_spec (sound : Sound chain accepted verifier)
    (back : verifier.ResetsBack chain) :
    (verifier.applyPendingReset = .error .resetGenerationExhausted ∧
      Checked.u64Max ≤ verifier.resetGeneration) ∨
    ∃ next, verifier.applyPendingReset = .ok next ∧ Sound chain accepted next := by
  have drained : Sound chain accepted { verifier with resetReceiver := [] } :=
    { sound with }
  unfold applyPendingReset
  cases isHighest : highestTip verifier.resetGeneration verifier.resetReceiver with
  | none => exact .inr ⟨_, rfl, drained⟩
  | some tip =>
    obtain ⟨isTip, reached⟩ := highestTip_spec
      (fun tip => chain.HasTip tip ∧ verifier.verifierProgress.Reached tip) back isHighest
    obtain ⟨_, isNext, nextSound, sameGeneration⟩ := resetProgress_spec drained isTip reached
    dsimp only
    rw [bind_of_ok isNext, sameGeneration]
    by_cases fits : verifier.resetGeneration + 1 ≤ Checked.u64Max
    · rw [bind_of_ok (expect_of_some _ (Checked.add_of_le fits))]
      exact .inr ⟨_, rfl, { nextSound with }⟩
    · refine .inl ⟨?_, by omega⟩
      rw [Checked.add, if_neg fits]
      rfl

end

section

theorem checkHeight_ok (admitted : verifier.checkHeight height = .ok ()) :
    height ≤ verifier.checkpointList.maxHeight ∧ verifier.verifierProgress.Below height := by
  unfold checkHeight at admitted
  split at admitted
  · simp at admitted
  refine ⟨by omega, ?_⟩
  cases shape : verifier.verifierProgress with
  | beforeGenesis => exact ⟨by simp, Nat.zero_le _⟩
  | initialTip previous | previousCheckpoint previous =>
    rw [shape] at admitted
    dsimp only at admitted
    split at admitted
    · simp at admitted
    next above =>
      exact ⟨by simp, not_le.mp above⟩
  | finalCheckpoint =>
    simp [shape] at admitted

variable {checked : CheckpointVerifiedBlock Block Hash}

theorem checkContents_ok {hash : Hash}
    (passes : checkContents rules block hash height = .ok checked) :
    checked.block = block ∧ checked.hash = hash ∧ checked.height = height ∧
      rules.merkleRootValidity block = .ok () := by
  obtain ⟨_, _, afterWork⟩ := bind_eq_ok.mp passes
  obtain ⟨_, _, afterPool⟩ := bind_eq_ok.mp afterWork
  obtain ⟨_, merkleRoot, last⟩ := bind_eq_ok.mp afterPool
  obtain rfl := Except.ok.inj last
  exact ⟨rfl, rfl, rfl, merkleRoot⟩

theorem checkBlock_ok (passes : verifier.checkBlock rules block = .ok checked) :
    rules.Binds checked.block checked.hash checked.height ∧
      checked.height ≤ verifier.checkpointList.maxHeight ∧
      verifier.verifierProgress.Below checked.height := by
  obtain ⟨_, hasHash, rest⟩ := bind_eq_ok.mp passes
  split at rest
  · simp at rest
  rename_i height hasHeight
  obtain ⟨_, admitted, contents⟩ := bind_eq_ok.mp rest
  obtain ⟨sameBlock, sameHash, sameHeight, merkleRoot⟩ :=
    checkContents_ok (mapError_eq_ok.mp contents)
  rw [sameBlock, sameHash, sameHeight]
  exact ⟨⟨mapError_eq_ok.mp hasHash, hasHeight, merkleRoot⟩, checkHeight_ok admitted⟩

variable [DecidableEq Hash]

structure Replaced (newer older : QueuedBlock Block Hash)
    (before after : List (QueuedBlock Block Hash)) : Prop where
  member : older ∈ before
  hashes : (after.map fun queued => queued.block.hash) =
    before.map fun queued => queued.block.hash
  members : ∀ queued ∈ after, queued = newer ∨ queued ∈ before
  balance : (after : Multiset (QueuedBlock Block Hash)) + {older} = before + {newer}

theorem replaceOlder_some {newer older : QueuedBlock Block Hash}
    {before after : List (QueuedBlock Block Hash)}
    (replaced : replaceOlder newer before = some (older, after)) :
    Replaced newer older before after := by
  induction before generalizing after with
  | nil => simp [replaceOlder] at replaced
  | cons first rest ih =>
    unfold replaceOlder at replaced
    split at replaced
    next same =>
      obtain ⟨rfl, rfl⟩ := Prod.mk.inj (Option.some.inj replaced)
      refine ⟨mem_cons_self, by simp [same], ?_, ?_⟩
      · intro queued listed
        rcases mem_cons.mp listed with rfl | later
        · exact .inl rfl
        · exact .inr (mem_cons_of_mem _ later)
      · rw [← Multiset.cons_coe, ← Multiset.cons_coe, ← Multiset.singleton_add,
          ← Multiset.singleton_add first]
        ac_rfl
    obtain ⟨⟨_, _⟩, isReplaced, same⟩ := Option.map_eq_some_iff.mp replaced
    obtain ⟨rfl, rfl⟩ := Prod.mk.inj same
    have inner := ih isReplaced
    refine ⟨mem_cons_of_mem _ inner.member, ?_, ?_, ?_⟩
    · rw [map_cons, map_cons, inner.hashes]
    · intro queued listed
      rcases mem_cons.mp listed with rfl | later
      · exact .inr mem_cons_self
      · exact (inner.members queued later).imp_right (mem_cons_of_mem _)
    · rw [← Multiset.cons_coe, ← Multiset.cons_coe, Multiset.cons_add, inner.balance,
        Multiset.cons_add]

theorem replaceOlder_none {newer : QueuedBlock Block Hash} {blocks : List (QueuedBlock Block Hash)}
    (kept : replaceOlder newer blocks = none) :
    ∀ queued ∈ blocks, queued.block.hash ≠ newer.block.hash := by
  induction blocks with
  | nil => simp
  | cons first rest ih =>
    unfold replaceOlder at kept
    split at kept
    · simp at kept
    rename_i different
    intro queued listed
    rcases mem_cons.mp listed with rfl | later
    · exact different
    · exact ih (Option.map_eq_none_iff.mp kept) queued later

inductive QueueEffect (chain : HashChain rules) (accepted : List (RequestBlock Block Hash))
    (after : CheckpointVerifier Block Hash Error) :
    Except (VerifyCheckpointError Hash Error) (RequestBlock Block Hash) → Prop
  | refused {error : VerifyCheckpointError Hash Error} : Sound chain accepted after →
      QueueEffect chain accepted after (.error error)
  | queued {request : RequestBlock Block Hash} : Sound chain (accepted ++ [request]) after →
      QueueEffect chain accepted after (.ok request)

section

variable {blocks replaced : List (QueuedBlock Block Hash)} {older : QueuedBlock Block Hash}

omit [DecidableEq Hash] in
theorem Sound.exchange (sound : Sound chain accepted verifier) (frame : SameFrame verifier next)
    (isNew : ∀ request ∈ accepted, request.rx < channel) (opened : channel < verifier.channels)
    (inRange : checked.height ≤ verifier.checkpointList.maxHeight ∧ verifier.verifierProgress.Below
      checked.height) (exchanged : next.queued = verifier.queued.insert checked.height replaced)
    (entry : EntrySound rules (accepted ++ [⟨checked, channel⟩]) checked.height replaced)
    (okAnswers : next.okAnswers = verifier.okAnswers)
    (balance : next.outstanding = verifier.outstanding + {channel}) :
    Sound chain (accepted ++ [⟨checked, channel⟩]) next := by
  have entries {height : Nat} {blocks : List (QueuedBlock Block Hash)}
      (found : next.queued.lookup height = some blocks) :
      verifier.queued.lookup height = some blocks ∨ height = checked.height ∧
        EntrySound rules (accepted ++ [⟨checked, channel⟩]) height blocks := by
    rw [exchanged] at found
    rcases lookup_insert_eq_some.mp found with ⟨same, rfl⟩ | ⟨_, found⟩
    · exact .inr ⟨same, same ▸ entry⟩
    · exact .inl found
  have keys (height : Nat) (listed : height ∈ next.queued.keys) :
      height ∈ verifier.queued.keys ∨ height = checked.height := by
    obtain ⟨blocks, found⟩ := mem_keys_iff.mp listed
    exact (entries found).imp (fun old => mem_keys_iff.mpr ⟨blocks, old⟩)
      fun new => new.1
  refine ⟨?_, ?_, ?_, ?_, ?_, ?_, ?_, ?_, ?_⟩
  · rw [frame.checkpointList]
    exact sound.taken
  · unfold ProgressSound
    rw [frame.verifierProgress, frame.initialTipHash, frame.checkpointList]
    exact sound.progress
  · intro height blocks found
    rcases entries found with old | ⟨_, new⟩
    · exact (sound.queue height blocks old).mono (subset_append_left _ _)
    · exact new
  · intro height listed
    rw [frame.verifierProgress]
    rcases keys height listed with old | rfl
    · exact sound.below height old
    · exact inRange.2
  · intro height listed
    rw [frame.checkpointList]
    rcases keys height listed with old | rfl
    · exact sound.within height old
    · exact inRange.1
  · rw [map_append, ← Multiset.coe_add, sound.accounts, balance]
    rfl
  · rw [map_append, nodup_append]
    refine ⟨sound.unique, by simp, ?_⟩
    intro first isFirst second isSecond
    obtain ⟨request, listed, rfl⟩ := mem_map.mp isFirst
    rw [map_singleton, mem_singleton] at isSecond
    rw [isSecond]
    exact (isNew request listed).ne
  · intro request listed
    rw [frame.channels]
    rcases mem_append.mp listed with old | new
    · exact sound.fresh request old
    · rw [mem_singleton.mp new]
      exact opened
  · intro answer listed
    rw [okAnswers] at listed
    obtain ⟨request, member, rest⟩ := sound.verified answer listed
    rw [frame.checkpointList]
    exact ⟨request, mem_append_left _ member, rest⟩

omit [DecidableEq Hash] in
theorem entry_of_replaced (entry : EntrySound rules accepted checked.height blocks)
    (binds : rules.Binds checked.block checked.hash checked.height)
    (isReplaced : Replaced ⟨checked, channel⟩ older blocks replaced) :
    EntrySound rules (accepted ++ [⟨checked, channel⟩]) checked.height replaced := by
  have each (queued : QueuedBlock Block Hash) (listed : queued ∈ replaced) :
      queued.block.height = checked.height ∧
        rules.Binds queued.block.block queued.block.hash queued.block.height ∧
        (⟨queued.block, queued.tx⟩ : RequestBlock Block Hash) ∈
          accepted ++ [⟨checked, channel⟩] := by
    rcases isReplaced.members queued listed with rfl | old
    · exact ⟨rfl, binds, by simp⟩
    · exact ⟨entry.height queued old, entry.binds queued old,
        mem_append_left _ (entry.accepted queued old)⟩
  refine ⟨?_, ?_, fun queued listed => (each queued listed).1,
    fun queued listed => (each queued listed).2.1, fun queued listed => (each queued listed).2.2⟩
  · rintro rfl
    have hashes := isReplaced.hashes
    rw [map_nil, eq_comm, map_eq_nil_iff] at hashes
    exact entry.nonempty hashes
  · rw [isReplaced.hashes]
    exact entry.distinct

omit [DecidableEq Hash] in
theorem entry_of_push (entry : blocks = [] ∨ EntrySound rules accepted checked.height blocks)
    (binds : rules.Binds checked.block checked.hash checked.height)
    (different : ∀ queued ∈ blocks, queued.block.hash ≠ checked.hash) :
    EntrySound rules (accepted ++ [⟨checked, channel⟩]) checked.height
      (blocks ++ [⟨checked, channel⟩]) := by
  have single : EntrySound rules (accepted ++ [⟨checked, channel⟩]) checked.height
      [⟨checked, channel⟩] :=
    ⟨by simp, by simp, by simp, by simpa using binds, by simp⟩
  rcases entry with rfl | entry
  · exact single
  have old := entry.mono (subset_append_left accepted [⟨checked, channel⟩])
  have either {holds : QueuedBlock Block Hash → Prop} (first : ∀ queued ∈ blocks, holds queued)
      (last : ∀ queued ∈ [⟨checked, channel⟩], holds queued) :
      ∀ queued ∈ blocks ++ [⟨checked, channel⟩], holds queued := by
    intro queued listed
    exact (mem_append.mp listed).elim (first queued) (last queued)
  refine ⟨by simp, ?_, either old.height single.height, either old.binds single.binds,
    either old.accepted single.accepted⟩
  rw [map_append, nodup_append]
  refine ⟨entry.distinct, by simp, ?_⟩
  intro first isFirst second isSecond
  obtain ⟨queued, listed, rfl⟩ := mem_map.mp isFirst
  rw [map_singleton, mem_singleton] at isSecond
  rw [isSecond]
  exact different queued listed

theorem enqueue_spec (sound : Sound chain accepted verifier)
    (isNew : ∀ request ∈ accepted, request.rx < channel) (opened : channel < verifier.channels)
    (inRange : checked.height ≤ verifier.checkpointList.maxHeight ∧
      verifier.verifierProgress.Below checked.height)
    (binds : rules.Binds checked.block checked.hash checked.height) :
    ∃ response next, verifier.enqueue checked channel = .ok (response, next) ∧
      QueueEffect chain accepted next response ∧ SameFrame verifier next ∧
      next.okAnswers = verifier.okAnswers := by
  unfold enqueue
  dsimp only
  have contents := contents_insert_getD verifier.queued checked.height
  have entry : (verifier.queued.lookup checked.height).getD [] = [] ∨
      EntrySound rules accepted checked.height
        ((verifier.queued.lookup checked.height).getD []) := by
    cases found : verifier.queued.lookup checked.height with
    | none => exact .inl rfl
    | some blocks => exact .inr (sound.queue _ blocks found)
  have entered : 0 < ((verifier.queued.lookup checked.height).getD []).length →
      verifier.queued.insert checked.height
        ((verifier.queued.lookup checked.height).getD []) = verifier.queued := by
    cases found : verifier.queued.lookup checked.height with
    | none => simp
    | some blocks => exact fun _ => insert_lookup found
  generalize (verifier.queued.lookup checked.height).getD [] = blocks at *
  cases isReplaced : replaceOlder ⟨checked, channel⟩ blocks with
  | some pair =>
    obtain ⟨older, replaced⟩ := pair
    have spec := replaceOlder_some isReplaced
    have filled : EntrySound rules accepted checked.height blocks := by
      refine entry.resolve_left ?_
      rintro rfl
      exact absurd spec.member not_mem_nil
    dsimp only
    rw [Finmap.insert_insert]
    have kept (error : VerifyCheckpointError Hash Error) : (verifier.answers ++
        [verifier.answer older.tx (.error error)]).filter
          (fun answer => answer.sent.result.isOk) = verifier.okAnswers := by
      rw [filter_append]
      exact append_nil _
    refine ⟨_, _, rfl, .queued (sound.exchange ⟨rfl, rfl, rfl, rfl, rfl, rfl⟩ isNew opened inRange
      rfl (entry_of_replaced filled binds spec) (kept _) ?_), ⟨rfl, rfl, rfl, rfl, rfl, rfl⟩,
      kept _⟩
    · have total := contents replaced
      have moved : FiniteMap.contents (verifier.queued.insert checked.height replaced) + {older} =
          FiniteMap.contents verifier.queued + {⟨checked, channel⟩} := by
        refine add_right_cancel (b := (blocks : Multiset (QueuedBlock Block Hash))) ?_
        rw [add_right_comm, total, add_assoc, spec.balance]
        ac_rfl
      have channels := congrArg (Multiset.map QueuedBlock.tx) moved
      simp only [Multiset.map_add, Multiset.map_singleton] at channels
      unfold outstanding
      rw [add_assoc, ← channels, map_append, ← Multiset.coe_add, map_singleton,
        Multiset.coe_singleton]
      simp only [answer]
      ac_rfl
  | none =>
    have different := replaceOlder_none isReplaced
    dsimp only
    rw [Finmap.insert_insert]
    split
    next full =>
      rw [entered (by unfold maxQueuedBlocksPerHeight at full; omega)]
      exact ⟨_, _, rfl, .refused sound, ⟨rfl, rfl, rfl, rfl, rfl, rfl⟩, rfl⟩
    obtain ⟨last, isLast⟩ : ∃ last, lastKey (verifier.queued.insert checked.height
        (blocks ++ [⟨checked, channel⟩])) = some last := by
      rw [← Option.isSome_iff_exists, Option.isSome_iff_ne_none, ne_eq, lastKey_eq_none,
        keys_insert]
      exact Finset.insert_ne_empty _ _
    unfold queuedBlockDiagnostics
    rw [bind_of_ok (expect_of_some _ isLast)]
    refine ⟨_, _, rfl, .queued (sound.exchange ⟨rfl, rfl, rfl, rfl, rfl, rfl⟩ isNew opened
      inRange rfl (entry_of_push entry binds different) rfl ?_),
      ⟨rfl, rfl, rfl, rfl, rfl, rfl⟩, rfl⟩
    have total := contents (blocks ++ [⟨checked, channel⟩])
    have added : FiniteMap.contents (verifier.queued.insert checked.height
        (blocks ++ [⟨checked, channel⟩])) =
        FiniteMap.contents verifier.queued + {⟨checked, channel⟩} := by
      refine add_right_cancel (b := (blocks : Multiset (QueuedBlock Block Hash))) ?_
      rw [total, ← Multiset.coe_add, Multiset.coe_singleton]
      ac_rfl
    unfold outstanding
    rw [added, Multiset.map_add, Multiset.map_singleton, add_assoc]

end

theorem queueBlock_spec (sound : Sound chain accepted verifier) (block : Block) :
    ∃ response next, verifier.queueBlock rules block = .ok (response, next) ∧
      QueueEffect chain accepted next response ∧ next.checkpointList = verifier.checkpointList ∧
      next.verifierProgress = verifier.verifierProgress ∧
      next.resetGeneration = verifier.resetGeneration ∧ next.okAnswers = verifier.okAnswers := by
  have opened : Sound chain accepted { verifier with channels := verifier.channels + 1 } :=
    { sound with fresh := fun request listed => Nat.lt_succ_of_lt (sound.fresh request listed) }
  unfold queueBlock
  dsimp only
  cases isChecked : checkBlock { verifier with channels := verifier.channels + 1 } rules block with
  | error error => exact ⟨_, _, rfl, .refused opened, rfl, rfl, rfl, rfl⟩
  | ok checked =>
    obtain ⟨binds, inRange⟩ := checkBlock_ok isChecked
    obtain ⟨response, next, isQueued, effect, frame, okAnswers⟩ :=
      enqueue_spec opened sound.fresh (Nat.lt_succ_self _) inRange binds
    exact ⟨response, next, isQueued, effect, frame.checkpointList, frame.verifierProgress,
      frame.resetGeneration, okAnswers⟩

end

theorem dropKeys_spec {keys : List Nat} (distinct : keys.Nodup)
    (listed : ∀ key, key ∈ keys ↔ key ∈ verifier.queued.keys) :
    ∃ dropped, dropKeys keys verifier = .ok dropped ∧ dropped.queued.keys = ∅ ∧
      dropped.outstanding = verifier.outstanding ∧ dropped.okAnswers = verifier.okAnswers := by
  induction keys generalizing verifier with
  | nil =>
    refine ⟨verifier, rfl, ?_, rfl, rfl⟩
    ext key
    rw [← listed key]
    simp
  | cons key rest ih =>
    rw [nodup_cons] at distinct
    obtain ⟨blocks, found⟩ := mem_keys_iff.mp ((listed key).mp mem_cons_self)
    rw [dropKeys, bind_of_ok (expect_of_some _ found)]
    set next : CheckpointVerifier Block Hash Error := { verifier with
      queued := verifier.queued.erase key
      answers := verifier.answers ++
        blocks.map fun block => verifier.answer block.tx (.error .dropped) }
    have remaining (other : Nat) : other ∈ rest ↔ other ∈ next.queued.keys := by
      have keys : other ∈ next.queued.keys ↔ other ≠ key ∧ other ∈ verifier.queued.keys := by
        rw [mem_keys_iff, mem_keys_iff, lookup_erase_ite]
        split <;> simp_all
      rw [keys, ← listed other, mem_cons]
      constructor
      · intro later
        exact ⟨fun same => distinct.1 (same ▸ later), .inr later⟩
      · rintro ⟨different, same | later⟩
        · exact absurd same different
        · exact later
    obtain ⟨dropped, isDropped, empty, outstanding, okAnswers⟩ := ih distinct.2 remaining
    refine ⟨dropped, isDropped, empty, outstanding.trans ?_, okAnswers.trans ?_⟩
    · have channels : (blocks.map fun block => verifier.answer block.tx (.error .dropped)).map
          Answer.channel = blocks.map QueuedBlock.tx := by
        rw [map_map]
        rfl
      unfold CheckpointVerifier.outstanding
      rw [← contents_erase found, map_append, channels, ← Multiset.coe_add,
        Multiset.map_add, Multiset.map_coe, add_assoc]
    have errors : (blocks.map fun block => verifier.answer block.tx (.error .dropped)).filter
        (fun answer => answer.sent.result.isOk) = [] := by
      rw [filter_eq_nil_iff]
      intro answer member
      obtain ⟨block, _, rfl⟩ := mem_map.mp member
      simp [CheckpointVerifier.answer, Except.isOk, Except.toBool]
    rw [CheckpointVerifier.okAnswers, filter_append, errors, append_nil]
    rfl

theorem drop_spec (sound : Sound chain accepted verifier) :
    ∃ dropped, verifier.drop = .ok dropped ∧ dropped.okAnswers = verifier.okAnswers ∧
      (dropped.answers.map Answer.channel).Perm (accepted.map RequestBlock.rx) := by
  obtain ⟨dropped, isDropped, empty, outstanding, okAnswers⟩ :=
    dropKeys_spec (nodup_ascending verifier.queued.keys) fun _ => mem_ascending
  refine ⟨dropped, isDropped, okAnswers, ?_⟩
  have none : contents dropped.queued = 0 := by
    rw [Multiset.eq_zero_iff_forall_notMem]
    intro block listed
    obtain ⟨key, blocks, found, _⟩ := mem_contents.mp listed
    have member : key ∈ dropped.queued.keys := mem_keys_iff.mpr ⟨blocks, found⟩
    rw [empty] at member
    exact absurd member (Finset.notMem_empty _)
  rw [← Multiset.coe_eq_coe, sound.accounts, ← outstanding, CheckpointVerifier.outstanding, none,
    Multiset.map_zero, add_zero]

end CheckpointVerifier

end Zakura.Checkpoint
