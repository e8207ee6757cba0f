import Zakura.Checkpoint.VerifierQueue

/-!
What holds of a verifier after any submitted blocks and any resets to a verified tip.
-/

namespace Zakura.Checkpoint

open FiniteMap Fallible CheckpointVerifier Except List Option

variable {Block Hash Error : Type} [DecidableEq Hash]

structure Session (Block Hash Error : Type) where
  verifier : CheckpointVerifier Block Hash Error
  accepted : List (RequestBlock Block Hash)

namespace Session

inductive Operation (Block Hash : Type)
  | requestReset (reset : CheckpointReset Hash)
  | submit (block : Block)

def Operation.apply (rules : BlockRules Block Hash Error) (session : Session Block Hash Error) :
    Operation Block Hash → Except Fault (Session Block Hash Error)
  | .requestReset reset =>
    .ok { session with verifier := { session.verifier with
      resetReceiver := session.verifier.resetReceiver ++ [reset] } }
  | .submit block => do
      let (response, next) ← session.verifier.call rules block
      return ⟨next, session.accepted ++ response.toOption.toList⟩

variable {rules : BlockRules Block Hash Error}

def Operation.Admissible (chain : HashChain rules) (session : Session Block Hash Error) :
    Operation Block Hash → Prop
  | .requestReset _ => True
  | .submit _ => session.verifier.ResetsBack chain

inductive Reachable (chain : HashChain rules) : Session Block Hash Error → Prop
  | start {list : CheckpointList Hash} {tip : Option (Nat × Hash)}
      {verifier : CheckpointVerifier Block Hash Error} : list.TakenFrom chain → chain.HasTip tip →
      CheckpointVerifier.fromCheckpointList list tip = .ok verifier →
      Reachable chain ⟨verifier, []⟩
  | step {session next : Session Block Hash Error} (operation : Operation Block Hash) :
      Reachable chain session → operation.Admissible chain session →
      operation.apply rules session = .ok next → Reachable chain next

variable {chain : HashChain rules} {session final : Session Block Hash Error}

omit [DecidableEq Hash] in
theorem sound_start {list : CheckpointList Hash} {tip : Option (Nat × Hash)}
    {verifier : CheckpointVerifier Block Hash Error} (taken : list.TakenFrom chain)
    (isTip : chain.HasTip tip)
    (started : CheckpointVerifier.fromCheckpointList list tip = .ok verifier) :
    verifier.Sound chain [] := by
  obtain ⟨_, _, built⟩ := bind_eq_ok.mp started
  obtain rfl := ok.inj built
  refine ⟨taken, progressSound_of_tip isTip rfl rfl,
    fun height blocks found => by simp at found, ?_, ?_, rfl, nodup_nil, by simp, ?_⟩
  · intro height listed
    simp at listed
  · intro height listed
    simp at listed
  · intro answer listed
    exact absurd listed not_mem_nil

omit [DecidableEq Hash] in
theorem rangeEffect_after {before middle after : CheckpointVerifier Block Hash Error}
    (sameList : middle.checkpointList = before.checkpointList)
    (sameProgress : middle.verifierProgress = before.verifierProgress)
    (sameGeneration : middle.resetGeneration = before.resetGeneration)
    (sameAnswers : middle.okAnswers = before.okAnswers)
    (effect : CheckpointVerifier.RangeEffect chain middle after) :
    CheckpointVerifier.RangeEffect chain before after := by
  cases effect with
  | idle progress answers =>
    exact .idle (progress.trans sameProgress) (answers.trans sameAnswers)
  | verified ongoing listed reached progress answers onChain =>
    unfold CheckpointVerifier.answer at answers
    rw [sameAnswers, sameGeneration] at answers
    rw [sameList] at listed progress
    rw [sameProgress] at ongoing reached onChain
    exact .verified ongoing listed reached progress answers onChain

inductive CallEnds (rules : BlockRules Block Hash Error) (chain : HashChain rules)
    (session : Session Block Hash Error) :
    Except Fault (Except (VerifyCheckpointError Hash Error) (RequestBlock Block Hash) ×
      CheckpointVerifier Block Hash Error) → Prop
  | answered {current next : CheckpointVerifier Block Hash Error}
      {response : Except (VerifyCheckpointError Hash Error) (RequestBlock Block Hash)} :
      session.verifier.applyPendingReset = .ok current →
      CheckpointVerifier.RangeEffect chain current next →
      next.Sound chain (session.accepted ++ response.toOption.toList) →
      CallEnds rules chain session (.ok (response, next))
  | exhausted : Checked.u64Max ≤ session.verifier.resetGeneration →
      CallEnds rules chain session (.error .resetGenerationExhausted)

theorem call_ends (free : rules.CollisionFree)
    (sound : session.verifier.Sound chain session.accepted)
    (back : session.verifier.ResetsBack chain) (block : Block) :
    CallEnds rules chain session (session.verifier.call rules block) := by
  unfold CheckpointVerifier.call
  rcases applyPendingReset_spec sound back with
    ⟨failed, exhausted⟩ | ⟨current, isCurrent, currentSound⟩
  · rw [failed]
    exact .exhausted exhausted
  rw [bind_of_ok isCurrent]
  split
  · have unchanged : current.Sound chain (session.accepted ++ []) := by
      rwa [append_nil]
    split
    · exact .answered isCurrent (.idle rfl rfl) unchanged
    · exact .answered isCurrent (.idle rfl rfl) unchanged
  obtain ⟨_, _, isQueued, effect, sameList, sameProgress, sameGeneration,
    sameAnswers⟩ := queueBlock_spec currentSound block
  rw [bind_of_ok isQueued]
  cases effect with
  | refused nextSound =>
    refine .answered isCurrent (.idle sameProgress sameAnswers) ?_
    rwa [Except.toOption, toList_none, append_nil]
  | queued nextSound =>
    obtain ⟨_, isFinal, finalSound, range⟩ :=
      processCheckpointRange_spec free nextSound
    dsimp only
    rw [bind_of_ok isFinal]
    exact .answered isCurrent
      (rangeEffect_after sameList sameProgress sameGeneration sameAnswers range) finalSound

theorem Reachable.sound (free : rules.CollisionFree) (reachable : Reachable chain session) :
    session.verifier.Sound chain session.accepted := by
  induction reachable with
  | start taken isTip started => exact sound_start taken isTip started
  | @step session next operation _ admissible applied sound =>
    cases operation with
    | requestReset reset =>
      obtain rfl := ok.inj applied
      exact { sound with }
    | submit block =>
      obtain ⟨⟨_, _⟩, called, built⟩ := bind_eq_ok.mp applied
      obtain rfl := ok.inj built
      have ends := call_ends free sound admissible block
      rw [called] at ends
      cases ends with
      | answered _ _ nextSound => exact nextSound

/-- Blocks answered `Ok` are on the checkpointed chain, queued heights are above progress,
every accepted request is answered once or still queued, the next block is processed without
an abort, and dropping the verifier answers the rest. -/
theorem Reachable.accepts_checkpointed_chain (free : rules.CollisionFree)
    (reachable : Reachable chain session) :
    (∀ answer ∈ session.verifier.answers, answer.sent.result.isOk = true →
      Verified chain session.verifier.checkpointList session.accepted answer) ∧
    (∀ queued ∈ contents session.verifier.queued,
      session.verifier.verifierProgress.Below queued.block.height) ∧
    (session.accepted.map RequestBlock.rx).Nodup ∧
    (session.accepted.map RequestBlock.rx : Multiset Nat) =
      (session.verifier.answers.map Answer.channel : Multiset Nat) +
        (contents session.verifier.queued).map QueuedBlock.tx ∧
    (∀ block, session.verifier.ResetsBack chain →
      CallEnds rules chain session (session.verifier.call rules block)) ∧
    ∃ dropped, session.verifier.drop = .ok dropped ∧
      dropped.okAnswers = session.verifier.okAnswers ∧
      (dropped.answers.map Answer.channel).Perm (session.accepted.map RequestBlock.rx) := by
  have sound := reachable.sound free
  refine ⟨?_, ?_, sound.unique, sound.accounts,
    fun block back => call_ends free sound back block, drop_spec sound⟩
  · intro answer listed isOk
    exact sound.verified answer (mem_filter.mpr ⟨listed, isOk⟩)
  intro queued listed
  obtain ⟨height, blocks, found, member⟩ := mem_contents.mp listed
  rw [(sound.queue height blocks found).height queued member]
  exact sound.below height (mem_keys_iff.mpr ⟨blocks, found⟩)

def submitAll (rules : BlockRules Block Hash Error) :
    List Block → Session Block Hash Error → Option (Session Block Hash Error)
  | [], session => some session
  | block :: rest, session =>
    if session.verifier.resetReceiver.isEmpty then
      match (Operation.submit block).apply rules session with
      | .ok next => submitAll rules rest next
      | .error _ => none
    else none

theorem Reachable.submitAll {blocks : List Block} (reachable : Reachable chain session)
    (submitted : Session.submitAll rules blocks session = some final) : Reachable chain final := by
  induction blocks generalizing session with
  | nil => exact some.inj submitted ▸ reachable
  | cons block rest ih =>
    unfold Session.submitAll at submitted
    split at submitted
    next quiet =>
      split at submitted
      next next applied =>
        have admissible : (Operation.submit block).Admissible chain session := by
          intro reset listed
          rw [isEmpty_iff.mp quiet] at listed
          exact absurd listed not_mem_nil
        exact ih (reachable.step (.submit block) admissible applied) submitted
      · simp at submitted
    · simp at submitted

end Session

namespace Sample

/-- A header with a salt and its parent's hash; the hash is the list of salts down to genesis. -/
structure Header where
  salt : Nat
  parent : List Nat

def rules : BlockRules Header (List Nat) Unit where
  validateEncodingVersionHash header := .ok (header.salt :: header.parent)
  coinbaseHeight header := some header.parent.length
  previousBlockHash header := header.parent
  isAuthenticatedCustomWaiver := .ok false
  difficultyThresholdIsValid _ _ _ := .ok ()
  difficultyIsValid _ _ _ := .ok ()
  equihashSolutionIsValid _ := .ok ()
  isZip234Active _ := false
  deferredPoolBalanceChange _ := .ok none
  merkleRootValidity _ := .ok ()
  genesisPreviousBlockHash := []

theorem rules_collisionFree : rules.CollisionFree := by
  intro first second hash height other firstBinds secondBinds
  have sameHash : first.salt :: first.parent = second.salt :: second.parent :=
    (ok.inj firstBinds.hash).trans (ok.inj secondBinds.hash).symm
  have sameParent : first.parent = second.parent := (cons.inj sameHash).2
  refine ⟨?_, sameParent⟩
  rw [← some.inj firstBinds.height, ← some.inj secondBinds.height, sameParent]

def chain : HashChain rules where
  tip := 4
  blockAt height := ⟨0, List.replicate height 0⟩
  hashAt height := List.replicate (height + 1) 0
  binds height _ := ⟨rfl, by simp [rules], rfl⟩
  genesis := rfl
  links _ _ := rfl

def list : CheckpointList (List Nat) :=
  value (CheckpointList.fromList [] [(0, [0]), (2, [0, 0, 0])]) (by decide +kernel)

theorem list_takenFrom : list.TakenFrom chain := by
  intro height hash found
  have listed : height ∈ list.checkpoints.keys := CheckpointList.mem_of_hash found
  have keys : list.checkpoints.keys = {0, 2} := by decide +kernel
  rw [keys, Finset.mem_insert, Finset.mem_singleton] at listed
  rcases listed with rfl | rfl
  · exact ⟨by decide, (some.inj found).symm⟩
  · exact ⟨by decide, (some.inj found).symm⟩

def blocks : List Header := [⟨0, []⟩, ⟨0, [0, 0]⟩, ⟨7, [0]⟩, ⟨0, [0]⟩]

def opened : Session Header (List Nat) Unit :=
  ⟨value (CheckpointVerifier.fromCheckpointList list none) (by decide +kernel), []⟩

theorem opened_reachable : Session.Reachable chain opened := by
  have noTip : chain.HasTip none := trivial
  exact .start list_takenFrom noTip (eq_value _)

theorem accepts_checkpointed_chain_of_four :
    ∃ session, Session.Reachable chain session ∧ session.accepted.length = 4 ∧
      (session.verifier.okAnswers.map fun answer => answer.channel) = [0, 3, 1] ∧
      session.verifier.verifierProgress = .finalCheckpoint ∧
      (session.accepted.map RequestBlock.rx).Nodup ∧
      ∀ answer ∈ session.verifier.answers, answer.sent.result.isOk = true →
        Verified chain session.verifier.checkpointList session.accepted answer := by
  have submitted : (Session.submitAll rules blocks opened).isSome = true := by decide +kernel
  obtain ⟨session, isSession⟩ := isSome_iff_exists.mp submitted
  have reachable := opened_reachable.submitAll isSession
  have facts : (Session.submitAll rules blocks opened).map (fun session =>
      (session.accepted.length, session.verifier.okAnswers.map (fun answer => answer.channel),
        session.verifier.verifierProgress)) = some (4, [0, 3, 1], .finalCheckpoint) := by
    decide +kernel
  rw [isSession, map_some, some.injEq, Prod.mk.injEq, Prod.mk.injEq] at facts
  have holds := reachable.accepts_checkpointed_chain rules_collisionFree
  exact ⟨session, reachable, facts.1, facts.2.1, facts.2.2, holds.2.2.1, holds.1⟩

end Sample

end Zakura.Checkpoint
