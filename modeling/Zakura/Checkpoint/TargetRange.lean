import Zakura.Checkpoint.VerifierCore

/-!
The chain that a checkpoint list is taken from, and the range of heights that the
verifier picks as its next target.
-/

namespace Zakura.Checkpoint

open FiniteMap Fallible List

variable {Block Hash Error : Type} {height other pending : Nat}

/-- The header hash of a block covers its Merkle root, and through it the coinbase height. -/
structure BlockRules.Binds (rules : BlockRules Block Hash Error) (block : Block) (hash : Hash)
    (height : Nat) : Prop where
  hash : rules.validateEncodingVersionHash block = .ok hash
  height : rules.coinbaseHeight block = some height
  merkleRoot : rules.merkleRootValidity block = .ok ()

def BlockRules.CollisionFree (rules : BlockRules Block Hash Error) : Prop :=
  ∀ first second hash height other, rules.Binds first hash height →
    rules.Binds second hash other →
    height = other ∧ rules.previousBlockHash first = rules.previousBlockHash second

structure HashChain (rules : BlockRules Block Hash Error) where
  tip : Nat
  blockAt : Nat → Block
  hashAt : Nat → Hash
  binds : ∀ height ≤ tip, rules.Binds (blockAt height) (hashAt height) height
  genesis : rules.previousBlockHash (blockAt 0) = rules.genesisPreviousBlockHash
  links : ∀ height < tip, rules.previousBlockHash (blockAt (height + 1)) = hashAt height

namespace HashChain

variable {rules : BlockRules Block Hash Error}

def parentHash (chain : HashChain rules) : Nat → Hash
  | 0 => rules.genesisPreviousBlockHash
  | height + 1 => chain.hashAt height

theorem previousBlockHash_blockAt (chain : HashChain rules) (within : height ≤ chain.tip) :
    rules.previousBlockHash (chain.blockAt height) = chain.parentHash height := by
  cases height with
  | zero => exact chain.genesis
  | succ height => exact chain.links height (by omega)

theorem eq_of_hash (chain : HashChain rules) (free : rules.CollisionFree) {block : Block}
    (within : height ≤ chain.tip) (binds : rules.Binds block (chain.hashAt height) other) :
    other = height ∧ rules.previousBlockHash block = chain.parentHash height := by
  obtain ⟨sameHeight, sameParent⟩ := free _ _ _ _ _ binds (chain.binds height within)
  exact ⟨sameHeight, sameParent.trans (chain.previousBlockHash_blockAt within)⟩

end HashChain

def CheckpointList.TakenFrom {rules : BlockRules Block Hash Error} (list : CheckpointList Hash)
    (chain : HashChain rules) : Prop :=
  ∀ height hash, list.hash height = some hash →
    height ≤ chain.tip ∧ hash = chain.hashAt height

namespace CheckpointList

variable {list : CheckpointList Hash}

theorem maxHeight_spec : list.maxHeight ∈ list.checkpoints.keys ∧
    ∀ height ∈ list.checkpoints.keys, height ≤ list.maxHeight := by
  rw [← lastKey_eq_some, maxHeight, Option.some_get]

theorem hash_of_mem (listed : height ∈ list.checkpoints.keys) :
    ∃ hash, list.hash height = some hash :=
  mem_keys_iff.mp listed

theorem mem_of_hash {hash : Hash} (found : list.hash height = some hash) :
    height ∈ list.checkpoints.keys :=
  mem_keys_iff.mpr ⟨hash, found⟩

theorem prevCheckpointIndex_ok (height : Nat) :
    ∃ index, list.prevCheckpointIndex height = .ok index := by
  obtain ⟨_, found⟩ := Option.isSome_iff_exists.mp list.hasGenesis
  have listed : 0 ∈ list.checkpoints.keysIn .unbounded (.included height) :=
    mem_keysIn.mpr ⟨mem_of_hash found, rfl, by simp [Bound.ends]⟩
  unfold prevCheckpointIndex
  split
  next empty =>
    simp [length_eq_zero_iff.mp empty] at listed
  · exact ⟨_, rfl⟩

end CheckpointList

namespace Progress

def firstHeight : Progress Nat → Nat
  | .beforeGenesis => 0
  | .initialTip height => height + 1
  | .previousCheckpoint height => height + 1
  | .finalCheckpoint => 0

def Below (progress : Progress Nat) (height : Nat) : Prop :=
  progress ≠ .finalCheckpoint ∧ progress.firstHeight ≤ height

end Progress

structure Extends (keys : Finset Nat) (first stop : Nat) : Prop where
  within : first ≤ stop
  present : ∀ height, first ≤ height → height < stop → height ∈ keys
  missing : stop ∉ keys

theorem Extends.le_of_missing {keys : Finset Nat} {first stop : Nat}
    (extends_ : Extends keys first stop) (above : first ≤ height) (missing : height ∉ keys) :
    stop ≤ height := by
  by_contra before
  exact missing (extends_.present height above (by omega))

namespace CheckpointVerifier

theorem continuousEnd_spec {keys : List Nat} (sorted : keys.Pairwise (· < ·))
    (above : ∀ key ∈ keys, pending < key) : pending ≤ continuousEnd keys pending ∧
      (∀ height, pending < height → height ≤ continuousEnd keys pending → height ∈ keys) ∧
      continuousEnd keys pending + 1 ∉ keys := by
  induction keys generalizing pending with
  | nil => exact ⟨le_refl _, fun height low high => absurd low (by simpa [continuousEnd] using high),
      not_mem_nil⟩
  | cons first rest ih =>
    rw [pairwise_cons] at sorted
    unfold continuousEnd
    split
    · obtain ⟨_, present, missing⟩ := ih sorted.2 sorted.1
      refine ⟨by omega, ?_, ?_⟩
      · intro height low high
        rcases Nat.lt_or_ge first height with later | _
        · exact mem_cons_of_mem _ (present height later high)
        · obtain rfl : height = first := by omega
          exact mem_cons_self
      · rw [mem_cons]
        rintro (same | listed)
        · omega
        · exact missing listed
    next gap =>
      refine ⟨le_refl _, fun height low high => absurd low (by omega), ?_⟩
      have bound := above first mem_cons_self
      rw [mem_cons]
      rintro (same | listed)
      · exact gap same.symm
      · have later := sorted.1 _ listed
        omega

variable (verifier : CheckpointVerifier Block Hash Error)

theorem verifiedCheckpointDiagnostics_ok (height : Option Nat) :
    verifier.verifiedCheckpointDiagnostics height = .ok () := by
  cases height with
  | none => rfl
  | some height =>
    obtain ⟨_, found⟩ := verifier.checkpointList.prevCheckpointIndex_ok height
    rw [verifiedCheckpointDiagnostics, bind_of_ok found]
    rfl

variable {verifier} (ongoing : verifier.verifierProgress ≠ .finalCheckpoint)
include ongoing

theorem currentStartBound_of_ongoing : ∃ start, verifier.currentStartBound = some start ∧
      (∀ height, start.starts height = true ↔ verifier.verifierProgress.firstHeight ≤ height) ∧
      ∀ height, verifier.verifierProgress.firstHeight ≤ height + 1 →
        start.inverted (.included height) = false := by
  unfold currentStartBound
  cases shape : verifier.verifierProgress with
  | beforeGenesis => exact ⟨_, rfl, by simp [Bound.starts, Progress.firstHeight], fun _ _ => rfl⟩
  | initialTip tip | previousCheckpoint tip =>
    refine ⟨_, rfl, fun height => ?_, ?_⟩
    · simp only [Bound.starts, Progress.firstHeight, decide_eq_true_eq]
      omega
    intro height reached
    simp only [Progress.firstHeight] at reached
    simp only [Bound.inverted, decide_eq_false_iff_not]
    omega
  | finalCheckpoint => exact absurd shape ongoing

inductive TargetSpec (verifier : CheckpointVerifier Block Hash Error) (stop : Nat) :
    TargetHeight → Prop
  | checkpoint {target : Nat} : target ∈ verifier.checkpointList.checkpoints.keys →
      verifier.verifierProgress.firstHeight ≤ target → target < stop →
      (∀ height ∈ verifier.checkpointList.checkpoints.keys, height < stop → height ≤ target) →
      TargetSpec verifier stop (.checkpoint target)
  | waitingForBlocks :
      (∀ height ∈ verifier.checkpointList.checkpoints.keys,
        verifier.verifierProgress.firstHeight ≤ height → stop ≤ height) →
      TargetSpec verifier stop .waitingForBlocks

theorem targetAfter_spec (startHeight : Nat)
    (low : verifier.verifierProgress.firstHeight ≤ startHeight + 1)
    (first : verifier.verifierProgress.firstHeight ≤ startHeight →
      verifier.verifierProgress.firstHeight = startHeight ∧ startHeight ∈ verifier.queued.keys) :
    ∃ stop target, Extends verifier.queued.keys verifier.verifierProgress.firstHeight stop ∧
      verifier.targetAfter startHeight = .ok target ∧ TargetSpec verifier stop target := by
  have above : ∀ key ∈ verifier.queued.keysIn (.excluded startHeight) .unbounded,
      startHeight < key := by
    intro key listed
    simpa [Bound.starts] using (mem_keysIn.mp listed).2.1
  obtain ⟨_, present, missing⟩ := continuousEnd_spec (pairwise_keysIn _ _ _) above
  obtain ⟨start, isStart, starts, proper⟩ := currentStartBound_of_ongoing ongoing
  dsimp only [targetAfter]
  generalize isPending : continuousEnd
    (verifier.queued.keysIn (.excluded startHeight) .unbounded) startHeight = pending at *
  have inRange (height : Nat) :
      height ∈ verifier.checkpointList.checkpoints.keysIn start (.included pending) ↔
        height ∈ verifier.checkpointList.checkpoints.keys ∧
          verifier.verifierProgress.firstHeight ≤ height ∧ height ≤ pending := by
    rw [mem_keysIn, starts]
    simp [Bound.ends]
  have extends_ : Extends verifier.queued.keys verifier.verifierProgress.firstHeight
      (pending + 1) := by
    refine ⟨by omega, fun height low high => ?_, fun listed => ?_⟩
    · rcases Nat.lt_or_ge startHeight height with later | early
      · exact (mem_keysIn.mp (present height later (by omega))).1
      · obtain ⟨_, queued⟩ := first (by omega)
        obtain rfl : height = startHeight := by omega
        exact queued
    · exact missing (mem_keysIn.mpr ⟨listed, by simp [Bound.starts]; omega, rfl⟩)
  have range : verifier.checkpointList.maxHeightInRange start (.included pending) =
      .ok (verifier.checkpointList.checkpoints.keysIn start (.included pending)).getLast? := by
    rw [CheckpointList.maxHeightInRange, proper pending (by omega)]
    rfl
  rw [bind_of_ok (expect_of_some _ isStart), bind_of_ok range]
  cases last : (verifier.checkpointList.checkpoints.keysIn start (.included pending)).getLast? with
  | none =>
    rw [getLast?_eq_none_iff] at last
    refine ⟨pending + 1, _, extends_, rfl, .waitingForBlocks fun height listed reached => ?_⟩
    by_contra before
    have member := (inRange height).mpr ⟨listed, reached, by omega⟩
    simp [last] at member
  | some target =>
    obtain ⟨listed, greatest⟩ := getLast?_keysIn last
    obtain ⟨isCheckpoint, reached, _⟩ := (inRange target).mp listed
    refine ⟨pending + 1, _, extends_, rfl, .checkpoint isCheckpoint reached (by omega) ?_⟩
    intro height member before
    rcases Nat.lt_or_ge height verifier.verifierProgress.firstHeight with early | late
    · omega
    · exact greatest height ((inRange height).mpr ⟨member, late, by omega⟩)

theorem targetCheckpointHeight_spec :
    ∃ stop target, Extends verifier.queued.keys verifier.verifierProgress.firstHeight stop ∧
      verifier.targetCheckpointHeight = .ok target ∧ TargetSpec verifier stop target := by
  unfold targetCheckpointHeight
  cases shape : verifier.verifierProgress with
  | beforeGenesis =>
    dsimp only
    split
    next queued =>
      rw [← shape]
      exact targetAfter_spec ongoing 0 (by simp [shape, Progress.firstHeight])
        fun _ => ⟨by simp [shape, Progress.firstHeight], queued⟩
    next missing =>
      exact ⟨0, _, ⟨le_refl _, fun _ _ low => absurd low (by omega), missing⟩, rfl,
        .waitingForBlocks fun _ _ _ => Nat.zero_le _⟩
  | initialTip tip | previousCheckpoint tip =>
    dsimp only
    rw [← shape]
    refine targetAfter_spec ongoing tip (by simp [shape, Progress.firstHeight]) fun reached => ?_
    simp only [shape, Progress.firstHeight] at reached
    omega
  | finalCheckpoint => exact absurd shape ongoing

end CheckpointVerifier

end Zakura.Checkpoint
