import Zakura.HeaderChain.StoreSteps

/-!
The representation invariant of the header store along whole runs from a new
store, with the regtest headers used as sample data.
-/

namespace Zakura.HeaderChain

open FiniteMap MemHeaderStore Finset

namespace MemHeaderStore

theorem anchorNode_isEligible (finalized : Frontier) (header : Header)
    (blockWork cumulativeWork : Nat) :
    (anchorNode finalized header blockWork cumulativeWork).isEligible = true := by
  simp [HeaderNode.isEligible_eq_true, anchorNode, EligibilityState.default,
    BodyValidationState.isConsensusInvalid]

section

variable [HeaderHasher] {store : MemHeaderStore}

theorem applyEdit_invariant (valid : store.RepresentationInvariant) (edit : HeaderGraphEdit)
    (keepsRoot : edit.KeepsRoot store.finalizedFrontier.hash) :
    (store.applyEdit edit).2.RepresentationInvariant :=
  (applyEdit_stepped valid edit keepsRoot).invariant valid

theorem run_invariant (valid : store.RepresentationInvariant) (mutations : List StoreMutation)
    (keepsRoot : store.RunKeepsRoot mutations) : (store.run mutations).RepresentationInvariant := by
  induction mutations generalizing store with
  | nil => exact valid
  | cons mutation rest ih =>
    exact ih ((applyMutation_stepped valid mutation keepsRoot.1).invariant valid) keepsRoot.2

section

omit [HeaderHasher]

variable {finalized : Frontier} {header : Header} {blockWork cumulativeWork : Nat}

theorem rootedAt_only {hash : Hash} {node : HeaderNode}
    (found : (rootedAt finalized header blockWork cumulativeWork).nodes.lookup hash = some node) :
    hash = finalized.hash ∧ node = anchorNode finalized header blockWork cumulativeWork := by
  simp only [rootedAt, lookup_insert_ite] at found
  split at found
  · exact ⟨by assumption, (Option.some.inj found).symm⟩
  · simp at found

theorem rootedAt_invariant (finalized : Frontier) (header : Header)
    (blockWork cumulativeWork : Nat) :
    (rootedAt finalized header blockWork cumulativeWork).RepresentationInvariant := by
  have anchorFound : (rootedAt finalized header blockWork cumulativeWork).nodes.lookup
      finalized.hash = some (anchorNode finalized header blockWork cumulativeWork) :=
    Finmap.lookup_insert _
  have noOther {hash : Hash} {node : HeaderNode} (found : (rootedAt finalized header blockWork
      cumulativeWork).nodes.lookup hash = some node) (notRoot : hash ≠ finalized.hash) : False :=
    notRoot (rootedAt_only found).1
  refine ⟨⟨⟨⟨_, anchorFound, rfl⟩, ?_, ?_, ?_, ?_⟩, ?_, ?_, ?_, ?_⟩, ?_, noEmpty_empty,
    noEmpty_empty.insert _ (singleton_nonempty _)⟩
  · intro hash node found
    obtain ⟨rfl, rfl⟩ := rootedAt_only found
    rfl
  · exact fun found notRoot => (noOther found notRoot).elim
  · intro parent child
    change child ∈ members ∅ parent ↔ _
    simp only [members_empty, notMem_empty, false_iff, not_exists, not_and]
    exact fun node found notRoot => (noOther found notRoot).elim
  · intro queryHeight hash
    change hash ∈ members (Finmap.insert finalized.height {finalized.hash} ∅) queryHeight ↔ _
    rw [members_insert]
    constructor
    · intro member
      split at member
      next atHeight =>
        rw [mem_singleton] at member
        exact ⟨_, member ▸ anchorFound, atHeight.symm⟩
      · simp at member
    · rintro ⟨node, found, rfl⟩
      obtain ⟨rfl, rfl⟩ := rootedAt_only found
      simp [anchorNode]
  · exact fun found notRoot => (noOther found notRoot).elim
  · intro node found
    obtain ⟨_, rfl⟩ := rootedAt_only found
    rfl
  · exact fun found notRoot => (noOther found notRoot).elim
  · intro hash
    rw [HeaderGraphView.isEligibleHeaderTip_iff]
    change hash ∈ ({finalized.hash} : Finset Hash) ↔ _
    rw [mem_singleton]
    constructor
    · rintro rfl
      exact ⟨_, anchorFound, anchorNode_isEligible _ _ _ _, by simp [view, rootedAt]⟩
    · rintro ⟨node, found, _⟩
      exact (rootedAt_only found).1
  · exact fun hash node found notRoot => (noOther found notRoot).elim

end

theorem new_invariant {finalized : Frontier} {header : Header} {blockWork cumulativeWork : Nat}
    (created : new finalized header blockWork cumulativeWork = .ok store) :
    store.RepresentationInvariant := by
  unfold new at created
  split at created
  · simp at created
  · simp only [Except.ok.injEq] at created
    exact created ▸ rootedAt_invariant finalized header blockWork cumulativeWork

/-- Every store reached from a new one by any calls, successful or not, is well formed. -/
theorem run_from_new {finalized : Frontier} {header : Header} {blockWork cumulativeWork : Nat}
    (created : new finalized header blockWork cumulativeWork = .ok store)
    (mutations : List StoreMutation) (keepsRoot : store.RunKeepsRoot mutations) :
    (store.run mutations).RepresentationInvariant :=
  run_invariant (new_invariant created) mutations keepsRoot

end

section

variable {store result : MemHeaderStore} {error : GraphError}

/-- The same store with every coordinate moved to the finalized frontier. -/
def RebasedTo (store result : MemHeaderStore) : Prop :=
  ∃ root, store.nodes.lookup store.finalizedFrontier.hash = some root ∧
    result = { store.rebaseAll root.workCoordinate with graphRevision := store.graphRevision + 1 }

theorem rebase_outcome {outcome : Except GraphError Unit}
    (rebased : store.rebaseWorkCoordinatesToFinalizedFrontier = (outcome, result)) :
    (result = store ∨ store.RebasedTo result) ∨
      outcome = .error .revisionExhausted ∧ revisionBound ≤ store.graphRevision + 1 := by
  unfold rebaseWorkCoordinatesToFinalizedFrontier at rebased
  split at rebased
  · exact .inl (.inl (Prod.mk.inj rebased).2.symm)
  rename_i root rootFound
  split at rebased
  · exact .inl (.inl (Prod.mk.inj rebased).2.symm)
  unfold finish at rebased
  split at rebased
  · exact .inl (.inr ⟨root, rootFound, (Prod.mk.inj rebased).2.symm⟩)
  next exhausted =>
    exact .inr ⟨(Prod.mk.inj rebased).1.symm, Nat.le_of_not_lt exhausted⟩

/-- The work of a header does not fit above its parent's coordinate. -/
def WorkOverflows (store : MemHeaderStore) (header : Header) : Prop :=
  ∃ parent blockWork, store.nodes.lookup header.previousBlockHash = some parent ∧
    header.difficultyThreshold.toWork = some blockWork ∧
    u256Bound ≤ parent.workCoordinate.cumulative + blockWork

variable {header : Header} {validation : HeaderValidationState}

theorem childCoordinate_outcome {parent : HeaderNode} {blockWork : Nat}
    {outcome : Except GraphError WorkCoordinate}
    (found : store.nodes.lookup header.previousBlockHash = some parent)
    (isWork : header.difficultyThreshold.toWork = some blockWork)
    (computed : store.childCoordinate parent header.previousBlockHash validation blockWork =
      (outcome, result)) :
    (result = store ∨ validation = .valid ∧ store.WorkOverflows header ∧ store.RebasedTo result) ∨
      outcome = .error .revisionExhausted ∧ revisionBound ≤ store.graphRevision + 1 := by
  unfold childCoordinate at computed
  split at computed
  · exact .inl (.inl (Prod.mk.inj computed).2.symm)
  rename_i overflow
  have large : u256Bound ≤ parent.workCoordinate.cumulative + blockWork := by
    by_contra small
    simp [WorkCoordinate.checkedAdd, Nat.lt_of_not_le small] at overflow
  split at computed
  next isValid =>
    have overflows : store.WorkOverflows header := ⟨parent, blockWork, found, isWork, large⟩
    generalize rebased : store.rebaseWorkCoordinatesToFinalizedFrontier = moved at computed
    obtain ⟨done, moved⟩ := moved
    have same : result = moved ∧ ∀ error, done = .error error → outcome = .error error := by
      cases done with
      | error error =>
        obtain ⟨rfl, rfl⟩ := computed
        exact ⟨rfl, fun _ same => congrArg Except.error (Except.error.inj same)⟩
      | ok =>
        refine ⟨?_, nofun⟩
        dsimp only at computed
        split at computed
        · exact (Prod.mk.inj computed).2.symm
        · split at computed <;> exact (Prod.mk.inj computed).2.symm
    obtain ⟨rfl, fails⟩ := same
    exact (rebase_outcome rebased).imp (Or.imp_right fun rebased => ⟨isValid.2, overflows, rebased⟩)
      (And.imp_left (fails _))
  · exact .inl (.inl (Prod.mk.inj computed).2.symm)

/-- A failed insertion leaves the store as it was, except that a header whose work overflows may
have moved every coordinate to the finalized frontier first, and that the revision may run out. -/
theorem insert_failure [HeaderHasher] {directReasons : List EligibilityReason}
    {body : BodyValidationState}
    (failed : store.insert header validation directReasons body = (.error error, result)) :
    (result = store ∨ validation = .valid ∧ store.WorkOverflows header ∧ store.RebasedTo result) ∨
      error = .revisionExhausted ∧ revisionBound ≤ store.graphRevision + 2 := by
  unfold insert at failed
  split at failed
  · split at failed <;> exact .inl (.inl (Prod.mk.inj failed).2.symm)
  split at failed
  · exact .inl (.inl (Prod.mk.inj failed).2.symm)
  rename_i blockWork isWork
  split at failed
  · exact .inl (.inl (Prod.mk.inj failed).2.symm)
  rename_i parent found
  split at failed
  · exact .inl (.inl (Prod.mk.inj failed).2.symm)
  generalize computed : store.childCoordinate parent _ validation blockWork = coordinated at failed
  obtain ⟨outcome, _⟩ := coordinated
  have facts := childCoordinate_outcome found isWork computed
  cases outcome with
  | error other =>
    obtain ⟨rfl, rfl⟩ := failed
    exact facts.imp_right fun exhausted => ⟨Except.error.inj exhausted.1, by omega⟩
  | ok coordinate =>
    have reached := facts.resolve_right (by simp)
    dsimp only at failed
    split at failed
    · obtain ⟨_, rfl⟩ := failed
      exact .inl reached
    unfold finish at failed
    split at failed
    · cases failed
    rename_i exhausted
    obtain ⟨rfl, _⟩ := failed
    refine .inr ⟨rfl, ?_⟩
    simp only [attach] at exhausted
    rcases reached with rfl | ⟨_, _, _, _, rfl⟩
    · omega
    · dsimp only at exhausted
      omega

end

end MemHeaderStore

@[reducible] def tableHasher (table : List (Header × Hash)) : HeaderHasher where
  hashHeader := fun header => (table.lookup header).getD ⟨0⟩

def regtestHeader (previousBlockHash : Hash) (nonce : BitVec 256) : Header where
  version := 4
  previousBlockHash := previousBlockHash
  merkleRoot := 0xdb4d7a85b768123f1dff1d4c4cece70083b2d27e117b4ac2e31d087988a5eac4
  commitmentBytes := 0
  time := 1296688602
  difficultyThreshold := ⟨0x200f0f0f⟩
  nonce := nonce
  solution := .regtest
    0x01936b7db1eb4ac39f151b8704642d0a8bda13ec547d54cd5e43ba142fc6d8877cab07b3

def regtestGenesis : Header :=
  regtestHeader ⟨0⟩ 0x0900000000000000000000000000000000000000000000000000000000000000

def regtestGenesisHash : Hash :=
  ⟨0x27e30134d620e9fe61f719938320bab63e7e72c91b5e23025676f90ed8119f02⟩

def regtestFirst : Header :=
  regtestHeader regtestGenesisHash
    0x0100000000000000000000000000000000000000000000000000000000000000

def regtestFirstHash : Hash :=
  ⟨0x7822074a4ffad37bbda27f973900f93fbd4a14d24ad2021716105611ac80c3d2⟩

def regtestSibling : Header :=
  regtestHeader regtestGenesisHash
    0x0200000000000000000000000000000000000000000000000000000000000000

def regtestSiblingHash : Hash :=
  ⟨0xb1c6eb848c4937a7a62464505a350fab2871924bc9c774db1a4e2e6011a8bae7⟩

def regtestSecond : Header :=
  regtestHeader regtestFirstHash
    0x0300000000000000000000000000000000000000000000000000000000000000

def regtestSecondHash : Hash :=
  ⟨0xe46d25fd01e7cbc05efd7eafe01f462aebe573f2d0e7c4a485b92e3885edf312⟩

@[reducible] def regtestHasher : HeaderHasher :=
  tableHasher [(regtestGenesis, regtestGenesisHash), (regtestFirst, regtestFirstHash),
    (regtestSibling, regtestSiblingHash), (regtestSecond, regtestSecondHash)]

def regtestFork : List StoreMutation :=
  [.graph (.insertHeader regtestFirst .valid [] .unknown),
    .graph (.insertHeader regtestSecond .valid [] .unknown),
    .graph (.insertHeader regtestSibling .valid [] .unknown)]

/-- After the fork a rejected body, a finality advance and a leaf removal. -/
def regtestMutations : List StoreMutation :=
  regtestFork ++
    [.graph (.setBodyValidationState regtestSecondHash (.consensusInvalid ⟨1⟩ "rule")),
      .graph (.setBodyValidationState regtestSecondHash .unknown),
      .rebaseWorkCoordinates,
      .graph (.advanceFinalizedFrontier { height := 1, hash := regtestFirstHash }),
      .graph (.removeHeaderLeaf regtestSecondHash)]

def regtestStore : MemHeaderStore :=
  rootedAt { height := 0, hash := regtestGenesisHash } regtestGenesis 17 0

theorem new_regtest (blockWork cumulativeWork : Nat) : letI := regtestHasher
    new { height := 0, hash := regtestGenesisHash } regtestGenesis blockWork cumulativeWork =
      .ok (rootedAt { height := 0, hash := regtestGenesisHash } regtestGenesis blockWork
        cumulativeWork) := by
  let := regtestHasher
  have hashed : regtestGenesis.hash = regtestGenesisHash := by decide +kernel
  exact if_neg (not_not.mpr hashed)

theorem regtest_run_from_new :
    letI := regtestHasher
    new { height := 0, hash := regtestGenesisHash } regtestGenesis 17 0 =
        .ok regtestStore ∧
      regtestStore.RunKeepsRoot regtestMutations ∧
      (regtestStore.run regtestMutations).RepresentationInvariant := by
  let := regtestHasher
  have created := new_regtest 17 0
  have keepsRoot : regtestStore.RunKeepsRoot regtestMutations := by decide +kernel
  exact ⟨created, keepsRoot, run_from_new created regtestMutations keepsRoot⟩

theorem regtestStore_invariant : regtestStore.RepresentationInvariant :=
  rootedAt_invariant _ _ _ _

def verdictOnFirst (store : MemHeaderStore) (height : Nat) : MemHeaderStore :=
  { store with
    consensusInvalidBodyTombstones :=
      (∅ : FiniteMap Hash ConsensusInvalidBodyTombstone).insert regtestFirstHash
        { hash := regtestFirstHash, height := height, evidence := ⟨1⟩, rule := "rule" } }

theorem verdictOnFirst_invariant {store : MemHeaderStore} (valid : store.RepresentationInvariant)
    (height : Nat) : (verdictOnFirst store height).RepresentationInvariant :=
  { valid with }

def regtestFirstStore : MemHeaderStore :=
  letI := regtestHasher
  (regtestStore.applyEdit (.insertHeader regtestFirst .valid [] .unknown)).2

theorem regtestFirstStore_invariant : regtestFirstStore.RepresentationInvariant := by
  let := regtestHasher
  exact applyEdit_invariant regtestStore_invariant _ trivial

/-- Half of all the work that a coordinate can hold, on each of two headers. -/
def heavyFirst : Header := { regtestFirst with difficultyThreshold := ⟨0x01010000⟩ }

def heavySecond : Header := { regtestSecond with difficultyThreshold := ⟨0x01010000⟩ }

@[reducible] def heavyHasher : HeaderHasher :=
  tableHasher [(regtestGenesis, regtestGenesisHash), (heavyFirst, regtestFirstHash),
    (heavySecond, regtestSecondHash)]

def heavyMutations : List StoreMutation :=
  [.graph (.insertHeader heavyFirst .valid [] .unknown),
    .graph (.advanceFinalizedFrontier { height := 1, hash := regtestFirstHash })]

def heavyStore : MemHeaderStore :=
  letI := heavyHasher
  regtestStore.run heavyMutations

def heavyOutcome : StoreOutcome InsertResult :=
  letI := heavyHasher
  heavyStore.insert heavySecond .valid
    ((List.range 17).map fun height => .checkpointConflict height ⟨0⟩) .unknown

/-- One reason too many is found only after the coordinates were moved. -/
theorem heavy_insertion_moves_coordinates :
    letI := heavyHasher
    new { height := 0, hash := regtestGenesisHash } regtestGenesis 17 0 =
        .ok regtestStore ∧
      regtestStore.RunKeepsRoot heavyMutations ∧
      heavyOutcome.1 = .error (.directEligibilityReasonLimit regtestSecondHash 16) ∧
      (heavyStore.nodes.lookup regtestFirstHash).map (·.workCoordinate) =
        some ⟨regtestGenesisHash, 2 ^ 255⟩ ∧
      (heavyOutcome.2.nodes.lookup regtestFirstHash).map (·.workCoordinate) =
        some ⟨regtestFirstHash, 0⟩ :=
  ⟨by decide +kernel, by decide +kernel, by decide +kernel, by decide +kernel, by decide +kernel⟩

theorem heavy_insertion_failure :
    (heavyOutcome.2 = heavyStore ∨ heavyStore.WorkOverflows heavySecond ∧
      heavyStore.RebasedTo heavyOutcome.2) ∨ revisionBound ≤ heavyStore.graphRevision + 2 := by
  let := heavyHasher
  have isError : heavyOutcome.1 = .error (.directEligibilityReasonLimit regtestSecondHash 16) := by
    decide +kernel
  have failed : heavyOutcome =
      (.error (.directEligibilityReasonLimit regtestSecondHash 16), heavyOutcome.2) := by
    rw [← isError]
  exact (insert_failure failed).imp (Or.imp_right And.right) And.right

end Zakura.HeaderChain
