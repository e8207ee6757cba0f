import Zakura.HeaderChain.Selection
import Zakura.HeaderChain.StoreRun

/-!
Fork choice over one set of headers does not depend on the order in which the
headers arrived, nor on the order in which the tips are scanned.
-/

namespace Zakura.HeaderChain

open FiniteMap MemHeaderStore List Option

structure HeaderEntry where
  header : Header
  validation : HeaderValidationState
  directReasons : List EligibilityReason
  body : BodyValidationState

namespace MemHeaderStore

def insertAll [HeaderHasher] (store : MemHeaderStore) : List HeaderEntry → Option MemHeaderStore
  | [] => some store
  | entry :: rest =>
    match store.insert entry.header entry.validation entry.directReasons entry.body with
    | (.ok _, next) => next.insertAll rest
    | (.error _, _) => none

def relativeNode (store : MemHeaderStore) (hash : Hash) : Option HeaderNode :=
  match store.nodes.lookup store.finalizedFrontier.hash with
  | none => none
  | some anchor => (store.nodes.lookup hash).map
      (rebaseNode store.finalizedFrontier.hash anchor.workCoordinate)

variable [HeaderHasher] {store : MemHeaderStore}

structure EntryRow (entry : HeaderEntry) (node : HeaderNode) : Prop where
  header : node.header = entry.header
  hash : node.hash = entry.header.hash
  parentHash : node.parentHash = entry.header.previousBlockHash
  work : entry.header.difficultyThreshold.toWork = some node.blockWork
  validation : node.validation = entry.validation
  reasons : node.eligibility.directReasons = entry.directReasons.toFinset
  body : node.bodyValidationState = entry.body
  deliveries : node.auxDeliveryIds = []

structure Grown (finalized : Frontier) (root : HeaderNode) (store : MemHeaderStore)
    (entries : List HeaderEntry) : Prop where
  valid : store.RepresentationInvariant
  frontier : store.finalizedFrontier = finalized
  preferred : store.preferredHeaderTip = none
  undecided : store.consensusInvalidBodyTombstones = ∅
  rootRow : ∃ coordinate, store.nodes.lookup finalized.hash =
    some { root with workCoordinate := coordinate }
  rows : ∀ {hash node}, store.nodes.lookup hash = some node → hash ≠ finalized.hash →
    ∃ entry ∈ entries, EntryRow entry node
  present : ∀ entry ∈ entries, ∃ node, store.nodes.lookup entry.header.hash = some node ∧
    node.header = entry.header

variable {finalized : Frontier} {root node parent anchor : HeaderNode}
  {entries rest : List HeaderEntry} {result final : MemHeaderStore} {entry : HeaderEntry}

section

variable (grown : Grown finalized root store entries)
include grown

theorem Grown.coordinated (moved : store.Coordinated result) :
    Grown finalized root result entries where
  valid := moved.valid
  frontier := moved.frame.finalized.trans grown.frontier
  preferred := moved.frame.preferred.trans grown.preferred
  undecided := moved.frame.tombstones.trans grown.undecided
  rootRow := by
    obtain ⟨_, rootFound⟩ := grown.rootRow
    obtain ⟨node, found, same⟩ := moved.rows.find rootFound
    exact ⟨node.workCoordinate, found.trans (congrArg some same)⟩
  rows := by
    intro hash node found notRoot
    obtain ⟨old, oldFound, same⟩ := moved.rows.row found
    obtain ⟨entry, member, row⟩ := grown.rows oldFound notRoot
    refine ⟨entry, member, ?_⟩
    rw [same]
    exact { row with }
  present := by
    intro entry member
    obtain ⟨old, oldFound, header⟩ := grown.present entry member
    obtain ⟨node, found, same⟩ := moved.rows.find oldFound
    refine ⟨node, found, ?_⟩
    rw [same]
    exact header

theorem Grown.attached
    (inserted : store.Inserted result entry.header entry.validation entry.directReasons entry.body
      node parent) : Grown finalized root result (entries ++ [entry]) := by
  have valid := inserted.invariant grown.valid
  have absent : store.nodes.lookup node.hash = none := inserted.attachment.fresh
  obtain ⟨_, rfl⟩ := inserted.attached
  have lookup (hash : Hash) : (store.attach node).nodes.lookup hash =
      if hash = node.hash then some node else store.nodes.lookup hash :=
    lookup_insert_ite _ _ _ _
  have kept {hash : Hash} {old : HeaderNode} (found : store.nodes.lookup hash = some old) :
      (store.attach node).nodes.lookup hash = some old := by
    rw [lookup, if_neg, found]
    rintro rfl
    simp [absent] at found
  refine ⟨valid, grown.frontier, grown.preferred, grown.undecided, ?_, ?_, ?_⟩
  · obtain ⟨coordinate, rootFound⟩ := grown.rootRow
    exact ⟨coordinate, kept rootFound⟩
  · intro hash row found notRoot
    have cases := (lookup hash).symm.trans found
    split at cases
    · obtain rfl := some.inj cases
      refine ⟨entry, by simp, { inserted with
        header := inserted.ofHeader, validation := inserted.state, body := ?_ }⟩
      rw [inserted.verdict, grown.undecided, Finmap.lookup_empty]
      rfl
    · obtain ⟨source, member, entryRow⟩ := grown.rows cases notRoot
      exact ⟨source, by simp [member], entryRow⟩
  · intro source member
    rcases mem_append.mp member with early | last
    · obtain ⟨old, oldFound, header⟩ := grown.present source early
      exact ⟨old, kept oldFound, header⟩
    rw [mem_singleton] at last
    subst last
    refine ⟨node, ?_, inserted.ofHeader⟩
    rw [lookup, if_pos inserted.hash.symm]

theorem Grown.insertAll (run : store.insertAll rest = some final) :
    Grown finalized root final (entries ++ rest) := by
  induction rest generalizing store entries with
  | nil =>
    obtain rfl := some.inj run
    rw [append_nil]
    exact grown
  | cons entry rest ih =>
    have cases := insert_cases grown.valid entry.header entry.validation entry.directReasons
      entry.body
    rw [insertAll] at run
    rw [← singleton_append, ← append_assoc]
    generalize store.insert entry.header entry.validation entry.directReasons entry.body =
      outcome at run cases
    cases cases with
    | failed moved => simp at run
    | @present existing frontier found same =>
      refine ih ?_ run
      refine { grown with rows := ?_, present := ?_ }
      · intro hash node rowFound notRoot
        obtain ⟨source, member, row⟩ := grown.rows rowFound notRoot
        exact ⟨source, by simp [member], row⟩
      intro source member
      rcases mem_append.mp member with early | last
      · exact grown.present source early
      · rw [mem_singleton] at last
        exact last ▸ ⟨existing, found, same⟩
    | attached moved inserted =>
      obtain ⟨result, _⟩ := outcome
      cases result with
      | error error => simp at run
      | ok value => exact ih ((grown.coordinated moved).attached inserted) run

end

theorem new_grown {header : Header} {blockWork cumulativeWork : Nat}
    (created : new finalized header blockWork cumulativeWork = .ok store) :
    Grown finalized (anchorNode finalized header blockWork cumulativeWork) store [] := by
  have valid := new_invariant created
  unfold new at created
  split at created
  · simp at created
  simp only [Except.ok.injEq] at created
  subst created
  refine ⟨valid, rfl, rfl, rfl, ⟨⟨finalized.hash, cumulativeWork⟩, ?_⟩, ?_, by simp⟩
  · exact Finmap.lookup_insert _
  · intro hash node found notRoot
    simp only [rootedAt, lookup_insert_ite, if_neg notRoot, Finmap.lookup_empty] at found
    simp at found

section

variable {first second : MemHeaderStore} {others : List HeaderEntry}

omit [HeaderHasher] in
theorem relativeNode_eq (rootFound : store.nodes.lookup store.finalizedFrontier.hash = some anchor)
    (hash : Hash) :
    store.relativeNode hash = (store.rebaseAll anchor.workCoordinate).nodes.lookup hash := by
  simp only [relativeNode, rootFound]
  exact ((rebaseAll_rebased store _).find hash).symm

theorem EntryRow.directRow_eq {other : HeaderNode} (row : EntryRow entry node)
    (otherRow : EntryRow entry other) (height : node.height = other.height)
    (work : node.workCoordinate = other.workCoordinate) : node.directRow = other.directRow := by
  have blockWork := mem_unique row.work otherRow.work
  have header := row.header.trans otherRow.header.symm
  have hash := row.hash.trans otherRow.hash.symm
  have parentHash := row.parentHash.trans otherRow.parentHash.symm
  have validation := row.validation.trans otherRow.validation.symm
  have reasons := row.reasons.trans otherRow.reasons.symm
  have body := row.body.trans otherRow.body.symm
  have deliveries := row.deliveries.trans otherRow.deliveries.symm
  simp only [HeaderNode.directRow, HeaderNode.withInheritedFrom, HeaderNode.mk.injEq,
    EligibilityState.mk.injEq]
  exact ⟨header, hash, parentHash, height, blockWork, work, validation, ⟨reasons, trivial⟩, body,
    deliveries⟩

section

variable (grown : Grown finalized root first entries) (other : Grown finalized root second others)
  (perm : entries.Perm others) (distinct : (entries.map HeaderEntry.header).Nodup)
include grown other perm distinct

section

variable (sameRoot : first.nodes.lookup finalized.hash = second.nodes.lookup finalized.hash)
include sameRoot

theorem Grown.row_agrees (height : Nat) {hash : Hash} (found : first.nodes.lookup hash = some node)
    (heightEq : node.height = height) :
    ∃ twin, second.nodes.lookup hash = some twin ∧ node.directRow = twin.directRow := by
  induction height using Nat.strongRecOn generalizing hash node with
  | ind height ih =>
    by_cases atRoot : hash = finalized.hash
    · subst atRoot
      exact ⟨node, sameRoot.symm.trans found, rfl⟩
    have notRoot : hash ≠ first.finalizedFrontier.hash := grown.frontier ▸ atRoot
    obtain ⟨entry, member, row⟩ := grown.rows found atRoot
    have key : node.hash = hash := grown.valid.coherent.keyed found
    obtain ⟨twin, twinFound, twinHeader⟩ := other.present entry (perm.mem_iff.mp member)
    rw [← row.hash, key] at twinFound
    obtain ⟨source, sourceMember, twinRow⟩ := other.rows twinFound atRoot
    -- one header has one entry
    have sameEntry : source = entry := by
      apply inj_on_of_nodup_map distinct (perm.mem_iff.mpr sourceMember) member
      exact twinRow.header.symm.trans twinHeader
    rw [sameEntry] at twinRow
    obtain ⟨parent, parentFound, successor⟩ := grown.valid.coherent.parent found notRoot
    obtain ⟨twinParent, twinParentFound, parents⟩ :=
      ih parent.height (by omega) parentFound rfl
    have sameParent := SameImmutable.of_directRow parents
    have twinNotRoot : hash ≠ second.finalizedFrontier.hash := other.frontier ▸ atRoot
    rw [row.parentHash, ← twinRow.parentHash] at twinParentFound
    have twinSuccessor : twin.height = twinParent.height + 1 := by
      obtain ⟨_, aboveFound, step⟩ := other.valid.coherent.parent twinFound twinNotRoot
      obtain rfl := mem_unique aboveFound twinParentFound
      exact step
    have sum := grown.valid.coherent.work found notRoot parentFound
    have twinSum := other.valid.coherent.work twinFound twinNotRoot twinParentFound
    rw [sameParent.workCoordinate, mem_unique row.work twinRow.work, twinSum] at sum
    refine ⟨twin, twinFound, row.directRow_eq twinRow ?_ ?_⟩
    · rw [successor, twinSuccessor, sameParent.height]
    · exact (Except.ok.inj sum).symm

theorem Grown.sameDirect : SameDirect first.nodes.lookup second.nodes.lookup := by
  refine SameDirect.of_find
    (fun found => grown.row_agrees other perm distinct sameRoot _ found rfl) fun found => ?_
  obtain ⟨node, nodeFound, _⟩ := other.row_agrees grown perm.symm
    ((perm.map _).nodup_iff.mp distinct) sameRoot.symm _ found rfl
  exact ⟨node, nodeFound⟩

end

end

theorem Grown.relative (grown : Grown finalized root store entries) :
    ∃ anchor, store.nodes.lookup store.finalizedFrontier.hash = some anchor ∧
      anchor.isEligible = root.isEligible ∧
      Grown finalized root (store.rebaseAll anchor.workCoordinate) entries ∧
      (store.rebaseAll anchor.workCoordinate).nodes.lookup finalized.hash =
        some { root with workCoordinate := { originHash := finalized.hash, cumulative := 0 } } := by
  obtain ⟨coordinate, rootFound⟩ := grown.rootRow
  obtain ⟨anchor, isAnchor⟩ : ∃ anchor : HeaderNode,
    anchor = { root with workCoordinate := coordinate } := ⟨_, rfl⟩
  rw [← isAnchor] at rootFound
  have anchorFound : store.nodes.lookup store.finalizedFrontier.hash = some anchor := by
    rw [grown.frontier, rootFound]
  have moved : store.Coordinated (store.rebaseAll anchor.workCoordinate) :=
    ⟨rebaseAll_invariant grown.valid anchorFound, rebaseAll_frame _ _, rfl,
      .inr ⟨_, (rebaseAll_rebased store _).find⟩⟩
  refine ⟨anchor, anchorFound, by rw [isAnchor]; rfl, grown.coordinated moved, ?_⟩
  have rebased := (rebaseAll_rebased store anchor.workCoordinate).find finalized.hash
  refine rebased.trans ?_
  have node := grown.valid.coherent.rebaseNode_eq anchorFound anchorFound
  change (store.nodes.lookup finalized.hash).map _ = _
  rw [rootFound, map_some, node, isAnchor]
  simp [view, grown.frontier]

/-- Any two orders in which all insertions succeed agree on rows, tips and the selected chain;
no eligible header has more suffix work than the selected tip, whatever order the tips are
scanned in. -/
theorem insertAll_order_independent {header : Header} {blockWork cumulativeWork : Nat}
    (created : new finalized header blockWork cumulativeWork = .ok store)
    (perm : entries.Perm others) (distinct : (entries.map HeaderEntry.header).Nodup)
    (firstRun : store.insertAll entries = some first)
    (secondRun : store.insertAll others = some second) :
    (∀ hash, first.relativeNode hash = second.relativeNode hash) ∧
      first.eligibleHeaderTips = second.eligibleHeaderTips ∧
      ∃ best, first.selectBestHeaderChain = .ok best ∧ second.selectBestHeaderChain = .ok best ∧
        (∀ scan : List Hash, (∀ hash, hash ∈ scan ↔ hash ∈ first.eligibleHeaderTips) →
          selectBestIn first.nodes.lookup first.finalizedFrontier first.preferredHeaderTip scan =
            .ok best) ∧
        ∀ hash node, first.nodes.lookup hash = some node → node.isEligible = true →
          ∃ score, first.headerChainScore hash = .ok score ∧
            score.suffixWork ≤ best.2.suffixWork := by
  have grown := (new_grown created).insertAll firstRun
  have other := (new_grown created).insertAll secondRun
  obtain ⟨anchor, anchorFound, eligible, relative, rootRow⟩ := grown.relative
  obtain ⟨_, otherFound, _, otherRelative, otherRoot⟩ := other.relative
  have direct := relative.sameDirect otherRelative perm distinct (rootRow.trans otherRoot.symm)
  have finalized := relative.frontier.trans otherRelative.frontier.symm
  have preferred := relative.preferred.trans otherRelative.preferred.symm
  have views := relative.valid.coherent.view_eq otherRelative.valid.coherent finalized preferred
    direct
  have tips : first.eligibleHeaderTips = second.eligibleHeaderTips :=
    congrArg HeaderGraphView.tips views
  have anchorEligible : anchor.isEligible = true :=
    eligible.trans (anchorNode_isEligible _ _ _ _)
  have coherent := grown.valid.coherent
  have listed (hash : Hash) : hash ∈ ascending first.eligibleHeaderTips ↔
      hash ∈ first.eligibleHeaderTips := mem_ascending
  obtain ⟨best, run, isBest⟩ := coherent.selectBestIn_best grown.valid.bounded anchorFound
    anchorEligible listed
  have firstRebase := coherent.selectBestIn_rebase anchorFound (rebaseAll_rebased first _)
    first.preferredHeaderTip fun hash => (listed hash).mp
  have secondRebase := other.valid.coherent.selectBestIn_rebase otherFound
    (rebaseAll_rebased second _) second.preferredHeaderTip
    (fun hash (listed : hash ∈ ascending second.eligibleHeaderTips) => mem_ascending.mp listed)
  refine ⟨?_, tips, best, run, ?_, ?_, ?_⟩
  · intro hash
    rw [relativeNode_eq anchorFound, relativeNode_eq otherFound]
    exact congrFun (congrArg HeaderGraphView.find views) hash
  · refine secondRebase.symm.trans (Eq.trans ?_ (firstRebase.trans run))
    rw [views, grown.preferred, other.preferred, tips]
  · intro scan scans
    obtain ⟨other, scanRun, otherBest⟩ := coherent.selectBestIn_best grown.valid.bounded
      anchorFound anchorEligible scans
    have same : other = best := otherBest.unique coherent.keyed
      (fun hash => (scans hash).trans (listed hash).symm) isBest
    exact same ▸ scanRun
  · intro hash node found nodeEligible
    exact coherent.best_of_eligible grown.valid.bounded anchorFound listed isBest found nodeEligible

omit [HeaderHasher] in
theorem selects_most_work (valid : store.RepresentationInvariant)
    (eligible : (store.nodes.lookup store.finalizedFrontier.hash).any (·.isEligible)) :
    ∃ best, store.selectBestHeaderChain = .ok best ∧
      ∀ hash node, store.nodes.lookup hash = some node → node.isEligible = true →
        ∃ score, store.headerChainScore hash = .ok score ∧
          score.suffixWork ≤ best.2.suffixWork := by
  obtain ⟨_, rootFound, eligible⟩ := (Option.any_eq_true _ _).mp eligible
  obtain ⟨best, run, isBest⟩ := valid.coherent.selectBestIn_best valid.bounded rootFound eligible
    fun _ => mem_ascending
  exact ⟨best, run, fun _ _ => valid.coherent.best_of_eligible valid.bounded rootFound
    (fun _ => mem_ascending) isBest⟩

end

end MemHeaderStore

/-- A root close to the bound of the coordinates, so that the second block of a branch overflows
them and rebases the store. -/
def regtestRichStore : MemHeaderStore :=
  rootedAt { height := 0, hash := regtestGenesisHash } regtestGenesis 17
    (u256Bound - 20)

def plainEntry (header : Header) (body : BodyValidationState) : HeaderEntry where
  header := header
  validation := .valid
  directReasons := []
  body := body

def longerBranchFirst : List HeaderEntry :=
  [plainEntry regtestFirst .unknown, plainEntry regtestSecond .unknown,
    plainEntry regtestSibling (.verified ⟨1⟩)]

def shorterBranchFirst : List HeaderEntry :=
  [plainEntry regtestSibling (.verified ⟨1⟩), plainEntry regtestFirst .unknown,
    plainEntry regtestSecond .unknown]

theorem regtest_order_independent :
    letI := regtestHasher
    ∃ first second, regtestRichStore.insertAll longerBranchFirst = some first ∧
      regtestRichStore.insertAll shorterBranchFirst = some second ∧
      (first.nodes.lookup regtestGenesisHash).any (·.workCoordinate.cumulative = 0) ∧
      first.selectBestHeaderChain = second.selectBestHeaderChain ∧
      ∀ hash, first.relativeNode hash = second.relativeNode hash := by
  let := regtestHasher
  have created := new_regtest 17 (u256Bound - 20)
  have perm : longerBranchFirst.Perm shorterBranchFirst := by
    have swap : ([plainEntry regtestFirst .unknown, plainEntry regtestSecond .unknown] ++
        [plainEntry regtestSibling (.verified ⟨1⟩)]).Perm
        ([plainEntry regtestSibling (.verified ⟨1⟩)] ++
          [plainEntry regtestFirst .unknown, plainEntry regtestSecond .unknown]) :=
      perm_append_comm
    exact swap
  have distinct : (longerBranchFirst.map HeaderEntry.header).Nodup := by decide +kernel
  have firstSucceeds : (regtestRichStore.insertAll longerBranchFirst).isSome = true := by
    decide +kernel
  have secondSucceeds : (regtestRichStore.insertAll shorterBranchFirst).isSome = true := by
    decide +kernel
  have rebased : (regtestRichStore.insertAll longerBranchFirst).any fun first =>
      (first.nodes.lookup regtestGenesisHash).any (·.workCoordinate.cumulative = 0) := by
    decide +kernel
  obtain ⟨first, firstRun⟩ := isSome_iff_exists.mp firstSucceeds
  obtain ⟨second, secondRun⟩ := isSome_iff_exists.mp secondSucceeds
  obtain ⟨rows, _, _, firstBest, secondBest, _⟩ :=
    insertAll_order_independent created perm distinct firstRun secondRun
  rw [firstRun] at rebased
  exact ⟨first, second, firstRun, secondRun, rebased, firstBest.trans secondBest.symm, rows⟩

theorem regtest_selects_most_work : letI := regtestHasher
    let forked := regtestStore.run regtestFork
    (forked.nodes.lookup regtestSiblingHash).any (·.isEligible) ∧
      ∃ best, forked.selectBestHeaderChain = .ok best ∧ best.1.hash = regtestSecondHash ∧
        ∀ hash node, forked.nodes.lookup hash = some node → node.isEligible = true →
          ∃ score, forked.headerChainScore hash = .ok score ∧
            score.suffixWork ≤ best.2.suffixWork := by
  let := regtestHasher
  have second : (regtestStore.run regtestFork).selectBestHeaderChain.toOption.any
      (·.1.hash = regtestSecondHash) := by decide +kernel
  obtain ⟨best, run, most⟩ := selects_most_work
    (run_invariant regtestStore_invariant regtestFork (by decide +kernel)) (by decide +kernel)
  rw [run] at second
  exact ⟨by decide +kernel, best, run, of_decide_eq_true second, most⟩

end Zakura.HeaderChain
