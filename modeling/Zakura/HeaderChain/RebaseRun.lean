import Zakura.HeaderChain.RebaseCore
import Zakura.HeaderChain.StoreRun
import Zakura.Lib.Fallible

/-!
A rebased insertion is exact: what is left is a contiguous suffix on a retained
parent, with its own rows and owners, and what is dropped is finalized.
-/

namespace Zakura.HeaderChain

open Fallible MemHeaderStore List

variable {authority original : HeaderWorkAuthority} {removed : Nat} {originalAnchor : Hash}
  {insert result : InsertHeaders}

section

variable [HeaderHasher]

def Links (parent child : Hash) : Prop :=
  ∃ header : Header, header.hash = child ∧ header.previousBlockHash = parent

def AncestorOrEqual : Hash → Hash → Prop :=
  Relation.ReflTransGen Links

def FinalityRecord.Advances (record : FinalityRecord) : Prop :=
  AncestorOrEqual record.previous.hash record.current.hash

inductive Contiguous : Frontier → List PreparedHeader → Prop
  | nil (parent) : Contiguous parent []
  | cons {parent header rest} (hash : header.hash = header.header.hash)
      (link : header.header.previousBlockHash = parent.hash)
      (height : header.height = parent.height + 1) (tail : Contiguous header.frontier rest) :
      Contiguous parent (header :: rest)

theorem Contiguous.after {parent : Frontier} {front back : List PreparedHeader}
    {found : PreparedHeader} (contiguous : Contiguous parent (front ++ found :: back)) :
    Contiguous found.frontier back ∧ AncestorOrEqual parent.hash found.hash ∧
      ∀ header ∈ front, AncestorOrEqual header.hash found.hash := by
  induction front generalizing parent with
  | nil =>
    obtain _ | ⟨hash, link, _, tail⟩ := contiguous
    exact ⟨tail, Relation.ReflTransGen.single ⟨_, hash.symm, link⟩, by simp⟩
  | cons first front ih =>
    obtain _ | ⟨hash, link, _, tail⟩ := contiguous
    obtain ⟨rest, reached, all⟩ := ih tail
    refine ⟨rest, Relation.ReflTransGen.head ⟨_, hash.symm, link⟩ reached, ?_⟩
    intro header member
    rcases mem_cons.mp member with rfl | later
    · exact reached
    · exact all header later

theorem followRecords_reaches {last : Frontier} (path : List FinalityRecord)
    (advances : ∀ record ∈ path, record.Advances) {frontier : Option Frontier} {epoch : Option Nat}
    (followed : followRecords originalAnchor frontier epoch path = .ok (some last)) :
    (∀ point, frontier = some point → AncestorOrEqual point.hash last.hash) ∧
      ∀ record ∈ path, AncestorOrEqual record.previous.hash last.hash ∧
        AncestorOrEqual record.current.hash last.hash := by
  induction path generalizing frontier epoch with
  | nil =>
    obtain rfl : frontier = some last := by simpa [followRecords] using followed
    refine ⟨?_, by simp⟩
    rintro point ⟨⟩
    exact Relation.ReflTransGen.refl
  | cons record rest ih =>
    simp only [followRecords, ite_error_eq_ok, bind_eq_ok] at followed
    obtain ⟨checked, _, _, tail⟩ := followed
    obtain ⟨reached, all⟩ := ih (fun other member => advances other (by simp [member])) tail
    have current := reached _ rfl
    have previous := Relation.ReflTransGen.trans (advances record (by simp)) current
    refine ⟨?_, ?_⟩
    · rintro point rfl
      have same : record.previous = point := by
        by_contra differs
        simp [differs] at checked
      exact same ▸ previous
    · intro other member
      rcases mem_cons.mp member with rfl | later
      · exact ⟨previous, current⟩
      · exact all other later

theorem validateFinalityRebasePath_reaches {finalized : Frontier} {path : List FinalityRecord}
    (moved : originalAnchor ≠ finalized.hash)
    (checked : validateFinalityRebasePath originalAnchor finalized path = .ok ())
    (advances : ∀ record ∈ path, record.Advances) {record : FinalityRecord} (member : record ∈ path) :
    AncestorOrEqual record.previous.hash finalized.hash ∧
      AncestorOrEqual record.current.hash finalized.hash := by
  simp only [validateFinalityRebasePath, if_neg moved, bind_eq_ok, ite_eq_ok] at checked
  obtain ⟨_, followed, rfl, _⟩ := checked
  exact (followRecords_reaches path advances followed).2 record member

end

theorem PreparedHeaderBatch.rebaseAfter_eq_ok [BatchEvidenceHasher]
    {batch result : PreparedHeaderBatch} {parent : Frontier} (moves : batch.receipt.parent ≠ parent)
    (run : batch.rebaseAfter parent = .ok (removed, result)) :
    removed ≠ 0 ∧ result.receipt.parent = parent ∧ ∃ front found,
      batch.headers = front ++ found :: result.headers ∧ found.frontier = parent := by
  rw [rebaseAfter, if_neg moves] at run
  split at run
  · cases run
  rename_i index position
  obtain ⟨_, same, _⟩ := findIdx?_eq_some_iff_getElem.mp position
  cases run
  refine ⟨by simp, rfl, batch.headers.take index, batch.headers[index], ?_, by simpa using same⟩
  simp

theorem MemHeaderStore.parentIsCurrentDescendant_eq {graph : MemHeaderStore}
    (valid : graph.RepresentationInvariant) (parentHash : Hash) :
    graph.parentIsCurrentDescendant graph.finalizedFrontier parentHash =
      .ok (graph.nodes.lookup parentHash).isSome := by
  cases found : graph.nodes.lookup parentHash with
  | none => simp [parentIsCurrentDescendant, found]
  | some parent =>
    have above : graph.finalizedFrontier.height ≤ parent.height :=
      valid.coherent.toShaped.root_le found
    have ancestor : graph.headerAncestor parentHash graph.finalizedFrontier.height =
        .ok (some graph.finalizedFrontier) := valid.coherent.headerAncestor_root found
    simp [parentIsCurrentDescendant, found, above, ancestor]

namespace InsertHeaders

/-- An insertion as preparation hands it over: a nonempty batch of linked headers on its parent,
and rows of those headers only. -/
structure Prepared [HeaderHasher] (insert : InsertHeaders) : Prop where
  parent : insert.batch.receipt.parent.hash = insert.parentHash
  nonempty : insert.batch.headers ≠ []
  contiguous : Contiguous insert.batch.receipt.parent insert.batch.headers
  delivered : ∀ delivery ∈ insert.aux,
    delivery.headerHash ∈ insert.batch.headers.map PreparedHeader.hash

def OwnerRebound (authority : HeaderWorkAuthority) (old new : HeaderSyncWorkOwner) : Prop :=
  ∃ owner, old = .header owner ∧ new = .header { owner with authority := authority }

def RowRebound (authority : HeaderWorkAuthority) (old new : AuxDelivery) : Prop :=
  OwnerRebound authority old.owner new.owner ∧ new = { old with owner := new.owner }

structure RebasedTo [HeaderHasher] (insert result : InsertHeaders) (finalized : Frontier)
    (graph : MemHeaderStore) (authority : HeaderWorkAuthority) : Prop where
  prepared : result.Prepared
  parent : result.parentHash = finalized.hash ∨
    (∃ node, graph.nodes.lookup result.parentHash = some node) ∧
      graph.view.Descends finalized.hash result.parentHash
  suffix : ∃ dropped, insert.batch.headers = dropped ++ result.batch.headers ∧
    ∀ header ∈ dropped, AncestorOrEqual header.hash finalized.hash
  rows : List.Forall₂ (RowRebound authority)
    (insert.aux.filter fun delivery =>
      delivery.headerHash ∈ result.batch.headers.map PreparedHeader.hash) result.aux
  owner : OwnerRebound authority insert.owner result.owner

def Settles [HeaderHasher] (insert : InsertHeaders) (finalized : Frontier) (graph : MemHeaderStore)
    (authority : HeaderWorkAuthority) :
    Except TransitionFailure (HeaderInsertionRebase × TransitionEvent) → Prop
  | .error _ => True
  | .ok (.alreadyApplied, _) =>
    ∃ tip, insert.batch.headers.getLast? = some tip ∧ AncestorOrEqual tip.hash finalized.hash
  | .ok (.rebased, .insertHeaders result) => insert.RebasedTo result finalized graph authority
  | .ok (.rebased, .other) | .ok (.current, _) => False

theorem rebaseHeader_eq_some {old new : HeaderSyncWorkOwner} :
    old.rebaseHeader authority = some new ↔ OwnerRebound authority old new := by
  cases old <;> simp [HeaderSyncWorkOwner.rebaseHeader, OwnerRebound, eq_comm]

theorem rebaseDeliveries_rebound (deliveries : List AuxDelivery) {result : List AuxDelivery}
    (run : rebaseDeliveries authority deliveries = .ok result) :
    List.Forall₂ (RowRebound authority) deliveries result := by
  induction deliveries generalizing result with
  | nil =>
    cases run
    exact .nil
  | cons delivery rest ih =>
    unfold rebaseDeliveries at run
    split at run
    · cases run
    rename_i owner rebound
    simp only [bind_eq_ok, pure_eq_ok] at run
    obtain ⟨_, tail, rfl⟩ := run
    exact .cons ⟨rebaseHeader_eq_some.mp rebound, rfl⟩ (ih tail)

theorem rebaseOwners_eq_ok (run : insert.rebaseOwners authority = .ok result) :
    ∃ owner aux, OwnerRebound authority insert.owner owner ∧
      List.Forall₂ (RowRebound authority) insert.aux aux ∧
      result = { insert with owner := owner, aux := aux } := by
  unfold rebaseOwners at run
  split at run
  · cases run
  rename_i owner rebound
  simp only [bind_eq_ok, pure_eq_ok] at run
  obtain ⟨aux, rows, rfl⟩ := run
  exact ⟨owner, aux, rebaseHeader_eq_some.mp rebound, rebaseDeliveries_rebound _ rows, rfl⟩

theorem exists_rebound {old new : List AuxDelivery}
    (rows : List.Forall₂ (RowRebound authority) old new) {after : AuxDelivery}
    (member : after ∈ new) : ∃ before ∈ old, RowRebound authority before after := by
  induction rows with
  | nil => cases member
  | cons rebound _ ih =>
    rcases mem_cons.mp member with rfl | later
    · exact ⟨_, by simp, rebound⟩
    · obtain ⟨before, earlier, rebound⟩ := ih later
      exact ⟨before, by simp [earlier], rebound⟩

theorem retained_rows {old new : List AuxDelivery}
    (rows : List.Forall₂ (RowRebound authority) old new) (kept : List Hash) :
    List.Forall₂ (RowRebound authority) (old.filter fun delivery => delivery.headerHash ∈ kept)
      (new.filter fun delivery => delivery.headerHash ∈ kept) := by
  refine rel_filter ?_ rows
  rintro _ _ ⟨_, same⟩
  rw [same]

section

variable {current : EngineSnapshot} {graph : MemHeaderStore} {history : List FinalityRecord}

/-- How the batch is moved onto the finalized frontier. -/
inductive Moved (insert : InsertHeaders) (finalized : Frontier) (graph : MemHeaderStore)
    (history : List FinalityRecord) : Nat → InsertHeaders → Prop
  | retained {node} (found : graph.nodes.lookup insert.parentHash = some node) :
      Moved insert finalized graph history 0 insert
  | cut {removed front found batch completion} (removes : removed ≠ 0)
      (parent : batch.receipt.parent = finalized)
      (split : insert.batch.headers = front ++ found :: batch.headers)
      (last : found.frontier = finalized) :
      Moved insert finalized graph history removed
        { insert with batch := batch, parentHash := finalized.hash, completion := completion }
  | applied {tip record removed} (last : insert.batch.headers.getLast? = some tip)
      (member : record ∈ history)
      (named : record.previous = tip.frontier ∨ record.current = tip.frontier) :
      Moved insert finalized graph history removed
        { insert with batch := insert.batch.clearAlreadyApplied }

theorem moveBatch_moved [BatchEvidenceHasher] (valid : graph.RepresentationInvariant)
    (rooted : graph.finalizedFrontier = current.finalized)
    (parent : insert.batch.receipt.parent.hash = insert.parentHash)
    (run : insert.moveBatch current graph history = .ok (removed, result)) :
    Moved insert current.finalized graph history removed result := by
  obtain ⟨anchor, rootFound, _⟩ := valid.coherent.root
  have root : graph.nodes.lookup current.finalized.hash = some anchor := rooted ▸ rootFound
  have descendant := parentIsCurrentDescendant_eq valid insert.parentHash
  rw [rooted] at descendant
  rw [moveBatch, bind_of_ok descendant] at run
  cases found : graph.nodes.lookup insert.parentHash with
  | some node =>
    rw [found] at run
    cases run
    exact .retained found
  | none =>
    rw [found] at run
    simp only [Option.isSome_none, Bool.false_eq_true, if_false] at run
    split at run
    · simp only [bind_eq_ok, mapError_eq_ok, pure_eq_ok, Prod.exists, Prod.mk.injEq] at run
      obtain ⟨_, batch, after, _, _, rfl, rfl⟩ := run
      have moves : insert.batch.receipt.parent ≠ current.finalized := by
        intro same
        rw [← parent, same, root] at found
        cases found
      obtain ⟨removes, below, _, last, split, same⟩ :=
        PreparedHeaderBatch.rebaseAfter_eq_ok moves after
      exact .cut removes below split same
    · split at run
      · cases run
      rename_i tip last
      simp only [ite_eq_ok, pure_eq_ok, any_eq_true, decide_eq_true_eq] at run
      obtain ⟨⟨⟨_, member, named⟩, _⟩, same⟩ := run
      cases same
      exact .applied last member named

theorem Moved.settles [HeaderHasher] {finalized : Frontier} {moved owned : InsertHeaders}
    (valid : graph.RepresentationInvariant) (rooted : graph.finalizedFrontier = finalized)
    (prepared : insert.Prepared)
    (advances : ∀ record ∈ history, AncestorOrEqual record.previous.hash finalized.hash ∧
      AncestorOrEqual record.current.hash finalized.hash)
    (step : Moved insert finalized graph history removed moved)
    (run : moved.rebaseOwners authority = .ok owned) :
    insert.Settles finalized graph authority (.ok (owned.settle removed)) := by
  obtain ⟨_, _, rebound, rows, rfl⟩ := rebaseOwners_eq_ok run
  cases step with
  | retained found =>
    rw [settle, if_neg (by simpa using prepared.nonempty), if_neg (by simp)]
    refine ⟨{ prepared with delivered := ?_ }, .inr ⟨⟨_, found⟩, ?_⟩,
      ⟨[], rfl, by simp⟩, ?_, rebound⟩
    · intro delivery member
      obtain ⟨old, oldMember, _, same⟩ := exists_rebound rows member
      rw [same]
      exact prepared.delivered old oldMember
    · exact rooted ▸ valid.coherent.toShaped.descends_root found
    · rw [filter_eq_self.mpr (by simpa using prepared.delivered)]
      exact rows
  | @cut _ front found batch _ removes parent split last =>
    obtain ⟨contiguous, _, reached⟩ := (split ▸ prepared.contiguous).after
    have lastHash : found.hash = finalized.hash := congrArg Frontier.hash last
    rw [settle, if_pos removes]
    split
    next empty =>
      refine ⟨found, ?_, lastHash ▸ Relation.ReflTransGen.refl⟩
      rw [split, isEmpty_iff.mp empty, getLast?_concat]
    rename_i nonempty
    refine ⟨⟨congrArg Frontier.hash parent, ?_, ?_, ?_⟩, .inl rfl, ⟨front ++ [found], ?_, ?_⟩,
      retained_rows rows _, rebound⟩
    · exact fun empty => nonempty (isEmpty_iff.mpr empty)
    · exact (last.trans parent.symm) ▸ contiguous
    · exact fun _ member => of_decide_eq_true (mem_filter.mp member).2
    · rw [split, append_assoc]
      rfl
    intro header member
    rcases mem_append.mp member with earlier | atEnd
    · exact lastHash ▸ reached header earlier
    · rw [mem_singleton.mp atEnd, lastHash]
      exact Relation.ReflTransGen.refl
  | @applied tip record _ last member named =>
    refine ⟨tip, last, ?_⟩
    rcases named with same | same
    · have tipHash : record.previous.hash = tip.hash := congrArg Frontier.hash same
      exact tipHash ▸ (advances record member).1
    · have tipHash : record.current.hash = tip.hash := congrArg Frontier.hash same
      exact tipHash ▸ (advances record member).2

end

theorem rebaseOwned_eq_ok [BatchEvidenceHasher] {current : EngineSnapshot} {graph : MemHeaderStore}
    {input : TransitionInput} {outcome : HeaderInsertionRebase × TransitionEvent}
    (advanced : original.branch.anchorHash ≠ current.finalized.hash)
    (run : insert.rebaseOwned original current graph input = .ok outcome) :
    original.branch.targetTipHash = insert.targetTipHash ∧
      ∃ history removed moved owned, input.finalityRebaseHistory = some history ∧
      validateFinalityRebasePath original.branch.anchorHash current.finalized history = .ok () ∧
      insert.moveBatch current graph history = .ok (removed, moved) ∧ moved.rebaseOwners
        ⟨current.headerGeneration, current.finalized.hash, original.branch.targetTipHash⟩ =
        .ok owned ∧ outcome = owned.settle removed := by
  rw [rebaseOwned, ite_error_eq_ok, if_neg (fun same => advanced same.2), if_neg advanced,
    ite_error_eq_ok] at run
  obtain ⟨target, _, run⟩ := run
  refine ⟨not_not.mp target, ?_⟩
  split at run
  · cases run
  rename_i history supplied
  simp only [ite_error_eq_ok, bind_eq_ok, pure_eq_ok, Prod.exists] at run
  obtain ⟨_, _, checked, removed, moved, batch, owned, owners, same⟩ := run
  exact ⟨history, removed, moved, owned, supplied, checked, batch, owners, same.symm⟩

end InsertHeaders

section

variable [HeaderHasher] [BatchEvidenceHasher] {insert : InsertHeaders}
  {current : EngineSnapshot} {graph : MemHeaderStore} {input : TransitionInput}

/-- A repair stays as it is. Ordinary header work whose anchor finality has left behind is
settled exactly. -/
theorem rebaseHeaderInsertion_exact (valid : graph.RepresentationInvariant)
    (rooted : graph.finalizedFrontier = current.finalized) (prepared : insert.Prepared)
    (advances : ∀ history, input.finalityRebaseHistory = some history →
      ∀ record ∈ history, record.Advances) :
    (insert.completion.isRepair = true ∨ insert.owner.headerOwner = none →
      rebaseHeaderInsertion (.insertHeaders insert) current graph input =
        .ok (.current, .insertHeaders insert)) ∧
    ∀ owner, insert.completion.isRepair = false → insert.owner.headerOwner = some owner →
      owner.authority.branch.anchorHash ≠ current.finalized.hash →
      insert.Settles current.finalized graph
        ⟨current.headerGeneration, current.finalized.hash, insert.targetTipHash⟩
        (rebaseHeaderInsertion (.insertHeaders insert) current graph input) := by
  refine ⟨fun repair => ?_, fun owner ordinary owned advanced => ?_⟩
  · rcases repair with repair | repair <;> simp [rebaseHeaderInsertion, repair]
  simp only [rebaseHeaderInsertion, ordinary, owned, Bool.false_eq_true, if_false]
  cases run : insert.rebaseOwned owner.authority current graph input with
  | error failure => trivial
  | ok outcome =>
    obtain ⟨target, history, _, _, _, supplied, checked, batch, owners, rfl⟩ :=
      InsertHeaders.rebaseOwned_eq_ok advanced run
    rw [target] at owners
    have reaches (record : FinalityRecord) (member : record ∈ history) :=
      validateFinalityRebasePath_reaches advanced checked (advances history supplied) member
    exact (InsertHeaders.moveBatch_moved valid rooted prepared.parent batch).settles valid rooted
      prepared reaches owners

end

namespace RebaseSample

/-- The digest plays no part in the runs below. -/
@[reducible] def constantEvidence : BatchEvidenceHasher where
  hashBatch := fun _ _ _ => ⟨0⟩

def genesis : Frontier where
  height := 0
  hash := regtestGenesisHash

def finalized : Frontier where
  height := 1
  hash := regtestFirstHash

/-- Finality has moved to the first header since the work below was scheduled. -/
def snapshot : EngineSnapshot where
  stateVersion := 5
  headerGeneration := 2
  finalized := finalized

def graph : MemHeaderStore :=
  rootedAt finalized regtestFirst 17 0

def history : TransitionInput where
  finalityRebaseHistory := some [⟨genesis, finalized, 1⟩]

def work : HeaderWorkOwner where
  authority := ⟨1, regtestGenesisHash, regtestSecondHash⟩
  sessionId := 9
  requestId := 7

def insertion : InsertHeaders where
  owner := .header work
  parentHash := regtestGenesisHash
  targetTipHash := regtestSecondHash
  completion := .targetComplete genesis
  batch :=
    { headers := [⟨regtestFirst, regtestFirstHash, 1, 17, .valid⟩,
        ⟨regtestSecond, regtestSecondHash, 2, 17, .valid⟩]
      receipt := ⟨genesis, 0⟩
      evidence := ⟨1⟩ }
  aux := [⟨⟨2⟩, regtestFirstHash, .header work⟩, ⟨⟨3⟩, regtestSecondHash, .header work⟩]

theorem insertion_prepared : letI := regtestHasher; insertion.Prepared := by
  let := regtestHasher
  refine ⟨rfl, by simp [insertion], .cons ?_ rfl rfl (.cons ?_ rfl rfl (.nil _)), ?_⟩
  · decide +kernel
  · decide +kernel
  · simp [insertion]

theorem history_advances : letI := regtestHasher
    ∀ records, history.finalityRebaseHistory = some records →
      ∀ record ∈ records, record.Advances := by
  let := regtestHasher
  rintro _ ⟨⟩ _ member
  obtain rfl := mem_singleton.mp member
  exact Relation.ReflTransGen.single ⟨regtestFirst, by decide +kernel, rfl⟩

/-- What is left: the second header with its row, on the finalized frontier. -/
def rebasedInsertion : InsertHeaders where
  owner := .header { work with authority := ⟨2, regtestFirstHash, regtestSecondHash⟩ }
  parentHash := regtestFirstHash
  targetTipHash := regtestSecondHash
  completion := .targetComplete finalized
  batch :=
    { headers := [⟨regtestSecond, regtestSecondHash, 2, 17, .valid⟩]
      receipt := ⟨finalized, 0⟩
      evidence := ⟨0⟩ }
  aux := [⟨⟨3⟩, regtestSecondHash,
    .header { work with authority := ⟨2, regtestFirstHash, regtestSecondHash⟩ }⟩]

theorem insertion_rebased : letI := regtestHasher; letI := constantEvidence
    rebaseHeaderInsertion (.insertHeaders insertion) snapshot graph history =
        .ok (.rebased, .insertHeaders rebasedInsertion) ∧
      insertion.RebasedTo rebasedInsertion finalized graph
        ⟨2, regtestFirstHash, regtestSecondHash⟩ := by
  let := regtestHasher
  let := constantEvidence
  have run : rebaseHeaderInsertion (.insertHeaders insertion) snapshot graph history =
      .ok (.rebased, .insertHeaders rebasedInsertion) := by decide +kernel
  have settles : insertion.Settles snapshot.finalized graph _
      (rebaseHeaderInsertion (.insertHeaders insertion) snapshot graph history) :=
    (rebaseHeaderInsertion_exact (rootedAt_invariant _ _ _ _) rfl insertion_prepared
      history_advances).2 work rfl rfl (by decide)
  exact ⟨run, settles⟩

/-- The auxiliary rows of the first header are delivered again. -/
def repair : InsertHeaders where
  owner := .bodyRepair ⟨⟨⟨1, regtestGenesisHash, regtestFirstHash⟩, 1, 1⟩, 9, 7⟩
  parentHash := regtestGenesisHash
  targetTipHash := regtestFirstHash
  completion := .selectedAuxiliaryRepair genesis finalized 0
  batch := { insertion.batch with headers := insertion.batch.headers.take 1 }
  aux := []

/-- A repair keeps its batch as it is, on a parent that is no longer retained. -/
theorem repair_kept_below_finality : letI := regtestHasher; letI := constantEvidence
    graph.RepresentationInvariant ∧ graph.finalizedFrontier = snapshot.finalized ∧
      repair.Prepared ∧
      rebaseHeaderInsertion (.insertHeaders repair) snapshot graph history =
        .ok (.current, .insertHeaders repair) ∧
      repair.parentHash ≠ finalized.hash ∧ graph.nodes.lookup repair.parentHash = none := by
  let := regtestHasher
  refine ⟨rootedAt_invariant _ _ _ _, rfl,
    ⟨rfl, by decide, .cons ?_ rfl rfl (.nil _), by simp [repair]⟩, rfl, by decide, ?_⟩
  · decide +kernel
  · decide +kernel

end RebaseSample

end Zakura.HeaderChain
