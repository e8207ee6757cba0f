import Zakura.NonFinalized.StateOperations

/-!
Runs of the non-finalized state over a finalized state: the chains stay contiguous,
ordered and bounded in number, what an operation adds or should keep is not evicted, and the
blocks reported as evicted are those that are gone.
-/

namespace Zakura.NonFinalized

open HeaderChain (Hash)
open FiniteMap Fallible NonFinalizedState

variable {History : Type} {finalized written initial : FinalizedState History} {tree : BlockTree}

structure ChainState (History : Type) where
  finalized : FinalizedState History
  nonFinalized : NonFinalizedState History

inductive Operation (History : Type)
  | commitNewChain (reusable : Reusable History) (prepared : SemanticallyVerifiedBlock)
  | commitBlock (reusable : Reusable History) (prepared : SemanticallyVerifiedBlock)
  | finalize
  | invalidateBlock (hash : Hash)
  | reconsiderBlock (hash : Hash)
  | preciousBlock (hash : Hash)

inductive OperationError
  | commit (error : ContextError)
  | finalize (error : ChainError)
  | invalidate (error : InvalidateError)
  | reconsider (error : ReconsiderError)
  | precious (error : PreciousError)
deriving DecidableEq

namespace ChainState

def withResult {Error Value : Type} (wrap : Error → OperationError) (state : ChainState History)
    (result : Except Error Value × NonFinalizedState History) :
    Except OperationError Unit × ChainState History :=
  ((result.1.map fun _ => ()).mapError wrap, { state with nonFinalized := result.2 })

variable [CommitmentHasher]

def finalize (settings : ChainSettings History) (state : ChainState History) :
    Except ChainError (ChainState History) := do
  let ((root, treestate), next) ← state.nonFinalized.finalize settings
  let finalized ← state.finalized.commitFinalizedDirect settings root treestate
  return ⟨finalized, next⟩

def apply (settings : ContextSettings History) (state : ChainState History) :
    Operation History → Except OperationError Unit × ChainState History
  | .commitNewChain reusable prepared => state.withResult .commit
      (state.nonFinalized.commitNewChain settings state.finalized reusable prepared)
  | .commitBlock reusable prepared => state.withResult .commit
      (state.nonFinalized.commitBlock settings state.finalized reusable prepared)
  | .finalize =>
    match state.finalize settings.toChainSettings with
    | .error error => (.error (.finalize error), state)
    | .ok next => (.ok (), next)
  | .invalidateBlock hash => state.withResult .invalidate
      (state.nonFinalized.invalidateBlock settings.toChainSettings hash)
  | .reconsiderBlock hash => state.withResult .reconsider
      (state.nonFinalized.reconsiderBlock settings.toChainSettings state.finalized hash)
  | .preciousBlock hash => state.withResult .precious
      (state.nonFinalized.preciousBlock hash state.finalized)

end ChainState

namespace Operation

/-- What the callers of an operation promise: hashes identify blocks, which are one above their
parents, a new chain starts at the finalized tip, and a reused chain is that of an accepted proposal
of the block. -/
def Allowed [CommitmentHasher] (settings : ChainSettings History) (tree : BlockTree)
    (state : ChainState History) : Operation History → Prop
  | .commitNewChain _ prepared => tree.Knows prepared.hash prepared.block prepared.height ∧
      prepared.block.header.previousBlockHash = state.finalized.tipHash
  | .commitBlock reusable prepared => tree.Knows prepared.hash prepared.block prepared.height ∧
      ∀ parent, state.nonFinalized.parentChain settings prepared.block.header.previousBlockHash =
        .ok parent → NonFinalizedState.ReusableFor settings parent prepared reusable
  | _ => True

def Adds (state : NonFinalizedState History) (tip : Hash) : Operation History → Prop
  | .commitNewChain _ prepared => tip = prepared.hash
  | .commitBlock _ prepared => tip = prepared.hash
  | .invalidateBlock hash => ∃ source ∈ state.chainSet, ∃ first parent block rest,
      source.chain.listed = first ++ parent :: block :: rest ∧ block.hash = hash ∧
        tip = parent.hash
  | .reconsiderBlock hash => ∃ record ∈ state.invalidatedBlocks, ∃ root rest,
      record.2 = root :: rest ∧ root.hash = hash ∧ tip = lastHash root.hash rest
  | .finalize => False
  | .preciousBlock _ => False

/-- The chains an operation means to remove: the parent chain that a block extends, the chains with
an invalidated block, and the chains without a block above the finalized block. -/
def Removes (state : NonFinalizedState History) (chain : PreferredChain History) :
    Operation History → Prop
  | .commitBlock _ prepared => chain.tipHash = some prepared.block.header.previousBlockHash
  | .invalidateBlock hash => chain.containsBlockHash hash = true
  | .reconsiderBlock hash => ∃ record ∈ state.invalidatedBlocks, ∃ root rest,
      record.2 = root :: rest ∧ root.hash = hash ∧
        chain.tipHash = some root.block.header.previousBlockHash
  | .finalize => ∀ best root finalized first rest, state.bestChain = some best →
      best.chain.listed = root :: finalized → chain.chain.listed = first :: rest →
        first.hash = root.hash → rest = []
  | .commitNewChain _ _ => False
  | .preciousBlock _ => False

end Operation

namespace ChainState

variable [CommitmentHasher] {settings : ContextSettings History} {state next : ChainState History}
  {operation : Operation History}

inductive Run (settings : ContextSettings History) (tree : BlockTree)
    (initial : ChainState History) : ChainState History → Prop
  | initial : Run settings tree initial initial
  | step {state : ChainState History} (operation : Operation History)
      (earlier : Run settings tree initial state)
      (allowed : operation.Allowed settings.toChainSettings tree state) :
      Run settings tree initial (state.apply settings operation).2

def Coherent (settings : ChainSettings History) (tree : BlockTree) (state : ChainState History) :
    Prop :=
  state.nonFinalized.Coherent settings tree state.finalized.tip.height state.finalized.tipHash

inductive Effect (settings : ContextSettings History) (tree : BlockTree)
    (state : ChainState History) : Operation History → ChainState History → Prop
  | commitNewChain {reusable : Reusable History} {prepared : SemanticallyVerifiedBlock}
      {parent modified : Chain History} {contextual : ContextuallyVerifiedBlock}
      {middle : NonFinalizedState History} (isNew : Chain.new state.finalized.tip = .ok parent)
      (made : state.nonFinalized.validateAndCommit settings state.finalized parent prepared
        reusable.spentUtxos = .ok modified)
      (commits : NonFinalizedState.Commits settings tree state.finalized.tip.height
        state.finalized.tipHash state.nonFinalized prepared (fun _ => true) parent contextual
        modified middle) :
      Effect settings tree state (.commitNewChain reusable prepared)
        ⟨state.finalized, middle.retainPreciousBlocks⟩
  | commitBlock {reusable : Reusable History} {prepared : SemanticallyVerifiedBlock}
      {parent modified : Chain History} {contextual : ContextuallyVerifiedBlock}
      {middle : NonFinalizedState History}
      (isParent : state.nonFinalized.parentChain settings.toChainSettings
        prepared.block.header.previousBlockHash = .ok parent)
      (made : state.nonFinalized.extendChain settings state.finalized reusable prepared parent =
        .ok modified)
      (commits : NonFinalizedState.Commits settings tree state.finalized.tip.height
        state.finalized.tipHash state.nonFinalized prepared
        (fun other => other.tipHash ≠ some prepared.block.header.previousBlockHash) parent contextual
        modified middle) :
      Effect settings tree state (.commitBlock reusable prepared)
        ⟨state.finalized, middle.retainPreciousBlocks⟩
  | finalize {root : ContextuallyVerifiedBlock} {treestate : Treestate History}
      {finalized : FinalizedState History} {next : NonFinalizedState History}
      (isFinalized : state.nonFinalized.finalize settings.toChainSettings =
        .ok ((root, treestate), next))
      (isWritten : state.finalized.commitFinalizedDirect settings.toChainSettings root treestate =
        .ok finalized) :
      Effect settings tree state .finalize ⟨finalized, next⟩
  | invalidateBlock {hash : Hash} {first rest : List ContextuallyVerifiedBlock}
      {block : ContextuallyVerifiedBlock} {middle : NonFinalizedState History}
      (cuts : NonFinalizedState.Cuts settings.toChainSettings state.finalized.tip.height
        state.nonFinalized hash first block rest middle) :
      Effect settings tree state (.invalidateBlock hash) ⟨state.finalized,
        (middle.recordInvalidated block.height (block :: rest)).retainPreciousBlocks⟩
  | reconsiderBlock {hash : Hash} {recordHeight : Nat} {root : ContextuallyVerifiedBlock}
      {rest : List ContextuallyVerifiedBlock} {parent chain : Chain History}
      {middle : NonFinalizedState History}
      (restores : NonFinalizedState.Restores settings.toChainSettings tree state.finalized
        state.nonFinalized hash recordHeight root rest parent chain middle) :
      Effect settings tree state (.reconsiderBlock hash)
        ⟨state.finalized, middle.retainPreciousBlocks⟩
  | preciousBlock {hash : Hash} {chain : PreferredChain History}
      {next : NonFinalizedState History}
      (prefers : NonFinalizedState.Prefers state.nonFinalized hash chain next) :
      Effect settings tree state (.preciousBlock hash) ⟨state.finalized, next⟩
  | alreadyKnown {hash : Hash} : Effect settings tree state (.preciousBlock hash) state

theorem apply_cases (coherent : Coherent settings.toChainSettings tree state)
    (allowed : operation.Allowed settings.toChainSettings tree state) :
    (∃ error, state.apply settings operation = (.error error, state)) ∨
      ∃ next, state.apply settings operation = (.ok (), next) ∧
        Effect settings tree state operation next := by
  cases operation with
  | commitNewChain reusable prepared =>
    rcases commits_of_commitNewChain allowed.2 with
      ⟨error, failed⟩ | ⟨parent, contextual, modified, middle, isNew, made, commits, done⟩
    · refine .inl ⟨.commit error, ?_⟩
      rw [apply, failed]
      rfl
    · refine .inr ⟨_, ?_, .commitNewChain isNew made commits⟩
      rw [apply, done]
      rfl
  | commitBlock reusable prepared =>
    rcases commits_of_commitBlock coherent allowed.2 with
      ⟨error, failed⟩ | ⟨parent, contextual, modified, middle, isParent, made, commits, done⟩
    · refine .inl ⟨.commit error, ?_⟩
      rw [apply, failed]
      rfl
    · refine .inr ⟨_, ?_, .commitBlock isParent made commits⟩
      rw [apply, done]
      rfl
  | finalize =>
    cases isFinalized : state.finalize settings.toChainSettings with
    | error error =>
      refine .inl ⟨.finalize error, ?_⟩
      rw [apply, isFinalized]
    | ok next =>
      have steps := isFinalized
      simp only [finalize, bind_eq_ok, pure_eq_ok] at steps
      obtain ⟨⟨⟨root, _⟩, nonFinalized⟩, isPopped, finalized, isWritten, rfl⟩ := steps
      refine .inr ⟨_, ?_, .finalize isPopped isWritten⟩
      rw [apply, isFinalized]
  | invalidateBlock hash =>
    rcases invalidateBlock_cases hash coherent with
      ⟨error, failed⟩ | ⟨first, block, rest, middle, cuts, done⟩
    · refine .inl ⟨.invalidate error, ?_⟩
      rw [apply, failed]
      rfl
    · refine .inr ⟨_, ?_, .invalidateBlock cuts⟩
      rw [apply, done]
      rfl
  | reconsiderBlock hash =>
    rcases reconsiderBlock_cases hash coherent with
      ⟨error, failed⟩ | ⟨recordHeight, root, rest, parent, chain, middle, restores, done⟩
    · refine .inl ⟨.reconsider error, ?_⟩
      rw [apply, failed]
      rfl
    · refine .inr ⟨_, ?_, .reconsiderBlock restores⟩
      rw [apply, done]
      rfl
  | preciousBlock hash =>
    rcases state.nonFinalized.preciousBlock_cases hash state.finalized with
      ⟨error, failed⟩ | known | ⟨chain, next, prefers, done⟩
    · refine .inl ⟨.precious error, ?_⟩
      rw [apply, failed]
      rfl
    · refine .inr ⟨state, ?_, .alreadyKnown⟩
      rw [apply, known]
      rfl
    · refine .inr ⟨_, ?_, .preciousBlock prefers⟩
      rw [apply, done]
      rfl

theorem commitFinalizedDirect_tip {settings : ChainSettings History}
    {block : ContextuallyVerifiedBlock} {treestate : Treestate History}
    (isWritten : finalized.commitFinalizedDirect settings block treestate = .ok written) :
    written.tip.height = block.height ∧ written.tipHash = block.hash := by
  simp only [FinalizedState.commitFinalizedDirect, bind_eq_ok, pure_eq_ok] at isWritten
  obtain ⟨_, _, rfl⟩ := isWritten
  exact ⟨rfl, rfl⟩

structure Keeps (settings : ChainSettings History) (tree : BlockTree) (state : ChainState History)
    (operation : Operation History) (next : ChainState History) : Prop where
  coherent : Coherent settings tree next
  added : ∀ tip, operation.Adds state.nonFinalized tip →
    ∃ found ∈ next.nonFinalized.chainSet, found.tipHash = some tip
  best : ∀ best ∈ state.nonFinalized.chainSet, ¬operation.Removes state.nonFinalized best →
    (∀ other ∈ state.nonFinalized.chainSet, ¬operation.Removes state.nonFinalized other →
      other.order ≤ best.order) →
    ∃ found ∈ next.nonFinalized.chainSet, found.tipHash = best.tipHash

theorem Effect.keeps (coherent : Coherent settings.toChainSettings tree state)
    (allowed : operation.Allowed settings.toChainSettings tree state)
    (effect : Effect settings tree state operation next) :
    Keeps settings.toChainSettings tree state operation next := by
  cases effect with
  | commitNewChain isNew made commits =>
    obtain ⟨addable, _, isTip⟩ := commits.addable coherent allowed.1
    have added := coherent.keeps_added addable commits.inserted fun _ _ _ => rfl
    refine ⟨commits.coherent coherent allowed.1, ?_, ?_⟩
    · rintro tip rfl
      rw [isTip] at added
      exact added
    intro best member _ isBest
    have kept := coherent.keeps_best addable commits.inserted member rfl fun other isOther _ =>
      isBest other isOther id
    exact ⟨best, kept, rfl⟩
  | @commitBlock reusable prepared parent modified contextual middle isParent made commits =>
    obtain ⟨addable, _, isTip⟩ := commits.addable coherent allowed.1
    have added := coherent.keeps_added addable commits.inserted fun found _ sameTip => by
      rw [sameTip, isTip]
      refine decide_eq_true fun same => ?_
      have above := allowed.1.aboveParent
      rw [← Option.some.inj same, allowed.1.isHeight] at above
      omega
    refine ⟨commits.coherent coherent allowed.1, ?_, ?_⟩
    · rintro tip rfl
      rw [isTip] at added
      exact added
    intro best member stays isBest
    have kept := coherent.keeps_best addable commits.inserted member (decide_eq_true stays)
      fun other isOther otherStays => by
        have differs : other.tipHash ≠ some prepared.block.header.previousBlockHash :=
          of_decide_eq_true otherStays
        exact isBest other isOther differs
    exact ⟨best, kept, rfl⟩
  | finalize isFinalized isWritten =>
    obtain ⟨best, rest, _, isBest, isListed, _, ⟨_, all, isRebuilt⟩, rfl⟩ :=
      finalize_eq_ok coherent isFinalized
    refine ⟨?_, fun _ none => none.elim, ?_⟩
    · obtain ⟨isHeight, isHash⟩ := commitFinalizedDirect_tip isWritten
      have linked := (coherent.holds best (List.mem_of_getLast? isBest)).linked
      rw [isListed] at linked
      rw [← linked.1.isHeight, isRebuilt.coherent.tipHeight] at isHeight
      unfold Coherent
      rw [isHeight, isHash]
      exact (isRebuilt.coherent.forgotten List.filter_sublist).retained
    · intro chain member stays _
      simp only [Operation.Removes, not_forall] at stays
      obtain ⟨_, root, _, first, late, same, isRoot, split, sameHash, nonempty⟩ := stays
      obtain rfl := Option.mem_unique same isBest
      obtain ⟨rfl, rfl⟩ := List.cons.inj (isRoot.symm.trans isListed)
      exact isRebuilt.kept chain (all member) first late split sameHash nonempty
  | @invalidateBlock hash first rest block middle cuts =>
    refine ⟨cuts.coherent coherent, ?_, ?_⟩
    · rintro tip ⟨source, member, _, parent, _, late, split, isHash, rfl⟩
      obtain ⟨other, otherMember, otherSplit⟩ := cuts.source
      have linked := (coherent.holds source member).linked
      have otherLinked := (coherent.holds other otherMember).linked
      rw [split, ← List.singleton_append, ← List.append_assoc] at linked
      rw [otherSplit] at otherLinked
      have ancestors := linked.same_ancestors otherLinked (isHash.trans cuts.isHash.symm)
      have nonempty : first ≠ [] := by
        rintro rfl
        simp at ancestors
      have added := cuts.keeps_added coherent nonempty
      rw [← lastHash_congr ancestors, lastHash_concat] at added
      exact added
    · intro best member stays isBest
      have kept := cuts.keeps_best coherent member (Bool.eq_false_iff.mpr stays)
        fun other isOther otherStays => isBest other isOther (Bool.eq_false_iff.mp otherStays)
      exact ⟨best, kept, rfl⟩
  | @reconsiderBlock hash recordHeight root rest parent chain middle restores =>
    have unique {record : Nat × List ContextuallyVerifiedBlock}
        {first : ContextuallyVerifiedBlock} {others : List ContextuallyVerifiedBlock}
        (isRecord : record ∈ state.nonFinalized.invalidatedBlocks)
        (split : record.2 = first :: others) (isHash : first.hash = hash) :
        first = root ∧ others = rest := by
      have same := coherent.eq_of_recorded isRecord restores.recorded
        (split ▸ List.mem_cons_self) List.mem_cons_self (isHash.trans restores.isHash.symm)
      rw [same] at split
      exact List.cons.inj split.symm
    refine ⟨restores.coherent coherent, ?_, ?_⟩
    · rintro tip ⟨record, isRecord, first, others, split, isHash, rfl⟩
      obtain ⟨rfl, rfl⟩ := unique isRecord split isHash
      have added := restores.keeps_added coherent
      exact added
    intro best member stays isBest
    have bestStays : best.tipHash ≠ some root.block.header.previousBlockHash := fun same =>
      stays ⟨_, restores.recorded, root, rest, rfl, restores.isHash, same⟩
    have kept := coherent.forgetRecord.keeps_best (restores.addable coherent).1
      restores.inserted member (decide_eq_true bestStays) fun other isOther otherStays => by
        refine isBest other isOther ?_
        rintro ⟨record, isRecord, first, others, split, isHash, same⟩
        obtain ⟨rfl, rfl⟩ := unique isRecord split isHash
        exact of_decide_eq_true otherStays same
    exact ⟨best, kept, rfl⟩
  | preciousBlock prefers =>
    exact ⟨prefers.coherent coherent, fun _ none => none.elim, fun best member _ _ =>
      prefers.keeps_tips coherent member⟩
  | alreadyKnown =>
    exact ⟨coherent, fun _ none => none.elim, fun best member _ _ => ⟨best, member, rfl⟩⟩

theorem Run.coherent (tipHeight : tree.heightOf initial.tipHash = initial.tip.height)
    (run : Run settings tree ⟨initial, .empty⟩ state) :
    Coherent settings.toChainSettings tree state := by
  induction run with
  | initial => exact coherent_empty tipHeight
  | step operation earlier allowed ih =>
    rcases apply_cases ih allowed with ⟨_, failed⟩ | ⟨_, done, effect⟩
    · rw [failed]
      exact ih
    · rw [done]
      exact (effect.keeps ih allowed).coherent

/-- A nonempty chain of blocks at consecutive heights, each the child of the one before it, the
first of them the child of the finalized tip. -/
structure Contiguous (finalized : FinalizedState History) (chain : Chain History) : Prop where
  nonempty : chain.listed ≠ []
  heights : ascending chain.blocks.keys =
    List.range' (finalized.tip.height + 1) chain.listed.length
  parents : chain.listed.IsChain fun block child =>
    child.block.header.previousBlockHash = block.hash
  root : ∀ root ∈ chain.listed.head?, root.block.header.previousBlockHash = finalized.tipHash

structure Sound (state : ChainState History) : Prop where
  contiguous : ∀ chain ∈ state.nonFinalized.chainSet, Contiguous state.finalized chain.chain
  tips : (state.nonFinalized.chainSet.map PreferredChain.tipHash).Nodup
  bounded : state.nonFinalized.chainSet.length ≤ maxNonFinalizedChainForks
  ordered : state.nonFinalized.chainSet.Pairwise fun lower higher => lower.order < higher.order
  best : ∀ best ∈ state.nonFinalized.bestChain, ∀ chain ∈ state.nonFinalized.chainSet,
    chain.chain.index.partialCumulativeWork ≤ best.chain.index.partialCumulativeWork

omit [CommitmentHasher] in
theorem contiguous_of_holds {settings : ChainSettings History} {chain : Chain History}
    (holds : chain.Holds settings tree finalized.tip.height finalized.tipHash) :
    Contiguous finalized chain := by
  refine ⟨holds.nonempty, ?_, holds.linked.parents, ?_⟩
  · rw [holds.represents.ascending_keys, holds.represents.heights]
  intro root isRoot
  have linked := holds.linked
  rcases isListed : chain.listed with _ | ⟨_, _⟩
  · exact absurd isListed holds.nonempty
  · rw [isListed] at linked isRoot
    obtain rfl := Option.some.inj isRoot
    exact linked.2.1

omit [CommitmentHasher] in
theorem Coherent.sound {settings : ChainSettings History} (coherent : Coherent settings tree state) :
    Sound state := by
  refine ⟨fun chain member => contiguous_of_holds (coherent.holds chain member), ?_,
    coherent.bounded, coherent.ranked, ?_⟩
  · refine List.Nodup.map_on (fun first member second otherMember same =>
      coherent.eq_of_tip member otherMember same) ?_
    exact coherent.ranked.imp fun below same => by simp [same] at below
  · intro best isBest chain member
    have below := coherent.ranked.le_last isBest member
    exact Prod.Lex.monotone_fst_ofLex below

/-- Every state of a run has sound chains. An operation that fails leaves the chains as they are. An
operation that succeeds keeps the chain it adds and the best of the chains it does not mean to
remove. -/
theorem run_sound (settings : ContextSettings History) (tree : BlockTree)
    (initial : FinalizedState History) (state : ChainState History)
    (tipHeight : tree.heightOf initial.tipHash = initial.tip.height)
    (run : Run settings tree ⟨initial, .empty⟩ state) :
    Sound state ∧
    ∀ operation : Operation History, operation.Allowed settings.toChainSettings tree state →
      ((state.apply settings operation).1 ≠ .ok () →
        (state.apply settings operation).2.nonFinalized.chainSet = state.nonFinalized.chainSet) ∧
      ((state.apply settings operation).1 = .ok () →
        (∀ tip, operation.Adds state.nonFinalized tip →
          ∃ found ∈ (state.apply settings operation).2.nonFinalized.chainSet,
            found.tipHash = some tip) ∧
        ∀ best ∈ state.nonFinalized.chainSet, ¬operation.Removes state.nonFinalized best →
          (∀ other ∈ state.nonFinalized.chainSet, ¬operation.Removes state.nonFinalized other →
            other.order ≤ best.order) →
          ∃ found ∈ (state.apply settings operation).2.nonFinalized.chainSet,
            found.tipHash = best.tipHash) := by
  have coherent := run.coherent tipHeight
  refine ⟨coherent.sound, ?_⟩
  intro operation allowed
  rcases apply_cases coherent allowed with ⟨_, failed⟩ | ⟨_, done, effect⟩
  · rw [failed]
    refine ⟨fun _ => rfl, fun succeeded => ?_⟩
    cases succeeded
  · rw [done]
    have keeps := effect.keeps coherent allowed
    exact ⟨fun failed => absurd rfl failed, fun _ => ⟨keeps.added, keeps.best⟩⟩

/-- Along a held chain no nullifier is revealed twice and no output is spent twice. -/
theorem run_writes_once (tipHeight : tree.heightOf initial.tipHash = initial.tip.height)
    (run : Run settings tree ⟨initial, .empty⟩ state) :
    ∀ held ∈ state.nonFinalized.chainSet, let index := held.chain.index
      let updates := Chain.updatesOf settings.toChainSettings held.chain.listed
      EnteredAll (updates.filterMap (·.nullifierEntry)) ∅ index.nullifiers ∧
      EnteredAll (updates.filterMap (·.spentEntry settings.toChainSettings)) ∅ index.spentUtxos ∧
      EnteredAll (updates.filterMap (·.createdEntry)) ∅ index.createdUtxos := by
  intro held member
  have ran := ((run.coherent tipHeight).holds held member).represents.index
  exact ⟨ChainIndex.run_entered (·.nullifiers) ran, ChainIndex.run_entered (·.spent) ran,
    ChainIndex.run_entered (·.created) ran⟩

end ChainState

section

open List

variable {settings : ChainSettings History} {height : Nat} {tip hash : Hash}
  {after : NonFinalizedState History} {evicted : Finset Hash}
  {blocks : List ContextuallyVerifiedBlock} {chains : List (PreferredChain History)}

namespace NonFinalizedState

def evictedFrom (after : NonFinalizedState History) :
    List ContextuallyVerifiedBlock → Finset Hash → Finset Hash
  | [], evicted => evicted
  | block :: rest, evicted =>
    if after.anyChainContains block.hash ∨ block.hash ∈ evicted then evicted
    else after.evictedFrom rest (Insert.insert block.hash evicted)

def evictedBlocks (state after : NonFinalizedState History) : List Hash :=
  ascending (state.chainSet.reverse.foldl (fun evicted chain =>
    after.evictedFrom chain.chain.listed.reverse evicted) ∅)

def HeldIn (chains : List (PreferredChain History)) (hash : Hash) : Prop :=
  ∃ chain ∈ chains, ∃ block ∈ chain.chain.listed, block.hash = hash

theorem anyChainContains_iff
    (holds : ∀ chain ∈ after.chainSet, chain.chain.Holds settings tree height tip) :
    after.anyChainContains hash ↔ HeldIn after.chainSet hash := by
  unfold anyChainContains HeldIn
  rw [any_eq_true]
  exact exists_congr fun chain => and_congr_right fun member => (holds chain member).contains hash

theorem HeldIn.ancestor {first rest : List ContextuallyVerifiedBlock}
    {earlier later : ContextuallyVerifiedBlock} (linked : Linked tree tip (first ++ earlier :: rest))
    (isLater : later ∈ rest) (holds : ∀ chain ∈ chains, chain.chain.Holds settings tree height tip)
    (held : HeldIn chains later.hash) : HeldIn chains earlier.hash := by
  obtain ⟨chain, member, _, isCopy, same⟩ := held
  exact ⟨chain, member, linked.has_ancestor (holds chain member).linked
    (mem_cons_of_mem _ isLater) isCopy same⟩

/-- The walk down from a tip may stop early: below a block that is kept or reported, every block is
kept or reported. -/
theorem mem_evictedFrom (distinct : (blocks.map (·.hash)).Nodup)
    (closed : blocks.Pairwise fun later earlier =>
      after.anyChainContains later.hash ∨ later.hash ∈ evicted →
        after.anyChainContains earlier.hash ∨ earlier.hash ∈ evicted) :
    hash ∈ after.evictedFrom blocks evicted ↔ hash ∈ evicted ∨
      (∃ block ∈ blocks, block.hash = hash) ∧ ¬after.anyChainContains hash := by
  induction blocks generalizing evicted with
  | nil => simp [evictedFrom]
  | cons block rest ih =>
    obtain ⟨below, others⟩ := pairwise_cons.mp closed
    rw [map_cons, nodup_cons] at distinct
    rw [evictedFrom]
    split
    next stops =>
      refine ⟨.inl, fun reported => reported.elim id ?_⟩
      rintro ⟨⟨found, member, rfl⟩, gone⟩
      rcases mem_cons.mp member with rfl | later
      · exact stops.resolve_left gone
      · exact (below found later stops).resolve_left gone
    · rw [ih distinct.2 (others.imp_of_mem fun isLater _ keeps reached => ?_)]
      · grind
      · grind

theorem mem_evicted (holds : ∀ chain ∈ chains, chain.chain.Holds settings tree height tip)
    (afterHolds : ∀ chain ∈ after.chainSet, chain.chain.Holds settings tree height tip) :
    hash ∈ chains.foldl (fun evicted chain =>
        after.evictedFrom chain.chain.listed.reverse evicted) ∅ ↔
      HeldIn chains hash ∧ ¬HeldIn after.chainSet hash := by
  induction chains using reverseRecOn generalizing hash with
  | nil => simp [HeldIn]
  | append_singleton others chain ih =>
    have othersHold : ∀ other ∈ others, other.chain.Holds settings tree height tip :=
      fun other member => holds other (mem_append_left _ member)
    have chainHolds := holds chain (by simp)
    rw [foldl_append, foldl_cons, foldl_nil, mem_evictedFrom, ih othersHold,
      anyChainContains_iff afterHolds]
    · simp only [HeldIn, mem_append, mem_singleton, mem_reverse]
      grind
    · rw [map_reverse, nodup_reverse]
      exact chainHolds.represents.hashes_nodup
    rw [pairwise_reverse, pairwise_iff_forall_sublist]
    intro earlier later inOrder reached
    obtain ⟨_, _, split, isEarlier, isLater⟩ := cons_sublist_iff.mp inOrder
    obtain ⟨_, middle, rfl⟩ := append_of_mem isEarlier
    have linked := chainHolds.linked
    rw [split, append_assoc, cons_append] at linked
    have below := mem_append_right middle (singleton_sublist.mp isLater)
    rw [ih othersHold, anyChainContains_iff afterHolds] at reached ⊢
    rcases reached with kept | ⟨reported, _⟩
    · exact .inl (kept.ancestor linked below afterHolds)
    · by_cases kept : HeldIn after.chainSet earlier.hash
      · exact .inl kept
      · exact .inr ⟨reported.ancestor linked below othersHold, kept⟩

end NonFinalizedState

/-- Between two reachable states with the same finalized tip, the evicted blocks are exactly those
in a chain of the first and in no chain of the second. -/
theorem evictedBlocks_exact [CommitmentHasher] (settings : ContextSettings History)
    (tree : BlockTree) (initial otherInitial : FinalizedState History)
    (before after : ChainState History)
    (tipHeight : tree.heightOf initial.tipHash = initial.tip.height)
    (otherTipHeight : tree.heightOf otherInitial.tipHash = otherInitial.tip.height)
    (run : ChainState.Run settings tree ⟨initial, .empty⟩ before)
    (otherRun : ChainState.Run settings tree ⟨otherInitial, .empty⟩ after)
    (sameTip : before.finalized.tipHash = after.finalized.tipHash) :
    (before.nonFinalized.evictedBlocks after.nonFinalized).Nodup ∧
    ∀ hash, hash ∈ before.nonFinalized.evictedBlocks after.nonFinalized ↔
      HeldIn before.nonFinalized.chainSet hash ∧ ¬HeldIn after.nonFinalized.chainSet hash := by
  have coherent := run.coherent tipHeight
  have other := otherRun.coherent otherTipHeight
  unfold ChainState.Coherent at coherent other
  rw [← other.tipHeight, ← sameTip, coherent.tipHeight] at other
  refine ⟨nodup_ascending _, fun hash => ?_⟩
  rw [evictedBlocks, mem_ascending, mem_evicted (fun chain member => coherent.holds chain
    (mem_reverse.mp member)) other.holds]
  simp [HeldIn]

end

namespace Sample

local instance runHasher : CommitmentHasher := hasher

def contextSettings : ContextSettings Unit :=
  { settings with
    shouldAllowUnshieldedCoinbaseSpends := false
    poolChange := poolChange
    remainingTransactionValue := fun _ _ => .ok ()
    blockCommitmentIsValid := fun _ _ _ => true }

def genesis : FinalizedState Unit where
  tip := tip
  tipHash := ⟨0⟩
  heightByHash := .singleton ⟨0⟩ 0
  utxos := .singleton (outpoint 0) (unspent 0 0 0)
  nullifiers := ∅
  anchors := fun _ => ∅
  sproutTreesByAnchor := ∅

def siblingTree : BlockTree where
  blockOf hash := if hash = ⟨1⟩ then proposed.block else mined.block
  heightOf hash := if hash = ⟨0⟩ then 0 else 1

def withoutProposal : Reusable Unit := ⟨none, .error .noResult⟩

def commitProposed : Operation Unit := .commitNewChain withoutProposal proposed

def committed : ChainState Unit :=
  (ChainState.apply contextSettings ⟨genesis, .empty⟩ commitProposed).2

def siblings : ChainState Unit :=
  (committed.apply contextSettings (.commitNewChain withoutProposal mined)).2

theorem committed_run : ChainState.Run contextSettings siblingTree ⟨genesis, .empty⟩ committed :=
  .step _ .initial ⟨⟨rfl, rfl, rfl⟩, rfl⟩

theorem siblings_run : ChainState.Run contextSettings siblingTree ⟨genesis, .empty⟩ siblings :=
  .step (.commitNewChain withoutProposal mined) committed_run ⟨⟨rfl, rfl, rfl⟩, rfl⟩

/-- A payment is held in two chains, and one of them is invalidated. -/
theorem run_sound_of_payment : siblings.nonFinalized.chainSet.length = 2 ∧
    (siblings.apply contextSettings (.invalidateBlock proposed.hash)).1 = .ok () ∧
    ChainState.Sound siblings := by
  refine ⟨by decide +kernel, by decide +kernel, ?_⟩
  exact (ChainState.run_sound contextSettings siblingTree genesis siblings rfl siblings_run).1

theorem run_writes_once_of_payment : siblings.nonFinalized.chainSet.length = 2 ∧
    ∀ held ∈ siblings.nonFinalized.chainSet,
      EnteredAll ((Chain.updatesOf settings held.chain.listed).filterMap (·.spentEntry settings)) ∅
        held.chain.index.spentUtxos :=
  ⟨by decide +kernel, fun _ member =>
    (ChainState.run_writes_once rfl siblings_run _ member).2.1⟩

theorem evictedBlocks_exact_of_payment :
    siblings.nonFinalized.evictedBlocks committed.nonFinalized = [mined.hash] ∧
    ∀ hash, hash ∈ siblings.nonFinalized.evictedBlocks committed.nonFinalized ↔
      HeldIn siblings.nonFinalized.chainSet hash ∧
        ¬HeldIn committed.nonFinalized.chainSet hash := by
  refine ⟨by decide +kernel, ?_⟩
  exact (evictedBlocks_exact contextSettings siblingTree genesis genesis siblings committed
    rfl rfl siblings_run committed_run rfl).2

end Sample

end Zakura.NonFinalized
