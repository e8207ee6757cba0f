import Mathlib.Algebra.Order.Field.Rat
import Zakura.Lib.Checked
import Zakura.Lib.FiniteMap
import Zakura.Lib.GraphWalk

/-!
The verified transactions of the mempool: their dependencies, what they spend and create,
their totals, and the eviction index that holds one candidate per transaction.
-/

namespace Zakura.Mempool

abbrev TxId := Nat

structure OutPoint where
  hash : TxId
  index : Nat
deriving DecidableEq

structure Output where
  value : Nat
  lockScript : List UInt8
deriving DecidableEq

inductive Pool
  | sprout
  | sapling
  | orchard
  | ironwood
deriving DecidableEq

/-- A spent outpoint or a revealed nullifier. The five sets of spent items are kept as one set of
tagged items. -/
inductive Spend
  | outpoint (outpoint : OutPoint)
  | nullifier (pool : Pool) (value : Nat)
deriving DecidableEq

structure UnminedTx where
  id : TxId
  spends : List Spend
  outputs : List Output
  size : Nat
deriving DecidableEq

structure VerifiedUnminedTx where
  transaction : UnminedTx
  minerFee : Nat
  time : Option Nat
  height : Option Nat
deriving DecidableEq

def mempoolTransactionCostThreshold : Nat := 10000

def VerifiedUnminedTx.cost (tx : VerifiedUnminedTx) : Nat :=
  max tx.transaction.size mempoolTransactionCostThreshold

theorem VerifiedUnminedTx.cost_pos (tx : VerifiedUnminedTx) : 0 < tx.cost :=
  lt_max_of_lt_right (by decide)

structure EvictionCost where
  fee : Nat
  cost : Nat
  positive : 0 < cost

namespace EvictionCost

def combine (first second : EvictionCost) : EvictionCost where
  fee := Checked.saturatingAdd first.fee second.fee
  cost := Checked.saturatingAdd first.cost second.cost
  positive := lt_min (Nat.add_pos_left first.positive _) (by decide)

def max (first second : EvictionCost) : EvictionCost :=
  if first.fee * second.cost ≤ second.fee * first.cost then second else first

def ratio (cost : EvictionCost) : ℚ := cost.fee / cost.cost

end EvictionCost

def VerifiedUnminedTx.evictionCost (tx : VerifiedUnminedTx) : EvictionCost :=
  ⟨tx.minerFee, tx.cost, tx.cost_pos⟩

/-- A score, followed by the insertion time and the hash. Equal candidates compare as equal. -/
structure EvictionCandidate where
  score : ℚ
  time : Option Nat
  id : TxId
deriving DecidableEq

inductive Fault
  | missingTransaction
  | candidateMissing
  | candidatePresent
  | underflow
  | overflow
  | outOfFuel
deriving DecidableEq

inductive SameEffectsTipRejectionError
  | spendConflict
  | missingOutput
  | tooManyAncestors
  | tooManyPackageTransactions
deriving DecidableEq

structure Iteration where
  order : Finset TxId → List TxId
  mem_order : ∀ ids id, id ∈ order ids ↔ id ∈ ids
  nodup_order : ∀ ids, (order ids).Nodup

structure TransactionDependencies where
  dependencies : FiniteMap TxId (Finset TxId)
  dependents : FiniteMap TxId (Finset TxId)

namespace TransactionDependencies

def directDependencies (graph : TransactionDependencies) (id : TxId) : Finset TxId :=
  graph.dependencies.members id

def directDependents (graph : TransactionDependencies) (id : TxId) : Finset TxId :=
  graph.dependents.members id

def add (dependent : TxId) (spentMempoolOutpoints : List OutPoint)
    (graph : TransactionDependencies) : TransactionDependencies where
  dependents := spentMempoolOutpoints.foldl
    (fun dependents outpoint => dependents.addMember outpoint.hash dependent) graph.dependents
  dependencies :=
    if spentMempoolOutpoints = [] then graph.dependencies
    else graph.dependencies.insert dependent (spentMempoolOutpoints.map OutPoint.hash).toFinset

variable (iteration : Iteration)

def clearMined (mined : TxId) (graph : TransactionDependencies) : TransactionDependencies where
  dependents := graph.dependents.erase mined
  dependencies := (iteration.order (graph.directDependents mined)).foldl
    (fun dependencies dependent => dependencies.removeMember dependent mined) graph.dependencies

def clearMinedDependencies (minedIds : Finset TxId) (graph : TransactionDependencies) :
    TransactionDependencies :=
  (iteration.order minedIds).foldl (fun graph mined => graph.clearMined iteration mined) graph

/-- Take a transaction out of the lists of its dependencies and drop its own lists. Returns its
dependents. -/
def detach (id : TxId) (graph : TransactionDependencies) :
    Finset TxId × TransactionDependencies :=
  let dependents := (iteration.order (graph.directDependencies id)).foldl
    (fun dependents dependency => dependents.removeMember dependency id) graph.dependents
  (dependents.members id, ⟨graph.dependencies.erase id, dependents.erase id⟩)

def detachLevel : List TxId → Finset TxId → TransactionDependencies →
    Finset TxId × TransactionDependencies
  | [], next, graph => (next, graph)
  | id :: rest, next, graph =>
    let (dependents, detached) := graph.detach iteration id
    detachLevel rest (next ∪ dependents) detached

def removeLevels : Nat → Finset TxId → Finset TxId → TransactionDependencies →
    Option (Finset TxId × TransactionDependencies)
  | fuel, level, found, graph =>
    if level = ∅ then some (found, graph)
    else
      match fuel with
      | 0 => none
      | fuel + 1 =>
        let (next, detached) := detachLevel iteration (iteration.order level) ∅ graph
        removeLevels fuel next (found ∪ next) detached

def removeAll (id : TxId) (graph : TransactionDependencies) :
    Option (Finset TxId × TransactionDependencies) :=
  removeLevels iteration (graph.dependencies.keys.card + 2) {id} ∅ graph

end TransactionDependencies

def maxMempoolPackageTransactions : Nat := 3

def maxMempoolAncestors : Nat := maxMempoolPackageTransactions - 1

structure VerifiedSet where
  transactions : FiniteMap TxId VerifiedUnminedTx
  evictionOrder : Finset EvictionCandidate
  graph : TransactionDependencies
  createdOutputs : FiniteMap OutPoint Output
  transactionsSerializedSize : Nat
  totalCost : Nat
  spent : Finset Spend

namespace VerifiedSet

def clear : VerifiedSet := ⟨∅, ∅, ⟨∅, ∅⟩, ∅, 0, 0, ∅⟩

variable (iteration : Iteration)

/-- The neighbours of a transaction, in the order in which they are popped. -/
def neighbours (graph : TransactionDependencies) (id : TxId) : List TxId :=
  (iteration.order (graph.directDependents id)).reverse ++
    (iteration.order (graph.directDependencies id)).reverse

/-- The transactions connected to the starts. Stops at the group limit. -/
def dependencyGroup (starts : List TxId) (set : VerifiedSet) : Finset TxId :=
  GraphWalk.boundedWalk (neighbours iteration set.graph) maxMempoolPackageTransactions ∅
    starts.reverse

/-- The parents and their ancestors. Stops after it finds more than the limit. -/
def ancestors (parents : Finset TxId) (set : VerifiedSet) : Finset TxId :=
  GraphWalk.boundedWalk (fun id => (iteration.order (set.graph.directDependencies id)).reverse)
    (maxMempoolAncestors + 1) ∅ (iteration.order parents).reverse

/-- The transactions that directly or indirectly spend outputs of a transaction. -/
def descendants (id : TxId) (removed : Finset TxId) (set : VerifiedSet) :
    Except Fault (Finset TxId) :=
  match GraphWalk.spread (fun id => iteration.order (set.graph.directDependents id))
      (fun dependent => dependent ∉ removed ∧ dependent ∈ set.transactions.keys)
      (1 + set.transactions.keys.card) ∅ [id] with
  | some found => .ok found
  | none => .error .outOfFuel

def costOf (transactions : FiniteMap TxId VerifiedUnminedTx) (id : TxId) :
    Except Fault EvictionCost :=
  match transactions.lookup id with
  | some tx => .ok tx.evictionCost
  | none => .error .missingTransaction

def combineCosts (transactions : FiniteMap TxId VerifiedUnminedTx) :
    List TxId → EvictionCost → Except Fault EvictionCost
  | [], combined => .ok combined
  | id :: rest, combined => do
      let cost ← costOf transactions id
      combineCosts transactions rest (combined.combine cost)

def package (id : TxId) (removed : Finset TxId) (set : VerifiedSet) :
    Except Fault EvictionCost := do
  let found ← set.descendants iteration id removed
  let own ← costOf set.transactions id
  combineCosts set.transactions (iteration.order found) own

def packageScore (id : TxId) (removed : Finset TxId) (set : VerifiedSet) :
    Except Fault EvictionCost := do
  let own ← costOf set.transactions id
  let combined ← set.package iteration id removed
  return own.max combined

def evictionCandidate (id : TxId) (removed : Finset TxId) (set : VerifiedSet) :
    Except Fault EvictionCandidate := do
  let score ← set.packageScore iteration id removed
  match set.transactions.lookup id with
  | some tx => return ⟨score.ratio, tx.time, id⟩
  | none => .error .missingTransaction

def withOrder (set : VerifiedSet) (order : Finset EvictionCandidate) : VerifiedSet :=
  { set with evictionOrder := order }

def withGraph (set : VerifiedSet) (graph : TransactionDependencies) : VerifiedSet :=
  { set with graph := graph }

/-- Remove a group's candidates before mutating transactions or dependencies. -/
def removeEvictionCandidates : List TxId → VerifiedSet → Except Fault VerifiedSet
  | [], set => .ok set
  | id :: rest, set => do
      let candidate ← set.evictionCandidate iteration id ∅
      if candidate ∈ set.evictionOrder then
        removeEvictionCandidates rest (set.withOrder (set.evictionOrder.erase candidate))
      else .error .candidateMissing

def insertEvictionCandidates : List TxId → VerifiedSet → Except Fault VerifiedSet
  | [], set => .ok set
  | id :: rest, set =>
    if id ∈ set.transactions.keys then do
      let candidate ← set.evictionCandidate iteration id ∅
      if candidate ∈ set.evictionOrder then .error .candidatePresent
      else insertEvictionCandidates rest (set.withOrder (insert candidate set.evictionOrder))
    else insertEvictionCandidates rest set

def hasSpendConflicts (tx : UnminedTx) (set : VerifiedSet) : Bool :=
  tx.spends.any (· ∈ set.spent)

def checkInsert (tx : UnminedTx) (spentMempoolOutpoints : List OutPoint) (set : VerifiedSet) :
    Except SameEffectsTipRejectionError (Finset TxId) :=
  if set.hasSpendConflicts tx then .error .spendConflict
  else if spentMempoolOutpoints.any (· ∉ set.createdOutputs.keys) then .error .missingOutput
  else
    let found := set.ancestors iteration (spentMempoolOutpoints.map OutPoint.hash).toFinset
    if maxMempoolAncestors < found.card then .error .tooManyAncestors
    else if maxMempoolPackageTransactions ≤
        (set.dependencyGroup iteration (iteration.order found)).card then
      .error .tooManyPackageTransactions
    else .ok found

-- A total past `u64` is recorded as a fault: a release build would wrap it.
def addU64 (first second : Nat) : Except Fault Nat :=
  match Checked.add first second with
  | some sum => .ok sum
  | none => .error .overflow

def createOutputs (id : TxId) : Nat → List Output → FiniteMap OutPoint Output →
    FiniteMap OutPoint Output
  | _, [], created => created
  | index, output :: rest, created =>
    createOutputs id (index + 1) rest (created.insert ⟨id, index⟩ output)

def store (tx : VerifiedUnminedTx) (spentMempoolOutpoints : List OutPoint) (set : VerifiedSet) :
    Except Fault VerifiedSet := do
  let size ← addU64 set.transactionsSerializedSize tx.transaction.size
  let cost ← addU64 set.totalCost tx.cost
  return { set with
    transactions := set.transactions.insert tx.transaction.id tx
    graph := set.graph.add tx.transaction.id spentMempoolOutpoints
    createdOutputs := createOutputs tx.transaction.id 0 tx.transaction.outputs set.createdOutputs
    spent := set.spent ∪ tx.transaction.spends.toFinset
    transactionsSerializedSize := size
    totalCost := cost }

def stamped (tx : VerifiedUnminedTx) (now : Nat) (height : Option Nat) : VerifiedUnminedTx :=
  { tx with time := some now, height := height }

def insertChecked (tx : VerifiedUnminedTx) (spentMempoolOutpoints : List OutPoint)
    (ancestors : Finset TxId) (set : VerifiedSet) : Except Fault VerifiedSet := do
  let affected := set.dependencyGroup iteration (iteration.order ancestors)
  let cleared ← set.removeEvictionCandidates iteration (iteration.order affected)
  let stored ← cleared.store tx spentMempoolOutpoints
  stored.insertEvictionCandidates iteration
    (iteration.order (stored.dependencyGroup iteration [tx.transaction.id]))

protected def insert (tx : VerifiedUnminedTx) (spentMempoolOutpoints : List OutPoint) (now : Nat)
    (height : Option Nat) (set : VerifiedSet) :
    Except Fault (Except SameEffectsTipRejectionError VerifiedSet) :=
  match set.checkInsert iteration tx.transaction spentMempoolOutpoints with
  | .error rejection => .ok (.error rejection)
  | .ok ancestors => do
      let inserted ← set.insertChecked iteration (stamped tx now height) spentMempoolOutpoints
        ancestors
      return .ok inserted

def minedGroup (minedIds : Finset TxId) (set : VerifiedSet) : Finset TxId :=
  (minedIds.filter (· ∈ set.transactions.keys)).biUnion fun id =>
    set.dependencyGroup iteration [id]

def clearMinedDependencies (minedIds : Finset TxId) (set : VerifiedSet) :
    Except Fault VerifiedSet := do
  let affected := set.minedGroup iteration minedIds
  let cleared ← set.removeEvictionCandidates iteration (iteration.order affected)
  let detached := cleared.withGraph (cleared.graph.clearMinedDependencies iteration minedIds)
  detached.insertEvictionCandidates iteration (iteration.order affected)

def subU64 (first second : Nat) : Except Fault Nat :=
  match Checked.sub first second with
  | some rest => .ok rest
  | none => .error .underflow

def drop (id : TxId) (tx : VerifiedUnminedTx) (set : VerifiedSet) : Except Fault VerifiedSet := do
  let size ← subU64 set.transactionsSerializedSize tx.transaction.size
  let cost ← subU64 set.totalCost tx.cost
  return { set with
    transactions := set.transactions.erase id
    createdOutputs := (List.range tx.transaction.outputs.length).foldl
      (fun created index => created.erase ⟨tx.transaction.id, index⟩) set.createdOutputs
    spent := set.spent \ tx.transaction.spends.toFinset
    transactionsSerializedSize := size
    totalCost := cost }

def dropAll : List TxId → VerifiedSet → Except Fault (List VerifiedUnminedTx × VerifiedSet)
  | [], set => .ok ([], set)
  | id :: rest, set =>
    match set.transactions.lookup id with
    | none => dropAll rest set
    | some tx => do
        let dropped ← set.drop id tx
        let (removed, final) ← dropAll rest dropped
        return (tx :: removed, final)

def detachAll (key : TxId) (set : VerifiedSet) : Except Fault (Finset TxId × VerifiedSet) :=
  match set.graph.removeAll iteration key with
  | some (found, graph) => .ok (found, set.withGraph graph)
  | none => .error .outOfFuel

/-- Remove a transaction and all that depend on it. The transaction is the last one returned. -/
def remove (key : TxId) (set : VerifiedSet) :
    Except Fault (List VerifiedUnminedTx × VerifiedSet) := do
  let affected := set.dependencyGroup iteration [key]
  let cleared ← set.removeEvictionCandidates iteration (iteration.order affected)
  let (found, detached) ← cleared.detachAll iteration key
  let (removed, rest) ← detached.dropAll (iteration.order found ++ [key])
  let final ← rest.insertEvictionCandidates iteration (iteration.order affected)
  return (removed, final)

def removeAll : List TxId → VerifiedSet → Except Fault (List VerifiedUnminedTx × VerifiedSet)
  | [], set => .ok ([], set)
  | key :: rest, set =>
    if key ∈ set.transactions.keys then do
      let (removed, next) ← set.remove iteration key
      let (later, final) ← removeAll rest next
      return (removed ++ later, final)
    else removeAll rest set

end VerifiedSet

end Zakura.Mempool
