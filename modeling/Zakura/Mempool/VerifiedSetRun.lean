import Zakura.Mempool.VerifiedSetSteps

/-!
The operations on the set, and what holds after every sequence of them.
-/

namespace Zakura.Mempool

open FiniteMap Relation Fallible Except

namespace VerifiedSet

inductive Operation
  | insert (tx : VerifiedUnminedTx) (spentMempoolOutpoints : List OutPoint) (now : Nat)
      (height : Option Nat)
  | remove (key : TxId)
  | removeAll (keys : List TxId)
  | clearMinedDependencies (minedIds : Finset TxId)
  | clear

def Operation.apply (iteration : Iteration) (set : VerifiedSet) :
    Operation → Except Fault VerifiedSet
  | .insert tx outpoints now height => do
      match ← set.insert iteration tx outpoints now height with
      | .ok next => return next
      | .error _ => return set
  | .remove key => do
      let (_, next) ← set.remove iteration key
      return next
  | .removeAll keys => do
      let (_, next) ← set.removeAll iteration keys
      return next
  | .clearMinedDependencies minedIds => set.clearMinedDependencies iteration minedIds
  | .clear => .ok VerifiedSet.clear

def Operation.Admissible (effects : TxId → List Spend) : Operation → Prop
  | .insert tx _ _ _ =>
    tx.transaction.spends = effects tx.transaction.id ∧ tx.transaction.spends ≠ []
  | _ => True

inductive Reachable (effects : TxId → List Spend) : VerifiedSet → Prop
  | new : Reachable effects clear
  | step {set next : VerifiedSet} (iteration : Iteration) (operation : Operation) :
      Reachable effects set → operation.Admissible effects →
      operation.apply iteration set = .ok next → Reachable effects next

variable {effects : TxId → List Spend} {set final : VerifiedSet}

def applyAll (iteration : Iteration) : List Operation → VerifiedSet → Except Fault VerifiedSet
  | [], set => .ok set
  | operation :: rest, set => do
      let next ← operation.apply iteration set
      applyAll iteration rest next

theorem Reachable.applyAll {iteration : Iteration} {operations : List Operation}
    (reachable : Reachable effects set)
    (admissible : ∀ operation ∈ operations, operation.Admissible effects)
    (applied : VerifiedSet.applyAll iteration operations set = .ok final) :
    Reachable effects final := by
  induction operations generalizing set with
  | nil => exact ok.inj applied ▸ reachable
  | cons operation rest ih =>
    obtain ⟨_, isNext, later⟩ := bind_eq_ok.mp applied
    exact ih (reachable.step iteration operation (admissible _ (List.mem_cons_self ..))
      isNext) (fun other listed => admissible other (List.mem_cons_of_mem _ listed)) later

inductive Ends (effects : TxId → List Spend) (set : VerifiedSet) :
    Operation → Except Fault VerifiedSet → Prop
  | done {operation : Operation} {next : VerifiedSet} :
      Sound effects next → Ends effects set operation (.ok next)
  | missing {key : TxId} : key ∉ set.transactions.keys →
      Ends effects set (.remove key) (.error .missingTransaction)
  | overflow {tx : VerifiedUnminedTx} {outpoints : List OutPoint} {now : Nat}
      {height : Option Nat} :
      Checked.u64Max < set.transactionsSerializedSize + tx.transaction.size ∨
        Checked.u64Max < set.totalCost + tx.cost →
      Ends effects set (.insert tx outpoints now height) (.error .overflow)

theorem Sound.ends (sound : Sound effects set) (iteration : Iteration) (operation : Operation)
    (admissible : operation.Admissible effects) :
    Ends effects set operation (operation.apply iteration set) := by
  cases operation with
  | insert tx outpoints now height =>
    dsimp only [Operation.apply]
    rcases sound.insert iteration tx outpoints now height admissible.1 admissible.2 with
      ⟨rejection, rejected⟩ | ⟨failed, large⟩ | ⟨next, inserted, nextSound⟩
    · rw [bind_of_ok rejected]
      exact .done sound
    · rw [failed]
      exact .overflow large
    · rw [bind_of_ok inserted]
      exact .done nextSound
  | remove key =>
    dsimp only [Operation.apply]
    by_cases isStored : key ∈ set.transactions.keys
    · obtain ⟨removed, next, isRemoved, nextSound⟩ := sound.remove iteration isStored
      rw [bind_of_ok isRemoved]
      exact .done nextSound
    · rw [sound.remove_missing iteration isStored]
      exact .missing isStored
  | removeAll keys =>
    dsimp only [Operation.apply]
    obtain ⟨removed, next, isRemoved, nextSound⟩ := sound.removeAll iteration keys
    rw [bind_of_ok isRemoved]
    exact .done nextSound
  | clearMinedDependencies minedIds =>
    dsimp only [Operation.apply]
    obtain ⟨next, cleared, nextSound⟩ := sound.clearMinedDependencies iteration minedIds
    rw [cleared]
    exact .done nextSound
  | clear => exact .done (sound_clear effects)

theorem Reachable.sound (reachable : Reachable effects set) : Sound effects set := by
  induction reachable with
  | new => exact sound_clear effects
  | step iteration operation _ admissible applied ih =>
    have ends := ih.ends iteration operation admissible
    rw [applied] at ends
    cases ends with
    | done nextSound => exact nextSound

theorem Sound.index (sound : Sound effects set) :
    (∀ id ∈ set.transactions.keys, ∃ candidate, set.freshCandidate id = .ok candidate ∧
      candidate.id = id ∧ candidate ∈ set.evictionOrder ∧
      ∀ other ∈ set.evictionOrder, other.id = id → other = candidate) ∧
    ∀ candidate ∈ set.evictionOrder, candidate.id ∈ set.transactions.keys := by
  refine ⟨fun id isStored => ?_, fun candidate listed =>
    sound.indexed.id_mem sound.linked (Finset.Subset.refl _) listed⟩
  obtain ⟨candidate, _, isFresh, isId⟩ :=
    evictionCandidate_eq_fresh ascendingIteration sound.linked isStored
  refine ⟨candidate, isFresh, isId, (sound.indexed candidate).mpr ⟨id, isStored, isFresh⟩, ?_⟩
  intro other listed sameId
  obtain ⟨_, isOther, otherFresh⟩ := (sound.indexed other).mp listed
  obtain ⟨_, _, isAgain, isAgainId⟩ :=
    evictionCandidate_eq_fresh ascendingIteration sound.linked isOther
  obtain rfl := ok.inj (isAgain.symm.trans otherFresh)
  obtain rfl := isAgainId.symm.trans sameId
  exact ok.inj (otherFresh.symm.trans isFresh)

/-- After any operations, the index, the dependency maps, the groups and the accounts are those of
the stored transactions. No operation finds a wrong index or an underflow: one can only fail by
removing a transaction that is not stored, or by a total that leaves its range. -/
theorem Reachable.set_invariant (reachable : Reachable effects set) :
    ((∀ id ∈ set.transactions.keys, ∃ candidate, set.freshCandidate id = .ok candidate ∧
        candidate.id = id ∧ candidate ∈ set.evictionOrder ∧
        ∀ other ∈ set.evictionOrder, other.id = id → other = candidate) ∧
      ∀ candidate ∈ set.evictionOrder, candidate.id ∈ set.transactions.keys) ∧
    set.graph.Mirrored ∧ set.LinksStored ∧
    (∀ id (connected : Finset TxId), (∀ other ∈ connected,
      ReflTransGen set.graph.Linked id other) → connected.card ≤ 3) ∧
    set.Accounts ∧
    ∀ (iteration : Iteration) (operation : Operation), operation.Admissible effects →
      (∃ next, operation.apply iteration set = .ok next) ∨
      (operation.apply iteration set = .error .missingTransaction ∧
        ∃ key, operation = .remove key ∧ key ∉ set.transactions.keys) ∨
      (operation.apply iteration set = .error .overflow ∧
        ∃ tx outpoints now height, operation = .insert tx outpoints now height ∧
          (Checked.u64Max < set.transactionsSerializedSize + tx.transaction.size ∨
            Checked.u64Max < set.totalCost + tx.cost)) := by
  have sound := reachable.sound
  refine ⟨sound.index, sound.mirrored, sound.linked,
    fun id connected reached => sound.bounded.card_le reached, sound.accounts, ?_⟩
  intro iteration operation admissible
  have ends := sound.ends iteration operation admissible
  generalize operation.apply iteration set = result at ends
  cases ends with
  | done _ => exact .inl ⟨_, rfl⟩
  | missing absent => exact .inr (.inl ⟨rfl, _, rfl, absent⟩)
  | overflow large => exact .inr (.inr ⟨rfl, _, _, _, _, rfl, large⟩)

end VerifiedSet

namespace Sample

def spends : TxId → List Spend
  | 1 => [.nullifier .sapling 7]
  | 2 => [.outpoint ⟨1, 0⟩]
  | 3 => [.outpoint ⟨1, 1⟩, .nullifier .orchard 8]
  | _ => []

def transaction (id fee : Nat) : VerifiedUnminedTx :=
  ⟨⟨id, spends id, [⟨5, []⟩, ⟨6, []⟩], 2500⟩, fee, none, none⟩

def operations : List VerifiedSet.Operation :=
  [.insert (transaction 1 10000) [] 1 none, .insert (transaction 2 30000) [⟨1, 0⟩] 2 none,
    .insert (transaction 3 20000) [⟨1, 1⟩] 3 none]

theorem operations_admissible : ∀ operation ∈ operations, operation.Admissible spends := by
  intro operation listed
  simp only [operations, List.mem_cons, List.not_mem_nil, or_false] at listed
  rcases listed with rfl | rfl | rfl
  · exact ⟨rfl, by decide⟩
  · exact ⟨rfl, by decide⟩
  · exact ⟨rfl, by decide⟩

theorem applyAll_ok : (VerifiedSet.applyAll ascendingIteration operations .clear).isOk = true := by
  decide +kernel

def final : VerifiedSet := value _ applyAll_ok

theorem final_reachable : VerifiedSet.Reachable spends final :=
  VerifiedSet.Reachable.new.applyAll operations_admissible (eq_value applyAll_ok)

theorem invariant_of_package :
    VerifiedSet.Reachable spends final ∧ final.transactions.keys = {1, 2, 3} ∧
    final.totalCost = 30000 ∧ (∃ candidate, final.freshCandidate 1 = .ok candidate ∧
      candidate.score = 2 ∧ candidate ∈ final.evictionOrder) ∧ final.graph.Mirrored := by
  obtain ⟨⟨index, _⟩, mirrored, _⟩ := final_reachable.set_invariant
  have stored : final.transactions.keys = {1, 2, 3} := by decide +kernel
  obtain ⟨candidate, isFresh, _, listed, _⟩ := index 1 (by rw [stored]; decide)
  have scored : (final.freshCandidate 1).map EvictionCandidate.score = .ok 2 := by decide +kernel
  rw [isFresh] at scored
  exact ⟨final_reachable, stored, by decide +kernel,
    ⟨candidate, isFresh, ok.inj scored, listed⟩, mirrored⟩

end Sample

end Zakura.Mempool
