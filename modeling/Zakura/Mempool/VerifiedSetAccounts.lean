import Zakura.Lib.Fallible
import Zakura.Lib.Totals
import Zakura.Mempool.VerifiedSetCore

/-!
What the set keeps about its transactions: the spent items, the created outputs and the
totals, and how storing and dropping a transaction changes them.
-/

namespace Zakura.Mempool

open FiniteMap Fallible Checked List

namespace VerifiedSet

variable {set next : VerifiedSet} {tx : VerifiedUnminedTx} {id : TxId} {outpoints : List OutPoint}

structure Accounts (set : VerifiedSet) : Prop where
  keyed : ∀ id tx, set.transactions.lookup id = some tx → tx.transaction.id = id
  spent : ∀ spend, spend ∈ set.spent ↔
    ∃ id tx, set.transactions.lookup id = some tx ∧ spend ∈ tx.transaction.spends
  apart : ∀ first second tx otherTx spend, set.transactions.lookup first = some tx →
    set.transactions.lookup second = some otherTx → spend ∈ tx.transaction.spends →
    spend ∈ otherTx.transaction.spends → first = second
  created : ∀ outpoint, set.createdOutputs.lookup outpoint =
    (set.transactions.lookup outpoint.hash).bind fun tx => tx.transaction.outputs[outpoint.index]?
  size : set.transactionsSerializedSize = set.transactions.total fun tx => tx.transaction.size
  cost : set.totalCost = set.transactions.total VerifiedUnminedTx.cost

theorem Accounts.withOrder (accounts : set.Accounts) (order : Finset EvictionCandidate) :
    (set.withOrder order).Accounts :=
  { accounts with }

theorem Accounts.withGraph (accounts : set.Accounts) (graph : TransactionDependencies) :
    (set.withGraph graph).Accounts :=
  { accounts with }

theorem lookup_createOutputs (id : TxId) (index : Nat) (outputs : List Output)
    (created : FiniteMap OutPoint Output) (outpoint : OutPoint) :
    (createOutputs id index outputs created).lookup outpoint =
      if outpoint.hash = id ∧ index ≤ outpoint.index then
        (outputs[outpoint.index - index]?).or (created.lookup outpoint)
      else created.lookup outpoint := by
  induction outputs generalizing index created with
  | nil => simp [createOutputs]
  | cons output rest ih =>
    obtain ⟨hash, position⟩ := outpoint
    rw [createOutputs, ih, lookup_insert_ite]
    dsimp only
    by_cases same : hash = id
    · subst same
      rcases Nat.lt_trichotomy index position with _ | rfl | _
      · have later : position - index = position - (index + 1) + 1 := by omega
        rw [if_pos ⟨rfl, by omega⟩, if_neg (by simp; omega), if_pos ⟨rfl, by omega⟩, later,
          getElem?_cons_succ]
      · rw [if_neg (by omega), if_pos rfl, if_pos ⟨rfl, Nat.le_refl _⟩, Nat.sub_self]
        rfl
      · rw [if_neg (by omega), if_neg (by simp; omega), if_neg (by omega)]
    · rw [if_neg (fun found => same found.1), if_neg (by simp [same]),
        if_neg (fun found => same found.1)]

structure Stored (tx : VerifiedUnminedTx) (outpoints : List OutPoint) (set next : VerifiedSet) :
    Prop where
  accounts : next.Accounts
  transactions : next.transactions = set.transactions.insert tx.transaction.id tx
  graph : next.graph = set.graph.add tx.transaction.id outpoints
  evictionOrder : next.evictionOrder = set.evictionOrder

theorem lookup_stored (transactions : next.transactions = set.transactions.insert tx.transaction.id tx)
    (query : TxId) : next.transactions.lookup query =
      if query = tx.transaction.id then some tx else set.transactions.lookup query := by
  rw [transactions]
  exact lookup_insert_ite _ _ _ _

theorem Accounts.stored (accounts : set.Accounts)
    (absent : set.transactions.lookup tx.transaction.id = none)
    (fresh : ∀ spend ∈ tx.transaction.spends, spend ∉ set.spent)
    (transactions : next.transactions = set.transactions.insert tx.transaction.id tx)
    (created : next.createdOutputs = createOutputs tx.transaction.id 0 tx.transaction.outputs
      set.createdOutputs) (spent : next.spent = set.spent ∪ tx.transaction.spends.toFinset)
    (size : next.transactionsSerializedSize = set.transactionsSerializedSize + tx.transaction.size)
    (cost : next.totalCost = set.totalCost + tx.cost) : next.Accounts := by
  have lookups := lookup_stored transactions
  have old : ∀ {query otherTx}, next.transactions.lookup query = some otherTx →
      query ≠ tx.transaction.id → set.transactions.lookup query = some otherTx := by
    intro query otherTx found differs
    rwa [lookups, if_neg differs] at found
  have isNew : ∀ {otherTx}, next.transactions.lookup tx.transaction.id = some otherTx →
      tx = otherTx := by
    intro otherTx found
    rw [lookups, if_pos rfl] at found
    exact Option.some.inj found
  have differs : ∀ {query otherTx spend}, set.transactions.lookup query = some otherTx →
      spend ∈ otherTx.transaction.spends → spend ∉ tx.transaction.spends := by
    intro query otherTx spend found spends again
    exact fresh spend again ((accounts.spent spend).mpr ⟨query, otherTx, found, spends⟩)
  refine ⟨?_, ?_, ?_, ?_, ?_, ?_⟩
  · intro query otherTx found
    by_cases same : query = tx.transaction.id
    · subst same
      rw [isNew found]
    · exact accounts.keyed query otherTx (old found same)
  · intro spend
    rw [spent, Finset.mem_union, mem_toFinset, accounts.spent]
    constructor
    · rintro (⟨query, otherTx, found, spends⟩ | spends)
      · refine ⟨query, otherTx, ?_, spends⟩
        rw [lookups, if_neg, found]
        rintro rfl
        rw [absent] at found
        cases found
      · exact ⟨tx.transaction.id, tx, by rw [lookups, if_pos rfl], spends⟩
    · rintro ⟨query, otherTx, found, spends⟩
      by_cases same : query = tx.transaction.id
      · subst same
        exact .inr (isNew found ▸ spends)
      · exact .inl ⟨query, otherTx, old found same, spends⟩
  · intro first second firstTx secondTx spend foundFirst foundSecond spendsFirst spendsSecond
    by_cases isFirst : first = tx.transaction.id
    · by_cases isSecond : second = tx.transaction.id
      · exact isFirst.trans isSecond.symm
      · subst isFirst
        exact absurd (isNew foundFirst ▸ spendsFirst) (differs (old foundSecond isSecond) spendsSecond)
    by_cases isSecond : second = tx.transaction.id
    · subst isSecond
      exact absurd (isNew foundSecond ▸ spendsSecond) (differs (old foundFirst isFirst) spendsFirst)
    · exact accounts.apart first second firstTx secondTx spend (old foundFirst isFirst)
        (old foundSecond isSecond) spendsFirst spendsSecond
  · intro outpoint
    rw [created, lookup_createOutputs, lookups, accounts.created]
    by_cases same : outpoint.hash = tx.transaction.id
    · rw [if_pos ⟨same, Nat.zero_le _⟩, if_pos same, same, absent, Nat.sub_zero, Option.bind_none,
        Option.or_none, Option.bind_some]
    · rw [if_neg fun found => same found.1, if_neg same]
  · rw [size, transactions, accounts.size, total_insert_of_absent absent]
  · rw [cost, transactions, accounts.cost, total_insert_of_absent absent]

theorem addU64_cases (first second : Nat) :
    (addU64 first second = .error .overflow ∧ u64Max < first + second) ∨
      addU64 first second = .ok (first + second) := by
  unfold addU64
  by_cases fits : first + second ≤ u64Max
  · rw [add_of_le fits]
    exact .inr rfl
  · refine .inl ⟨?_, Nat.lt_of_not_le fits⟩
    unfold add
    rw [if_neg fits]

theorem store_spec (accounts : set.Accounts) (tx : VerifiedUnminedTx) (outpoints : List OutPoint)
    (absent : set.transactions.lookup tx.transaction.id = none)
    (fresh : ∀ spend ∈ tx.transaction.spends, spend ∉ set.spent) :
    (set.store tx outpoints = .error .overflow ∧
      (u64Max < set.transactionsSerializedSize + tx.transaction.size ∨
        u64Max < set.totalCost + tx.cost)) ∨
    ∃ next, set.store tx outpoints = .ok next ∧ Stored tx outpoints set next := by
  unfold store
  rcases addU64_cases set.transactionsSerializedSize tx.transaction.size with
    ⟨failed, large⟩ | size
  · rw [failed]
    exact .inl ⟨rfl, .inl large⟩
  rw [bind_of_ok size]
  rcases addU64_cases set.totalCost tx.cost with ⟨failed, large⟩ | cost
  · rw [failed]
    exact .inl ⟨rfl, .inr large⟩
  · rw [bind_of_ok cost]
    exact .inr ⟨_, rfl, accounts.stored absent fresh rfl rfl rfl rfl rfl, rfl, rfl, rfl⟩

theorem lookup_foldl_erase (id : TxId) (count : Nat) (created : FiniteMap OutPoint Output)
    (outpoint : OutPoint) :
    ((List.range count).foldl (fun created index => created.erase ⟨id, index⟩) created).lookup
        outpoint =
      if outpoint.hash = id ∧ outpoint.index < count then none else created.lookup outpoint := by
  induction count with
  | zero => simp
  | succ count ih =>
    obtain ⟨hash, position⟩ := outpoint
    rw [range_succ, foldl_append, foldl_cons, foldl_nil, lookup_erase_ite,
      ih]
    by_cases isLast : hash = id ∧ position = count
    · obtain ⟨rfl, rfl⟩ := isLast
      rw [if_pos rfl, if_pos ⟨rfl, Nat.lt_succ_self _⟩]
    rw [if_neg (by simpa using isLast)]
    refine if_congr ⟨?_, ?_⟩ rfl rfl
    · exact fun found => ⟨found.1, found.2.trans (Nat.lt_succ_self _)⟩
    · rintro ⟨same, below⟩
      refine ⟨same, Nat.lt_of_le_of_ne (Nat.le_of_lt_succ below) fun isPosition => ?_⟩
      exact isLast ⟨same, isPosition⟩

section

variable (accounts : set.Accounts) (found : set.transactions.lookup id = some tx)
include accounts found

theorem Accounts.size_erase :
    total (fun tx => tx.transaction.size) (set.transactions.erase id) + tx.transaction.size =
      set.transactionsSerializedSize := by
  rw [accounts.size]
  exact total_erase found

theorem Accounts.cost_erase :
    total VerifiedUnminedTx.cost (set.transactions.erase id) + tx.cost = set.totalCost := by
  rw [accounts.cost]
  exact total_erase found

theorem Accounts.dropped (transactions : next.transactions = set.transactions.erase id)
    (created : next.createdOutputs = (List.range tx.transaction.outputs.length).foldl (fun created
      index => created.erase ⟨tx.transaction.id, index⟩) set.createdOutputs)
    (spent : next.spent = set.spent \ tx.transaction.spends.toFinset)
    (size : next.transactionsSerializedSize + tx.transaction.size = set.transactionsSerializedSize)
    (cost : next.totalCost + tx.cost = set.totalCost) : next.Accounts := by
  have lookups : ∀ query, next.transactions.lookup query =
      if query = id then none else set.transactions.lookup query := fun query => by
    rw [transactions]
    exact lookup_erase_ite _ _ _
  have old : ∀ {query otherTx}, next.transactions.lookup query = some otherTx →
      query ≠ id ∧ set.transactions.lookup query = some otherTx := by
    intro query otherTx isOther
    rw [lookups, Option.ite_none_left_eq_some] at isOther
    obtain ⟨differs, isOther⟩ := isOther
    exact ⟨differs, isOther⟩
  have isId := accounts.keyed id tx found
  refine ⟨?_, ?_, ?_, ?_, ?_, ?_⟩
  · exact fun query otherTx isOther => accounts.keyed query otherTx (old isOther).2
  · intro spend
    rw [spent, Finset.mem_sdiff, mem_toFinset, accounts.spent]
    constructor
    · rintro ⟨⟨query, otherTx, isOther, spends⟩, unspent⟩
      refine ⟨query, otherTx, ?_, spends⟩
      rw [lookups, if_neg, isOther]
      rintro rfl
      rw [found] at isOther
      obtain rfl := Option.some.inj isOther
      exact unspent spends
    · rintro ⟨query, otherTx, isOther, spends⟩
      obtain ⟨differs, isOther⟩ := old isOther
      refine ⟨⟨query, otherTx, isOther, spends⟩, fun again => differs ?_⟩
      exact accounts.apart query id otherTx tx spend isOther found spends again
  · intro first second firstTx secondTx spend foundFirst foundSecond
    exact accounts.apart first second firstTx secondTx spend (old foundFirst).2 (old foundSecond).2
  · intro outpoint
    rw [created, lookup_foldl_erase, lookups, accounts.created, isId]
    by_cases same : outpoint.hash = id
    · rw [if_pos same, same, found, Option.bind_some, Option.bind_none]
      split
      · rfl
      next outside =>
        exact getElem?_eq_none (Nat.le_of_not_lt fun inside => outside ⟨rfl, inside⟩)
    · rw [if_neg fun both => same both.1, if_neg same]
  · have balance := accounts.size_erase found
    rw [transactions]
    omega
  · have balance := accounts.cost_erase found
    rw [transactions]
    omega

end

theorem subU64_of_le {first second : Nat} (fits : second ≤ first) :
    subU64 first second = .ok (first - second) := by
  unfold subU64
  rw [sub_of_le fits]

structure Dropped (ids : List TxId) (set next : VerifiedSet) : Prop where
  accounts : next.Accounts
  lookup : ∀ query, next.transactions.lookup query =
    if query ∈ ids then none else set.transactions.lookup query
  graph : next.graph = set.graph
  evictionOrder : next.evictionOrder = set.evictionOrder

theorem drop_spec (accounts : set.Accounts) (found : set.transactions.lookup id = some tx) :
    ∃ next, set.drop id tx = .ok next ∧ Dropped [id] set next := by
  have sizes := accounts.size_erase found
  have costs := accounts.cost_erase found
  have size : subU64 set.transactionsSerializedSize tx.transaction.size =
      .ok (set.transactionsSerializedSize - tx.transaction.size) := subU64_of_le (by omega)
  have cost : subU64 set.totalCost tx.cost = .ok (set.totalCost - tx.cost) :=
    subU64_of_le (by omega)
  unfold drop
  rw [bind_of_ok size, bind_of_ok cost]
  refine ⟨_, rfl, accounts.dropped found rfl rfl rfl ?_ ?_, fun query => ?_, rfl, rfl⟩
  · dsimp only
    omega
  · dsimp only
    omega
  · simp only [mem_singleton]
    exact lookup_erase_ite _ _ _

theorem dropAll_spec (accounts : set.Accounts) (ids : List TxId) :
    ∃ removed next, set.dropAll ids = .ok (removed, next) ∧ Dropped ids set next := by
  induction ids generalizing set with
  | nil => exact ⟨[], set, rfl, accounts, fun _ => (if_neg not_mem_nil).symm, rfl, rfl⟩
  | cons id rest ih =>
    rw [dropAll]
    cases found : set.transactions.lookup id with
    | none =>
      obtain ⟨removed, next, dropped, spec⟩ := ih accounts
      refine ⟨removed, next, dropped, spec.accounts, fun query => ?_, spec.graph,
        spec.evictionOrder⟩
      rw [spec.lookup]
      by_cases same : query = id
      · subst same
        rw [found, if_pos (mem_cons_self ..), ite_self]
      · refine if_congr ?_ rfl rfl
        rw [mem_cons, or_iff_right same]
    | some tx =>
      obtain ⟨_, isDropped, first⟩ := drop_spec accounts found
      obtain ⟨removed, next, dropped, spec⟩ := ih first.accounts
      refine ⟨tx :: removed, next, ?_, spec.accounts, fun query => ?_,
        spec.graph.trans first.graph, spec.evictionOrder.trans first.evictionOrder⟩
      · dsimp only
        rw [bind_of_ok isDropped, bind_of_ok dropped]
        rfl
      rw [spec.lookup, first.lookup]
      simp only [mem_singleton]
      by_cases same : query = id
      · subst same
        rw [if_pos rfl, if_pos (mem_cons_self ..), ite_self]
      · rw [if_neg same]
        refine if_congr ?_ rfl rfl
        rw [mem_cons, or_iff_right same]

end VerifiedSet

end Zakura.Mempool
