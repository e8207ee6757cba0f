import Zakura.HeaderChain.Coherence

/-!
The eligibility queue settles every retained header, and the hashes it reports
cover every row it changed together with that row's parent.
-/

namespace Zakura.HeaderChain

open FiniteMap List Option

variable {State : Type}

namespace NodeTable

structure Lawful (table : NodeTable State) : Prop where
  get_put : ∀ {state hash old} (node : HeaderNode) (query : Hash), table.get state hash = some old →
    table.get (table.put state hash node) query =
      if query = hash then some node else table.get state query
  children_put : ∀ {state hash old} (node : HeaderNode) (query : Hash),
    table.get state hash = some old →
      table.children (table.put state hash node) query = table.children state query

inductive Writes (table : NodeTable State) (initial : State) : State → Prop
  | none : Writes table initial initial
  | put {state hash old} (inherited : Option Hash) : Writes table initial state →
      table.get state hash = some old →
        Writes table initial (table.put state hash (old.withInheritedFrom inherited))

structure Presents (table : NodeTable State) (state : State) (view : HeaderGraphView) : Prop where
  get : table.get state = view.find
  mem_children : ∀ hash child, child ∈ table.children state hash ↔ child ∈ view.childrenOf hash
  children_nodup : ∀ hash, (table.children state hash).Nodup

end NodeTable

def Settled (finalized : Hash) (find : Hash → Option HeaderNode) (hash : Hash) : Prop :=
  ∀ node parent, find hash = some node → hash ≠ finalized →
    find node.parentHash = some parent →
      node.eligibility.inheritedFrom = parent.inheritedByChildren node.parentHash

structure RecomputeProgress (table : NodeTable State) (view : HeaderGraphView)
    (domain : Finset Hash) (initial : State) (start : Hash) (fuel : Nat) (state : State)
    (visited : List Hash) (affected : Finset Hash) (queue : List Hash) : Prop where
  writes : table.Writes initial state
  children : ∀ hash, table.children state hash = table.children initial hash
  direct : SameDirect (table.get state) view.find
  root : table.get state view.finalized.hash = view.find view.finalized.hash
  settled : ∀ hash, hash ∉ queue → Settled view.finalized.hash (table.get state) hash
  touched : ∀ {hash node}, view.find hash = some node → table.get state hash ≠ some node →
    hash ∈ affected ∧ node.parentHash ∈ affected
  distinct : (visited ++ queue).Nodup
  queued : ∀ hash ∈ visited ++ queue, ∃ node, view.find hash = some node ∧
    hash ≠ view.finalized.hash ∧ (∀ startNode, view.find start = some startNode →
      startNode.height < node.height) ∧ (node.parentHash = start ∨ node.parentHash ∈ visited)
  enough : domain.card ≤ fuel + visited.length

structure Recomputed (table : NodeTable State) (view : HeaderGraphView) (initial state : State)
    (affected : Finset Hash) : Prop where
  writes : table.Writes initial state
  direct : SameDirect (table.get state) view.find
  root : table.get state view.finalized.hash = view.find view.finalized.hash
  settled : ∀ hash, Settled view.finalized.hash (table.get state) hash
  touched : ∀ {hash node}, view.find hash = some node → table.get state hash ≠ some node →
    hash ∈ affected ∧ node.parentHash ∈ affected

section

variable {table : NodeTable State} {view : HeaderGraphView} {domain : Finset Hash}
  {initial : State} {start : Hash} {fuel : Nat} {state : State} {visited : List Hash}
  {affected : Finset Hash} {hash : Hash} {queue : List Hash} {node parent : HeaderNode}

theorem RecomputeProgress.fuel_pos
    (progress : RecomputeProgress table view domain initial start fuel state visited affected
      (hash :: queue))
    (covered : ∀ {hash node}, view.find hash = some node → hash ∈ domain) : 0 < fuel := by
  have inside : (visited ++ hash :: queue).toFinset ⊆ domain := by
    intro other member
    obtain ⟨_, found, _⟩ := progress.queued other (mem_toFinset.mp member)
    exact covered found
  have bound := Finset.card_le_card inside
  rw [toFinset_card_of_nodup progress.distinct] at bound
  simp only [length_append, length_cons] at bound
  have enough := progress.enough
  omega

section

variable
  (progress : RecomputeProgress table view domain initial start (fuel + 1) state visited affected
    (hash :: queue))
  (found : table.get state hash = some node)
  (parentFound : table.get state node.parentHash = some parent)
include progress found parentFound

theorem RecomputeProgress.push (lawful : table.Lawful) (shaped : view.Shaped)
    (presents : table.Presents initial view) :
    RecomputeProgress table view domain initial start fuel (table.put state hash
        (node.withInheritedFrom (parent.inheritedByChildren node.parentHash)))
      (visited ++ [hash]) (insert node.parentHash (insert hash affected))
      (queue ++ table.children (table.put state hash
        (node.withInheritedFrom (parent.inheritedByChildren node.parentHash))) hash) := by
  obtain ⟨_, oldFound, notRoot, lower, _⟩ := progress.queued hash (by simp)
  obtain ⟨_, otherFound, rows⟩ := progress.direct.find found
  obtain rfl := mem_unique oldFound otherFound
  have links := SameLinks.of_directRow rows
  obtain ⟨_, oldParentFound, _⟩ := shaped.parent oldFound notRoot
  have parentDifferent : node.parentHash ≠ hash := by
    intro same
    rw [← links.parentHash, same] at oldParentFound
    obtain rfl := mem_unique oldFound oldParentFound
    omega
  set row := node.withInheritedFrom (parent.inheritedByChildren node.parentHash)
  have get (query : Hash) := lawful.get_put row query found
  have children (query : Hash) : table.children (table.put state hash row) query =
      table.children initial query :=
    (lawful.children_put row query found).trans (progress.children query)
  have same : visited ++ [hash] ++ (queue ++ table.children initial hash) =
      (visited ++ hash :: queue) ++ table.children initial hash := by simp
  rw [children]
  have notVisited : hash ∉ visited := by
    have distinct := progress.distinct
    rw [nodup_append] at distinct
    intro member
    exact distinct.2.2 hash member hash (by simp) rfl
  have notStart : hash ≠ start := by
    rintro rfl
    exact (lower _ oldFound).false
  constructor
  · exact NodeTable.Writes.put _ progress.writes found
  · exact children
  · intro query
    rw [get]
    split
    · subst query
      rw [oldFound]
      exact congrArg some rows
    · exact progress.direct query
  · rw [get, if_neg (Ne.symm notRoot)]
    exact progress.root
  · intro query unqueued queryNode queryParent queryFound queryNotRoot queryParentFound
    rw [get, ite_eq_some] at queryFound
    rcases queryFound with ⟨_, rfl⟩ | ⟨different, queryFound⟩
    · change table.get _ node.parentHash = _ at queryParentFound
      rw [get, if_neg parentDifferent, parentFound] at queryParentFound
      obtain rfl := some.inj queryParentFound
      rfl
    by_cases below : queryNode.parentHash = hash
    · exfalso
      obtain ⟨_, otherNodeFound, otherRows⟩ := progress.direct.find queryFound
      have otherLinks := SameLinks.of_directRow otherRows
      apply unqueued
      rw [mem_append, presents.mem_children]
      right
      rw [← below, otherLinks.parentHash]
      exact shaped.mem_children otherNodeFound queryNotRoot
    · rw [get, if_neg below] at queryParentFound
      apply progress.settled query _ _ _ queryFound queryNotRoot queryParentFound
      simp only [mem_cons, not_or]
      exact ⟨different, fun member => unqueued (by simp [member])⟩
  · intro query queryNode queryFound changed
    rw [get] at changed
    split at changed
    · subst query
      obtain rfl := mem_unique oldFound queryFound
      simp [links.parentHash]
    · obtain ⟨member, parentMember⟩ := progress.touched queryFound changed
      simp [member, parentMember]
  · rw [same, nodup_append]
    refine ⟨progress.distinct, presents.children_nodup hash, ?_⟩
    rintro first member _ pushed rfl
    obtain ⟨_, firstFound, _, _, firstOrigin⟩ := progress.queued first member
    rw [presents.mem_children, shaped.children] at pushed
    obtain ⟨childNode, childFound, _, link⟩ := pushed
    obtain rfl := mem_unique firstFound childFound
    rw [link] at firstOrigin
    rcases firstOrigin with same | earlier
    · exact notStart same
    · exact notVisited earlier
  · intro query member
    rw [same, mem_append, presents.mem_children] at member
    rcases member with earlier | pushed
    · obtain ⟨queryNode, queryFound, queryNotRoot, queryLower, origin⟩ :=
        progress.queued query earlier
      exact ⟨queryNode, queryFound, queryNotRoot, queryLower,
        origin.imp_right (mem_append_left _)⟩
    obtain ⟨childNode, childFound, childNotRoot, link, _⟩ := shaped.child_height oldFound pushed
    refine ⟨childNode, childFound, childNotRoot, ?_, .inr (by simp [link])⟩
    intro startNode startFound
    have below := lower startNode startFound
    omega
  · have enough := progress.enough
    simp only [length_append, length_singleton]
    omega

theorem RecomputeProgress.skip
    (right : node.eligibility.inheritedFrom = parent.inheritedByChildren node.parentHash) :
    RecomputeProgress table view domain initial start fuel state (visited ++ [hash])
      (insert node.parentHash affected) queue := by
  constructor
  · exact progress.writes
  · exact progress.children
  · exact progress.direct
  · exact progress.root
  · intro query unqueued
    by_cases same : query = hash
    · subst query
      intro queryNode queryParent queryFound _ queryParentFound
      obtain rfl := mem_unique found queryFound
      obtain rfl := mem_unique parentFound queryParentFound
      exact right
    · exact progress.settled query (by simp [same, unqueued])
  · intro query queryNode queryFound changed
    obtain ⟨member, parentMember⟩ := progress.touched queryFound changed
    simp [member, parentMember]
  · have distinct := progress.distinct
    simpa using distinct
  · intro query member
    obtain ⟨queryNode, queryFound, queryNotRoot, queryLower, queryOrigin⟩ :=
      progress.queued query (by simpa using member)
    exact ⟨queryNode, queryFound, queryNotRoot, queryLower,
      queryOrigin.imp_right (mem_append_left _)⟩
  · have enough := progress.enough
    simp only [length_append, length_singleton]
    omega

end

theorem RecomputeProgress.finished
    (progress : RecomputeProgress table view domain initial start fuel state visited affected []) :
    Recomputed table view initial state affected :=
  { progress with settled := fun hash => progress.settled hash (by simp) }

theorem recomputeLoop_spec (lawful : table.Lawful) (shaped : view.Shaped)
    (presents : table.Presents initial view)
    (covered : ∀ {hash node}, view.find hash = some node → hash ∈ domain) (stopEarly : Bool)
    (progress : RecomputeProgress table view domain initial start fuel state visited affected
      queue) : ∃ finalAffected finalState,
      recomputeLoop table stopEarly fuel state affected queue = (.ok finalAffected, finalState) ∧
        affected ⊆ finalAffected ∧ Recomputed table view initial finalState finalAffected := by
  induction fuel generalizing state visited affected queue with
  | zero =>
    cases queue with
    | nil => exact ⟨affected, state, rfl, Finset.Subset.refl _, progress.finished⟩
    | cons hash queue => exact absurd (progress.fuel_pos covered) (by omega)
  | succ fuel ih =>
    cases queue with
    | nil => exact ⟨affected, state, rfl, Finset.Subset.refl _, progress.finished⟩
    | cons hash queue =>
      obtain ⟨_, oldFound, notRoot, _, _⟩ := progress.queued hash (by simp)
      obtain ⟨_, found, rows⟩ := progress.direct.symm.find oldFound
      obtain ⟨_, oldParentFound, _⟩ := shaped.parent oldFound notRoot
      rw [(SameLinks.of_directRow rows).parentHash] at oldParentFound
      obtain ⟨parent, parentFound, _⟩ := progress.direct.symm.find oldParentFound
      simp only [recomputeLoop, found, parentFound]
      split
      next right =>
        obtain ⟨finalAffected, finalState, run, grows, done⟩ :=
          ih (progress.skip found parentFound right.2)
        exact ⟨finalAffected, finalState, run, (Finset.subset_insert _ _).trans grows, done⟩
      obtain ⟨finalAffected, finalState, run, grows, done⟩ :=
        ih (progress.push found parentFound lawful shaped presents)
      refine ⟨finalAffected, finalState, run, ?_, done⟩
      exact ((Finset.subset_insert _ _).trans (Finset.subset_insert _ _)).trans grows

end

end Zakura.HeaderChain
