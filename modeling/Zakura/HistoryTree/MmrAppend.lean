import Zakura.HistoryTree.MmrRefinement

/-!
Appending one leaf: the merged peaks, the nodes that are persisted and the new root, and
the only way an append fails.
-/

namespace Zakura.HistoryTree

open MountainRange FiniteMap Fallible List MmrTree

variable {Data : Type} {version : Version Data} {leaf : Nat → Data}
  {first branch count altitude start stop half : Nat} {tree next : MmrTree Data}
  {range done rest : List (Nat × Nat)} {mountain : Nat × Nat} {data whole before : Data}
  {entry : Entry Data} {link : EntryLink}

def pushed (entry : Entry Data) (tree : MmrTree Data) : MmrTree Data :=
  { tree.store tree.storedCount entry with storedCount := tree.storedCount + 1 }

theorem push_spec (entry : Entry Data) (room : tree.storedCount + 1 < u32Limit) :
    tree.push entry = .ok (.stored tree.storedCount, pushed entry tree) :=
  if_pos room

theorem extends_pushed (entry : Entry Data) (below : StoredBelow tree tree.storedCount) :
    Extends tree (pushed entry tree) :=
  ⟨(extends_store below).stored, fun _ _ found => found⟩

theorem storedBelow_pushed (below : StoredBelow tree tree.storedCount) :
    StoredBelow (pushed entry tree) (pushed entry tree).storedCount :=
  storedBelow_store (below.mono (Nat.le_succ _)) (Nat.lt_succ_self _)

theorem lookup_pushed (tree : MmrTree Data) (entry : Entry Data) :
    (pushed entry tree).stored.lookup tree.storedCount = some entry :=
  lookup_store _ _ _

def Writable (entry : Entry Data) : Prop :=
  entry.kind = .leaf ∨ ∃ left right, entry.kind = .node (.stored left) (.stored right)

def StoresAll (version : Version Data) (leaf : Nat → Data) (tree : MmrTree Data)
    (range : List (Nat × Nat)) : Prop :=
  ∀ mountain ∈ range, ∃ entry, Stores version leaf tree mountain entry

theorem Bagged.storesAll (bagged : Bagged version leaf tree range link data) :
    StoresAll version leaf tree range := by
  induction bagged with
  | @single mountain entry stores =>
    intro other listed
    exact ⟨entry, mem_singleton.mp listed ▸ stores⟩
  | @node done mountain link left entry whole index before stores combined generated ih =>
    intro other listed
    rcases mem_append.mp listed with earlier | isLast
    · exact ih other earlier
    · exact ⟨entry, mem_singleton.mp isLast ▸ stores⟩

theorem mergePeaks_settled (stack appended : List EntryLink)
    (leaves : Consecutive version leaf first branch count)
    (stores : StoresAll version leaf tree (mountain :: rest))
    (within : ∀ other ∈ mountain :: rest, other.2 + 2 ^ other.1 ≤ count)
    (ascends : (mountain :: rest).Pairwise fun left right => left.1 < right.1) :
    mergePeaks version (rest.map peakLink) (peakLink mountain :: stack) appended tree =
      .ok (((rest.reverse.map peakLink) ++ peakLink mountain :: stack, appended), tree) := by
  induction rest generalizing mountain stack with
  | nil => rfl
  | cons next rest ih =>
    obtain ⟨_, stored⟩ := stores mountain (mem_cons_self ..)
    obtain ⟨_, nextStored⟩ := stores next (mem_cons_of_mem _ (mem_cons_self ..))
    have counted := (leaves.perfect (within mountain (mem_cons_self ..)) stored.2).leafCount
      leaves.positive (Nat.le_add_right _ _)
    have nextCounted := (leaves.perfect (within next (mem_cons_of_mem _
      (mem_cons_self ..))) nextStored.2).leafCount leaves.positive (Nat.le_add_right _ _)
    rw [Nat.add_sub_cancel_left] at counted nextCounted
    obtain ⟨lower, restAscends⟩ := pairwise_cons.mp ascends
    have differs : 2 ^ next.1 ≠ 2 ^ mountain.1 := fun same => by
      have higher := lower next (mem_cons_self ..)
      have equal := Nat.pow_right_injective (Nat.le_refl 2) same
      omega
    have settled := ih (peakLink mountain :: stack)
      (fun other listed => stores other (mem_cons_of_mem _ listed))
      (fun other listed => within other (mem_cons_of_mem _ listed)) restAscends
    rw [map_cons, mergePeaks, bind_of_ok nextStored.resolve, bind_of_ok stored.resolve,
      bind_of_ok nextCounted, bind_of_ok counted, if_neg differs, settled]
    simp

structure Merged (version : Version Data) (leaf : Nat → Data) (stop : Nat) (tree next : MmrTree Data) :
    Prop where
  isExtended : Extends tree next
  below : StoredBelow next (nodeCount stop)
  length : next.storedCount = nodeCount stop
  grows : tree.storedCount ≤ next.storedCount
  stores : StoresAll version leaf next (mountains stop)
  generated : next.generated = tree.generated
  writable : ∀ index entry, next.stored.lookup index = some entry →
    tree.storedCount ≤ index → Writable entry
  full : ∀ index, tree.storedCount ≤ index → index < next.storedCount →
    ∃ entry, next.stored.lookup index = some entry

theorem Merged.step (merged : Merged version leaf stop (pushed entry tree) next)
    (below : StoredBelow tree tree.storedCount) (isWritable : Writable entry) :
    Merged version leaf stop tree next := by
  have stored := merged.isExtended.stored _ _ (lookup_pushed tree entry)
  refine { merged with
    isExtended := (extends_pushed entry below).trans merged.isExtended
    grows := (Nat.le_succ _).trans merged.grows
    writable := ?_
    full := ?_ }
  · intro index other found outside
    rcases Nat.eq_or_lt_of_le outside with rfl | further
    · rw [stored] at found
      obtain rfl := Option.some.inj found
      exact isWritable
    · exact merged.writable index other found further
  · intro index outside inside
    rcases Nat.eq_or_lt_of_le outside with rfl | further
    · exact ⟨entry, stored⟩
    · exact merged.full index further inside

theorem position_merge (isRange : IsRange start (done ++ [(altitude, half)])) :
    position (altitude + 1, half) = position (altitude, start) + 1 := by
  have nodes := (nodeCount_concat isRange).1
  have positive := Nat.two_pow_pos altitude
  unfold position
  dsimp only
  rw [nodes, Nat.pow_succ 2 (altitude + 1), Nat.pow_succ]
  omega

theorem mergePeaks_equal {peak merge : Entry Data} (links appended : List EntryLink)
    (leaves : Consecutive version leaf first branch count) (isStart : half + 2 ^ altitude = start)
    (inside : start + 2 ^ altitude ≤ count)
    (peakStored : Stores version leaf tree (altitude, half) peak)
    (mergeStored : Stores version leaf tree (altitude, start) merge)
    (room : tree.storedCount + 1 < u32Limit) :
    mergePeaks version (peakLink (altitude, half) :: links) [peakLink (altitude, start)]
        appended tree = match version.combine peak.data merge.data with
      | none => .error .combineFailed
      | some whole => mergePeaks version links [.stored tree.storedCount]
          (appended ++ [.stored tree.storedCount])
          (pushed ⟨.node (peakLink (altitude, half)) (peakLink (altitude, start)), whole⟩ tree) := by
  have counted := (leaves.perfect inside mergeStored.2).leafCount leaves.positive
    (Nat.le_add_right _ _)
  have peakCounted := (leaves.perfect (isStart.trans_le ((Nat.le_add_right _ _).trans inside))
    peakStored.2).leafCount leaves.positive (Nat.le_add_right _ _)
  rw [Nat.add_sub_cancel_left] at counted peakCounted
  rw [mergePeaks, bind_of_ok peakStored.resolve, bind_of_ok mergeStored.resolve,
    bind_of_ok peakCounted, bind_of_ok counted, if_pos rfl]
  unfold combineNodes
  rw [bind_of_ok peakStored.resolve, bind_of_ok mergeStored.resolve]
  cases version.combine peak.data merge.data with
  | none => rfl
  | some whole => exact bind_of_ok (push_spec _ room)

theorem StoresAll.merge (entry : Entry Data)
    (stores : StoresAll version leaf tree ((altitude, start) :: (altitude, half) :: rest))
    (below : StoredBelow tree tree.storedCount)
    (isEnd : tree.storedCount = position (altitude + 1, half))
    (isWhole : perfect version.combine leaf (altitude + 1) half = some entry.data) :
    StoresAll version leaf (pushed entry tree) ((altitude + 1, half) :: rest) := by
  intro mountain listed
  rcases mem_cons.mp listed with rfl | later
  · refine ⟨entry, ?_, isWhole⟩
    rw [← isEnd]
    exact lookup_pushed tree _
  · obtain ⟨other, stored⟩ := stores mountain (by simp [later])
    exact ⟨other, (extends_pushed entry below).stores stored⟩

section

variable (leaves : Consecutive version leaf first branch count) (appended : List EntryLink)
  (isRange : IsRange start rest.reverse) (isStop : start + 2 ^ altitude = stop)
  (inside : stop ≤ count) (stores : StoresAll version leaf tree ((altitude, start) :: rest))
  (length : tree.storedCount = position (altitude, start) + 1)
  (below : StoredBelow tree tree.storedCount)
include leaves isRange isStop inside stores length below

theorem mergePeaks_lower (above : ∀ mountain ∈ rest, altitude < mountain.1) :
    mergePeaks version (rest.map peakLink) [peakLink (altitude, start)] appended tree =
        .ok (((mountains stop).map peakLink, appended ++ (range' tree.storedCount
          (nodeCount stop - tree.storedCount)).map EntryLink.stored), tree) ∧
      Merged version leaf stop tree tree := by
  have isWhole : IsRange stop (rest.reverse ++ [(altitude, start)]) :=
    isRange_concat.mpr ⟨isRange, isStop, fun mountain listed => above mountain (by simpa using listed)⟩
  have whole := isWhole.eq_mountains
  have ends := (nodeCount_concat isWhole).2
  have ascends : ((altitude, start) :: rest).Pairwise fun left right => left.1 < right.1 :=
    pairwise_cons.mpr ⟨above, pairwise_reverse.mp isRange.descends⟩
  have within : ∀ other ∈ (altitude, start) :: rest, other.2 + 2 ^ other.1 ≤ count := by
    intro other listed
    refine (isWhole.within ?_).trans inside
    rw [mem_append, mem_reverse, mem_singleton]
    exact (mem_cons.mp listed).symm
  refine ⟨?_, ⟨⟨fun _ _ => id, fun _ _ => id⟩, ?_, by omega, Nat.le_refl _, ?_, rfl, ?_, ?_⟩⟩
  · rw [mergePeaks_settled [] appended leaves stores within ascends, ← whole, map_append,
      show nodeCount stop - tree.storedCount = 0 by omega, range'_zero, map_nil, append_nil]
    rfl
  · rw [← ends, ← length]
    exact below
  · rw [← whole]
    intro mountain listed
    refine stores mountain ?_
    rw [mem_append, mem_reverse, mem_singleton] at listed
    exact mem_cons.mpr listed.symm
  · intro index entry found outside
    have smaller := below index entry found
    omega
  · intro index outside inside
    omega

theorem mergePeaks_spec (above : ∀ mountain ∈ rest, altitude ≤ mountain.1)
    (room : 2 * stop < u32Limit) :
    (mergePeaks version (rest.map peakLink) [peakLink (altitude, start)] appended tree =
        .error .combineFailed ∧ ¬ Defined version.combine leaf (carry rest (altitude, start))) ∨
    ∃ next, mergePeaks version (rest.map peakLink) [peakLink (altitude, start)] appended
        tree = .ok (((mountains stop).map peakLink, appended ++ (range' tree.storedCount
          (nodeCount stop - tree.storedCount)).map EntryLink.stored), next) ∧
      Merged version leaf stop tree next := by
  induction rest generalizing altitude start tree appended with
  | nil =>
    exact .inr ⟨tree, mergePeaks_lower leaves appended isRange isStop inside stores length below
      nofun⟩
  | cons mountain rest ih =>
    obtain ⟨nextAltitude, half⟩ := mountain
    rw [reverse_cons] at isRange
    obtain ⟨isBefore, isStart, higher⟩ := isRange_concat.mp isRange
    have lower : ∀ mountain ∈ rest, nextAltitude < mountain.1 := fun mountain listed =>
      higher mountain (mem_reverse.mpr listed)
    by_cases same : nextAltitude = altitude
    · subst same
      obtain ⟨merge, mergeStored⟩ := stores _ (mem_cons_self ..)
      obtain ⟨peak, peakStored⟩ := stores (nextAltitude, half) (by simp)
      have isEnd : tree.storedCount = position (nextAltitude + 1, half) := by
        rw [position_merge isRange, length]
      have sum : half + 2 ^ (nextAltitude + 1) = stop := by
        rw [Nat.pow_succ]
        omega
      have small : tree.storedCount + 1 < u32Limit := by
        have positive := Nat.two_pow_pos nextAltitude
        have nodes : nodeCount half ≤ 2 * half := Nat.sub_le _ _
        rw [isEnd]
        unfold position
        dsimp only
        rw [Nat.pow_succ]
        omega
      have equal := mergePeaks_equal (rest.map peakLink) appended leaves isStart
        (isStop.trans_le inside) peakStored mergeStored small
      have whole := perfect_succ peakStored.2 (isStart.symm ▸ mergeStored.2)
      rw [map_cons, equal, carry, if_pos rfl]
      cases combined : version.combine peak.data merge.data with
      | none =>
        refine .inl ⟨rfl, fun defined => ?_⟩
        obtain ⟨⟨data, isData⟩, _⟩ := defined_of_carry isBefore defined
        rw [whole, combined] at isData
        cases isData
      | some both =>
        have isWhole := whole.trans combined
        have isLink : EntryLink.stored tree.storedCount = peakLink (nextAltitude + 1, half) :=
          congrArg EntryLink.stored isEnd
        have newStores := stores.merge ⟨.node (peakLink (nextAltitude, half))
          (peakLink (nextAltitude, start)), both⟩ below isEnd isWhole
        dsimp only
        rw [isLink]
        refine (ih (appended ++ [peakLink (nextAltitude + 1, half)]) isBefore sum newStores
          (congrArg (· + 1) isEnd) (storedBelow_pushed below)
          (fun mountain listed => lower mountain listed)).imp_right ?_
        rintro ⟨next, continued, merged⟩
        have grows := merged.grows
        rw [merged.length] at grows
        have grows : tree.storedCount + 1 ≤ nodeCount stop := grows
        refine ⟨next, ?_, merged.step below (.inr ⟨_, _, rfl⟩)⟩
        have split : nodeCount stop - tree.storedCount =
            nodeCount stop - (tree.storedCount + 1) + 1 := by omega
        rw [continued, split, range'_succ, map_cons, isLink, append_assoc]
        rfl
    · have strictly : ∀ mountain ∈ (nextAltitude, half) :: rest, altitude < mountain.1 := by
        have nextAbove := above _ (mem_cons_self ..)
        intro mountain listed
        rcases mem_cons.mp listed with rfl | later
        · exact Nat.lt_of_le_of_ne nextAbove (Ne.symm same)
        · exact nextAbove.trans_lt (lower mountain later)
      rw [← reverse_cons] at isRange
      exact .inr ⟨tree, mergePeaks_lower leaves appended isRange isStop inside stores length below
        strictly⟩

end

theorem connectStack_spec (bagged : Bagged version leaf tree done link data)
    (stores : StoresAll version leaf tree rest)
    (room : tree.generated.length + rest.length < u32Limit) :
    (connectStack version (rest.map peakLink) link tree = .error .combineFailed ∧
      bag version.combine leaf data rest = none) ∨
    ∃ root next whole, connectStack version (rest.map peakLink) link tree = .ok (root, next) ∧
      bag version.combine leaf data rest = some whole ∧
      Bagged version leaf next (done ++ rest) root whole ∧ next.stored = tree.stored := by
  induction rest generalizing done link data tree with
  | nil =>
    rw [append_nil]
    exact .inr ⟨link, tree, data, rfl, rfl, bagged, rfl⟩
  | cons mountain rest ih =>
    obtain ⟨entry, stored⟩ := stores mountain (mem_cons_self ..)
    have isBag : bag version.combine leaf data (mountain :: rest) =
        (version.combine data entry.data).bind (bag version.combine leaf · rest) := by
      rw [bag, stored.2]
      rfl
    rw [length_cons] at room
    rw [append_cons, map_cons, connectStack, isBag]
    cases combined : version.combine data entry.data with
    | none =>
      refine .inl ⟨?_, rfl⟩
      obtain ⟨_, resolved, rfl⟩ := bagged.resolve
      unfold combineNodes
      rw [bind_of_ok resolved, bind_of_ok stored.resolve, combined]
      rfl
    | some both =>
      have generates := extends_withGenerated tree ⟨.node link (peakLink mountain), both⟩
      have longer : (withGenerated ⟨.node link (peakLink mountain), both⟩
          tree).generated.length = tree.generated.length + 1 := length_append
      have connected := ih (bagged.generate stored combined)
        (fun other listed => (stores other (mem_cons_of_mem _ listed)).imp
          fun _ => generates.stores) (by omega)
      rw [bind_of_ok (bagged.combineNodes stored combined),
        bind_of_ok (pushGenerated_spec _ (by omega))]
      exact connected

/-- What an append leaves behind: the nodes to persist, and all peaks over the new leaf. -/
structure Appended (version : Version Data) (leaf : Nat → Data) (count : Nat) (next : MmrTree Data)
    (whole : Data) : Prop where
  bagged : Bagged version leaf next (mountains (count + 1)) next.root whole
  stores : StoresAll version leaf next (mountains (count + 1))
  persisted : ∀ index, nodeCount count ≤ index → index < nodeCount (count + 1) →
    ∃ entry, next.stored.lookup index = some entry ∧ Writable entry

theorem appendLeaf_spec (leaves : Consecutive version leaf first branch (count + 1))
    (loads : Loads version leaf count tree before) (room : 2 * (count + 1) < u32Limit) :
    (tree.appendLeaf version (leaf count) = .error .combineFailed ∧
      root version.combine leaf (count + 1) = none) ∨
    ∃ next whole, tree.appendLeaf version (leaf count) =
        .ok ((range' (nodeCount count) (nodeCount (count + 1) - nodeCount count)).map
          EntryLink.stored, next) ∧ root version.combine leaf (count + 1) = some whole ∧
      Appended version leaf count next whole := by
  have grows := nodeCount_lt_succ count
  have nodes : nodeCount (count + 1) < u32Limit := (Nat.sub_le _ _).trans_lt room
  have length := loads.length
  have below : StoredBelow tree tree.storedCount := length ▸ loads.below
  have isLeaf : position (0, count) = tree.storedCount := by
    rw [length]
    exact Nat.add_sub_cancel _ 2
  have joins := extends_pushed (.newLeaf (leaf count)) below
  have oldPeaks : (pushed (.newLeaf (leaf count)) tree).getPeaks version
      ((pushed (.newLeaf (leaf count)) tree).generated.length + 1) tree.root =
        .ok ((mountains count).map peakLink) :=
    (loads.bagged.mono joins).getPeaks leaves (isRange_mountains count) (Nat.le_succ _)
      loads.generated.ge
  have isReversed : IsRange count (mountains count).reverse.reverse :=
    (reverse_reverse (mountains count)).symm ▸ isRange_mountains count
  have stores : StoresAll version leaf (pushed (.newLeaf (leaf count)) tree)
      ((0, count) :: (mountains count).reverse) := by
    intro mountain listed
    rcases mem_cons.mp listed with rfl | old
    · refine ⟨.newLeaf (leaf count), ?_, rfl⟩
      rw [isLeaf]
      exact lookup_pushed tree _
    · obtain ⟨entry, stored⟩ := loads.bagged.storesAll mountain (mem_reverse.mp old)
      exact ⟨entry, joins.stores stored⟩
  have isLink : EntryLink.stored tree.storedCount = peakLink (0, count) :=
    congrArg EntryLink.stored isLeaf.symm
  have isNext : count + 2 ^ 0 = count + 1 := rfl
  rw [appendLeaf, bind_of_ok (push_spec _ (by omega))]
  dsimp only
  rw [bind_of_ok oldPeaks, ← map_reverse, isLink]
  rcases mergePeaks_spec leaves [peakLink (0, count)] isReversed isNext (Nat.le_refl _) stores
    (congrArg (· + 1) isLeaf.symm) (storedBelow_pushed below) (fun _ _ => Nat.zero_le _) room with
    ⟨failed, undefined⟩ | ⟨merged, isMerged, spec⟩
  · refine .inl ⟨by rw [failed]; rfl, Option.eq_none_iff_forall_ne_some.mpr fun whole isRoot => ?_⟩
    refine undefined fun mountain listed => defined_mountains isRoot mountain ?_
    rw [mountains_succ]
    exact mem_reverse.mpr listed
  rw [bind_of_ok isMerged]
  obtain ⟨mountain, _, range⟩ := mountains_pos (Nat.succ_pos count)
  obtain ⟨entry, stored⟩ := spec.stores mountain (range ▸ mem_cons_self ..)
  have shorter := (isRange_mountains (count + 1)).length_le
  rw [range, length_cons] at shorter
  rw [root_of_range range stored.2, range, map_cons]
  dsimp only
  rcases connectStack_spec (.single stored)
    (fun other listed => spec.stores other (range ▸ mem_cons_of_mem _ listed))
    (by
      have few := (isRange_mountains count).length_le
      have loaded := loads.generated
      have generated : merged.generated.length = tree.generated.length :=
        congrArg List.length spec.generated
      omega) with
    ⟨failed, undefined⟩ | ⟨newRoot, connected, whole, isConnected, isBag, bagged, stays⟩
  · exact .inl ⟨by rw [failed]; rfl, undefined⟩
  have persists := spec.step below (.inl rfl)
  have lookups : ∀ index, connected.stored.lookup index = merged.stored.lookup index :=
    fun index => by rw [stays]
  refine .inr ⟨{ connected with root := newRoot }, whole, ?_, isBag, ?_, ?_, ?_⟩
  · have split : nodeCount (count + 1) - nodeCount count =
        nodeCount (count + 1) - (tree.storedCount + 1) + 1 := by omega
    rw [bind_of_ok isConnected, split, range'_succ, map_cons, ← length, isLink]
    rfl
  · rw [range]
    exact bagged.mono ⟨fun _ _ found => found, fun _ _ found => found⟩
  · intro mountain listed
    obtain ⟨entry, found, isPeak⟩ := spec.stores mountain listed
    exact ⟨entry, (lookups _).trans found, isPeak⟩
  intro index outside inside
  rw [← length] at outside
  obtain ⟨entry, found⟩ := persists.full index outside (inside.trans_eq persists.length.symm)
  exact ⟨entry, (lookups index).trans found, persists.writable index entry found outside⟩

end Zakura.HistoryTree
