import Zakura.Lib.Fallible
import Zakura.Lib.MountainRange
import Zakura.HistoryTree.MmrCore

/-!
The array-backed tree against the mountain range of its leaves: what is loaded from the
peaks, the peaks below the root, and the data of the root.
-/

namespace Zakura.HistoryTree

open MountainRange FiniteMap Fallible List MmrTree Option

variable {Data : Type} {version : Version Data} {leaf : Nat → Data}
  {first branch count altitude start stop index middle limit fuel higher : Nat}
  {tree next last : MmrTree Data} {range done rest : List (Nat × Nat)} {mountain : Nat × Nat}
  {data whole : Data} {entry : Entry Data} {link : EntryLink}

/-- The leaves are blocks of one consensus branch at consecutive heights from `first` on. -/
structure Consecutive (version : Version Data) (leaf : Nat → Data) (first branch count : Nat) :
    Prop where
  positive : 1 ≤ first
  startHeight : ∀ index < count, version.startHeight (leaf index) = first + index
  endHeight : ∀ index < count, version.endHeight (leaf index) = first + index
  branchId : ∀ index < count, version.consensusBranchId (leaf index) = branch

structure Covers (version : Version Data) (first branch start stop : Nat) (data : Data) : Prop where
  startHeight : version.startHeight data = first + start
  endHeight : version.endHeight data + 1 = first + stop
  branchId : version.consensusBranchId data = branch

theorem Covers.combine {left right both : Data}
    (isLeft : Covers version first branch start middle left)
    (isRight : Covers version first branch middle stop right)
    (combined : version.combine left right = some both) :
    Covers version first branch start stop both := by
  refine ⟨?_, ?_, ?_⟩
  · rw [version.combine_startHeight left right both combined, isLeft.startHeight]
  · rw [version.combine_endHeight left right both combined, isRight.endHeight]
  · rw [version.combine_branchId left right both combined, isLeft.branchId]

theorem Consecutive.perfect (leaves : Consecutive version leaf first branch count)
    (inside : start + 2 ^ altitude ≤ count)
    (defined : perfect version.combine leaf altitude start = some data) :
    Covers version first branch start (start + 2 ^ altitude) data := by
  induction altitude generalizing start data with
  | zero =>
    obtain rfl := some.inj defined
    have bound : start < count := by omega
    refine ⟨leaves.startHeight start bound, ?_, leaves.branchId start bound⟩
    rw [leaves.endHeight start bound]
    rfl
  | succ altitude ih =>
    rw [Nat.pow_succ] at inside
    obtain ⟨_, _, isLeft, isRight, combined⟩ := perfect_succ_eq_some defined
    have leftCovers := ih (by omega) isLeft
    have rightCovers := ih (by omega) isRight
    have stops : start + 2 ^ altitude + 2 ^ altitude = start + 2 ^ (altitude + 1) := by
      rw [Nat.pow_succ]
      omega
    rw [stops] at rightCovers
    exact leftCovers.combine rightCovers combined

theorem Covers.leafCount {entry : Entry Data}
    (covers : Covers version first branch start stop entry.data) (positive : 1 ≤ first)
    (ordered : start ≤ stop) : entry.leafCount version = .ok (stop - start) := by
  have ends := covers.endHeight
  have before : version.startHeight entry.data - 1 ≤ version.endHeight entry.data := by
    rw [covers.startHeight]
    omega
  unfold Entry.leafCount
  rw [Checked.sub_of_le (by rw [covers.startHeight]; omega)]
  dsimp only
  rw [Checked.sub_of_le before]
  dsimp only
  congr 1
  rw [covers.startHeight]
  omega

theorem isPowerOfTwo_two_pow (altitude : Nat) : isPowerOfTwo (2 ^ altitude) = true := by
  unfold isPowerOfTwo
  rw [Nat.log2_two_pow]
  exact beq_self_eq_true _

theorem isPowerOfTwo_range (isRange : IsRange stop range) (several : 2 ≤ range.length) :
    isPowerOfTwo stop = false := by
  refine beq_false_of_ne fun power => ?_
  have single : IsRange stop [(stop.log2, 0)] :=
    ⟨⟨rfl, (Nat.zero_add _).trans power.symm⟩, pairwise_singleton ..⟩
  rw [isRange.eq_mountains, ← single.eq_mountains] at several
  simp at several

theorem resolveLink_stored (found : tree.stored.lookup index = some entry) :
    tree.resolveLink (.stored index) = .ok entry := by
  simp [resolveLink, found]

theorem resolveLink_generated (found : tree.generated[index]? = some entry) :
    tree.resolveLink (.generated index) = .ok entry := by
  simp [resolveLink, found]

def Stores (version : Version Data) (leaf : Nat → Data) (tree : MmrTree Data) (mountain : Nat × Nat)
    (entry : Entry Data) : Prop :=
  tree.stored.lookup (position mountain) = some entry ∧
    perfect version.combine leaf mountain.1 mountain.2 = some entry.data

def peakLink (mountain : Nat × Nat) : EntryLink := .stored (position mountain)

theorem Stores.resolve (stores : Stores version leaf tree mountain entry) :
    tree.resolveLink (peakLink mountain) = .ok entry :=
  resolveLink_stored stores.1

inductive Bagged (version : Version Data) (leaf : Nat → Data) (tree : MmrTree Data) :
    List (Nat × Nat) → EntryLink → Data → Prop
  | single {mountain : Nat × Nat} {entry : Entry Data}
      (stores : Stores version leaf tree mountain entry) :
      Bagged version leaf tree [mountain] (peakLink mountain) entry.data
  | node {done : List (Nat × Nat)} {mountain : Nat × Nat} {link : EntryLink} {left : Data}
      {entry : Entry Data} {whole : Data} {index : Nat}
      (before : Bagged version leaf tree done link left)
      (stores : Stores version leaf tree mountain entry)
      (combined : version.combine left entry.data = some whole)
      (generated : tree.generated[index]? = some ⟨.node link (peakLink mountain), whole⟩) :
      Bagged version leaf tree (done ++ [mountain]) (.generated index) whole

theorem Bagged.resolve (bagged : Bagged version leaf tree range link data) :
    ∃ entry, tree.resolveLink link = .ok entry ∧ entry.data = data := by
  cases bagged with
  | single stores => exact ⟨_, stores.resolve, rfl⟩
  | node before stores combined generated => exact ⟨_, resolveLink_generated generated, rfl⟩

theorem Bagged.nonempty (bagged : Bagged version leaf tree range link data) : 1 ≤ range.length := by
  cases bagged <;> simp

structure Extends (tree next : MmrTree Data) : Prop where
  stored : ∀ index entry, tree.stored.lookup index = some entry → next.stored.lookup index = some entry
  generated : ∀ (index : Nat) (entry : Entry Data), tree.generated[index]? = some entry →
    next.generated[index]? = some entry

theorem Extends.trans (isExtended : Extends tree next) (again : Extends next last) :
    Extends tree last :=
  ⟨fun index entry found => again.stored index entry (isExtended.stored index entry found),
    fun index entry found => again.generated index entry (isExtended.generated index entry found)⟩

theorem Extends.stores (isExtended : Extends tree next)
    (stores : Stores version leaf tree mountain entry) : Stores version leaf next mountain entry :=
  ⟨isExtended.stored _ _ stores.1, stores.2⟩

theorem Bagged.mono (bagged : Bagged version leaf tree range link data)
    (isExtended : Extends tree next) : Bagged version leaf next range link data := by
  induction bagged with
  | single stores => exact .single (isExtended.stores stores)
  | node _ stores combined generated ih =>
    exact .node ih (isExtended.stores stores) combined
      (isExtended.generated _ _ generated)

section

variable (leaves : Consecutive version leaf first branch count)
  (bagged : Bagged version leaf tree range link data) (isRange : IsRange stop range)
  (inside : stop ≤ count)
include leaves bagged isRange inside

theorem Bagged.covers : Covers version first branch 0 stop data := by
  induction bagged generalizing stop with
  | @single mountain entry stores =>
    obtain ⟨isFirst, isStop⟩ := isRange.spans
    have isStop : 0 + 2 ^ mountain.1 = stop := isStop
    have within : mountain.2 + 2 ^ mountain.1 ≤ count := by
      rw [isFirst]
      omega
    have covers := leaves.perfect within stores.2
    rwa [isFirst, isStop] at covers
  | @node done mountain link left entry whole index before stores combined generated ih =>
    obtain ⟨earlier, isStop, _⟩ := isRange_concat.mp isRange
    have beforeStop : mountain.2 ≤ count :=
      (Nat.le_add_right _ (2 ^ mountain.1)).trans (isStop.trans_le inside)
    have leftCovers := ih earlier beforeStop
    have rightCovers := leaves.perfect (isStop.trans_le inside) stores.2
    rw [isStop] at rightCovers
    exact leftCovers.combine rightCovers combined

theorem Bagged.getPeaks (enough : range.length ≤ fuel) :
    tree.getPeaks version fuel link = .ok (range.map peakLink) := by
  have single : ∀ {mountain : Nat × Nat} {entry : Entry Data} (fuel : Nat),
      Stores version leaf tree mountain entry → mountain.2 + 2 ^ mountain.1 ≤ count →
        tree.getPeaks version (fuel + 1) (peakLink mountain) = .ok [peakLink mountain] := by
    intro mountain entry fuel stores within
    have covers := leaves.perfect within stores.2
    have counted := covers.leafCount leaves.positive (Nat.le_add_right _ _)
    rw [Nat.add_sub_cancel_left] at counted
    have isComplete : entry.complete version = .ok true := by
      unfold Entry.complete
      rw [bind_of_ok counted, isPowerOfTwo_two_pow]
      rfl
    rw [MmrTree.getPeaks, bind_of_ok stores.resolve, bind_of_ok isComplete]
    rfl
  induction bagged generalizing stop fuel with
  | @single mountain entry stores =>
    obtain ⟨isFirst, isStop⟩ := isRange.spans
    have isStop : 0 + 2 ^ mountain.1 = stop := isStop
    obtain ⟨fuel, rfl⟩ : ∃ less, fuel = less + 1 := ⟨fuel - 1, by simp at enough; omega⟩
    exact single fuel stores (by rw [isFirst]; omega)
  | @node done mountain link left entry whole index before stores combined generated ih =>
    have covers := Bagged.covers leaves (.node before stores combined generated) isRange inside
    have several : 2 ≤ (done ++ [mountain]).length := by
      have nonempty := before.nonempty
      simp only [length_append, length_singleton]
      omega
    obtain ⟨earlier, isStop, _⟩ := isRange_concat.mp isRange
    rw [length_append, length_singleton] at enough
    obtain ⟨fuel, rfl⟩ : ∃ less, fuel = less + 1 := ⟨fuel - 1, by omega⟩
    obtain ⟨fuel, rfl⟩ : ∃ less, fuel = less + 1 := ⟨fuel - 1, by
      have nonempty := before.nonempty
      omega⟩
    have counted : (Entry.mk (.node link (peakLink mountain)) whole).leafCount version =
        .ok (stop - 0) := Covers.leafCount covers leaves.positive (Nat.zero_le _)
    have incomplete : (Entry.mk (.node link (peakLink mountain)) whole).complete version =
        .ok false := by
      unfold Entry.complete
      rw [bind_of_ok counted, Nat.sub_zero, isPowerOfTwo_range isRange several]
      rfl
    have beforeStop : mountain.2 ≤ count :=
      (Nat.le_add_right _ (2 ^ mountain.1)).trans (isStop.trans_le inside)
    have leftPeaks : tree.getPeaks version (fuel + 1) link = .ok (done.map peakLink) :=
      ih earlier beforeStop (by omega)
    have rightPeaks := single fuel stores (isStop.trans_le inside)
    rw [MmrTree.getPeaks, bind_of_ok (resolveLink_generated generated), bind_of_ok incomplete]
    change (do
      let leftPeaks ← tree.getPeaks version (fuel + 1) link
      let rightPeaks ← tree.getPeaks version (fuel + 1) (peakLink mountain)
      return leftPeaks ++ rightPeaks) = _
    rw [bind_of_ok leftPeaks, bind_of_ok rightPeaks, map_append]
    rfl

end

theorem position_lt (isRange : IsRange stop range) (listed : mountain ∈ range) :
    position mountain < nodeCount stop := by
  induction range using reverseRecOn generalizing stop with
  | nil => cases listed
  | append_singleton range last ih =>
    obtain ⟨lastAltitude, _⟩ := last
    obtain ⟨_, _⟩ := nodeCount_concat isRange
    obtain ⟨earlier, _, _⟩ := isRange_concat.mp isRange
    rcases mem_append.mp listed with before | isLast
    · have below := ih earlier before
      have positive := Nat.two_pow_pos lastAltitude
      omega
    · rw [mem_singleton.mp isLast]
      omega

theorem nodeCount_le_position (altitude start : Nat) : nodeCount start ≤ position (altitude, start) := by
  have positive := Nat.two_pow_pos altitude
  unfold position
  dsimp only
  rw [Nat.pow_succ]
  omega

theorem pairwise_position (isRange : IsRange stop range) :
    (range.map position).Pairwise (· < ·) := by
  induction range using reverseRecOn generalizing stop with
  | nil => exact List.Pairwise.nil
  | append_singleton range last ih =>
    obtain ⟨earlier, _, _⟩ := isRange_concat.mp isRange
    rw [map_append, map_singleton]
    refine pairwise_append.mpr ⟨ih earlier, pairwise_singleton .., ?_⟩
    intro before listed after isLast
    obtain ⟨_, isMountain, rfl⟩ := mem_map.mp listed
    rw [mem_singleton.mp isLast]
    exact (position_lt earlier isMountain).trans_le (nodeCount_le_position _ _)

def StoredBelow (tree : MmrTree Data) (limit : Nat) : Prop :=
  ∀ index entry, tree.stored.lookup index = some entry → index < limit

theorem extends_store (below : StoredBelow tree index) : Extends tree (tree.store index entry) := by
  refine ⟨fun query other found => ?_, fun _ _ found => found⟩
  have smaller := below query other found
  exact (lookup_insert_ite _ _ _ _).trans ((if_neg (by omega)).trans found)

theorem lookup_store (tree : MmrTree Data) (index : Nat) (entry : Entry Data) :
    (tree.store index entry).stored.lookup index = some entry :=
  (lookup_insert_ite _ _ _ _).trans (if_pos rfl)

theorem storedBelow_store (below : StoredBelow tree limit) (smaller : index < limit) :
    StoredBelow (tree.store index entry) limit := by
  intro query other found
  have found : (tree.stored.insert index entry).lookup query = some other := found
  rw [lookup_insert_ite] at found
  split at found
  next same =>
    exact same ▸ smaller
  · exact below query other found

theorem StoredBelow.mono (below : StoredBelow tree limit) (ordered : limit ≤ higher) :
    StoredBelow tree higher := fun index entry found =>
  (below index entry found).trans_le ordered

def withGenerated (entry : Entry Data) (tree : MmrTree Data) : MmrTree Data :=
  { tree with generated := tree.generated ++ [entry] }

theorem pushGenerated_spec (entry : Entry Data) (room : tree.generated.length < u32Limit) :
    tree.pushGenerated entry = .ok (.generated tree.generated.length, withGenerated entry tree) :=
  if_pos room

theorem extends_withGenerated (tree : MmrTree Data) (entry : Entry Data) :
    Extends tree (withGenerated entry tree) := by
  refine ⟨fun _ _ found => found, fun index other found => ?_⟩
  obtain ⟨bound, _⟩ := List.getElem?_eq_some_iff.mp found
  exact (List.getElem?_append_left bound).trans found

section

variable (bagged : Bagged version leaf tree done link data)
  (stores : Stores version leaf tree mountain entry)
  (combined : version.combine data entry.data = some whole)
include bagged stores combined

theorem Bagged.combineNodes : tree.combineNodes version link (peakLink mountain) =
    .ok ⟨.node link (peakLink mountain), whole⟩ := by
  obtain ⟨_, resolved, rfl⟩ := bagged.resolve
  unfold MmrTree.combineNodes
  rw [bind_of_ok resolved, bind_of_ok stores.resolve, combined]
  rfl

theorem Bagged.generate :
    Bagged version leaf (withGenerated ⟨.node link (peakLink mountain), whole⟩ tree)
      (done ++ [mountain]) (.generated tree.generated.length) whole := by
  have isExtended := extends_withGenerated tree ⟨.node link (peakLink mountain), whole⟩
  refine .node (bagged.mono isExtended) (isExtended.stores stores) combined ?_
  exact getElem?_concat_length

end

theorem bag_cons (isBag : bag version.combine leaf data (mountain :: rest) = some whole)
    (isPeak : perfect version.combine leaf mountain.1 mountain.2 = some entry.data) :
    ∃ both, version.combine data entry.data = some both ∧
      bag version.combine leaf both rest = some whole := by
  obtain ⟨_, isSame, combines⟩ := bind_eq_some_iff.mp isBag
  rw [isPeak] at isSame
  obtain rfl := some.inj isSame
  obtain ⟨both, combined, bagged⟩ := bind_eq_some_iff.mp combines
  exact ⟨both, combined, bagged⟩

theorem connectPeaks_spec {entries : Nat × Nat → Entry Data} (isRange : IsRange middle done)
    (isWhole : IsRange stop (done ++ rest)) (bagged : Bagged version leaf tree done link data)
    (below : StoredBelow tree (nodeCount middle))
    (peaks : ∀ mountain ∈ rest, perfect version.combine leaf mountain.1 mountain.2 = some (entries
      mountain).data) (isBag : bag version.combine leaf data rest = some whole)
    (room : tree.generated.length + rest.length < u32Limit) : ∃ root next, connectPeaks version
        (rest.map fun mountain => (position mountain, entries mountain)) link tree =
          .ok (root, next) ∧
      Bagged version leaf next (done ++ rest) root whole ∧ Extends tree next ∧
      StoredBelow next (nodeCount stop) ∧ next.storedCount = tree.storedCount ∧
      next.generated.length = tree.generated.length + rest.length := by
  induction rest generalizing done link data tree middle with
  | nil =>
    obtain rfl := some.inj isBag
    rw [append_nil] at isWhole ⊢
    have same := spans_unique isRange.spans isWhole.spans
    exact ⟨link, tree, rfl, bagged, ⟨fun _ _ => id, fun _ _ => id⟩, same ▸ below, rfl, rfl⟩
  | cons mountain rest ih =>
    obtain ⟨altitude, _⟩ := mountain
    have isPeak := peaks _ (mem_cons_self ..)
    obtain ⟨both, combined, restBag⟩ := bag_cons isBag isPeak
    rw [append_cons] at isWhole ⊢
    obtain ⟨_, isNext, _⟩ := isWhole.append_left
    obtain ⟨isBefore, _, _⟩ := isRange_concat.mp isNext
    obtain rfl := spans_unique isRange.spans isBefore.spans
    have ends := (nodeCount_concat isNext).2
    have behind := below.mono (nodeCount_le_position altitude middle)
    have stored : Extends tree
        (tree.store (position (altitude, middle)) (entries (altitude, middle))) :=
      extends_store behind
    have stores : Stores version leaf
        (tree.store (position (altitude, middle)) (entries (altitude, middle)))
        (altitude, middle) (entries (altitude, middle)) := ⟨lookup_store _ _ _, isPeak⟩
    have loaded := bagged.mono stored
    have generated := loaded.generate stores combined
    have generates := extends_withGenerated
      (tree.store (position (altitude, middle)) (entries (altitude, middle)))
      ⟨.node link (peakLink (altitude, middle)), both⟩
    have longer : (withGenerated ⟨.node link (peakLink (altitude, middle)), both⟩
        (tree.store (position (altitude, middle)) (entries (altitude, middle)))).generated.length =
          tree.generated.length + 1 := length_append
    rw [length_cons] at room ⊢
    obtain ⟨root, final, connected, isRoot, extended, bounded, stays, _⟩ :=
      ih isNext isWhole generated
        (storedBelow_store (behind.mono (by omega)) (by omega))
        (fun mountain listed => peaks mountain (mem_cons_of_mem _ listed)) restBag (by omega)
    refine ⟨root, final, ?_, isRoot, (stored.trans generates).trans extended, bounded, stays, ?_⟩
    · rw [map_cons, connectPeaks]
      have small : (tree.store (position (altitude, middle))
          (entries (altitude, middle))).generated.length < u32Limit := by
        change tree.generated.length < _
        omega
      refine (bind_of_ok (loaded.combineNodes stores combined)).trans ?_
      exact (bind_of_ok (pushGenerated_spec _ small)).trans connected
    · omega

structure Loads (version : Version Data) (leaf : Nat → Data) (count : Nat) (tree : MmrTree Data)
    (whole : Data) : Prop where
  bagged : Bagged version leaf tree (mountains count) tree.root whole
  below : StoredBelow tree (nodeCount count)
  length : tree.storedCount = nodeCount count
  generated : tree.generated.length + 1 = (mountains count).length

theorem new_spec (entries : Nat × Nat → Entry Data)
    (peaks : ∀ mountain ∈ mountains count, perfect version.combine leaf mountain.1 mountain.2 =
      some (entries mountain).data)
    (isRoot : root version.combine leaf count = some whole) (room : count < u32Limit) :
    ∃ tree, new version (nodeCount count)
        ((mountains count).map fun mountain => (position mountain, entries mountain)) = .ok tree ∧
      Loads version leaf count tree whole := by
  obtain ⟨mountain, rest, _, range, isPeak, isBag⟩ := root_eq_some isRoot
  have isRange := isRange_mountains count
  rw [range] at isRange peaks
  have isFirst := peaks mountain (mem_cons_self ..)
  rw [isPeak] at isFirst
  obtain rfl := some.inj isFirst
  have split : IsRange count ([mountain] ++ rest) := isRange
  obtain ⟨middle, single, _⟩ := split.append_left
  have shorter := isRange.length_le
  have inside := position_lt single (mem_singleton_self mountain)
  have empty : StoredBelow (invalid (nodeCount count) : MmrTree Data) (nodeCount middle) :=
    nofun
  have stores : Stores version leaf
      ((invalid (nodeCount count)).store (position mountain) (entries mountain)) mountain
      (entries mountain) := ⟨lookup_store _ _ _, isPeak⟩
  obtain ⟨root, tree, connected, bagged, _, below, stays, grows⟩ :=
    connectPeaks_spec single isRange (.single stores) (storedBelow_store empty inside)
      (fun query listed => peaks query (mem_cons_of_mem _ listed)) isBag (by
        change 0 + rest.length < _
        rw [length_cons] at shorter
        omega)
  refine ⟨{ tree with root := root }, ?_, ?_, below, stays, ?_⟩
  · rw [range, map_cons, new]
    exact bind_of_ok connected
  · rw [range]
    exact bagged.mono ⟨fun _ _ found => found, fun _ _ found => found⟩
  · rw [range, length_cons]
    rw [grows]
    exact congrArg (· + 1) (Nat.zero_add _)

end Zakura.HistoryTree
