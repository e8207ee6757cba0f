import Mathlib.Order.Interval.Finset.Nat
import Zakura.BlockSync.WorkQueueRun
import Zakura.Lib.OrderedMap

/-!
The lowest height that no one has claimed. A count of the claimed heights replaces the
walk over both maps when they fill the whole range above the floor.
-/

namespace Zakura.BlockSync

open FiniteMap List Option Finmap
open HeaderChain (Hash BodyWorkAuthority BodyWorkOwner Height.next Height.maximum
  Height.next_eq_some)

def leastOf : Option Nat → Option Nat → Option Nat
  | some left, some right => some (min left right)
  | single, none | none, single => single

/-- `next_if` on the keys that are left of one map. -/
def nextIf (next : Nat) (keys : List Nat) : List Nat :=
  if keys.head? = some next then keys.tail else keys

theorem nextIf_length (next : Nat) (keys : List Nat) :
    (nextIf next keys).length + (if keys.head? = some next then 1 else 0) = keys.length := by
  cases keys with
  | nil => simp [nextIf]
  | cons first rest => by_cases same : first = next <;> simp [nextIf, same]

theorem leastOf_head {left right : Option Nat} {next : Nat} (least : leastOf left right = some next) :
    left = some next ∨ right = some next := by
  cases left <;> cases right <;> simp_all [leastOf]
  omega

/-- The walk over both maps in ascending order, up to the first height that is missing. -/
def gapWalk (expected : Nat) (pending inFlight : List Nat) : Option Nat :=
  match _least : leastOf pending.head? inFlight.head? with
  | none => some expected
  | some next =>
    if expected < next then some expected
    else (Height.next next).bind fun expected =>
      gapWalk expected (nextIf next pending) (nextIf next inFlight)
termination_by pending.length + inFlight.length
decreasing_by
  have first := nextIf_length next pending
  have second := nextIf_length next inFlight
  rcases leastOf_head ‹_› with same | same
  · rw [if_pos same] at first
    omega
  · rw [if_pos same] at second
    omega

namespace WorkQueueState

def keysFrom (start : Nat) (map : FiniteMap Nat WorkItem) : List Nat :=
  (ascending map.keys).filter (start ≤ ·)

def firstUnclaimedAbove (floor : Nat) (state : WorkQueueState) : Option Nat :=
  let anchor := max state.floor floor
  (Height.next anchor).bind fun start =>
    match (max state.pending.lastKey state.inFlight.lastKey).filter (start ≤ ·) with
    | none => some start
    | some maxClaimed =>
      if leastOf state.pending.firstKey state.inFlight.firstKey = some start ∧
          state.pending.keys.card + state.inFlight.keys.card = maxClaimed - anchor then
        Height.next maxClaimed
      else gapWalk start (keysFrom start state.pending) (keysFrom start state.inFlight)

end WorkQueueState

/-- The least free height from the start on; without one, none is free up to the maximum. -/
def LeastFree (claimed : Nat → Prop) (start : Nat) (free : Option Nat) : Prop :=
  (∀ height, free = some height → start ≤ height ∧ ¬claimed height) ∧
    ∀ lower, start ≤ lower → lower < free.getD (Height.maximum + 1) → claimed lower

section

variable {claimed other : Nat → Prop} {start middle anchor : Nat} {free : Option Nat}

theorem LeastFree.here (absent : ¬claimed start) : LeastFree claimed start (some start) := by
  refine ⟨?_, fun lower above below => absurd below (Nat.not_lt.mpr above)⟩
  rintro _ ⟨⟩
  exact ⟨le_rfl, absent⟩

theorem LeastFree.congr (least : LeastFree claimed start free)
    (same : ∀ height, start ≤ height → (claimed height ↔ other height)) :
    LeastFree other start free := by
  constructor
  · intro height found
    obtain ⟨above, absent⟩ := least.1 height found
    exact ⟨above, (same height above).not.mp absent⟩
  · intro lower above below
    exact (same lower above).mp (least.2 lower above below)

theorem LeastFree.extend (least : LeastFree claimed middle free) (above : start ≤ middle)
    (taken : ∀ height, start ≤ height → height < middle → claimed height) :
    LeastFree claimed start free := by
  constructor
  · intro height found
    exact (least.1 height found).imp_left above.trans
  · intro lower from_start below
    by_cases early : lower < middle
    · exact taken lower from_start early
    · exact least.2 lower (Nat.not_lt.mp early) below

theorem LeastFree.next {walk : Nat → Option Nat}
    (least : LeastFree claimed (anchor + 1) (walk (anchor + 1))) :
    LeastFree claimed (anchor + 1) ((Height.next anchor).bind walk) := by
  by_cases room : anchor + 1 ≤ Height.maximum
  · rwa [Height.next_eq_some.mpr ⟨rfl, room⟩]
  · rw [Height.next, if_neg room]
    refine ⟨by simp, fun lower above below => ?_⟩
    simp at below
    omega

end

theorem leastOf_lower {left right : List Nat} {next : Nat}
    (leftSorted : left.Pairwise (· ≤ ·)) (rightSorted : right.Pairwise (· ≤ ·))
    (least : leastOf left.head? right.head? = some next) :
    ∀ height, height ∈ left ∨ height ∈ right → next ≤ height := by
  have lower {keys : List Nat} (sorted : keys.Pairwise (· ≤ ·)) {height : Nat}
      (listed : height ∈ keys) : ∃ first, keys.head? = some first ∧ first ≤ height := by
    cases sorted with
    | nil => simp at listed
    | cons below _ =>
      refine ⟨_, rfl, ?_⟩
      rcases mem_cons.mp listed with rfl | later
      · exact le_rfl
      · exact below height later
  intro height listed
  rcases listed with listed | listed
  · obtain ⟨first, head, below⟩ := lower leftSorted listed
    cases other : right.head? <;> simp [leastOf, head, other] at least <;> omega
  · obtain ⟨first, head, below⟩ := lower rightSorted listed
    cases other : left.head? <;> simp [leastOf, head, other] at least <;> omega

theorem mem_nextIf {next height : Nat} {keys : List Nat} (sorted : keys.Pairwise (· < ·))
    (above : ∀ height ∈ keys, next ≤ height) :
    height ∈ nextIf next keys ↔ height ∈ keys ∧ height ≠ next := by
  cases sorted with
  | nil => simp [nextIf]
  | @cons first rest below _ =>
    simp only [nextIf, head?_cons, some.injEq, tail_cons]
    by_cases same : first = next
    · grind
    · have lowest := above first (mem_cons_self ..)
      grind

theorem gapWalk_spec {expected : Nat} {pending inFlight : List Nat}
    (pendingSorted : pending.Pairwise (· < ·)) (inFlightSorted : inFlight.Pairwise (· < ·))
    (above : ∀ height, height ∈ pending ∨ height ∈ inFlight → expected ≤ height) :
    LeastFree (fun height => height ∈ pending ∨ height ∈ inFlight) expected
      (gapWalk expected pending inFlight) := by
  fun_induction gapWalk expected pending inFlight with
  | case1 expected pending inFlight least =>
    refine .here ?_
    cases pending <;> cases inFlight <;> simp [leastOf] at least ⊢
  | case2 expected pending inFlight next least gap =>
    refine .here fun claimed => ?_
    have := leastOf_lower (pendingSorted.imp le_of_lt) (inFlightSorted.imp le_of_lt) least _ claimed
    omega
  | case3 expected pending inFlight next least gap ih =>
    have lowest := leastOf_lower (pendingSorted.imp le_of_lt) (inFlightSorted.imp le_of_lt) least
    have claimed : next ∈ pending ∨ next ∈ inFlight :=
      (leastOf_head least).imp mem_of_head? mem_of_head?
    obtain rfl : expected = next := by
      have := above next claimed
      omega
    have rest (height : Nat) :
        height ∈ nextIf expected pending ∨ height ∈ nextIf expected inFlight ↔
          (height ∈ pending ∨ height ∈ inFlight) ∧ height ≠ expected := by
      rw [mem_nextIf pendingSorted fun height listed => lowest height (.inl listed),
        mem_nextIf inFlightSorted fun height listed => lowest height (.inr listed), or_and_right]
    have sorted {keys : List Nat} (sorted : keys.Pairwise (· < ·)) :
        (nextIf expected keys).Pairwise (· < ·) := by
      unfold nextIf
      split
      · exact sorted.tail
      · exact sorted
    have after := ih (expected + 1) (sorted pendingSorted) (sorted inFlightSorted) (by
      intro height listed
      obtain ⟨listed, different⟩ := (rest height).mp listed
      have := lowest height listed
      omega)
    refine (LeastFree.next (after.congr fun height later => ?_)).extend (Nat.le_succ _) ?_
    · exact (rest height).trans (and_iff_left (by omega))
    · intro height from_start below
      obtain rfl : height = expected := by omega
      exact claimed

namespace WorkQueueState

def claimed (state : WorkQueueState) (height : Nat) : Prop :=
  height ∈ state.pending.keys ∨ height ∈ state.inFlight.keys

variable {state : WorkQueueState}

theorem le_max_lastKey {height : Nat} (claimed : state.claimed height) :
    ∃ last, max state.pending.lastKey state.inFlight.lastKey = some last ∧ height ≤ last := by
  rcases claimed with listed | listed
  · obtain ⟨last, found, below⟩ := le_lastKey listed
    cases other : state.inFlight.lastKey <;> simp [found] <;> omega
  · obtain ⟨last, found, below⟩ := le_lastKey listed
    cases other : state.pending.lastKey <;> simp [found] <;> omega

/-- The shortcut. Every claimed height lies in the range, so a full count leaves no gap. -/
theorem leastFree_of_count {anchor last : Nat} (apart : state.Apart)
    (first : leastOf state.pending.firstKey state.inFlight.firstKey = some (anchor + 1))
    (bounded : ∀ height, state.claimed height → height ≤ last) (above : anchor < last)
    (count : state.pending.keys.card + state.inFlight.keys.card = last - anchor) :
    LeastFree state.claimed (anchor + 1) (Height.next last) := by
  have lowest (height : Nat) (claimed : state.claimed height) : anchor + 1 ≤ height :=
    leastOf_lower (pairwise_ascending _) (pairwise_ascending _) first height
      (claimed.imp mem_ascending.mpr mem_ascending.mpr)
  have disjoint : Disjoint state.pending.keys state.inFlight.keys := by
    rw [Finset.disjoint_left]
    intro height pending inFlight
    rcases apart height with absent | absent
    · exact lookup_eq_none.mp absent (mem_keys.mp pending)
    · exact lookup_eq_none.mp absent (mem_keys.mp inFlight)
  have full : state.pending.keys ∪ state.inFlight.keys = Finset.Icc (anchor + 1) last := by
    refine Finset.eq_of_subset_of_card_le ?_ ?_
    · intro height listed
      have claimed := Finset.mem_union.mp listed
      exact Finset.mem_Icc.mpr ⟨lowest height claimed, bounded height claimed⟩
    · rw [Finset.card_union_of_disjoint disjoint, count, Nat.card_Icc]
      omega
  have taken (height : Nat) : state.claimed height ↔ anchor + 1 ≤ height ∧ height ≤ last := by
    rw [← Finset.mem_Icc, ← full, Finset.mem_union]
    rfl
  have beyond : LeastFree state.claimed (last + 1) ((Height.next last).bind some) :=
    LeastFree.next (.here (by rw [taken]; omega))
  rw [bind_fun_some] at beyond
  refine beyond.extend (by omega) fun height from_start below => (taken height).mpr ?_
  omega

theorem leastFree_of_walk (start : Nat) : LeastFree state.claimed start
      (gapWalk start (keysFrom start state.pending) (keysFrom start state.inFlight)) := by
  have sorted (map : FiniteMap Nat WorkItem) : (keysFrom start map).Pairwise (· < ·) :=
    List.Pairwise.filter _ (((pairwise_ascending map.keys).and (nodup_ascending map.keys)).imp
      fun ⟨below, different⟩ => lt_of_le_of_ne below different)
  have listed (map : FiniteMap Nat WorkItem) (height : Nat) :
      height ∈ keysFrom start map ↔ height ∈ map.keys ∧ start ≤ height := by
    simp [keysFrom]
  refine (gapWalk_spec (sorted _) (sorted _) fun height member => ?_).congr fun height above => ?_
  · rw [listed, listed] at member
    omega
  · rw [listed, listed, and_iff_left above, and_iff_left above]
    rfl

variable {first : Nat} {lists : TakenLists}
  {allowed : TakenLists → WorkQueueState → Transition → Prop}

theorem first_unclaimed_least (reached : Reachable first allowed lists state) (floor : Nat) :
    LeastFree state.claimed (max state.floor floor + 1) (state.firstUnclaimedAbove floor) := by
  refine LeastFree.next ?_
  split
  next unclaimed =>
    refine .here fun claimed => ?_
    obtain ⟨last, found, above⟩ := le_max_lastKey claimed
    simp [found] at unclaimed
    omega
  rename_i last found
  obtain ⟨found, above⟩ := filter_eq_some_iff.mp found
  split
  next shortcut =>
    refine leastFree_of_count reached.apart shortcut.1 ?_ (of_decide_eq_true above) shortcut.2
    intro height claimed
    obtain ⟨greatest, same, below⟩ := le_max_lastKey claimed
    rw [same, some.injEq] at found
    exact found ▸ below
  · exact leastFree_of_walk _

end WorkQueueState

namespace Sample

open WorkQueueState

/-- A forward reset leaves the heights at or below the new floor claimed. -/
def pinned : WorkQueueState := (taken.2.resetAbove 2).2

theorem pinned_reachable : Reachable 0 (fun _ _ _ => True) [taken.1] pinned :=
  .step (.resetAbove 2) (.step (.takeBudgeted 1 2 8 maxBlockBytes 3 1)
    (.step (.extend scope targets) .new trivial) trivial) trivial

theorem first_unclaimed_least_of_pinned : pinned.claimed 2 ∧
    LeastFree pinned.claimed 3 (pinned.firstUnclaimedAbove 1) :=
  ⟨by unfold claimed; decide +kernel, first_unclaimed_least pinned_reachable 1⟩

end Sample

end Zakura.BlockSync
