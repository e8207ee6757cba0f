import Mathlib.Data.Nat.Digits.Defs
import Mathlib.Data.List.Basic

/-!
Merkle mountain ranges over a sequence of leaves. The range of the first `count` leaves
is cut greedily, from left to right, into perfect binary trees; a mountain is given by
its altitude and its first leaf, and its peak is stored behind all nodes below it.
-/

namespace MountainRange

open List Option

variable {mountain last : Nat × Nat} {range rest : List (Nat × Nat)}
  {altitude count first stop : Nat}

section

def mountainsBelow : Nat → Nat → Nat → List (Nat × Nat)
  | 0, _, _ => []
  | altitude + 1, start, count =>
    if 2 ^ altitude ≤ count then
      (altitude, start) :: mountainsBelow altitude (start + 2 ^ altitude) (count - 2 ^ altitude)
    else mountainsBelow altitude start count

def mountains (count : Nat) : List (Nat × Nat) := mountainsBelow count 0 count

def Spans : Nat → Nat → List (Nat × Nat) → Prop
  | start, stop, [] => start = stop
  | start, stop, (altitude, first) :: rest => first = start ∧ Spans (start + 2 ^ altitude) stop rest

variable {start bound : Nat} {other : List (Nat × Nat)}

theorem spans_append : Spans start stop (range ++ other) ↔
    ∃ middle, Spans start middle range ∧ Spans middle stop other := by
  induction range generalizing start with
  | nil => simp [Spans]
  | cons mountain rest ih =>
    simp only [cons_append, Spans, ih]
    constructor
    · rintro ⟨isFirst, middle, left, right⟩
      exact ⟨middle, ⟨isFirst, left⟩, right⟩
    · rintro ⟨middle, ⟨isFirst, left⟩, right⟩
      exact ⟨isFirst, middle, left, right⟩

theorem spans_unique {other : Nat} (spans : Spans start stop range) (again : Spans start other range) :
    stop = other := by
  induction range generalizing start with
  | nil => exact spans.symm.trans again
  | cons mountain rest ih => exact ih spans.2 again.2

theorem spans_concat : Spans start stop (range ++ [(altitude, first)]) ↔
    Spans start first range ∧ first + 2 ^ altitude = stop := by
  rw [spans_append]
  constructor
  · rintro ⟨_, left, rfl, right⟩
    exact ⟨left, right⟩
  · rintro ⟨left, right⟩
    exact ⟨first, left, rfl, right⟩

abbrev Descends (range : List (Nat × Nat)) : Prop := range.Pairwise fun left right => right.1 < left.1

section

variable (spans : Spans start stop range)
include spans

theorem spans_le : start ≤ stop := by
  induction range generalizing start with
  | nil => exact Nat.le_of_eq spans
  | cons mountain rest ih => exact (Nat.le_add_right _ _).trans (ih spans.2)

theorem spans_lt (descends : Descends range) (below : ∀ mountain ∈ range, mountain.1 < bound) :
    stop < start + 2 ^ bound := by
  induction range generalizing start bound with
  | nil =>
    rw [← show start = stop from spans]
    exact Nat.lt_add_of_pos_right (Nat.two_pow_pos bound)
  | cons mountain rest ih =>
    obtain ⟨altitude, _⟩ := mountain
    obtain ⟨_, rest_spans⟩ := spans
    obtain ⟨lower, rest_descends⟩ := pairwise_cons.mp descends
    have rest_lt := ih rest_spans rest_descends lower
    dsimp only at rest_lt
    have altitude_lt : altitude < bound := below _ (mem_cons_self ..)
    have powers : 2 ^ (altitude + 1) ≤ 2 ^ bound := Nat.pow_le_pow_right (by decide) altitude_lt
    omega

end

theorem mountainsBelow_unique (spans : Spans start (start + count) range)
    (descends : Descends range) (below : ∀ mountain ∈ range, mountain.1 < bound) :
    mountainsBelow bound start count = range := by
  induction bound generalizing start count range with
  | zero =>
    cases range with
    | nil => rfl
    | cons mountain rest => exact absurd (below mountain (mem_cons_self ..)) (Nat.not_lt_zero _)
  | succ altitude ih =>
    unfold mountainsBelow
    by_cases top : ∃ mountain ∈ range, mountain.1 = altitude
    · obtain ⟨mountain, listed, isTop⟩ := top
      cases range with
      | nil => cases listed
      | cons head rest =>
        obtain ⟨headAltitude, first⟩ := head
        obtain ⟨lower, rest_descends⟩ := pairwise_cons.mp descends
        have headIsTop : headAltitude = altitude := by
          rcases mem_cons.mp listed with rfl | later
          · exact isTop
          · have above := lower mountain later
            have bounded := below _ (mem_cons_self ..)
            omega
        subst headIsTop
        obtain ⟨rfl, rest_spans⟩ := spans
        have stop_le := spans_le rest_spans
        have fits : 2 ^ headAltitude ≤ count := by omega
        rw [if_pos fits, ih (by
          have same : first + 2 ^ headAltitude + (count - 2 ^ headAltitude) = first + count := by
            omega
          rw [same]
          exact rest_spans) rest_descends lower]
    · have lower : ∀ mountain ∈ range, mountain.1 < altitude := by
        intro mountain listed
        have bounded := below mountain listed
        have differs : mountain.1 ≠ altitude := fun same => top ⟨mountain, listed, same⟩
        omega
      have small := spans_lt spans descends lower
      rw [if_neg (by omega)]
      exact ih spans descends lower

theorem mountainsBelow_spans (start : Nat) (small : count < 2 ^ bound) :
    Spans start (start + count) (mountainsBelow bound start count) ∧
      Descends (mountainsBelow bound start count) ∧
      ∀ mountain ∈ mountainsBelow bound start count, mountain.1 < bound := by
  induction bound generalizing start count with
  | zero =>
    obtain rfl : count = 0 := by omega
    exact ⟨rfl, List.Pairwise.nil, nofun⟩
  | succ altitude ih =>
    unfold mountainsBelow
    split
    · have smaller : count - 2 ^ altitude < 2 ^ altitude := by omega
      obtain ⟨spans, descends, below⟩ := ih (start + 2 ^ altitude) smaller
      have same : start + 2 ^ altitude + (count - 2 ^ altitude) = start + count := by omega
      rw [same] at spans
      refine ⟨⟨rfl, spans⟩, pairwise_cons.mpr ⟨below, descends⟩, ?_⟩
      intro mountain listed
      rcases mem_cons.mp listed with rfl | later
      · exact Nat.lt_succ_self _
      · exact Nat.lt_succ_of_lt (below mountain later)
    next unfit =>
      obtain ⟨spans, descends, below⟩ := ih start (Nat.lt_of_not_le unfit)
      exact ⟨spans, descends, fun mountain listed => Nat.lt_succ_of_lt (below mountain listed)⟩

structure IsRange (count : Nat) (range : List (Nat × Nat)) : Prop where
  spans : Spans 0 count range
  descends : Descends range

theorem isRange_mountains (count : Nat) : IsRange count (mountains count) := by
  obtain ⟨spans, descends, _⟩ := mountainsBelow_spans 0 (Nat.lt_two_pow_self (n := count))
  rw [Nat.zero_add] at spans
  exact ⟨spans, descends⟩

theorem IsRange.within (isRange : IsRange count range) (listed : mountain ∈ range) :
    mountain.2 + 2 ^ mountain.1 ≤ count := by
  obtain ⟨_, _, rfl⟩ := append_of_mem listed
  obtain ⟨_, _, isFirst, right⟩ := spans_append.mp isRange.spans
  have stop_le := spans_le right
  rw [isFirst]
  exact stop_le

theorem IsRange.eq_mountains (isRange : IsRange count range) : range = mountains count := by
  refine (mountainsBelow_unique (by rw [Nat.zero_add]; exact isRange.spans) isRange.descends ?_).symm
  intro mountain listed
  exact Nat.lt_two_pow_self.trans_le ((Nat.le_add_left _ _).trans (isRange.within listed))

theorem IsRange.append_left (isRange : IsRange stop (range ++ other)) :
    ∃ middle, IsRange middle range ∧ Spans middle stop other := by
  obtain ⟨middle, left, right⟩ := spans_append.mp isRange.spans
  exact ⟨middle, ⟨left, (pairwise_append.mp isRange.descends).1⟩, right⟩

theorem isRange_concat : IsRange stop (range ++ [(altitude, first)]) ↔
    IsRange first range ∧ first + 2 ^ altitude = stop ∧ ∀ mountain ∈ range, altitude < mountain.1 := by
  constructor
  · rintro ⟨spans, descends⟩
    obtain ⟨left, last⟩ := spans_concat.mp spans
    obtain ⟨before, _, above⟩ := pairwise_append.mp descends
    exact ⟨⟨left, before⟩, last, fun mountain listed =>
      above mountain listed (altitude, first) (mem_singleton_self _)⟩
  rintro ⟨isRange, last, above⟩
  refine ⟨spans_concat.mpr ⟨isRange.spans, last⟩, pairwise_append.mpr
    ⟨isRange.descends, pairwise_singleton .., ?_⟩⟩
  intro mountain listed only isOnly
  rw [mem_singleton.mp isOnly]
  exact above mountain listed

end

/-- Put a mountain to the right of a range, merging mountains of equal altitude. The range is
listed from right to left. -/
def carry : List (Nat × Nat) → Nat × Nat → List (Nat × Nat)
  | [], last => [last]
  | (altitude, first) :: rest, last =>
    if altitude = last.1 then carry rest (altitude + 1, first) else last :: (altitude, first) :: rest

theorem mem_carry (listed : mountain ∈ carry rest last) :
    mountain ∈ rest ∨ (carry rest last).head? = some mountain := by
  induction rest generalizing last with
  | nil => exact .inr (congrArg some (List.mem_singleton.mp listed).symm)
  | cons next rest ih =>
    unfold carry at listed ⊢
    split at listed
    next same =>
      rw [if_pos same]
      exact (ih listed).imp_left (mem_cons_of_mem _)
    next differs =>
      rw [if_neg differs]
      exact (mem_cons.mp listed).symm.imp_right fun isLast => congrArg some isLast.symm

theorem length_carry_le (rest : List (Nat × Nat)) (last : Nat × Nat) :
    (carry rest last).length ≤ rest.length + 1 := by
  induction rest generalizing last with
  | nil => exact Nat.le_refl _
  | cons next rest ih =>
    unfold carry
    split
    · exact (ih _).trans (Nat.le_succ _)
    · exact Nat.le_refl _

theorem isRange_carry (isRange : IsRange first rest.reverse)
    (above : ∀ mountain ∈ rest, altitude ≤ mountain.1) (last : first + 2 ^ altitude = stop) :
    IsRange stop (carry rest (altitude, first)).reverse := by
  induction rest generalizing first altitude with
  | nil =>
    obtain rfl : first = 0 := isRange.spans.symm
    exact ⟨⟨rfl, last⟩, pairwise_singleton ..⟩
  | cons mountain rest ih =>
    rw [reverse_cons] at isRange
    obtain ⟨before, isLast, higher⟩ := isRange_concat.mp isRange
    unfold carry
    split
    next same =>
      dsimp only at same
      refine ih before (fun mountain listed => higher mountain (by simpa using listed)) ?_
      rw [Nat.pow_succ, same]
      rw [same] at isLast
      omega
    rw [reverse_cons, reverse_cons]
    refine isRange_concat.mpr ⟨isRange, last, fun mountain listed => ?_⟩
    have nextAbove := above _ (mem_cons_self ..)
    rcases mem_append.mp listed with earlier | isNext
    · have higherMountain := higher mountain earlier
      omega
    · rw [mem_singleton.mp isNext]
      omega

theorem mountains_pos (positive : 0 < count) : ∃ mountain rest, mountains count = mountain :: rest := by
  have isRange := isRange_mountains count
  cases range : mountains count with
  | nil =>
    rw [range] at isRange
    have empty : 0 = count := isRange.spans
    omega
  | cons mountain rest => exact ⟨mountain, rest, rfl⟩

theorem mountains_succ (count : Nat) :
    mountains (count + 1) = (carry (mountains count).reverse (0, count)).reverse := by
  refine (IsRange.eq_mountains (isRange_carry ?_ (fun _ _ => Nat.zero_le _) rfl)).symm
  rw [reverse_reverse]
  exact isRange_mountains count

def popcount (count : Nat) : Nat := (Nat.digits 2 count).sum

theorem popcount_half (count : Nat) : popcount count = count % 2 + popcount (count / 2) := by
  rcases Nat.eq_zero_or_pos count with rfl | positive
  · rfl
  · unfold popcount
    rw [Nat.digits_def' (by decide) positive, sum_cons]

theorem popcount_top (high : 2 ^ altitude ≤ count) (small : count < 2 ^ (altitude + 1)) :
    popcount count = popcount (count - 2 ^ altitude) + 1 := by
  induction altitude generalizing count with
  | zero =>
    obtain rfl : count = 1 := by omega
    rfl
  | succ altitude ih =>
    have power := Nat.pow_succ 2 altitude
    have half := ih (show 2 ^ altitude ≤ count / 2 by omega) (by omega)
    have rest : (count - 2 ^ (altitude + 1)) / 2 = count / 2 - 2 ^ altitude := by omega
    rw [popcount_half count, popcount_half (count - 2 ^ (altitude + 1)), half, rest]
    omega

theorem length_mountainsBelow (start : Nat) (small : count < 2 ^ bound) :
    (mountainsBelow bound start count).length = popcount count := by
  induction bound generalizing start count with
  | zero =>
    obtain rfl : count = 0 := by omega
    rfl
  | succ altitude ih =>
    unfold mountainsBelow
    split
    next fits =>
      rw [length_cons, ih _ (by omega), popcount_top fits small]
    · exact ih start (by omega)

theorem length_mountains (count : Nat) : (mountains count).length = popcount count :=
  length_mountainsBelow 0 Nat.lt_two_pow_self

def nodeCount (count : Nat) : Nat := 2 * count - popcount count

def position (mountain : Nat × Nat) : Nat := nodeCount mountain.2 + 2 ^ (mountain.1 + 1) - 2

theorem popcount_le (count : Nat) : popcount count ≤ count := Nat.digit_sum_le 2 count

theorem IsRange.length_le (isRange : IsRange count range) : range.length ≤ count := by
  rw [isRange.eq_mountains, length_mountains]
  exact popcount_le count

theorem nodeCount_concat (isRange : IsRange count (range ++ [(altitude, first)])) :
    nodeCount count = nodeCount first + 2 ^ (altitude + 1) - 1 ∧
      position (altitude, first) + 1 = nodeCount count := by
  obtain ⟨before, last, _⟩ := isRange_concat.mp isRange
  have whole := isRange.eq_mountains
  have part := before.eq_mountains
  have counts : popcount count = popcount first + 1 := by
    rw [← length_mountains, ← length_mountains, ← whole, ← part]
    simp
  have bounded := popcount_le first
  have positive := Nat.two_pow_pos altitude
  unfold position nodeCount
  dsimp only
  rw [counts, ← last, Nat.pow_succ]
  omega

theorem nodeCount_lt_succ (count : Nat) : nodeCount count < nodeCount (count + 1) := by
  have grows : popcount (count + 1) ≤ popcount count + 1 := by
    rw [← length_mountains, ← length_mountains, mountains_succ, length_reverse]
    exact (length_carry_le _ _).trans_eq (congrArg (· + 1) length_reverse)
  have bounded := popcount_le count
  unfold nodeCount
  omega

theorem mem_mountains_succ (listed : mountain ∈ mountains (count + 1)) :
    mountain ∈ mountains count ∨ nodeCount count ≤ position mountain := by
  rw [mountains_succ, mem_reverse] at listed
  refine (mem_carry listed).imp mem_reverse.mp fun isHead => ?_
  obtain ⟨_, split⟩ := head?_eq_some_iff.mp isHead
  have isRange := isRange_mountains (count + 1)
  rw [mountains_succ, split, reverse_cons] at isRange
  have ends := (nodeCount_concat isRange).2
  have grows := nodeCount_lt_succ count
  exact Nat.le_of_lt_succ (grows.trans_eq ends.symm)

section

variable {Data : Type} (combine : Data → Data → Option Data) (leaf : Nat → Data)

def perfect : Nat → Nat → Option Data
  | 0, first => some (leaf first)
  | altitude + 1, first => do
      let left ← perfect altitude first
      let right ← perfect altitude (first + 2 ^ altitude)
      combine left right

/-- Combine the peaks of the given mountains, from left to right, into what was combined before. -/
def bag (combined : Data) : List (Nat × Nat) → Option Data
  | [] => some combined
  | mountain :: rest => do
      let peak ← perfect combine leaf mountain.1 mountain.2
      let next ← combine combined peak
      bag next rest

def root (count : Nat) : Option Data :=
  match mountains count with
  | [] => none
  | first :: rest => do
      let peak ← perfect combine leaf first.1 first.2
      bag combine leaf peak rest

variable {combine leaf}

variable {whole combined peak : Data}

theorem perfect_succ {left right : Data} (isLeft : perfect combine leaf altitude first = some left)
    (isRight : perfect combine leaf altitude (first + 2 ^ altitude) = some right) :
    perfect combine leaf (altitude + 1) first = combine left right := by
  unfold perfect
  rw [isLeft, isRight]
  rfl

theorem perfect_succ_eq_some (defined : perfect combine leaf (altitude + 1) first = some whole) :
    ∃ left right, perfect combine leaf altitude first = some left ∧
      perfect combine leaf altitude (first + 2 ^ altitude) = some right ∧
      combine left right = some whole := by
  obtain ⟨left, isLeft, defined⟩ := bind_eq_some_iff.mp defined
  obtain ⟨right, isRight, combined⟩ := bind_eq_some_iff.mp defined
  exact ⟨left, right, isLeft, isRight, combined⟩

def Defined (combine : Data → Data → Option Data) (leaf : Nat → Data) (range : List (Nat × Nat)) : Prop :=
  ∀ mountain ∈ range, ∃ peak, perfect combine leaf mountain.1 mountain.2 = some peak

theorem bag_eq_some (defined : bag combine leaf combined range = some whole) :
    Defined combine leaf range := by
  induction range generalizing combined with
  | nil => exact nofun
  | cons mountain rest ih =>
    obtain ⟨peak, isPeak, defined⟩ := bind_eq_some_iff.mp defined
    obtain ⟨_, _, defined⟩ := bind_eq_some_iff.mp defined
    intro query listed
    rcases mem_cons.mp listed with rfl | later
    · exact ⟨peak, isPeak⟩
    · exact ih defined query later

theorem root_of_range (range : mountains count = mountain :: rest)
    (isPeak : perfect combine leaf mountain.1 mountain.2 = some peak) :
    root combine leaf count = bag combine leaf peak rest := by
  unfold root
  rw [range]
  dsimp only
  rw [isPeak]
  rfl

theorem root_eq_some (defined : root combine leaf count = some whole) :
    ∃ first rest peak, mountains count = first :: rest ∧
      perfect combine leaf first.1 first.2 = some peak ∧ bag combine leaf peak rest = some whole := by
  unfold root at defined
  split at defined
  · cases defined
  next first rest range =>
    obtain ⟨peak, isPeak, bagged⟩ := bind_eq_some_iff.mp defined
    exact ⟨first, rest, peak, range, isPeak, bagged⟩

theorem defined_mountains (defined : root combine leaf count = some whole) :
    Defined combine leaf (mountains count) := by
  obtain ⟨_, _, peak, range, isPeak, bagged⟩ := root_eq_some defined
  rw [range]
  intro query listed
  rcases mem_cons.mp listed with rfl | later
  · exact ⟨peak, isPeak⟩
  · exact bag_eq_some bagged query later

theorem defined_of_carry (isRange : IsRange first rest.reverse)
    (defined : Defined combine leaf (carry rest (altitude, first))) :
    (∃ peak, perfect combine leaf altitude first = some peak) ∧ Defined combine leaf rest := by
  induction rest generalizing altitude first with
  | nil => exact ⟨defined _ (List.mem_cons_self ..), nofun⟩
  | cons mountain rest ih =>
    unfold carry at defined
    split at defined
    next same =>
      rw [reverse_cons] at isRange
      obtain ⟨before, isLast, _⟩ := isRange_concat.mp isRange
      obtain ⟨⟨_, isWhole⟩, restDefined⟩ := ih before defined
      obtain ⟨left, right, isLeft, isRight, _⟩ := perfect_succ_eq_some isWhole
      rw [isLast, same] at isRight
      refine ⟨⟨right, isRight⟩, fun query listed => ?_⟩
      rcases mem_cons.mp listed with rfl | later
      · exact ⟨left, isLeft⟩
      · exact restDefined query later
    · exact ⟨defined _ (mem_cons_self ..),
        fun query listed => defined query (mem_cons_of_mem _ listed)⟩

end

end MountainRange
