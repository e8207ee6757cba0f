import Zakura.Lib.Fallible
import Zakura.Lib.MountainRange
import Zakura.HistoryTree.HistoryTreeCore

/-!
The bit arithmetic that finds the peaks from the number of nodes alone.
-/

namespace Zakura.HistoryTree

open MountainRange Fallible List

namespace NonEmptyHistoryTree

variable {start remaining altitude bound : Nat} {done : List (Nat × Nat)}

theorem mountains_split (isRange : IsRange start done)
    (above : ∀ mountain ∈ done, bound ≤ mountain.1) (small : remaining < 2 ^ bound) :
    mountains (start + remaining) = done ++ mountainsBelow bound start remaining := by
  obtain ⟨spans, descends, below⟩ := mountainsBelow_spans start small
  refine (IsRange.eq_mountains ⟨spans_append.mpr ⟨start, isRange.spans, spans⟩, ?_⟩).symm
  refine pairwise_append.mpr ⟨isRange.descends, descends, ?_⟩
  intro left listedLeft right listedRight
  exact (below right listedRight).trans_le (above left listedLeft)

section

variable (isRange : IsRange start done)
include isRange

theorem nodeCount_split (above : ∀ mountain ∈ done, bound ≤ mountain.1)
    (small : remaining < 2 ^ bound) :
    nodeCount (start + remaining) + popcount remaining = nodeCount start + 2 * remaining := by
  have lengths := congrArg length (mountains_split isRange above small)
  rw [length_append, length_mountainsBelow start small, isRange.eq_mountains, length_mountains,
    length_mountains] at lengths
  have fewer := popcount_le remaining
  have bounded := popcount_le start
  unfold nodeCount
  omega

theorem candidate_absent (above : ∀ mountain ∈ done, altitude ≤ mountain.1)
    (small : remaining < 2 ^ altitude) :
    nodeCount (start + remaining) ≤ position (altitude, start) := by
  have counted := nodeCount_split isRange above small
  unfold position
  dsimp only
  rw [Nat.pow_succ]
  omega

theorem candidate_present (above : ∀ mountain ∈ done, altitude < mountain.1)
    (small : remaining < 2 ^ (altitude + 1)) (fits : 2 ^ altitude ≤ remaining) :
    position (altitude, start) < nodeCount (start + remaining) := by
  have counted := nodeCount_split isRange above small
  have top := popcount_top fits small
  have fewer := popcount_le (remaining - 2 ^ altitude)
  unfold position
  dsimp only
  rw [Nat.pow_succ]
  omega

end

def continueFrom (size fuel altitude position : Nat) (found : List Nat) :
    Except HistoryTreeError (List Nat) := do
  let (next, taken) ← takePeak size altitude position found
  if altitude = 0 then return taken
  else peakPositions size fuel altitude next taken

variable {size count fuel : Nat} {found : List Nat}

theorem peakPositions_succ {below position left : Nat}
    (dropped : dropLeft size altitude position = .ok (below, left)) :
    peakPositions size (fuel + 1) altitude position found =
      continueFrom size fuel below left found := by
  rw [peakPositions, bind_of_ok dropped]
  rfl

theorem dropLeft_absent (absent : size ≤ position (altitude + 1, start)) :
    dropLeft size (altitude + 1) (position (altitude + 1, start)) =
      .ok (altitude, position (altitude, start)) := by
  have parts : position (altitude + 1, start) - 2 ^ (altitude + 1) = position (altitude, start) := by
    unfold position
    dsimp only
    rw [Nat.pow_succ 2 (altitude + 1), Nat.pow_succ]
    omega
  have fits : 2 ^ (altitude + 1) ≤ position (altitude + 1, start) := by
    unfold position
    rw [Nat.pow_succ 2 (altitude + 1), Nat.pow_succ]
    omega
  unfold dropLeft sub32
  rw [if_pos absent, if_pos fits, if_pos (Nat.le_add_left 1 altitude), parts]
  rfl

theorem takePeak_present (isRange : IsRange start done)
    (above : ∀ mountain ∈ done, altitude < mountain.1) (fits : start + 2 ^ (altitude + 1) ≤ 2 ^ 31)
    (present : position (altitude, start) < size) :
    takePeak size altitude (position (altitude, start)) found =
      .ok (position (altitude, start + 2 ^ altitude), found ++ [position (altitude, start)]) := by
  have extended := (nodeCount_concat (isRange_concat.mpr ⟨isRange, rfl, above⟩)).1
  have positive := Nat.two_pow_pos altitude
  have nodes : nodeCount start ≤ 2 * start := Nat.sub_le _ _
  have sibling : position (altitude, start) + 2 ^ (altitude + 1) - 1 =
      position (altitude, start + 2 ^ altitude) := by
    unfold position
    dsimp only
    rw [extended, Nat.pow_succ]
    omega
  have small : position (altitude, start) + 2 ^ (altitude + 1) < u32Limit := by
    unfold position u32Limit
    dsimp only
    omega
  have large : 1 ≤ position (altitude, start) + 2 ^ (altitude + 1) := by
    rw [Nat.pow_succ]
    omega
  unfold takePeak add32 sub32
  rw [if_pos present, if_pos small]
  simp only [bind_of_ok rfl]
  rw [if_pos large, sibling]
  rfl

theorem takePeak_absent {position : Nat} (absent : size ≤ position) :
    takePeak size altitude position found = .ok (position, found) :=
  if_neg (Nat.not_lt.mpr absent)

theorem continueFrom_spec (found : List Nat) (enough : altitude ≤ fuel)
    (isRange : IsRange start done) (above : ∀ mountain ∈ done, altitude < mountain.1)
    (small : remaining < 2 ^ (altitude + 1)) (fits : start + 2 ^ (altitude + 1) ≤ 2 ^ 31) :
    continueFrom (nodeCount (start + remaining)) fuel altitude (position (altitude, start)) found =
      .ok (found ++ (mountainsBelow (altitude + 1) start remaining).map position) := by
  -- The induction is on the altitude; each round drops to the next one.
  induction altitude generalizing start remaining done fuel found with
  | zero =>
    unfold continueFrom
    by_cases taken : 2 ^ 0 ≤ remaining
    · have present := candidate_present isRange above small taken
      rw [bind_of_ok (takePeak_present isRange above fits present), mountainsBelow, if_pos taken]
      rfl
    have absent := candidate_absent isRange (fun mountain listed => (above mountain listed).le)
      (Nat.lt_of_not_le taken)
    rw [bind_of_ok (takePeak_absent absent), mountainsBelow, if_neg taken]
    simp [mountainsBelow, pure, Except.pure]
  | succ altitude ih =>
    obtain ⟨fuel, rfl⟩ : ∃ less, fuel = less + 1 := ⟨fuel - 1, by omega⟩
    have higher : ∀ mountain ∈ done, altitude < mountain.1 := fun mountain listed =>
      (Nat.lt_succ_self altitude).trans (above mountain listed)
    unfold continueFrom
    by_cases taken : 2 ^ (altitude + 1) ≤ remaining
    · have present := candidate_present isRange above small taken
      have extended := isRange_concat.mpr ⟨isRange, rfl, above⟩
      have aboveNext : ∀ mountain ∈ done ++ [(altitude + 1, start)], altitude + 1 ≤ mountain.1 := by
        intro mountain listed
        rcases mem_append.mp listed with earlier | isLast
        · exact (above mountain earlier).le
        · rw [mem_singleton.mp isLast]
      have split : start + 2 ^ (altitude + 1) + (remaining - 2 ^ (altitude + 1)) =
          start + remaining := by omega
      have absent := candidate_absent extended aboveNext
        (show remaining - 2 ^ (altitude + 1) < 2 ^ (altitude + 1) by omega)
      rw [split] at absent
      have rest := ih (found ++ [position (altitude + 1, start)])
        (show altitude ≤ fuel by omega) extended aboveNext
        (show remaining - 2 ^ (altitude + 1) < 2 ^ (altitude + 1) by omega) (by omega)
      rw [split] at rest
      rw [bind_of_ok (takePeak_present isRange above fits present), mountainsBelow, if_pos taken]
      dsimp only
      rw [if_neg (Nat.succ_ne_zero altitude), peakPositions_succ (dropLeft_absent absent), rest,
        append_assoc]
      rfl
    · have absent := candidate_absent isRange (fun mountain listed => (above mountain listed).le)
        (Nat.lt_of_not_le taken)
      have rest := ih found (show altitude ≤ fuel by omega) isRange higher
        (Nat.lt_of_not_le taken) (by omega)
      rw [bind_of_ok (takePeak_absent absent), mountainsBelow, if_neg taken]
      dsimp only
      rw [if_neg (Nat.succ_ne_zero altitude), peakPositions_succ (dropLeft_absent absent), rest]

theorem isRange_empty : IsRange 0 [] := ⟨rfl, List.Pairwise.nil⟩

theorem position_zero (altitude : Nat) : position (altitude, 0) = 2 ^ (altitude + 1) - 2 := by
  unfold position nodeCount
  dsimp only
  omega

theorem log2_nodeCount (positive : 1 ≤ count) : (nodeCount count + 1).log2 = count.log2 + 1 := by
  have lower := Nat.log2_self_le (Nat.ne_of_gt positive)
  have upper : count < 2 ^ (count.log2 + 1) := Nat.lt_log2_self
  have present := candidate_present isRange_empty nofun upper lower
  have nodes : nodeCount count ≤ 2 * count := Nat.sub_le _ _
  rw [position_zero, Nat.zero_add] at present
  refine (Nat.log2_eq_iff (Nat.succ_ne_zero _)).mpr ⟨by omega, ?_⟩
  rw [Nat.pow_succ]
  omega

theorem allPeakPositions_spec (positive : 1 ≤ count) (bounded : count ≤ maxHeight) :
    allPeakPositions (nodeCount count) = .ok ((mountains count).map position) := by
  unfold maxHeight at bounded
  have lower := Nat.log2_self_le (Nat.ne_of_gt positive)
  have upper : count < 2 ^ (count.log2 + 1) := Nat.lt_log2_self
  have nodes : nodeCount count ≤ 2 * count := Nat.sub_le _ _
  have altitude_le : count.log2 + 1 ≤ 31 := by
    by_contra high
    have large : 2 ^ 31 ≤ 2 ^ count.log2 := Nat.pow_le_pow_right (by decide) (by omega)
    omega
  have powers : 2 ^ (count.log2 + 1) ≤ 2 ^ 31 := Nat.pow_le_pow_right (by decide) altitude_le
  have two_le : 2 ≤ 2 ^ (count.log2 + 1) := by
    rw [Nat.pow_succ]
    omega
  have next : add32 (nodeCount count) 1 = .ok (nodeCount count + 1) :=
    if_pos (by unfold u32Limit; omega)
  have zeros : 32 - leadingZeros (nodeCount count + 1) = count.log2 + 1 + 1 := by
    unfold leadingZeros
    rw [if_neg (Nat.succ_ne_zero _), log2_nodeCount positive]
    omega
  have bits : sub32 (count.log2 + 1 + 1) 1 = .ok (count.log2 + 1) := if_pos (by omega)
  have altitude : sub32 (count.log2 + 1) 1 = .ok count.log2 := if_pos (by omega)
  have first : sub32 (2 ^ (count.log2 + 1)) 2 = .ok (position (count.log2, 0)) := by
    unfold sub32
    rw [if_pos two_le, position_zero]
  have present := candidate_present isRange_empty nofun upper lower
  have range := mountains_split isRange_empty nofun upper
  rw [Nat.zero_add] at present range
  have dropped : dropLeft (nodeCount count) count.log2 (position (count.log2, 0)) =
      .ok (count.log2, position (count.log2, 0)) := if_neg (Nat.not_le.mpr present)
  have found := continueFrom_spec [] (show count.log2 ≤ 63 by omega) isRange_empty nofun upper
    (by omega)
  rw [Nat.zero_add, ← nil_append (mountainsBelow _ _ _), ← range] at found
  unfold allPeakPositions
  rw [bind_of_ok next, zeros, bind_of_ok bits, bind_of_ok altitude,
    bind_of_ok first, peakPositions_succ dropped, found]
  rfl

end NonEmptyHistoryTree

end Zakura.HistoryTree
