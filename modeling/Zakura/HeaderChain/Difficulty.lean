import Mathlib.Data.Nat.Bitwise
import Mathlib.Data.Nat.Size
import Zakura.HeaderChain.Types
import Zakura.Lib.Checked

/-!
The compact form of a difficulty target. Compacting keeps the leading bytes of a target,
so reading it back rounds the target down to a multiple of a power of 256.
-/

namespace Zakura.HeaderChain

open CompactDifficulty Option

def compactMantissa (expanded size : Nat) : Option Nat :=
  if expanded ≤ unsignedMantissaMask then
    (Checked.sub 3 size).map fun bytes => expanded <<< (8 * bytes) % u256Bound
  else (Checked.sub size 3).map fun bytes => expanded >>> (8 * bytes)

/-- The compact form of a target, or none where an assertion or a subtraction panics. -/
def toCompact (expanded : Nat) : Option CompactDifficulty :=
  if expanded = 0 then none
  else
    let size := expanded.size / 8 + 1
    (compactMantissa expanded size).bind fun mantissa =>
      if size < 34 ∧ mantissa ≤ unsignedMantissaMask ∧ 0 < mantissa then
        some ⟨BitVec.ofNat 32 (mantissa + size <<< 24)⟩
      else none

def roundTrip (expanded : Nat) : Option Nat :=
  (toCompact expanded).bind CompactDifficulty.toExpanded

/-- A mantissa at its place, with a compact size of three at the lowest byte. -/
def placed (mantissa size : Nat) : Nat :=
  mantissa * 256 ^ (size - 3) / 256 ^ (3 - size)

theorem two_pow_bytes (bytes : Nat) : 2 ^ (8 * bytes) = 256 ^ bytes :=
  Nat.pow_mul 2 8 bytes

section

variable {mantissa size : Nat}

theorem normalise_eq_placed {value : Nat × Nat} (small : mantissa < 2 ^ 23)
    (found : normalise mantissa ((size : Int) - 3) = some value) :
    value.1 * 256 ^ value.2 = placed mantissa size ∧ placed mantissa size < u256Bound := by
  unfold normalise at found
  unfold placed u256Bound
  split_ifs at found
  · obtain rfl : size = 34 := by omega
    cases found
    simp only [Nat.shiftLeft_eq]
    omega
  · obtain rfl : size = 33 := by omega
    cases found
    simp only [Nat.shiftLeft_eq]
    omega
  · cases found
    rw [show ((size : Int) - 3).natAbs = 3 - size by omega, show size - 3 = 0 by omega,
      Nat.shiftRight_eq_div_pow, Nat.mul_comm (3 - size), two_pow_bytes]
    have shrinks := Nat.div_le_self mantissa (256 ^ (3 - size))
    simp only [Nat.pow_zero, Nat.mul_one, true_and]
    omega
  cases found
  rw [show ((size : Int) - 3).toNat = size - 3 by omega, show 3 - size = 0 by omega,
    Nat.pow_zero, Nat.div_one]
  have scale : 256 ^ (size - 3) ≤ 256 ^ 29 := Nat.pow_le_pow_right (by decide) (by omega)
  have bound := Nat.mul_le_mul (Nat.le_of_lt small) scale
  exact ⟨rfl, by omega⟩

theorem normalise_of_small (small : size ≤ 32 ∨ size = 33 ∧ mantissa ≤ 65535) :
    ∃ value, normalise mantissa ((size : Int) - 3) = some value := by
  unfold normalise
  split_ifs
  all_goals first
    | exact ⟨_, rfl⟩
    | omega

theorem toExpanded_of_fields (positive : placed mantissa size ≠ 0) (bound : mantissa < 2 ^ 23)
    (small : size ≤ 32 ∨ size = 33 ∧ mantissa ≤ 65535) :
    CompactDifficulty.toExpanded ⟨BitVec.ofNat 32 (mantissa + size <<< 24)⟩ =
      some (placed mantissa size) := by
  obtain ⟨value, found⟩ := normalise_of_small small
  obtain ⟨isPlaced, _⟩ := normalise_eq_placed bound found
  have bits : (mantissa + size <<< 24) % 2 ^ 32 = mantissa + size * 2 ^ 24 := by
    rw [Nat.shiftLeft_eq]
    omega
  have unsigned : ¬ (mantissa + size * 2 ^ 24) &&& 2 ^ 23 = 2 ^ 23 := by
    have clear : (mantissa + size * 2 ^ 24) / 2 ^ 23 % 2 ≠ 1 := by omega
    rw [Nat.and_two_pow, Nat.testBit_eq_decide_div_mod_eq, decide_eq_false clear]
    decide
  have fraction : (mantissa + size * 2 ^ 24) % 2 ^ 23 = mantissa := by omega
  have scale : (mantissa + size * 2 ^ 24) / 2 ^ 24 = size := by omega
  simp only [CompactDifficulty.toExpanded, BitVec.toNat_ofNat, bits, signBit, unsigned, if_false,
    unsignedMantissaMask, Nat.and_two_pow_sub_one_eq_mod, fraction, Nat.shiftRight_eq_div_pow,
    scale, found, isPlaced, positive]

theorem toExpanded_fields {compact : CompactDifficulty} {expanded : Nat}
    (found : compact.toExpanded = some expanded) :
    ∃ mantissa size, mantissa < 2 ^ 23 ∧ expanded = placed mantissa size ∧ expanded ≠ 0 ∧
      expanded < u256Bound := by
  unfold CompactDifficulty.toExpanded at found
  simp only [unsignedMantissaMask, Nat.and_two_pow_sub_one_eq_mod] at found
  split at found
  · cases found
  split at found
  · cases found
  rename_i mantissa exponent normalised
  split at found
  · cases found
  rename_i nonzero
  cases found
  have small := Nat.mod_lt compact.bits.toNat (Nat.two_pow_pos 23)
  obtain ⟨isPlaced, bound⟩ := normalise_eq_placed small normalised
  exact ⟨_, _, small, isPlaced, nonzero, isPlaced ▸ bound⟩

end

/-- The target with the bytes cleared that its compact form drops. -/
def roundDown (expanded : Nat) : Nat :=
  expanded / 256 ^ (expanded.size / 8 - 2) * 256 ^ (expanded.size / 8 - 2)

variable {expanded other : Nat}

section

variable (positive : 0 < expanded)
include positive

theorem two_pow_le : 2 ^ (expanded.size - 1) ≤ expanded := by
  have counted := Nat.size_pos.mpr positive
  exact Nat.lt_size.mp (by omega)

theorem two_pow_le_roundDown : 2 ^ (expanded.size - 1) ≤ roundDown expanded := by
  have counted := Nat.size_pos.mpr positive
  obtain ⟨rest, split⟩ : ∃ rest, expanded.size - 1 = rest + 8 * (expanded.size / 8 - 2) :=
    ⟨expanded.size - 1 - 8 * (expanded.size / 8 - 2), by omega⟩
  have leading := two_pow_le positive
  rw [split, Nat.pow_add, two_pow_bytes] at leading ⊢
  exact Nat.mul_le_mul_right _ ((Nat.le_div_iff_mul_le (Nat.pow_pos (by decide))).mpr leading)

theorem roundDown_pos : 0 < roundDown expanded :=
  Nat.lt_of_lt_of_le (Nat.two_pow_pos _) (two_pow_le_roundDown positive)

theorem size_roundDown : (roundDown expanded).size = expanded.size := by
  have counted := Nat.size_pos.mpr positive
  have lower := Nat.lt_size.mpr (two_pow_le_roundDown positive)
  have upper := Nat.size_le_size (Nat.div_mul_le_self expanded (256 ^ (expanded.size / 8 - 2)))
  change (roundDown expanded).size ≤ _ at upper
  omega

theorem roundTrip_of_mantissa {mantissa : Nat}
    (found : compactMantissa expanded (expanded.size / 8 + 1) = some mantissa)
    (nonzero : 0 < mantissa) (bound : mantissa < 2 ^ 23)
    (small : expanded.size / 8 ≤ 31 ∨ expanded.size / 8 = 32 ∧ mantissa ≤ 65535)
    (isPlaced : placed mantissa (expanded.size / 8 + 1) = roundDown expanded) :
    roundTrip expanded = some (roundDown expanded) := by
  have rounded := roundDown_pos positive
  have accepted : expanded.size / 8 + 1 < 34 ∧ mantissa ≤ unsignedMantissaMask ∧ 0 < mantissa := by
    unfold unsignedMantissaMask
    omega
  have compact : toCompact expanded =
      some ⟨BitVec.ofNat 32 (mantissa + (expanded.size / 8 + 1) <<< 24)⟩ := by
    simp only [toCompact, if_neg positive.ne', found, bind_some, if_pos accepted]
  rw [roundTrip, compact, bind_some, toExpanded_of_fields (by omega) bound (by omega),
    isPlaced]

theorem roundTrip_eq (bound : expanded < u256Bound) :
    roundTrip expanded = some (roundDown expanded) := by
  have counted := Nat.size_pos.mpr positive
  have fits : expanded.size ≤ 256 := Nat.size_le.mpr bound
  have below := expanded.lt_size_self
  have base (bytes : Nat) : 0 < 256 ^ bytes := Nat.pow_pos (by decide)
  by_cases small : expanded ≤ unsignedMantissaMask
  · have short : expanded.size ≤ 23 := by
      unfold unsignedMantissaMask at small
      exact Nat.size_le.mpr (by omega)
    have mantissa : expanded * 256 ^ (2 - expanded.size / 8) < 2 ^ 23 := by
      calc expanded * 256 ^ (2 - expanded.size / 8)
          < 2 ^ expanded.size * 256 ^ (2 - expanded.size / 8) :=
            Nat.mul_lt_mul_of_pos_right below (base _)
        _ = 2 ^ (expanded.size + 8 * (2 - expanded.size / 8)) := by
            rw [Nat.pow_add, two_pow_bytes]
        _ ≤ 2 ^ 23 := Nat.pow_le_pow_right (by decide) (by omega)
    have shifted : compactMantissa expanded (expanded.size / 8 + 1) =
        some (expanded * 256 ^ (2 - expanded.size / 8)) := by
      rw [compactMantissa, if_pos small, Checked.sub_of_le (by omega), map_some,
        Nat.shiftLeft_eq, two_pow_bytes, Nat.mod_eq_of_lt]
      · congr 3
        omega
      · unfold u256Bound
        rw [show 3 - (expanded.size / 8 + 1) = 2 - expanded.size / 8 by omega]
        omega
    refine roundTrip_of_mantissa positive shifted (Nat.mul_pos positive (base _)) mantissa
      (by omega) ?_
    rw [placed, roundDown, show expanded.size / 8 + 1 - 3 = 0 by omega,
      show expanded.size / 8 - 2 = 0 by omega,
      show 3 - (expanded.size / 8 + 1) = 2 - expanded.size / 8 by omega, Nat.pow_zero, Nat.mul_one,
      Nat.mul_div_cancel _ (base _), Nat.div_one, Nat.mul_one]
  · have long : 23 < expanded.size := by
      unfold unsignedMantissaMask at small
      exact Nat.lt_size.mpr (by omega)
    have leading : expanded / 256 ^ (expanded.size / 8 - 2) < 2 ^ (expanded.size % 8 + 16) := by
      apply Nat.div_lt_of_lt_mul
      rw [← two_pow_bytes, ← Nat.pow_add]
      exact lt_of_lt_of_eq below (congrArg _ (by omega))
    have shifted : compactMantissa expanded (expanded.size / 8 + 1) =
        some (expanded / 256 ^ (expanded.size / 8 - 2)) := by
      rw [compactMantissa, if_neg small, Checked.sub_of_le (by omega), map_some,
        Nat.shiftRight_eq_div_pow, two_pow_bytes]
      rfl
    have mantissa : 2 ^ (expanded.size % 8 + 16) ≤ 2 ^ 23 :=
      Nat.pow_le_pow_right (by decide) (by omega)
    have nonzero := Nat.pos_of_mul_pos_right (roundDown_pos positive)
    refine roundTrip_of_mantissa positive shifted nonzero (leading.trans_le mantissa) ?_ ?_
    · by_cases last : expanded.size = 256
      · have word : 2 ^ (expanded.size % 8 + 16) = 2 ^ 16 := by rw [last]
        omega
      · omega
    · rw [placed, roundDown, show 3 - (expanded.size / 8 + 1) = 0 by omega, Nat.pow_zero,
        Nat.div_one]
      rfl

end

theorem roundDown_mono (positive : 0 < expanded) (smaller : expanded ≤ other) :
    roundDown expanded ≤ roundDown other := by
  have sizes := Nat.size_le_size smaller
  by_cases same : expanded.size / 8 - 2 = other.size / 8 - 2
  · rw [roundDown, roundDown, same]
    exact Nat.mul_le_mul_right _ (Nat.div_le_div_right smaller)
  calc roundDown expanded ≤ expanded := Nat.div_mul_le_self _ _
    _ ≤ 2 ^ expanded.size := Nat.le_of_lt expanded.lt_size_self
    _ ≤ 2 ^ (other.size - 1) := Nat.pow_le_pow_right (by decide) (by omega)
    _ ≤ roundDown other := two_pow_le_roundDown (by omega)

theorem roundDown_placed {mantissa size : Nat} (small : mantissa < 2 ^ 23) :
    roundDown (placed mantissa size) = placed mantissa size := by
  apply Nat.div_mul_cancel
  have bound : placed mantissa size < 2 ^ (23 + 8 * (size - 3)) := by
    refine lt_of_le_of_lt (Nat.div_le_self _ _) ?_
    rw [Nat.pow_add, two_pow_bytes]
    exact Nat.mul_lt_mul_of_pos_right small (Nat.pow_pos (by decide))
  have sized := Nat.size_le.mpr bound
  by_cases lowest : size ≤ 3
  · rw [show (placed mantissa size).size / 8 - 2 = 0 by omega]
    exact one_dvd _
  have whole : placed mantissa size = mantissa * 256 ^ (size - 3) := by
    rw [placed, show 3 - size = 0 by omega, Nat.pow_zero, Nat.div_one]
  rw [whole] at sized ⊢
  exact dvd_mul_of_dvd_right (Nat.pow_dvd_pow 256 (by omega)) _

theorem workOfExpanded_eq (positive : 0 < expanded) (bound : expanded < u256Bound) :
    workOfExpanded expanded = some (u256Bound / (expanded + 1)) := by
  unfold workOfExpanded
  rw [if_neg (by omega)]
  split
  next last =>
    rw [last, Nat.sub_add_cancel (by decide), Nat.div_self (by decide)]
  · rw [← Nat.add_div_right _ (Nat.succ_pos expanded)]
    congr 2
    omega

/-- Compacting a target never panics and rounds it down below its leading sixteen bits, once and
in order; a target of a compact value keeps its value; and its work is the exact quotient. -/
theorem compact_difficulty_exact :
    (∀ expanded, 0 < expanded → expanded < u256Bound → ∃ rounded,
      roundTrip expanded = some rounded ∧ rounded ≤ expanded ∧
      (∃ bytes, rounded = expanded / 256 ^ bytes * 256 ^ bytes ∧
        (bytes = 0 ∨ 8 * bytes + 16 ≤ expanded.size)) ∧
      roundTrip rounded = some rounded) ∧
    (∀ (compact : CompactDifficulty) expanded, compact.toExpanded = some expanded →
      roundTrip expanded = some expanded) ∧
    (∀ expanded other rounded otherRounded, expanded ≤ other → other < u256Bound →
      roundTrip expanded = some rounded → roundTrip other = some otherRounded →
      rounded ≤ otherRounded) ∧
    (∀ expanded, 0 < expanded → expanded < u256Bound →
      workOfExpanded expanded = some (u256Bound / (expanded + 1)) ∧
        u256Bound / (expanded + 1) < u256Bound) ∧
    (∀ expanded other work otherWork, expanded ≤ other → other < u256Bound →
      workOfExpanded expanded = some work → workOfExpanded other = some otherWork →
      otherWork ≤ work) := by
  refine ⟨?_, ?_, ?_, ?_, ?_⟩
  · intro expanded positive bound
    have below : roundDown expanded ≤ expanded := Nat.div_mul_le_self _ _
    have rounded := roundDown_pos positive
    have again : roundDown (roundDown expanded) = roundDown expanded := by
      apply Nat.div_mul_cancel
      rw [size_roundDown positive]
      exact Nat.dvd_mul_left _ _
    refine ⟨_, roundTrip_eq positive bound, below, ⟨_, rfl, by omega⟩, ?_⟩
    rw [roundTrip_eq rounded (by omega), again]
  · intro compact expanded found
    obtain ⟨mantissa, size, small, rfl, nonzero, bound⟩ := toExpanded_fields found
    rw [roundTrip_eq (Nat.pos_of_ne_zero nonzero) bound, roundDown_placed small]
  · intro expanded other rounded otherRounded smaller bound first second
    have positive : 0 < expanded := by
      refine Nat.pos_of_ne_zero ?_
      rintro rfl
      cases first
    rw [roundTrip_eq positive (by omega)] at first
    rw [roundTrip_eq (by omega) bound] at second
    cases first
    cases second
    exact roundDown_mono positive smaller
  · intro expanded positive bound
    exact ⟨workOfExpanded_eq positive bound, Nat.div_lt_self (by decide) (by omega)⟩
  intro expanded other work otherWork smaller bound first second
  have positive : 0 < expanded := by
    refine Nat.pos_of_ne_zero ?_
    rintro rfl
    cases first
  rw [workOfExpanded_eq positive (by omega)] at first
  rw [workOfExpanded_eq (by omega) bound] at second
  cases first
  cases second
  exact Nat.div_le_div_left (by omega) (Nat.succ_pos _)

end Zakura.HeaderChain
