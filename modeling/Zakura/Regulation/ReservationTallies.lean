import Zakura.Lib.Totals
import Zakura.Regulation.ReservationsCore

/-!
The rows of a reservation map always agree with its live reservations.
-/

namespace Zakura.Regulation

open FiniteMap Checked Option

variable {Key : Type} {row : Row} {request : Nat} {key : Key}

def ofRequest (request : Nat) (weight : Reservation → Nat) (reservation : Reservation) : Nat :=
  if reservation.request = request then weight reservation else 0

def gain (weight : Reservation → Nat) (reservation : Option Reservation) : Nat :=
  (reservation.map weight).getD 0

def hasLeft (remaining : Nat) (reservation : Reservation) : Nat :=
  if reservation.remainingBytes = remaining then 1 else 0

def framesOwed (reservation : Reservation) : Nat := reservation.owed.frames

def bytesOwed (reservation : Reservation) : Nat := reservation.owed.bytes

section

variable [DecidableEq Key]

def Exchanged (before after : FiniteMap Key Reservation) (old new : Option Reservation) : Prop :=
  ∀ weight, total weight after + gain weight old = total weight before + gain weight new

variable {live : FiniteMap Key Reservation} {old : Reservation}

theorem exchanged_insert (absent : live.lookup key = none) (new : Reservation) :
    Exchanged live (live.insert key new) none (some new) := by
  intro weight
  exact total_insert_of_absent absent

theorem exchanged_replace (found : live.lookup key = some old) (new : Reservation) :
    Exchanged live (live.insert key new) (some old) (some new) := by
  intro weight
  exact total_insert_of_present found

theorem exchanged_erase (found : live.lookup key = some old) :
    Exchanged live (live.erase key) (some old) none := by
  intro weight
  exact total_erase found

end

namespace Row

def count (row : Row) (remaining : Nat) : Nat := (row.remaining.lookup remaining).getD 0

def Positive (row : Row) : Prop := ∀ remaining, row.remaining.lookup remaining ≠ some 0

theorem count_track (row : Row) (tracked remaining : Nat) : (row.track tracked).count remaining =
      row.count remaining + if tracked = remaining then 1 else 0 := by
  unfold count track
  rw [lookup_insert_ite]
  by_cases same : remaining = tracked
  · rw [if_pos same, if_pos same.symm, same]
    rfl
  · rw [if_neg same, if_neg (Ne.symm same)]
    rfl

variable {tracked remaining : Nat}

theorem Positive.track (positive : row.Positive) (tracked : Nat) :
    (row.track tracked).Positive := by
  intro remaining
  unfold Row.track
  rw [lookup_insert_ite]
  split
  · simp
  · exact positive remaining

theorem untrack_spec (positive : row.Positive) (present : 0 < row.count tracked) :
    ∃ next, row.untrack tracked = .ok next ∧ next.owed = row.owed ∧ next.queued = row.queued ∧
      next.Positive ∧ ∀ remaining,
        next.count remaining + (if tracked = remaining then 1 else 0) = row.count remaining := by
  unfold count at present
  unfold untrack
  cases found : row.remaining.lookup tracked with
  | none => simp [found] at present
  | some count =>
    rw [found, getD_some] at present
    dsimp only
    split
    · refine ⟨_, rfl, rfl, rfl, ?_, ?_⟩
      · intro remaining
        rw [lookup_erase_ite]
        split
        · simp
        · exact positive remaining
      intro remaining
      unfold Row.count
      rw [lookup_erase_ite]
      by_cases same : remaining = tracked
      · rw [if_pos same, if_pos same.symm, same, found, getD_none, getD_some]
        omega
      · rw [if_neg same, if_neg (Ne.symm same)]
        rfl
    rename_i more
    refine ⟨_, rfl, rfl, rfl, ?_, ?_⟩
    · intro remaining
      rw [lookup_insert_ite]
      split
      · simpa using more
      · exact positive remaining
    intro remaining
    unfold Row.count
    rw [lookup_insert_ite]
    by_cases same : remaining = tracked
    · rw [if_pos same, if_pos same.symm, same, found, getD_some, getD_some]
      omega
    · rw [if_neg same, if_neg (Ne.symm same)]
      rfl

theorem untrack_withOwed (positive : row.Positive) (present : 0 < row.count tracked) (owed : Load) :
    ∃ next, Row.untrack tracked { row with owed := owed } = .ok next ∧ next.owed = owed ∧
      next.queued = row.queued ∧ next.Positive ∧ ∀ remaining,
        next.count remaining + (if tracked = remaining then 1 else 0) = row.count remaining := by
  have stillPositive : Positive { row with owed := owed } := positive
  have stillPresent : 0 < count { row with owed := owed } tracked := present
  exact untrack_spec stillPositive stillPresent

theorem lastKey_of_count (present : 0 < row.count remaining) :
    ∃ largest, row.remaining.lastKey = some largest ∧ remaining ≤ largest := by
  refine le_lastKey ?_
  rw [mem_keys_iff]
  unfold count at present
  cases found : row.remaining.lookup remaining with
  | none => simp [found] at present
  | some count => exact ⟨count, rfl⟩

end Row

structure RowTally {Key : Type} [DecidableEq Key] (live : FiniteMap Key Reservation)
    (request : Nat) (row : Row) : Prop where
  frames : row.owed.frames = total (ofRequest request framesOwed) live % 2 ^ 64
  bytes : row.owed.bytes = total (ofRequest request bytesOwed) live % 2 ^ 64
  counts : ∀ remaining, row.count remaining = total (ofRequest request (hasLeft remaining)) live
  positive : row.Positive

section

variable [DecidableEq Key] {before after : FiniteMap Key Reservation}
  {old new reservation : Option Reservation} {next : Row} {weight : Reservation → Nat}

theorem gain_ofRequest (same : ∀ found ∈ reservation, found.request = request) :
    gain (ofRequest request weight) reservation = gain weight reservation := by
  cases reservation with
  | none => rfl
  | some found =>
    have isRequest := same found rfl
    simp [gain, ofRequest, isRequest]

theorem gain_other (different : ∀ found ∈ reservation, found.request ≠ request) :
    gain (ofRequest request weight) reservation = 0 := by
  cases reservation with
  | none => rfl
  | some found =>
    have isOther := different found rfl
    simp [gain, ofRequest, isOther]

section

variable (tally : RowTally before request row) (exchanged : Exchanged before after old new)
include tally exchanged

theorem RowTally.other (oldOther : ∀ found ∈ old, found.request ≠ request)
    (newOther : ∀ found ∈ new, found.request ≠ request) : RowTally after request row := by
  have same (weight : Reservation → Nat) :
      total (ofRequest request weight) after = total (ofRequest request weight) before := by
    have equation := exchanged (ofRequest request weight)
    rwa [gain_other oldOther, gain_other newOther] at equation
  exact ⟨by rw [same, tally.frames], by rw [same, tally.bytes],
    fun remaining => by rw [same, tally.counts], tally.positive⟩

theorem RowTally.move (oldSame : ∀ found ∈ old, found.request = request)
    (newSame : ∀ found ∈ new, found.request = request)
    (frames : next.owed.frames = (total (ofRequest request framesOwed) before + gain framesOwed new
      - gain framesOwed old) % 2 ^ 64)
    (bytes : next.owed.bytes = (total (ofRequest request bytesOwed) before + gain bytesOwed new -
      gain bytesOwed old) % 2 ^ 64)
    (counts : ∀ remaining, next.count remaining + gain (hasLeft remaining) old = row.count
      remaining + gain (hasLeft remaining) new) (positive : next.Positive) :
    RowTally after request next := by
  have equation (weight : Reservation → Nat) :
      total (ofRequest request weight) after + gain weight old =
        total (ofRequest request weight) before + gain weight new := by
    have general := exchanged (ofRequest request weight)
    rwa [gain_ofRequest oldSame, gain_ofRequest newSame] at general
  refine ⟨?_, ?_, ?_, positive⟩
  · rw [frames]
    congr 1
    have same := equation framesOwed
    omega
  · rw [bytes]
    congr 1
    have same := equation bytesOwed
    omega
  intro remaining
  have same := equation (hasLeft remaining)
  have moved := counts remaining
  rw [tally.counts] at moved
  omega

end

end

namespace Reservations

variable [DecidableEq Key]

/-- Every live reservation is within its cap, and the rows agree with the reservations. -/
structure Tallied (map : Reservations Key) : Prop where
  bounded : ∀ key reservation, map.live.lookup key = some reservation →
    reservation.frames ≤ reservation.cap.frames ∧ reservation.bytes ≤ reservation.cap.bytes
  hasRow : ∀ key reservation, map.live.lookup key = some reservation →
    ∃ row, map.rows.lookup reservation.request = some row
  tally : ∀ request row, map.rows.lookup request = some row → RowTally map.live request row

theorem tallied_new (rules : List MessageRule) (cap : Nat) :
    Tallied (new rules cap : Reservations Key) :=
  ⟨fun _ _ found => by simp [new] at found, fun _ _ found => by simp [new] at found,
    fun _ _ found => by simp [new] at found⟩

def queued (map : Reservations Key) (request : Nat) : Load :=
  ((map.rows.lookup request).map Row.queued).getD ⟨0, 0⟩

variable {map : Reservations Key} {reservation : Reservation}

theorem Tallied.rowTally_getD (tallied : Tallied map) (request : Nat) :
    RowTally map.live request ((map.rows.lookup request).getD Row.empty) := by
  cases found : map.rows.lookup request with
  | some row => exact tallied.tally request row found
  | none =>
    have none (weight : Reservation → Nat) : total (ofRequest request weight) map.live = 0 := by
      refine total_eq_zero fun key reservation isLive => ?_
      obtain ⟨row, hasRow⟩ := tallied.hasRow key reservation isLive
      refine if_neg fun same => ?_
      rw [same, found] at hasRow
      simp at hasRow
    refine ⟨?_, ?_, fun remaining => ?_, fun remaining => ?_⟩
    · rw [none]
      rfl
    · rw [none]
      rfl
    · rw [none]
      rfl
    · simp [Row.empty]

def exchange (map : Reservations Key) (live : FiniteMap Key Reservation) (request : Nat)
    (row : Row) : Reservations Key :=
  { map with live := live, rows := map.rows.insert request row }

omit [DecidableEq Key] in
theorem queued_exchange (live : FiniteMap Key Reservation) (same : row.queued = map.queued request)
    (query : Nat) : (map.exchange live request row).queued query = map.queued query := by
  unfold queued exchange
  rw [lookup_insert_ite]
  by_cases here : query = request
  · rw [if_pos here, here]
    exact same
  · rw [if_neg here]

theorem Tallied.exchange (tallied : Tallied map) {live : FiniteMap Key Reservation}
    {old new : Option Reservation} (exchanged : Exchanged map.live live old new)
    (oldSame : ∀ found ∈ old, found.request = request)
    (newSame : ∀ found ∈ new, found.request = request)
    (newBounded : ∀ found ∈ new, found.frames ≤ found.cap.frames ∧ found.bytes ≤ found.cap.bytes)
    (entries : ∀ key reservation, live.lookup key = some reservation → map.live.lookup key = some
      reservation ∨ new = some reservation) (rowTally : RowTally live request row) :
    Tallied (map.exchange live request row) := by
  refine ⟨?_, ?_, ?_⟩
  · intro key reservation found
    rcases entries key reservation found with kept | isNew
    · exact tallied.bounded key reservation kept
    · exact newBounded reservation isNew
  · intro key reservation found
    unfold Reservations.exchange
    rw [lookup_insert_ite]
    split
    · exact ⟨row, rfl⟩
    rename_i different
    rcases entries key reservation found with kept | isNew
    · exact tallied.hasRow key reservation kept
    · exact absurd (newSame reservation isNew) different
  intro query found isRow
  unfold Reservations.exchange at isRow ⊢
  rw [lookup_insert_ite] at isRow
  split at isRow
  next same =>
    rw [← some.inj isRow, same]
    exact rowTally
  rename_i different
  refine (tallied.tally query found isRow).other exchanged ?_ ?_
  · intro reservation isOld same
    exact different (same.symm.trans (oldSame reservation isOld))
  · intro reservation isNew same
    exact different (same.symm.trans (newSame reservation isNew))

theorem le_total_ofRequest (found : map.live.lookup key = some reservation)
    (weight : Reservation → Nat) :
    weight reservation ≤ total (ofRequest reservation.request weight) map.live := by
  have part : ofRequest reservation.request weight reservation ≤
      total (ofRequest reservation.request weight) map.live := weight_le_total found
  rwa [ofRequest, if_pos rfl] at part

theorem Tallied.count_pos (tallied : Tallied map) (found : map.live.lookup key = some reservation)
    (isRow : map.rows.lookup reservation.request = some row) :
    0 < row.count reservation.remainingBytes := by
  rw [(tallied.tally _ row isRow).counts]
  have part := le_total_ofRequest found (hasLeft reservation.remainingBytes)
  rw [hasLeft, if_pos rfl] at part
  omega

end Reservations

end Zakura.Regulation
