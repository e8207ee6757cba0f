import Zakura.Regulation.ReservationTallies

/-!
What each operation on a reservation map does to the live reservations, the rows and
the queue.
-/

namespace Zakura.Regulation

open FiniteMap Checked Fallible Option Except

namespace Reservations

variable {Key : Type} [DecidableEq Key] {map next : Reservations Key} {key : Key}

structure Changes (map next : Reservations Key) (live : FiniteMap Key Reservation) : Prop where
  tallied : Tallied next
  rules : next.rules = map.rules
  cap : next.cap = map.cap
  live : next.live = live
  queued : ∀ request, next.queued request = map.queued request

variable {request messageType len : Nat} {row : Row} {reservation : Reservation} {ends : Bool}

theorem insert_spec (tallied : Tallied map) {cap : ResponseCap}
    (reserved : map.insert key request cap = .ok next) : map.live.lookup key = none ∧
      Changes map next (map.live.insert key (map.reservationFor request cap)) := by
  obtain ⟨_, reserved⟩ := ite_error_eq_ok.mp reserved
  obtain ⟨notLive, reserved⟩ := ite_error_eq_ok.mp reserved
  obtain ⟨_, reserved⟩ := ite_error_eq_ok.mp reserved
  obtain rfl := ok.inj reserved
  have absent : map.live.lookup key = none := by simpa using notLive
  refine ⟨absent, ?_⟩
  have rowTally := tallied.rowTally_getD request
  have isQueued : map.queued request =
      ((map.rows.lookup request).getD Row.empty).queued := by
    unfold queued
    cases map.rows.lookup request <;> rfl
  generalize (map.rows.lookup request).getD Row.empty = row at *
  set reservation := map.reservationFor request cap
  have moved : RowTally (map.live.insert key reservation) request
      { row.track reservation.remainingBytes with
        owed := (row.track reservation.remainingBytes).owed.add reservation.owed } := by
    refine rowTally.move (exchanged_insert absent reservation) (by simp) (by rintro _ ⟨⟩; rfl)
      ?_ ?_ ?_ (rowTally.positive.track _)
    · exact (congrArg (wrappingAdd · _) rowTally.frames).trans (wrappingAdd_mod _ _)
    · exact (congrArg (wrappingAdd · _) rowTally.bytes).trans (wrappingAdd_mod _ _)
    · intro remaining
      exact row.count_track reservation.remainingBytes remaining
  refine ⟨tallied.exchange (exchanged_insert absent reservation) (by simp) (by rintro _ ⟨⟩; rfl)
    ?_ ?_ moved, rfl, rfl, rfl, queued_exchange _ isQueued.symm⟩
  · rintro _ ⟨⟩
    exact ⟨Nat.zero_le _, Nat.zero_le _⟩
  exact forall_lookup_insert (fun _ _ => .inl) (.inr rfl)

omit [DecidableEq Key] in
theorem row_of_some (found : map.rows.lookup request = some row) : map.row request = .ok row := by
  rw [Reservations.row, found]

theorem Tallied.remove (tallied : Tallied map) (untracked : Row)
    (found : map.live.lookup key = some reservation)
    (isRow : map.rows.lookup reservation.request = some row)
    (owed : untracked.owed = row.owed.sub reservation.owed) (queued : untracked.queued = row.queued)
    (positive : untracked.Positive) (counts : ∀ remaining, untracked.count remaining + (if
      reservation.remainingBytes = remaining then 1 else 0) = row.count remaining) :
    Changes map (map.exchange (map.live.erase key) reservation.request untracked)
      (map.live.erase key) := by
  have tally := tallied.tally _ row isRow
  have moved : RowTally (map.live.erase key) reservation.request untracked := by
    refine tally.move (exchanged_erase found) (by rintro _ ⟨⟩; rfl) (by simp) ?_ ?_ counts positive
    · rw [owed]
      exact (congrArg (wrappingSub · _) tally.frames).trans
        (wrappingSub_mod (le_total_ofRequest found framesOwed))
    · rw [owed]
      exact (congrArg (wrappingSub · _) tally.bytes).trans
        (wrappingSub_mod (le_total_ofRequest found bytesOwed))
  refine ⟨tallied.exchange (exchanged_erase found) (by rintro _ ⟨⟩; rfl) (by simp) (by simp) ?_
    moved, rfl, rfl, rfl, queued_exchange _ ?_⟩
  · intro other kept isKept
    exact .inl (lookup_erase_eq_some.mp isKept).2
  · rw [queued, Reservations.queued, isRow]
    rfl

theorem Tallied.retract_spec (tallied : Tallied map) (key : Key) :
    map.retract key = .ok (false, map) ∧ map.live.lookup key = none ∨
      ∃ reservation next, map.live.lookup key = some reservation ∧
        map.retract key = .ok (true, next) ∧ Changes map next (map.live.erase key) := by
  unfold retract
  cases found : map.live.lookup key with
  | none => exact .inl ⟨rfl, rfl⟩
  | some reservation =>
    obtain ⟨row, isRow⟩ := tallied.hasRow key reservation found
    obtain ⟨untracked, isUntracked, sameOwed, sameQueued, positive, counts⟩ :=
      Row.untrack_spec (tallied.tally _ row isRow).positive (tallied.count_pos found isRow)
    have removedRow : Reservations.row { map with live := map.live.erase key }
        reservation.request = .ok row := row_of_some isRow
    refine .inr ⟨reservation, _, rfl, ?_, tallied.remove
      { untracked with owed := untracked.owed.sub reservation.owed } found isRow
      (by rw [sameOwed]) sameQueued positive counts⟩
    dsimp only
    rw [bind_of_ok removedRow, bind_of_ok isUntracked]
    rfl

theorem Tallied.abandon_spec (tallied : Tallied map) (key : Key) :
    map.abandon key = (false, map) ∨ ∃ reservation, map.live.lookup key = some reservation ∧
      (map.abandon key).1 = true ∧ Changes map (map.abandon key).2
        (map.live.insert key { reservation with abandoned := true }) := by
  unfold abandon
  cases found : map.live.lookup key with
  | none => exact .inl rfl
  | some reservation =>
    refine .inr ⟨reservation, rfl, rfl, ⟨?_, ?_, ?_⟩, rfl, rfl, rfl, fun _ => rfl⟩
    · exact forall_lookup_insert tallied.bounded (tallied.bounded key reservation found)
    · exact forall_lookup_insert tallied.hasRow (tallied.hasRow key reservation found)
    intro request row isRow
    have tally := tallied.tally request row isRow
    have same {weight : Reservation → Nat}
        (blind : weight { reservation with abandoned := true } = weight reservation) :
        total weight (map.live.insert key { reservation with abandoned := true }) =
          total weight map.live := by
      have equation : total weight (map.live.insert key { reservation with abandoned := true }) +
          weight reservation = total weight map.live +
            weight { reservation with abandoned := true } := total_insert_of_present found
      omega
    exact ⟨tally.frames.trans (congrArg (· % 2 ^ 64) (same rfl).symm),
      tally.bytes.trans (congrArg (· % 2 ^ 64) (same rfl).symm),
      fun remaining => (tally.counts remaining).trans (same rfl).symm, tally.positive⟩

structure Chargeable (map : Reservations Key) (key : Key) (messageType len : Nat) (ends : Bool)
    (reservation : Reservation) : Prop where
  role : roleOf map.rules messageType = some (.response reservation.request ends)
  found : map.live.lookup key = some reservation
  frames : ends = false → reservation.frames < reservation.cap.frames
  bytes : len ≤ reservation.remainingBytes

theorem checkCharge_ok : map.checkCharge key messageType len ends = .ok reservation ↔
      Chargeable map key messageType len ends reservation := by
  constructor
  · intro checked
    unfold checkCharge at checked
    split at checked
    next request endsExchange isRole =>
      split at checked
      · simp at checked
      rename_i live isLive
      obtain ⟨sameRequest, checked⟩ := ite_error_eq_ok.mp checked
      obtain ⟨sameEnds, checked⟩ := ite_error_eq_ok.mp checked
      obtain ⟨hasFrames, checked⟩ := ite_error_eq_ok.mp checked
      obtain ⟨_, checked⟩ := ite_error_eq_ok.mp checked
      obtain rfl := ok.inj checked
      obtain rfl := not_not.mp sameRequest
      obtain rfl := not_not.mp sameEnds
      exact ⟨isRole, isLive, fun isFrame => by
        by_contra full
        exact hasFrames ⟨isFrame, by omega⟩, by omega⟩
    · simp at checked
  · intro chargeable
    unfold checkCharge
    rw [chargeable.role]
    rw [chargeable.found]
    dsimp only
    rw [if_neg (by simp), if_neg (by simp), if_neg, if_neg]
    · have := chargeable.bytes
      omega
    · rintro ⟨isFrame, full⟩
      have := chargeable.frames isFrame
      omega

theorem checkCharge_error {failure : ClaimFailure}
    (failed : map.checkCharge key messageType len ends = .error failure) :
    ∃ why, failure = .refused why := by
  unfold checkCharge at failed
  split at failed
  · split at failed
    · exact ⟨_, (error.inj failed).symm⟩
    repeat' split at failed
    all_goals first
      | exact ⟨_, (error.inj failed).symm⟩
      | simp at failed
  · exact ⟨_, (error.inj failed).symm⟩

theorem charge_of_chargeable (tallied : Tallied map)
    (chargeable : Chargeable map key messageType len ends reservation) :
    ∃ row, map.rows.lookup reservation.request = some row ∧
      map.charge key messageType len ends = .ok
        (⟨reservation.request, reservation.remainingBytes, reservation.remainingBytes - len,
          reservation.abandoned⟩,
        map.exchange (map.live.insert key (charged reservation len ends)) reservation.request
          { row with owed := owedAfter row reservation len ends }) := by
  obtain ⟨row, isRow⟩ := tallied.hasRow key reservation chargeable.found
  refine ⟨row, isRow, ?_⟩
  unfold charge
  rw [bind_of_ok (checkCharge_ok.mpr chargeable), bind_of_ok (row_of_some isRow)]
  rfl

theorem charge_error (map : Reservations Key) (key : Key) (messageType len : Nat) (ends : Bool) :
    (∃ reservation, Chargeable map key messageType len ends reservation) ∨
      ∃ why, map.charge key messageType len ends = .error (.refused why) := by
  cases checked : map.checkCharge key messageType len ends with
  | ok reservation => exact .inl ⟨reservation, checkCharge_ok.mp checked⟩
  | error failure =>
    obtain ⟨why, rfl⟩ := checkCharge_error checked
    refine .inr ⟨why, ?_⟩
    unfold charge
    rw [checked]
    rfl

theorem remainingBytes_charged (reservation : Reservation) (len : Nat) (ends : Bool) :
    (charged reservation len ends).remainingBytes = reservation.remainingBytes - len := by
  unfold charged Reservation.remainingBytes
  dsimp only
  omega

theorem wrappingAdd_wrappingSub_mod {sum old new : Nat} (part : old ≤ sum) :
    wrappingAdd (wrappingSub (sum % 2 ^ 64) old) new = (sum + new - old) % 2 ^ 64 := by
  rw [wrappingSub_mod part, wrappingAdd_mod]
  congr 1
  omega

omit [DecidableEq Key] in
theorem row_exchange (live : FiniteMap Key Reservation) (request : Nat) (row : Row) :
    (map.exchange live request row).row request = .ok row :=
  row_of_some (by rw [exchange, lookup_insert_ite, if_pos rfl])

omit [DecidableEq Key] in
theorem withRow_exchange (live : FiniteMap Key Reservation) (request : Nat) (row other : Row) :
    (map.exchange live request row).withRow request other = map.exchange live request other := by
  unfold withRow exchange
  rw [Finmap.insert_insert]

theorem claimFrame_spec (tallied : Tallied map)
    (chargeable : Chargeable map key messageType len false reservation) :
    ∃ next, map.claimFrame key messageType len = .ok (⟨reservation.abandoned⟩, next) ∧
      Changes map next (map.live.insert key (charged reservation len false)) := by
  obtain ⟨row, isRow, isCharged⟩ := charge_of_chargeable tallied chargeable
  have tally := tallied.tally _ row isRow
  have found := chargeable.found
  obtain ⟨untracked, isUntracked, sameOwed, sameQueued, positive, counts⟩ :=
    Row.untrack_withOwed tally.positive (tallied.count_pos found isRow)
      (owedAfter row reservation len false)
  set tracked := untracked.track (reservation.remainingBytes - len)
  have moved : RowTally (map.live.insert key (charged reservation len false)) reservation.request
      tracked := by
    refine tally.move (exchanged_replace found _) (by rintro _ ⟨⟩; rfl) (by rintro _ ⟨⟩; rfl)
      ?_ ?_ ?_ (positive.track _)
    · have isOwed : tracked.owed.frames = wrappingAdd (wrappingSub row.owed.frames
          (framesOwed reservation)) (framesOwed (charged reservation len false)) :=
        congrArg Load.frames sameOwed
      rw [isOwed, tally.frames]
      exact wrappingAdd_wrappingSub_mod (le_total_ofRequest found framesOwed)
    · have isOwed : tracked.owed.bytes = wrappingAdd (wrappingSub row.owed.bytes
          (bytesOwed reservation)) (bytesOwed (charged reservation len false)) :=
        congrArg Load.bytes sameOwed
      rw [isOwed, tally.bytes]
      exact wrappingAdd_wrappingSub_mod (le_total_ofRequest found bytesOwed)
    intro remaining
    have before := counts remaining
    have after : tracked.count remaining = untracked.count remaining + _ :=
      untracked.count_track (reservation.remainingBytes - len) remaining
    simp only [gain, map_some, getD_some, hasLeft, remainingBytes_charged]
    omega
  refine ⟨map.exchange (map.live.insert key (charged reservation len false)) reservation.request
    tracked, ?_, ?_, rfl, rfl, rfl, queued_exchange _ ?_⟩
  · unfold claimFrame
    rw [bind_of_ok isCharged]
    dsimp only
    rw [bind_of_ok (row_exchange _ _ _), bind_of_ok isUntracked, withRow_exchange]
    rfl
  · refine tallied.exchange (exchanged_replace found _) (by rintro _ ⟨⟩; rfl)
      (by rintro _ ⟨⟩; rfl) ?_ ?_ moved
    · rintro _ ⟨⟩
      have bounds := tallied.bounded key reservation found
      have frames := chargeable.frames rfl
      have bytes := chargeable.bytes
      unfold Reservation.remainingBytes at bytes
      unfold charged
      simp only [Bool.false_eq_true, ↓reduceIte]
      omega
    · exact forall_lookup_insert (fun _ _ => .inl) (.inr rfl)
  · have isQueued : tracked.queued = row.queued := sameQueued
    rw [isQueued, queued, isRow]
    rfl

theorem claimEnd_spec (tallied : Tallied map)
    (chargeable : Chargeable map key messageType len true reservation) :
    ∃ next, map.claimEnd key messageType len =
        .ok (⟨reservation.frames, reservation.bytes + len, reservation.abandoned⟩, next) ∧
      Changes map next (map.live.erase key) := by
  obtain ⟨row, isRow, isCharged⟩ := charge_of_chargeable tallied chargeable
  have tally := tallied.tally _ row isRow
  have found := chargeable.found
  obtain ⟨untracked, isUntracked, sameOwed, sameQueued, positive, counts⟩ :=
    Row.untrack_withOwed tally.positive (tallied.count_pos found isRow)
      (owedAfter row reservation len true)
  refine ⟨map.exchange (map.live.erase key) reservation.request untracked, ?_,
    tallied.remove untracked found isRow sameOwed sameQueued positive counts⟩
  unfold claimEnd
  rw [bind_of_ok isCharged]
  dsimp only
  rw [bind_of_ok (row_exchange _ _ _), bind_of_ok isUntracked, withRow_exchange]
  unfold exchange
  rw [lookup_insert_ite, if_pos rfl, erase_insert_self]
  rfl

theorem Tallied.withQueued (tallied : Tallied map) (isRow : map.rows.lookup request = some row)
    (queued : Load) : Tallied (map.withRow request { row with queued := queued }) := by
  refine ⟨tallied.bounded, ?_, ?_⟩
  · intro key reservation found
    unfold withRow
    rw [lookup_insert_ite]
    split
    · exact ⟨_, rfl⟩
    · exact tallied.hasRow key reservation found
  refine forall_lookup_insert tallied.tally ?_
  have tally := tallied.tally request row isRow
  exact { tally with }

omit [DecidableEq Key] in
theorem queued_withRow (request : Nat) (row : Row) (query : Nat) :
    (map.withRow request row).queued query =
      if query = request then row.queued else map.queued query := by
  unfold queued withRow
  rw [lookup_insert_ite]
  split <;> rfl

theorem precheckedRequest_ok (tallied : Tallied map)
    (found : map.live.lookup key = some reservation)
    (role : roleOf map.rules messageType = some (.response reservation.request ends))
    (fits : len ≤ reservation.remainingBytes) :
    map.precheckedRequest messageType len = .ok reservation.request := by
  obtain ⟨_, isRow⟩ := tallied.hasRow key reservation found
  obtain ⟨_, isLargest, _⟩ := Row.lastKey_of_count (tallied.count_pos found isRow)
  unfold precheckedRequest requestOf
  rw [role]
  dsimp only
  rw [isRow, bind_some, isLargest]
  exact if_neg (by omega)

theorem takeAdmitted_spec (tallied : Tallied map) (messageType len : Nat) :
    Tallied (map.takeAdmitted messageType len) ∧
      (map.takeAdmitted messageType len).live = map.live ∧
      (map.takeAdmitted messageType len).rules = map.rules := by
  unfold takeAdmitted
  split
  · exact ⟨tallied, rfl, rfl⟩
  split
  · exact ⟨tallied, rfl, rfl⟩
  next row isRow =>
    exact ⟨tallied.withQueued isRow _, rfl, rfl⟩

omit [DecidableEq Key] in
theorem precheckedRequest_cases (map : Reservations Key) (messageType len : Nat) :
    (∃ why, map.precheckedRequest messageType len = .error (.refused why)) ∨
      ∃ request row, map.precheckedRequest messageType len = .ok request ∧
        map.rows.lookup request = some row := by
  unfold precheckedRequest
  split
  · exact .inl ⟨_, rfl⟩
  split
  · exact .inl ⟨_, rfl⟩
  rename_i largest isLargest
  obtain ⟨row, isRow, _⟩ := bind_eq_some_iff.mp isLargest
  split
  · exact .inl ⟨_, rfl⟩
  · exact .inr ⟨_, row, rfl, isRow⟩

theorem admit_spec (tallied : Tallied map) (messageType len : Nat) :
    (∃ why, map.admitFrame messageType len = .error (.refused why)) ∨
      ∃ next, map.admitFrame messageType len = .ok next ∧ Tallied next ∧ next.live = map.live ∧
        next.rules = map.rules := by
  unfold admitFrame
  rcases map.precheckedRequest_cases messageType len with
    ⟨why, refused⟩ | ⟨request, row, isRequest, isRow⟩
  · rw [refused]
    exact .inl ⟨why, rfl⟩
  rw [bind_of_ok isRequest, bind_of_ok (row_of_some isRow)]
  split
  · exact .inl ⟨_, rfl⟩
  · exact .inr ⟨_, rfl, tallied.withQueued isRow _, rfl, rfl⟩

end Reservations

end Zakura.Regulation
