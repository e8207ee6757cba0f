import Zakura.Regulation.ReservationSteps

/-!
Responses that a served bound admits, on their way from the reader to the handler. No
frame of such a response is refused, in any interleaving of the responses.
-/

namespace Zakura.Regulation

open FiniteMap Checked Fallible Reservations List Option

variable {cap : ResponseCap} {response body : List Frame} {row : Row} {transfer new old : Transfer}
  {request len query : Nat} {reservation : Reservation} {rules : List MessageRule} {frame : Frame}

structure Frame where
  messageType : Nat
  len : Nat
  deriving DecidableEq

def payload (frames : List Frame) : Nat := (frames.map Frame.len).sum

@[simp] theorem payload_nil : payload [] = 0 := rfl

@[simp] theorem payload_cons (frame : Frame) (rest : List Frame) :
    payload (frame :: rest) = frame.len + payload rest := rfl

@[simp] theorem payload_append (first second : List Frame) :
    payload (first ++ second) = payload first + payload second := by
  simp [payload]

def ResponseBound.sendAll (bound : ResponseBound) : List Frame → Except SinkError ResponseBound
  | [] => .ok bound
  | frame :: rest => do
      let progress ← bound.admitFrame frame.len false
      sendAll { bound with progress } rest

def Conforms (rules : List MessageRule) (request : Nat) (cap : ResponseCap)
    (response : List Frame) : Prop :=
  ∃ body ending bound progress, response = body ++ [ending] ∧
    (∀ frame ∈ body, roleOf rules frame.messageType = some (.response request false)) ∧
    roleOf rules ending.messageType = some (.response request true) ∧
    (ResponseBound.new cap (endingReserve request rules)).sendAll body = .ok bound ∧
    bound.admitFrame ending.len true = .ok progress ∧
    ending.len ≤ endingReserve request rules

namespace ResponseBound

theorem admit_ok {bound : ResponseBound} {ends : Bool} {progress : SinkProgress}
    (admitted : bound.admitFrame len ends = .ok progress) :
    progress.bytes = bound.progress.bytes + len ∧ progress.bytes ≤ bound.cap.bytes ∧
      progress.frames = (if ends then bound.progress.frames else bound.progress.frames + 1) ∧
      (ends = false → bound.progress.frames < bound.cap.frames) := by
  unfold admitFrame at admitted
  split at admitted
  · simp at admitted
  rename_i bytes added
  obtain ⟨within, built⟩ := ite_error_eq_ok.mp admitted
  obtain rfl := Except.ok.inj built
  unfold Checked.add at added
  split at added
  · obtain rfl := some.inj added
    rw [not_or, not_and] at within
    refine ⟨rfl, ?_, rfl, fun isFrame => by have := within.2 isFrame; omega⟩
    have bound := within.1
    unfold saturatingAdd at bound
    dsimp only
    omega
  · simp at added

theorem sendAll_ok {bound final : ResponseBound} (sent : bound.sendAll body = .ok final) :
    final.cap = bound.cap ∧ final.progress.bytes = bound.progress.bytes + payload body ∧
      final.progress.frames = bound.progress.frames + body.length ∧
      (bound.progress.frames ≤ bound.cap.frames → final.progress.frames ≤ bound.cap.frames) := by
  induction body generalizing bound with
  | nil =>
    obtain rfl := Except.ok.inj sent
    exact ⟨rfl, rfl, rfl, id⟩
  | cons frame rest ih =>
    obtain ⟨_, admitted, later⟩ := bind_eq_ok.mp sent
    obtain ⟨_, _, frames, room⟩ := admit_ok admitted
    obtain ⟨sameCap, laterBytes, laterFrames, laterRoom⟩ := ih later
    dsimp only at sameCap laterBytes laterFrames laterRoom
    simp only [Bool.false_eq_true, ↓reduceIte] at frames
    have before := room rfl
    rw [payload_cons, length_cons]
    exact ⟨sameCap, by omega, by omega, fun _ => laterRoom (by omega)⟩

end ResponseBound

def Deliverable (rules : List MessageRule) (reservation : Reservation) (left : List Frame) : Prop :=
  ∃ body ending, left = body ++ [ending] ∧
    (∀ frame ∈ body, roleOf rules frame.messageType =
      some (.response reservation.request false)) ∧
    roleOf rules ending.messageType = some (.response reservation.request true) ∧
    reservation.frames + body.length ≤ reservation.cap.frames ∧
    reservation.bytes + payload left ≤ reservation.cap.bytes

theorem Conforms.deliverable {Key : Type} [DecidableEq Key] {map : Reservations Key}
    (conforms : Conforms map.rules request cap response) :
    Deliverable map.rules (map.reservationFor request cap) response := by
  obtain ⟨body, ending, _, _, rfl, bodyRoles, endingRole, sent, ended, _⟩ := conforms
  obtain ⟨sameCap, bytes, frames, room⟩ := ResponseBound.sendAll_ok sent
  obtain ⟨_, within, _, _⟩ := ResponseBound.admit_ok ended
  refine ⟨body, ending, rfl, bodyRoles, endingRole, ?_, ?_⟩
  · have limit := room (Nat.zero_le _)
    rw [frames] at limit
    exact limit
  rw [sameCap] at within
  have raised : (map.reservationFor request cap).cap.bytes =
    (ResponseBound.new cap (endingReserve request map.rules)).cap.bytes := rfl
  rw [payload_append, payload_cons, payload_nil, raised]
  have start : (map.reservationFor request cap).bytes = 0 := rfl
  omega

namespace Deliverable

variable {rest : List Frame}

variable {left : List Frame}

section

variable (deliverable : Deliverable rules reservation left)
include deliverable

theorem role (listed : frame ∈ left) :
    ∃ ends, roleOf rules frame.messageType = some (.response reservation.request ends) := by
  obtain ⟨_, _, rfl, bodyRoles, endingRole, _⟩ := deliverable
  rcases mem_append.mp listed with early | last
  · exact ⟨false, bodyRoles frame early⟩
  · rw [mem_singleton.mp last]
    exact ⟨true, endingRole⟩

theorem payload_le : payload left ≤ reservation.owed.bytes := by
  obtain ⟨_, _, _, _, _, _, _⟩ := deliverable
  unfold Reservation.owed Reservation.remainingBytes
  dsimp only
  omega

theorem length_le : left.length ≤ reservation.owed.frames := by
  obtain ⟨_, _, rfl, _, _, _, _⟩ := deliverable
  unfold Reservation.owed
  rw [length_append, length_singleton]
  dsimp only
  omega

end

theorem next (deliverable : Deliverable rules reservation (frame :: rest)) :
    (rest = [] ∧ roleOf rules frame.messageType = some (.response reservation.request true)) ∨
      (rest ≠ [] ∧ roleOf rules frame.messageType = some (.response reservation.request false) ∧
        reservation.frames < reservation.cap.frames ∧
        Deliverable rules (charged reservation frame.len false) rest) := by
  obtain ⟨body, ending, shape, bodyRoles, endingRole, frames, bytes⟩ := deliverable
  cases body with
  | nil =>
    obtain ⟨rfl, rfl⟩ := cons.inj shape
    exact .inl ⟨rfl, endingRole⟩
  | cons first others =>
    obtain ⟨rfl, rfl⟩ := cons.inj shape
    rw [length_cons] at frames
    refine .inr ⟨by simp, bodyRoles frame mem_cons_self, by omega, others, ending, rfl,
      fun other listed => bodyRoles other (mem_cons_of_mem _ listed), endingRole, ?_, ?_⟩
    · unfold charged
      simp only [Bool.false_eq_true, ↓reduceIte]
      omega
    rw [payload_cons] at bytes
    unfold charged
    dsimp only
    omega

end Deliverable

/-- A response on its way: frames the handler holds, frames in the queue, frames to come. -/
structure Transfer where
  request : Nat
  taken : List Frame
  queued : List Frame
  unsent : List Frame
  deriving DecidableEq

def Transfer.left (transfer : Transfer) : List Frame :=
  transfer.taken ++ (transfer.queued ++ transfer.unsent)

def queuedFrames (request : Nat) (transfer : Transfer) : Nat :=
  if transfer.request = request then transfer.queued.length else 0

def queuedBytes (request : Nat) (transfer : Transfer) : Nat :=
  if transfer.request = request then payload transfer.queued else 0

structure Flow (Key : Type) where
  map : Reservations Key
  transfers : FiniteMap Key Transfer

namespace Flow

variable {Key : Type} [DecidableEq Key]

inductive Operation (Key : Type)
  | reserve (key : Key) (request : Nat) (cap : ResponseCap) (response : List Frame)
  | abandon (key : Key)
  | precheck (key : Key)
  | admitFrame (key : Key)
  | take (key : Key)
  | claim (key : Key)
  | deliver (key : Key)

def claimNext (map : Reservations Key) (key : Key) (frame : Frame) :
    Except ClaimFailure (Reservations Key) :=
  match roleOf map.rules frame.messageType with
  | some (.response _ true) => do
      let (_, next) ← map.claimEnd key frame.messageType frame.len
      return next
  | _ => do
      let (_, next) ← map.claimFrame key frame.messageType frame.len
      return next

def record (flow : Flow Key) (key : Key) (map : Reservations Key) (transfer : Transfer) : Flow Key :=
  if transfer.left = [] then ⟨map, flow.transfers.erase key⟩
  else ⟨map, flow.transfers.insert key transfer⟩

/-- Run an operation. One that has no frame to act on, or a refused reservation, changes
nothing. `deliver` is the path of a reader that does not queue. -/
def Operation.apply (flow : Flow Key) : Operation Key → Except ClaimFailure (Flow Key)
  | .reserve key request cap response =>
    match flow.map.insert key request cap with
    | .error _ => .ok flow
    | .ok map => .ok ⟨map, flow.transfers.insert key ⟨request, [], [], response⟩⟩
  | .abandon key => .ok { flow with map := (flow.map.abandon key).2 }
  | .precheck key =>
    match flow.transfers.lookup key with
    | some ⟨_, _, _, frame :: _⟩ => do
        flow.map.precheck frame.messageType frame.len
        return flow
    | _ => .ok flow
  | .admitFrame key =>
    match flow.transfers.lookup key with
    | some ⟨request, taken, queued, frame :: unsent⟩ => do
        let map ← flow.map.admitFrame frame.messageType frame.len
        return flow.record key map ⟨request, taken, queued ++ [frame], unsent⟩
    | _ => .ok flow
  | .take key =>
    match flow.transfers.lookup key with
    | some ⟨request, taken, frame :: queued, unsent⟩ =>
      .ok (flow.record key (flow.map.takeAdmitted frame.messageType frame.len)
        ⟨request, taken ++ [frame], queued, unsent⟩)
    | _ => .ok flow
  | .claim key =>
    match flow.transfers.lookup key with
    | some ⟨request, frame :: taken, queued, unsent⟩ => do
        let map ← claimNext flow.map key frame
        return flow.record key map ⟨request, taken, queued, unsent⟩
    | _ => .ok flow
  | .deliver key =>
    match flow.transfers.lookup key with
    | some ⟨request, [], [], frame :: unsent⟩ => do
        flow.map.precheck frame.messageType frame.len
        let map ← claimNext flow.map key frame
        return flow.record key map ⟨request, [], [], unsent⟩
    | _ => .ok flow

def Operation.Conforming (rules : List MessageRule) : Operation Key → Prop
  | .reserve _ request cap response => Conforms rules request cap response
  | _ => True

def OwedFits (live : FiniteMap Key Reservation) (request : Nat) : Prop :=
  total (ofRequest request framesOwed) live < 2 ^ 64 ∧
    total (ofRequest request bytesOwed) live < 2 ^ 64

def ReserveFits (map : Reservations Key) (request : Nat) (cap : ResponseCap) : Prop :=
  total (ofRequest request framesOwed) map.live +
      framesOwed (map.reservationFor request cap) < 2 ^ 64 ∧
    total (ofRequest request bytesOwed) map.live +
      bytesOwed (map.reservationFor request cap) < 2 ^ 64

def Operation.Fits (flow : Flow Key) : Operation Key → Prop
  | .reserve key request cap _ =>
    ∀ map, flow.map.insert key request cap = .ok map → ReserveFits flow.map request cap
  | _ => True

structure Sound (rules : List MessageRule) (flow : Flow Key) : Prop where
  sameRules : flow.map.rules = rules
  tallied : flow.map.Tallied
  fits : ∀ request, OwedFits flow.map.live request
  paired : ∀ key transfer, flow.transfers.lookup key = some transfer →
    ∃ reservation, flow.map.live.lookup key = some reservation ∧
      reservation.request = transfer.request ∧
      Deliverable rules reservation transfer.left
  live : ∀ key reservation, flow.map.live.lookup key = some reservation →
    ∃ transfer, flow.transfers.lookup key = some transfer
  frames : ∀ request, (flow.map.queued request).frames =
    total (queuedFrames request) flow.transfers
  bytes : ∀ request, (flow.map.queued request).bytes =
    total (queuedBytes request) flow.transfers

variable {flow : Flow Key} {key : Key}

variable {live : FiniteMap Key Reservation} {map : Reservations Key}

theorem OwedFits.exchange {before after : FiniteMap Key Reservation} {old new : Option Reservation}
    (fits : OwedFits before request) (exchanged : Exchanged before after old new)
    (frames : gain (ofRequest request framesOwed) new ≤ gain (ofRequest request framesOwed) old)
    (bytes : gain (ofRequest request bytesOwed) new ≤ gain (ofRequest request bytesOwed) old) :
    OwedFits after request := by
  have first := exchanged (ofRequest request framesOwed)
  have second := exchanged (ofRequest request bytesOwed)
  obtain ⟨_, _⟩ := fits
  exact ⟨by omega, by omega⟩

section

variable (fits : OwedFits live request) (isLive : live.lookup key = some reservation)
include fits isLive

theorem OwedFits.erase : OwedFits (live.erase key) request :=
  fits.exchange (exchanged_erase isLive) (Nat.zero_le _) (Nat.zero_le _)

theorem OwedFits.charge (len : Nat) :
    OwedFits (live.insert key (charged reservation len false)) request := by
  have sameRequest :
    (charged reservation len false).request = reservation.request := rfl
  refine fits.exchange (exchanged_replace isLive _) ?_ ?_
  all_goals
    simp only [gain, map_some, getD_some, ofRequest, sameRequest]
    split
  · unfold framesOwed Reservation.owed charged
    simp only [Bool.false_eq_true, ↓reduceIte]
    omega
  · exact le_refl _
  · unfold bytesOwed Reservation.owed charged Reservation.remainingBytes
    dsimp only
    omega
  · exact le_refl _

end

theorem owedFits_insert (fits : OwedFits map.live query) (reserveFits : ReserveFits map request cap)
    (absent : map.live.lookup key = none) :
    OwedFits (map.live.insert key (map.reservationFor request cap)) query := by
  have isRequest : (map.reservationFor request cap).request = request := rfl
  have exchanged := exchanged_insert absent (map.reservationFor request cap)
  have first := exchanged (ofRequest query framesOwed)
  have second := exchanged (ofRequest query bytesOwed)
  obtain ⟨_, _⟩ := fits
  simp only [gain, map_none, getD_none, map_some, getD_some,
    add_zero] at first second
  by_cases same : request = query
  · rw [ofRequest, isRequest, if_pos same] at first second
    rw [← same] at first second ⊢
    exact ⟨by rw [first]; exact reserveFits.1, by rw [second]; exact reserveFits.2⟩
  · rw [ofRequest, isRequest, if_neg same] at first second
    exact ⟨by omega, by omega⟩

structure Moved (rules : List MessageRule) (flow : Flow Key) (key : Key) (old : Transfer)
    (map : Reservations Key) (new : Transfer) : Prop where
  sameRules : map.rules = rules
  tallied : map.Tallied
  fits : ∀ request, OwedFits map.live request
  request : new.request = old.request
  others : ∀ other, other ≠ key → map.live.lookup other = flow.map.live.lookup other
  ended : new.left = [] → map.live.lookup key = none
  pending : new.left ≠ [] → ∃ reservation, map.live.lookup key = some reservation ∧
    reservation.request = new.request ∧ Deliverable rules reservation new.left
  frames : ∀ request, (map.queued request).frames + queuedFrames request old =
    (flow.map.queued request).frames + queuedFrames request new
  bytes : ∀ request, (map.queued request).bytes + queuedBytes request old =
    (flow.map.queued request).bytes + queuedBytes request new

theorem record_map : (flow.record key map new).map = map := by
  unfold Flow.record
  split <;> rfl

theorem lookup_record (new : Transfer) (other : Key) :
    (flow.record key map new).transfers.lookup other =
      if other = key then if new.left = [] then none else some new
      else flow.transfers.lookup other := by
  unfold Flow.record
  split
  · exact lookup_erase_ite _ _ _
  · exact lookup_insert_ite _ _ _ _

theorem total_record (map : Reservations Key) (weight : Transfer → Nat)
    (found : flow.transfers.lookup key = some old) (done : new.left = [] → weight new = 0) :
    total weight (flow.record key map new).transfers + weight old =
      total weight flow.transfers + weight new := by
  unfold Flow.record
  split
  next ended =>
    rw [done ended]
    exact total_erase found
  · exact total_insert_of_present found

theorem Sound.record (sound : Sound rules flow) (found : flow.transfers.lookup key = some old)
    (moved : Moved rules flow key old map new) : Sound rules (flow.record key map new) := by
  have empty (done : new.left = []) : new.queued = [] :=
    (append_eq_nil_iff.mp (append_eq_nil_iff.mp done).2).1
  constructor
  all_goals rw [record_map]
  · exact moved.sameRules
  · exact moved.tallied
  · exact moved.fits
  · intro other transfer isFound
    rw [lookup_record] at isFound
    split_ifs at isFound with here done
    · obtain rfl := some.inj isFound
      rw [here]
      exact moved.pending done
    · rw [moved.others other here]
      exact sound.paired other transfer isFound
  · intro other reservation isLive
    rw [lookup_record]
    split_ifs with here done
    · rw [here, moved.ended done] at isLive
      cases isLive
    · exact ⟨new, rfl⟩
    · rw [moved.others other here] at isLive
      exact sound.live other reservation isLive
  · intro request
    have equation := moved.frames request
    have sum := total_record map (queuedFrames request) found fun done : new.left = [] => by
      simp [queuedFrames, empty done]
    rw [sound.frames] at equation
    omega
  · intro request
    have equation := moved.bytes request
    have sum := total_record map (queuedBytes request) found fun done : new.left = [] => by
      simp [queuedBytes, empty done]
    rw [sound.bytes] at equation
    omega

theorem Sound.reserve (sound : Sound rules flow) (conforms : Conforms rules request cap response)
    (fits : ReserveFits flow.map request cap) (reserved : flow.map.insert key request cap = .ok map) :
    Sound rules ⟨map, flow.transfers.insert key ⟨request, [], [], response⟩⟩ := by
  obtain ⟨absent, changes⟩ := insert_spec sound.tallied reserved
  have notSending : flow.transfers.lookup key = none := by
    cases isFound : flow.transfers.lookup key with
    | none => rfl
    | some transfer =>
      obtain ⟨reservation, isLive, _⟩ := sound.paired key transfer isFound
      simp [absent] at isLive
  refine ⟨changes.rules.trans sound.sameRules, changes.tallied, ?_, ?_, ?_, ?_, ?_⟩
  · intro query
    rw [changes.live]
    exact owedFits_insert (sound.fits query) fits absent
  · intro other transfer isFound
    rw [changes.live]
    rw [lookup_insert_ite] at isFound ⊢
    split at isFound
    next same =>
      obtain rfl := some.inj isFound
      rw [if_pos same]
      rw [← sound.sameRules] at conforms ⊢
      exact ⟨_, rfl, rfl, conforms.deliverable⟩
    next different =>
      rw [if_neg different]
      exact sound.paired other transfer isFound
  · intro other reservation isLive
    rw [changes.live, lookup_insert_ite] at isLive
    rw [lookup_insert_ite]
    split
    · exact ⟨_, rfl⟩
    next different =>
      rw [if_neg different] at isLive
      exact sound.live other reservation isLive
  · intro query
    rw [changes.queued, sound.frames, total_insert_of_absent notSending]
    simp [queuedFrames]
  · intro query
    rw [changes.queued, sound.bytes, total_insert_of_absent notSending]
    simp [queuedBytes]

def Fitted (rules : List MessageRule) (transfers : FiniteMap Key Transfer)
    (live : FiniteMap Key Reservation) : Prop :=
  ∀ key transfer, transfers.lookup key = some transfer →
    ∃ reservation, live.lookup key = some reservation ∧
      reservation.request = transfer.request ∧ Deliverable rules reservation transfer.left

theorem length_queued_le (transfer : Transfer) : transfer.queued.length ≤ transfer.left.length := by
  unfold Transfer.left
  rw [length_append, length_append]
  omega

theorem payload_queued_le (transfer : Transfer) :
    payload transfer.queued ≤ payload transfer.left := by
  unfold Transfer.left
  rw [payload_append, payload_append]
  omega

section

variable {transfers : FiniteMap Key Transfer} (fitted : Fitted rules transfers live)
include fitted

theorem Fitted.queued_le (request : Nat) :
    total (queuedFrames request) transfers ≤ total (ofRequest request framesOwed) live ∧
      total (queuedBytes request) transfers ≤ total (ofRequest request bytesOwed) live := by
  refine ⟨total_le_total fun key transfer found => ?_, total_le_total fun key transfer found => ?_⟩
  all_goals
    obtain ⟨reservation, isLive, same, deliverable⟩ := fitted key transfer found
    refine ⟨reservation, isLive, ?_⟩
  · unfold queuedFrames ofRequest
    rw [same]
    split
    · exact (length_queued_le transfer).trans deliverable.length_le
    · exact le_refl _
  unfold queuedBytes ofRequest
  rw [same]
  split
  · exact (payload_queued_le transfer).trans deliverable.payload_le
  · exact le_refl _

theorem Fitted.insert (isLive : live.lookup key = some reservation)
    (same : reservation.request = transfer.request)
    (deliverable : Deliverable rules reservation transfer.left) :
    Fitted rules (transfers.insert key transfer) live :=
  forall_lookup_insert fitted ⟨reservation, isLive, same, deliverable⟩

end

section

variable {taken queued unsent : List Frame}

omit [DecidableEq Key] in
theorem queued_of_row (isRow : map.rows.lookup request = some row) :
    map.queued request = row.queued := by
  rw [queued, isRow]
  rfl

section

variable (sound : Sound rules flow)
include sound

theorem Sound.prechecked (found : flow.transfers.lookup key = some transfer)
    (listed : frame ∈ transfer.left) :
    flow.map.precheckedRequest frame.messageType frame.len = .ok transfer.request := by
  obtain ⟨reservation, isLive, same, deliverable⟩ := sound.paired key transfer found
  obtain ⟨_, role⟩ := deliverable.role listed
  rw [← sound.sameRules] at role
  have small : frame.len ≤ reservation.remainingBytes := by
    have part : frame.len ≤ payload transfer.left :=
      le_sum_of_mem (mem_map.mpr ⟨frame, listed, rfl⟩)
    exact part.trans deliverable.payload_le
  rw [precheckedRequest_ok sound.tallied isLive role small, same]

theorem Sound.precheck
    (found : flow.transfers.lookup key = some ⟨request, taken, queued, frame :: unsent⟩) :
    flow.map.precheck frame.messageType frame.len = .ok () := by
  have listed : frame ∈ Transfer.left ⟨request, taken, queued, frame :: unsent⟩ := by
    simp [Transfer.left]
  unfold Reservations.precheck
  rw [bind_of_ok (sound.prechecked found listed)]
  rfl

theorem Sound.moved_queue (found : flow.transfers.lookup key = some old)
    (isRow : flow.map.rows.lookup old.request = some row) (load : Load)
    (request : new.request = old.request) (left : new.left = old.left)
    (frames : load.frames + old.queued.length = row.queued.frames + new.queued.length)
    (bytes : load.bytes + payload old.queued = row.queued.bytes + payload new.queued) :
    Moved rules flow key old (flow.map.withRow old.request { row with queued := load }) new := by
  obtain ⟨reservation, isLive, same, deliverable⟩ := sound.paired key old found
  have notEmpty : new.left ≠ [] := by
    obtain ⟨_, _, shape, _⟩ := deliverable
    rw [left, shape]
    simp
  have isQueued := queued_of_row isRow
  refine ⟨sound.sameRules, sound.tallied.withQueued isRow load, sound.fits, request,
    fun _ _ => rfl, fun done => absurd done notEmpty,
    fun _ => ⟨reservation, isLive, same.trans request.symm, left ▸ deliverable⟩, ?_, ?_⟩
  all_goals
    intro query
    rw [queued_withRow]
    by_cases here : query = old.request
  · rw [if_pos here, here, isQueued, queuedFrames, queuedFrames, request, if_pos rfl, if_pos rfl]
    exact frames
  · rw [if_neg here, queuedFrames, queuedFrames, request, if_neg (Ne.symm here),
      if_neg (Ne.symm here)]
  · rw [if_pos here, here, isQueued, queuedBytes, queuedBytes, request, if_pos rfl, if_pos rfl]
    exact bytes
  · rw [if_neg here, queuedBytes, queuedBytes, request, if_neg (Ne.symm here),
      if_neg (Ne.symm here)]

section

variable (found : flow.transfers.lookup key = some ⟨request, taken, queued, frame :: unsent⟩)
include found

theorem Sound.room (isRow : flow.map.rows.lookup request = some row) :
    row.queued.frames + 1 ≤ row.owed.frames ∧ row.owed.frames < 2 ^ 64 ∧
      row.queued.bytes + frame.len ≤ row.owed.bytes ∧ row.owed.bytes < 2 ^ 64 := by
  obtain ⟨_, isLive, same, deliverable⟩ := sound.paired key _ found
  have sameLeft : Transfer.left ⟨request, taken, queued ++ [frame], unsent⟩ =
      Transfer.left ⟨request, taken, queued, frame :: unsent⟩ := by
    simp [Transfer.left]
  have fitted : Fitted rules (flow.transfers.insert key
      ⟨request, taken, queued ++ [frame], unsent⟩) flow.map.live :=
    Fitted.insert sound.paired isLive same (sameLeft ▸ deliverable)
  obtain ⟨_, _⟩ := fitted.queued_le request
  have moved (weight : Transfer → Nat) : total weight (flow.transfers.insert key
      ⟨request, taken, queued ++ [frame], unsent⟩) +
        weight ⟨request, taken, queued, frame :: unsent⟩ =
      total weight flow.transfers + weight ⟨request, taken, queued ++ [frame], unsent⟩ :=
    total_insert_of_present found
  have framesMoved := moved (queuedFrames request)
  have bytesMoved := moved (queuedBytes request)
  simp only [queuedFrames, queuedBytes, ↓reduceIte, length_append, length_singleton,
    payload_append, payload_cons, payload_nil] at framesMoved bytesMoved
  have isQueued := queued_of_row isRow
  have frames := sound.frames request
  have bytes := sound.bytes request
  rw [isQueued] at frames bytes
  have tally := sound.tallied.tally request row isRow
  obtain ⟨framesFit, bytesFit⟩ := sound.fits request
  rw [tally.frames, tally.bytes, Nat.mod_eq_of_lt framesFit, Nat.mod_eq_of_lt bytesFit]
  omega

theorem Sound.admitFrame : ∃ map, flow.map.admitFrame frame.messageType frame.len = .ok map ∧
      Moved rules flow key ⟨request, taken, queued, frame :: unsent⟩ map
        ⟨request, taken, queued ++ [frame], unsent⟩ := by
  obtain ⟨reservation, isLive, same, _⟩ := sound.paired key _ found
  have listed : frame ∈ Transfer.left ⟨request, taken, queued, frame :: unsent⟩ := by
    simp [Transfer.left]
  obtain ⟨row, isRow⟩ := sound.tallied.hasRow key reservation isLive
  rw [same] at isRow
  obtain ⟨_, _, _, _⟩ := sound.room found isRow
  have framesAdd : wrappingAdd row.queued.frames 1 = row.queued.frames + 1 :=
    Nat.mod_eq_of_lt (by omega)
  have bytesAdd : wrappingAdd row.queued.bytes frame.len = row.queued.bytes + frame.len :=
    Nat.mod_eq_of_lt (by omega)
  refine ⟨_, ?_, sound.moved_queue found isRow (row.queued.add (Load.frame frame.len)) rfl
    (by simp [Transfer.left]) ?_ ?_⟩
  · unfold Reservations.admitFrame
    rw [bind_of_ok (sound.prechecked found listed), bind_of_ok (row_of_some isRow), framesAdd,
      bytesAdd, if_neg (by omega)]
    rfl
  · unfold Load.add Load.frame
    dsimp only
    rw [framesAdd, length_append, length_singleton]
    omega
  unfold Load.add Load.frame
  dsimp only
  rw [bytesAdd, payload_append, payload_cons, payload_nil]
  omega

end

theorem Sound.take
    (found : flow.transfers.lookup key = some ⟨request, taken, frame :: queued, unsent⟩) :
    Moved rules flow key ⟨request, taken, frame :: queued, unsent⟩
      (flow.map.takeAdmitted frame.messageType frame.len)
      ⟨request, taken ++ [frame], queued, unsent⟩ := by
  obtain ⟨reservation, isLive, same, deliverable⟩ := sound.paired key _ found
  have listed : frame ∈ Transfer.left ⟨request, taken, frame :: queued, unsent⟩ := by
    simp [Transfer.left]
  obtain ⟨_, role⟩ := deliverable.role listed
  obtain ⟨row, isRow⟩ := sound.tallied.hasRow key reservation isLive
  rw [same] at isRow
  have isQueued := queued_of_row isRow
  have frames := sound.frames request
  have bytes := sound.bytes request
  have framesPart : queuedFrames request ⟨request, taken, frame :: queued, unsent⟩ ≤
    total (queuedFrames request) flow.transfers := weight_le_total found
  have bytesPart : queuedBytes request ⟨request, taken, frame :: queued, unsent⟩ ≤
    total (queuedBytes request) flow.transfers := weight_le_total found
  rw [← frames, isQueued] at framesPart
  rw [← bytes, isQueued] at bytesPart
  simp only [queuedFrames, queuedBytes, ↓reduceIte, length_cons, payload_cons]
    at framesPart bytesPart
  have taken : flow.map.takeAdmitted frame.messageType frame.len = flow.map.withRow request
      { row with queued := ⟨row.queued.frames - 1, row.queued.bytes - frame.len⟩ } := by
    unfold takeAdmitted requestOf
    rw [sound.sameRules, role]
    dsimp only
    rw [same]
    rw [isRow]
  rw [taken]
  refine sound.moved_queue found isRow _ rfl (by simp [Transfer.left]) ?_ ?_
  · dsimp only
    rw [length_cons]
    omega
  · dsimp only
    rw [payload_cons]
    omega

theorem Sound.claimNext (new : Transfer) (found : flow.transfers.lookup key = some old)
    (left : old.left = frame :: new.left) (request : new.request = old.request)
    (queued : new.queued = old.queued) :
    ∃ map, claimNext flow.map key frame = .ok map ∧ Moved rules flow key old map new := by
  obtain ⟨reservation, isLive, same, deliverable⟩ := sound.paired key old found
  rw [left] at deliverable
  have small : frame.len ≤ reservation.remainingBytes := by
    have bound := deliverable.payload_le
    exact (Nat.le_add_right _ _).trans bound
  have sameQueue (query : Nat) : queuedFrames query new = queuedFrames query old ∧
      queuedBytes query new = queuedBytes query old := by
    unfold queuedFrames queuedBytes
    rw [request, queued]
    exact ⟨rfl, rfl⟩
  have sameRules := sound.sameRules
  rcases deliverable.next with ⟨done, role⟩ | ⟨more, role, framesRoom, later⟩
  · rw [← sameRules] at role
    obtain ⟨map, claimed, changes⟩ := claimEnd_spec sound.tallied
      ⟨role, isLive, by simp, small⟩
    refine ⟨map, ?_, changes.rules.trans sameRules, changes.tallied, ?_, request, ?_, ?_, ?_, ?_, ?_⟩
    · unfold Flow.claimNext
      rw [role]
      rw [bind_of_ok claimed]
      rfl
    · intro query
      rw [changes.live]
      exact (sound.fits query).erase isLive
    · intro other different
      rw [changes.live, lookup_erase_ite, if_neg different]
    · intro _
      rw [changes.live, lookup_erase_ite, if_pos rfl]
    · intro notEmpty
      exact absurd done notEmpty
    · intro query
      rw [changes.queued, (sameQueue query).1]
    · intro query
      rw [changes.queued, (sameQueue query).2]
  rw [← sameRules] at role
  obtain ⟨map, claimed, changes⟩ := claimFrame_spec sound.tallied
    ⟨role, isLive, fun _ => framesRoom, small⟩
  refine ⟨map, ?_, changes.rules.trans sameRules, changes.tallied, ?_, request, ?_, ?_, ?_, ?_, ?_⟩
  · unfold Flow.claimNext
    rw [role]
    rw [bind_of_ok claimed]
    rfl
  · intro query
    rw [changes.live]
    exact (sound.fits query).charge isLive frame.len
  · intro other different
    rw [changes.live, lookup_insert_ite, if_neg different]
  · intro empty
    exact absurd empty more
  · intro _
    rw [changes.live, lookup_insert_ite, if_pos rfl]
    exact ⟨_, rfl, same.trans request.symm, later⟩
  · intro query
    rw [changes.queued, (sameQueue query).1]
  · intro query
    rw [changes.queued, (sameQueue query).2]

theorem Sound.abandon (key : Key) : Sound rules { flow with map := (flow.map.abandon key).2 } := by
  rcases sound.tallied.abandon_spec key with
    same | ⟨reservation, isLive, _, changes⟩
  · rw [same]
    exact sound
  refine ⟨changes.rules.trans sound.sameRules, changes.tallied, ?_, ?_, ?_, ?_, ?_⟩
  · intro query
    rw [changes.live]
    exact (sound.fits query).exchange (exchanged_replace isLive _) (le_refl _) (le_refl _)
  · intro other transfer found
    obtain ⟨kept, isKept, sameRequest, deliverable⟩ := sound.paired other transfer found
    rw [changes.live, lookup_insert_ite]
    split
    next here =>
      rw [here, isLive] at isKept
      obtain rfl := some.inj isKept
      exact ⟨_, rfl, sameRequest, deliverable⟩
    · exact ⟨kept, isKept, sameRequest, deliverable⟩
  · rw [changes.live]
    exact forall_lookup_insert sound.live (sound.live key reservation isLive)
  · intro query
    rw [changes.queued, sound.frames]
  · intro query
    rw [changes.queued, sound.bytes]

end

end

end Flow

end Zakura.Regulation
