import Zakura.Lib.Checked
import Zakura.Lib.Fallible
import Zakura.Lib.OrderedMap

/-!
The bound on one served response, and the requester's reservations for the responses
it waits for. Sums of 64-bit numbers wrap, as they do without overflow checks.
-/

namespace Zakura.Regulation

open FiniteMap Checked

inductive MessageRole
  | announcement
  | request
  | subscription
  | response (request : Nat) (endsExchange : Bool)
  deriving DecidableEq

structure MessageRule where
  messageType : Nat
  payloadMax : Nat
  role : MessageRole
  deriving DecidableEq

def MessageRule.find (rules : List MessageRule) (messageType : Nat) : Option MessageRule :=
  rules.find? fun rule => rule.messageType = messageType

def roleOf (rules : List MessageRule) (messageType : Nat) : Option MessageRole :=
  (MessageRule.find rules messageType).map MessageRule.role

def endingReserve (request : Nat) (rules : List MessageRule) : Nat :=
  ((rules.filter fun rule => rule.role = .response request true).map
    MessageRule.payloadMax).foldl max 0

/-- Frames before the ending, and payload bytes with the ending. -/
structure ResponseCap where
  frames : Nat
  bytes : Nat
  deriving DecidableEq

def ResponseCap.raise (cap : ResponseCap) (endingReserve : Nat) : ResponseCap :=
  { cap with bytes := max cap.bytes endingReserve }

structure SinkProgress where
  frames : Nat
  bytes : Nat
  deriving DecidableEq

inductive SinkError
  | notAResponse (messageType : Nat)
  | endingOnSend (messageType : Nat)
  | notAnEnding (messageType : Nat)
  | overCap (cap : ResponseCap) (sent : SinkProgress)
  | encode
  | closed
  deriving DecidableEq

structure ResponseBound where
  cap : ResponseCap
  endingReserve : Nat
  progress : SinkProgress

namespace ResponseBound

def new (cap : ResponseCap) (endingReserve : Nat) : ResponseBound :=
  ⟨cap.raise endingReserve, endingReserve, ⟨0, 0⟩⟩

def admitFrame (bound : ResponseBound) (len : Nat) (ends : Bool) : Except SinkError SinkProgress :=
  match Checked.add bound.progress.bytes len with
  | none => .error (.overCap bound.cap bound.progress)
  | some bytes =>
    if bound.cap.bytes < saturatingAdd bytes (if ends then 0 else bound.endingReserve) ∨
        (ends = false ∧ bound.cap.frames ≤ bound.progress.frames) then
      .error (.overCap bound.cap bound.progress)
    else .ok ⟨if ends then bound.progress.frames else bound.progress.frames + 1, bytes⟩

end ResponseBound

inductive ReserveRefused
  | atCapacity
  | keyLive
  | notARequest (messageType : Nat)
  deriving DecidableEq

inductive ClaimRefused
  | unsolicited (messageType : Nat)
  | wrongRequest (messageType : Nat)
  | wrongRole (messageType : Nat)
  | overFrames (frames : Nat)
  | overBytes (bytes : Nat)
  | overOwed (frames bytes : Nat)
  deriving DecidableEq

inductive ClaimFailure
  | refused (why : ClaimRefused)
  | untracked
  | noRow
  | noReservation
  deriving DecidableEq

structure Claimed where
  abandoned : Bool
  deriving DecidableEq

structure Ended where
  frames : Nat
  bytes : Nat
  abandoned : Bool
  deriving DecidableEq

structure Load where
  frames : Nat
  bytes : Nat
  deriving DecidableEq

namespace Load

def add (load other : Load) : Load :=
  ⟨wrappingAdd load.frames other.frames, wrappingAdd load.bytes other.bytes⟩

def sub (load other : Load) : Load :=
  ⟨wrappingSub load.frames other.frames, wrappingSub load.bytes other.bytes⟩

def frame (len : Nat) : Load := ⟨1, len⟩

end Load

structure Reservation where
  request : Nat
  cap : ResponseCap
  frames : Nat
  bytes : Nat
  abandoned : Bool
  deriving DecidableEq

namespace Reservation

def remainingBytes (reservation : Reservation) : Nat :=
  reservation.cap.bytes - reservation.bytes

def owed (reservation : Reservation) : Load :=
  ⟨reservation.cap.frames - reservation.frames + 1, reservation.remainingBytes⟩

end Reservation

/-- The live reservations of one request type; `remaining` counts them by bytes left. -/
structure Row where
  remaining : FiniteMap Nat Nat
  owed : Load
  queued : Load

namespace Row

def empty : Row := ⟨∅, ⟨0, 0⟩, ⟨0, 0⟩⟩

def track (remaining : Nat) (row : Row) : Row :=
  { row with
    remaining := row.remaining.insert remaining ((row.remaining.lookup remaining).getD 0 + 1) }

def untrack (remaining : Nat) (row : Row) : Except ClaimFailure Row :=
  match row.remaining.lookup remaining with
  | none => .error .untracked
  | some count =>
    if count - 1 = 0 then .ok { row with remaining := row.remaining.erase remaining }
    else .ok { row with remaining := row.remaining.insert remaining (count - 1) }

end Row

structure Reservations (Key : Type) where
  rules : List MessageRule
  cap : Nat
  live : FiniteMap Key Reservation
  rows : FiniteMap Nat Row

namespace Reservations

variable {Key : Type} [DecidableEq Key]

def new (rules : List MessageRule) (cap : Nat) : Reservations Key := ⟨rules, cap, ∅, ∅⟩

variable (map : Reservations Key)

def withRow (request : Nat) (row : Row) : Reservations Key :=
  { map with rows := map.rows.insert request row }

def withReservation (key : Key) (reservation : Reservation) : Reservations Key :=
  { map with live := map.live.insert key reservation }

def reservationFor (request : Nat) (cap : ResponseCap) : Reservation :=
  ⟨request, cap.raise (endingReserve request map.rules), 0, 0, false⟩

protected def insert (key : Key) (request : Nat) (cap : ResponseCap) :
    Except ReserveRefused (Reservations Key) :=
  if roleOf map.rules request ≠ some .request then .error (.notARequest request)
  else if (map.live.lookup key).isSome then .error .keyLive
  else if map.cap ≤ map.live.keys.card then .error .atCapacity
  else
    let reservation := map.reservationFor request cap
    let row := ((map.rows.lookup request).getD Row.empty).track reservation.remainingBytes
    .ok ((map.withRow request { row with owed := row.owed.add reservation.owed }).withReservation
      key reservation)

def row (request : Nat) : Except ClaimFailure Row :=
  match map.rows.lookup request with
  | none => .error .noRow
  | some row => .ok row

def retract (key : Key) : Except ClaimFailure (Bool × Reservations Key) :=
  match map.live.lookup key with
  | none => .ok (false, map)
  | some reservation => do
      let removed := { map with live := map.live.erase key }
      let row ← removed.row reservation.request
      let row ← row.untrack reservation.remainingBytes
      return (true, removed.withRow reservation.request
        { row with owed := row.owed.sub reservation.owed })

def abandon (key : Key) : Bool × Reservations Key :=
  match map.live.lookup key with
  | none => (false, map)
  | some reservation => (true, map.withReservation key { reservation with abandoned := true })

def requestOf (messageType : Nat) : Option Nat :=
  match roleOf map.rules messageType with
  | some (.response request _) => some request
  | _ => none

def precheckedRequest (messageType len : Nat) : Except ClaimFailure Nat :=
  match map.requestOf messageType with
  | none => .error (.refused (.wrongRole messageType))
  | some request =>
    match (map.rows.lookup request).bind fun row => row.remaining.lastKey with
    | none => .error (.refused (.unsolicited messageType))
    | some largest =>
      if largest < len then .error (.refused (.overBytes largest)) else .ok request

def precheck (messageType len : Nat) : Except ClaimFailure Unit := do
  let _ ← map.precheckedRequest messageType len
  return ()

def admitFrame (messageType len : Nat) : Except ClaimFailure (Reservations Key) := do
  let request ← map.precheckedRequest messageType len
  let row ← map.row request
  if row.owed.frames < wrappingAdd row.queued.frames 1 ∨
      row.owed.bytes < wrappingAdd row.queued.bytes len then
    .error (.refused (.overOwed row.owed.frames row.owed.bytes))
  else
    return map.withRow request { row with queued := row.queued.add (Load.frame len) }

def takeAdmitted (messageType len : Nat) : Reservations Key :=
  match map.requestOf messageType with
  | none => map
  | some request =>
    match map.rows.lookup request with
    | none => map
    | some row =>
      map.withRow request
        { row with queued := ⟨row.queued.frames - 1, row.queued.bytes - len⟩ }

/-- The request type, the bytes left before and after, and whether the work was abandoned. -/
structure Charge where
  request : Nat
  before : Nat
  after : Nat
  abandoned : Bool

def charged (reservation : Reservation) (len : Nat) (ends : Bool) : Reservation :=
  { reservation with
    bytes := reservation.bytes + len
    frames := if ends then reservation.frames else reservation.frames + 1 }

def owedAfter (row : Row) (reservation : Reservation) (len : Nat) (ends : Bool) : Load :=
  let owed := row.owed.sub reservation.owed
  if ends then owed else owed.add (charged reservation len ends).owed

def checkCharge (key : Key) (messageType len : Nat) (ends : Bool) :
    Except ClaimFailure Reservation :=
  match roleOf map.rules messageType with
  | some (.response request endsExchange) =>
    match map.live.lookup key with
    | none => .error (.refused (.unsolicited messageType))
    | some reservation =>
      if request ≠ reservation.request then .error (.refused (.wrongRequest messageType))
      else if endsExchange ≠ ends then .error (.refused (.wrongRole messageType))
      else if ends = false ∧ reservation.cap.frames ≤ reservation.frames then
        .error (.refused (.overFrames reservation.cap.frames))
      else if reservation.remainingBytes < len then
        .error (.refused (.overBytes reservation.cap.bytes))
      else .ok reservation
  | _ => .error (.refused (.wrongRole messageType))

def charge (key : Key) (messageType len : Nat) (ends : Bool) :
    Except ClaimFailure (Charge × Reservations Key) := do
  let reservation ← map.checkCharge key messageType len ends
  let row ← map.row reservation.request
  return (⟨reservation.request, reservation.remainingBytes, reservation.remainingBytes - len,
      reservation.abandoned⟩,
    (map.withReservation key (charged reservation len ends)).withRow reservation.request
      { row with owed := owedAfter row reservation len ends })

def claimFrame (key : Key) (messageType len : Nat) :
    Except ClaimFailure (Claimed × Reservations Key) := do
  let (charge, map) ← map.charge key messageType len false
  let row ← map.row charge.request
  let row ← row.untrack charge.before
  return (⟨charge.abandoned⟩, map.withRow charge.request (row.track charge.after))

def claimEnd (key : Key) (messageType len : Nat) :
    Except ClaimFailure (Ended × Reservations Key) := do
  let (charge, map) ← map.charge key messageType len true
  let row ← map.row charge.request
  let row ← row.untrack charge.before
  let untracked := map.withRow charge.request row
  match untracked.live.lookup key with
  | none => .error .noReservation
  | some reservation =>
    return (⟨reservation.frames, reservation.bytes, reservation.abandoned⟩,
      { untracked with live := untracked.live.erase key })

end Reservations

end Zakura.Regulation
