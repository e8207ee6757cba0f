import Zakura.Regulation.ResponseFlow

/-!
Reservations over whole runs: responses within their caps are never refused, and
whatever a peer sends, no more than the caps is accepted.
-/

namespace Zakura.Regulation

open FiniteMap Checked Reservations List

namespace Flow

variable {Key : Type} [DecidableEq Key] {rules : List MessageRule} {flow : Flow Key}

theorem Sound.step (sound : Sound rules flow) (operation : Operation Key)
    (conforming : operation.Conforming rules) (fits : operation.Fits flow) :
    ∃ next, operation.apply flow = .ok next ∧ Sound rules next := by
  cases operation with
  | reserve key request cap response =>
    dsimp only [Operation.apply]
    cases reserved : flow.map.insert key request cap with
    | error refused => exact ⟨flow, rfl, sound⟩
    | ok map => exact ⟨_, rfl, sound.reserve conforming (fits map reserved) reserved⟩
  | abandon key => exact ⟨_, rfl, sound.abandon key⟩
  | precheck key =>
    dsimp only [Operation.apply]
    split
    next request taken queued frame unsent found =>
      rw [Fallible.bind_of_ok (sound.precheck found)]
      exact ⟨flow, rfl, sound⟩
    · exact ⟨flow, rfl, sound⟩
  | admitFrame key =>
    dsimp only [Operation.apply]
    split
    next request taken queued frame unsent found =>
      obtain ⟨map, admitted, moved⟩ := sound.admitFrame found
      rw [Fallible.bind_of_ok admitted]
      exact ⟨_, rfl, sound.record found moved⟩
    · exact ⟨flow, rfl, sound⟩
  | take key =>
    dsimp only [Operation.apply]
    split
    next request taken frame queued unsent found =>
      exact ⟨_, rfl, sound.record found (sound.take found)⟩
    · exact ⟨flow, rfl, sound⟩
  | claim key =>
    dsimp only [Operation.apply]
    split
    next request frame taken queued unsent found =>
      obtain ⟨map, claimed, moved⟩ :=
        sound.claimNext ⟨request, taken, queued, unsent⟩ found rfl rfl rfl
      rw [Fallible.bind_of_ok claimed]
      exact ⟨_, rfl, sound.record found moved⟩
    · exact ⟨flow, rfl, sound⟩
  | deliver key =>
    dsimp only [Operation.apply]
    split
    next request frame unsent found =>
      obtain ⟨map, claimed, moved⟩ :=
        sound.claimNext ⟨request, [], [], unsent⟩ found rfl rfl rfl
      rw [Fallible.bind_of_ok (sound.precheck found), Fallible.bind_of_ok claimed]
      exact ⟨_, rfl, sound.record found moved⟩
    · exact ⟨flow, rfl, sound⟩

inductive Reachable (rules : List MessageRule) (cap : Nat) : Flow Key → Prop
  | start : Reachable rules cap ⟨Reservations.new rules cap, ∅⟩
  | step {flow next : Flow Key} (operation : Operation Key) : Reachable rules cap flow →
      operation.Conforming rules → operation.Fits flow → operation.apply flow = .ok next →
      Reachable rules cap next

theorem sound_start (rules : List MessageRule) (cap : Nat) :
    Sound rules (⟨new rules cap, ∅⟩ : Flow Key) := by
  refine ⟨rfl, tallied_new rules cap, fun _ => ?_, fun _ _ found => by simp at found,
    fun _ _ found => by simp [new] at found, fun _ => rfl, fun _ => rfl⟩
  exact ⟨Nat.two_pow_pos 64, Nat.two_pow_pos 64⟩

theorem Reachable.sound {cap : Nat} (reachable : Reachable rules cap flow) : Sound rules flow := by
  induction reachable with
  | start => exact sound_start rules cap
  | step operation _ conforming fits applied sound =>
    obtain ⟨_, isNext, nextSound⟩ := sound.step operation conforming fits
    rw [isNext] at applied
    exact Except.ok.inj applied ▸ nextSound

end Flow

structure Claim where
  len : Nat
  ends : Bool
  deriving DecidableEq

/-- The claims that were accepted for a key since it was reserved, with its raised cap. -/
structure Account where
  cap : ResponseCap
  claims : List Claim

namespace Account

def bytes (claims : List Claim) : Nat := (claims.map Claim.len).sum

def Within (account : Account) : Prop :=
  ∃ body : List Claim, (∀ claim ∈ body, claim.ends = false) ∧
    body.length ≤ account.cap.frames ∧ bytes account.claims ≤ account.cap.bytes ∧
    (account.claims = body ∨ ∃ len, account.claims = body ++ [⟨len, true⟩])

end Account

structure Ledger (Key : Type) where
  map : Reservations Key
  accounts : FiniteMap Key Account

namespace Ledger

variable {Key : Type} [DecidableEq Key]

inductive Call (Key : Type)
  | reserve (key : Key) (request : Nat) (cap : ResponseCap)
  | retract (key : Key)
  | abandon (key : Key)
  | admitFrame (messageType len : Nat)
  | take (messageType len : Nat)
  | claimFrame (key : Key) (messageType len : Nat)
  | claimEnd (key : Key) (messageType len : Nat)

def orKeep {Value : Type} (ledger : Ledger Key) (result : Except ClaimFailure Value)
    (next : Value → Ledger Key) : Except ClaimFailure (Ledger Key) :=
  match result with
  | .ok value => .ok (next value)
  | .error (.refused _) => .ok ledger
  | .error failure => .error failure

def note (ledger : Ledger Key) (key : Key) (map : Reservations Key) (claim : Claim) : Ledger Key :=
  match ledger.accounts.lookup key with
  | none => ⟨map, ledger.accounts⟩
  | some account =>
    ⟨map, ledger.accounts.insert key ⟨account.cap, account.claims ++ [claim]⟩⟩

def Call.apply (ledger : Ledger Key) : Call Key → Except ClaimFailure (Ledger Key)
  | .reserve key request cap =>
    match ledger.map.insert key request cap with
    | .error _ => .ok ledger
    | .ok map =>
      .ok ⟨map, ledger.accounts.insert key ⟨(ledger.map.reservationFor request cap).cap, []⟩⟩
  | .retract key => ledger.orKeep (ledger.map.retract key) fun (_, map) => { ledger with map }
  | .abandon key => .ok { ledger with map := (ledger.map.abandon key).2 }
  | .admitFrame messageType len =>
    ledger.orKeep (ledger.map.admitFrame messageType len) fun map => { ledger with map }
  | .take messageType len => .ok { ledger with map := ledger.map.takeAdmitted messageType len }
  | .claimFrame key messageType len =>
    ledger.orKeep (ledger.map.claimFrame key messageType len) fun (_, map) =>
      ledger.note key map ⟨len, false⟩
  | .claimEnd key messageType len =>
    ledger.orKeep (ledger.map.claimEnd key messageType len) fun (_, map) =>
      ledger.note key map ⟨len, true⟩

def Call.Fits (ledger : Ledger Key) : Call Key → Prop
  | .reserve key request cap =>
    ∀ map, ledger.map.insert key request cap = .ok map → Flow.ReserveFits ledger.map request cap
  | _ => True

structure Open (account : Account) (reservation : Reservation) : Prop where
  cap : account.cap = reservation.cap
  frames : account.claims.length = reservation.frames
  bytes : Account.bytes account.claims = reservation.bytes
  noEnding : ∀ claim ∈ account.claims, claim.ends = false

structure Sound (ledger : Ledger Key) : Prop where
  tallied : ledger.map.Tallied
  fits : ∀ request, Flow.OwedFits ledger.map.live request
  opened : ∀ key reservation, ledger.map.live.lookup key = some reservation →
    ∃ account, ledger.accounts.lookup key = some account ∧ Open account reservation
  within : ∀ key account, ledger.accounts.lookup key = some account → account.Within

variable {ledger : Ledger Key}

variable {key : Key} {map : Reservations Key} {reservation : Reservation}

theorem Open.within {account : Account} (opened : Open account reservation)
    (bounds : reservation.frames ≤ reservation.cap.frames ∧
      reservation.bytes ≤ reservation.cap.bytes) : account.Within := by
  refine ⟨account.claims, opened.noEnding, ?_, ?_, .inl rfl⟩
  · rw [opened.frames, opened.cap]
    exact bounds.1
  · rw [opened.bytes, opened.cap]
    exact bounds.2

theorem Sound.enter (sound : Sound ledger) {account : Account}
    (changes : Reservations.Changes ledger.map map (ledger.map.live.insert key reservation))
    (fits : ∀ request, Flow.OwedFits (ledger.map.live.insert key reservation) request)
    (opened : Open account reservation) : Sound ⟨map, ledger.accounts.insert key account⟩ := by
  have isLive : map.live.lookup key = some reservation := by rw [changes.live, Finmap.lookup_insert]
  refine ⟨changes.tallied, changes.live ▸ fits, ?_, ?_⟩
  · intro other kept isKept
    rw [changes.live] at isKept
    rcases lookup_insert_eq_some.mp isKept with ⟨rfl, rfl⟩ | ⟨different, isKept⟩
    · exact ⟨account, Finmap.lookup_insert _, opened⟩
    · rw [Finmap.lookup_insert_of_ne _ different]
      exact sound.opened other kept isKept
  · exact forall_lookup_insert sound.within
      (opened.within (changes.tallied.bounded key reservation isLive))

theorem Sound.reserve (sound : Sound ledger) {request : Nat} {cap : ResponseCap}
    (fits : Flow.ReserveFits ledger.map request cap)
    (reserved : ledger.map.insert key request cap = .ok map) :
    Sound ⟨map, ledger.accounts.insert key ⟨(ledger.map.reservationFor request cap).cap, []⟩⟩ := by
  obtain ⟨absent, changes⟩ := insert_spec sound.tallied reserved
  exact sound.enter changes (fun query => Flow.owedFits_insert (sound.fits query) fits absent)
    ⟨rfl, rfl, rfl, by simp⟩

theorem Sound.sameLive (sound : Sound ledger) (tallied : map.Tallied)
    (same : map.live = ledger.map.live) : Sound { ledger with map } := by
  refine ⟨tallied, ?_, ?_, sound.within⟩
  · rw [same]
    exact sound.fits
  · rw [same]
    exact sound.opened

theorem Sound.leave (sound : Sound ledger) (isLive : ledger.map.live.lookup key = some reservation)
    (changes : Reservations.Changes ledger.map map (ledger.map.live.erase key)) :
    Sound { ledger with map } := by
  refine ⟨changes.tallied, ?_, ?_, sound.within⟩
  · intro query
    rw [changes.live]
    exact (sound.fits query).erase isLive
  · rw [changes.live]
    exact forall_lookup_erase sound.opened key

theorem Sound.abandon (sound : Sound ledger) (key : Key) :
    Sound { ledger with map := (ledger.map.abandon key).2 } := by
  rcases sound.tallied.abandon_spec key with same | ⟨reservation, isLive, _, changes⟩
  · rw [same]
    exact sound
  refine ⟨changes.tallied, ?_, ?_, sound.within⟩
  · intro query
    rw [changes.live]
    exact (sound.fits query).exchange (exchanged_replace isLive _) (le_refl _) (le_refl _)
  obtain ⟨account, found, opened⟩ := sound.opened key reservation isLive
  rw [changes.live]
  exact forall_lookup_insert sound.opened ⟨account, found, { opened with }⟩

theorem bytes_append (claims : List Claim) (claim : Claim) :
    Account.bytes (claims ++ [claim]) = Account.bytes claims + claim.len := by
  simp [Account.bytes]

theorem Sound.claimFrame (sound : Sound ledger) {len : Nat}
    (isLive : ledger.map.live.lookup key = some reservation) (changes : Reservations.Changes
      ledger.map map (ledger.map.live.insert key (charged reservation len false))) :
    Sound (ledger.note key map ⟨len, false⟩) := by
  obtain ⟨account, found, opened⟩ := sound.opened key reservation isLive
  unfold note
  rw [found]
  refine sound.enter changes (fun query => (sound.fits query).charge isLive len)
    ⟨opened.cap, ?_, ?_, ?_⟩
  · rw [length_append, length_singleton, opened.frames]
    rfl
  · rw [bytes_append, opened.bytes]
    rfl
  · intro claim listed
    rcases mem_append.mp listed with early | last
    · exact opened.noEnding claim early
    · rw [mem_singleton.mp last]

theorem Sound.claimEnd (sound : Sound ledger) {messageType len : Nat}
    (chargeable : Reservations.Chargeable ledger.map key messageType len true reservation)
    (changes : Reservations.Changes ledger.map map (ledger.map.live.erase key)) :
    Sound (ledger.note key map ⟨len, true⟩) := by
  have isLive := chargeable.found
  obtain ⟨account, found, opened⟩ := sound.opened key reservation isLive
  have bounds := sound.tallied.bounded key reservation isLive
  have bytesRoom := chargeable.bytes
  unfold Reservation.remainingBytes at bytesRoom
  have left := sound.leave isLive changes
  unfold note
  rw [found]
  refine ⟨left.tallied, left.fits, ?_, ?_⟩
  · intro other kept isKept
    have different : other ≠ key := by
      rintro rfl
      simp [changes.live] at isKept
    rw [lookup_insert_ite, if_neg different]
    exact left.opened other kept isKept
  refine forall_lookup_insert sound.within
    ⟨account.claims, opened.noEnding, ?_, ?_, .inr ⟨len, rfl⟩⟩
  · rw [opened.frames, opened.cap]
    exact bounds.1
  · rw [bytes_append, opened.bytes, opened.cap]
    dsimp only
    omega

theorem Sound.step (sound : Sound ledger) (call : Call Key) (fits : call.Fits ledger) :
    ∃ next, call.apply ledger = .ok next ∧ Sound next := by
  cases call with
  | reserve key request cap =>
    dsimp only [Call.apply]
    cases reserved : ledger.map.insert key request cap with
    | error refused => exact ⟨ledger, rfl, sound⟩
    | ok map => exact ⟨_, rfl, sound.reserve (fits map reserved) reserved⟩
  | retract key =>
    dsimp only [Call.apply]
    rcases sound.tallied.retract_spec key with
      ⟨same, _⟩ | ⟨reservation, map, isLive, retracted, changes⟩
    · rw [same]
      exact ⟨ledger, rfl, sound⟩
    · rw [retracted]
      exact ⟨_, rfl, sound.leave isLive changes⟩
  | abandon key => exact ⟨_, rfl, sound.abandon key⟩
  | admitFrame messageType len =>
    dsimp only [Call.apply]
    rcases admit_spec sound.tallied messageType len with
      ⟨why, refused⟩ | ⟨map, admitted, tallied, sameLive, _⟩
    · rw [refused]
      exact ⟨ledger, rfl, sound⟩
    rw [admitted]
    exact ⟨_, rfl, sound.sameLive tallied sameLive⟩
  | take messageType len =>
    obtain ⟨tallied, sameLive, _⟩ :=
      takeAdmitted_spec sound.tallied messageType len
    exact ⟨_, rfl, sound.sameLive tallied sameLive⟩
  | claimFrame key messageType len =>
    dsimp only [Call.apply]
    rcases ledger.map.charge_error key messageType len false with
      ⟨reservation, chargeable⟩ | ⟨why, refused⟩
    · obtain ⟨map, claimed, changes⟩ := claimFrame_spec sound.tallied chargeable
      rw [claimed]
      exact ⟨_, rfl, sound.claimFrame chargeable.found changes⟩
    · unfold Reservations.claimFrame
      rw [refused]
      exact ⟨ledger, rfl, sound⟩
  | claimEnd key messageType len =>
    dsimp only [Call.apply]
    rcases ledger.map.charge_error key messageType len true with
      ⟨reservation, chargeable⟩ | ⟨why, refused⟩
    · obtain ⟨map, claimed, changes⟩ := claimEnd_spec sound.tallied chargeable
      rw [claimed]
      exact ⟨_, rfl, sound.claimEnd chargeable changes⟩
    · unfold Reservations.claimEnd
      rw [refused]
      exact ⟨ledger, rfl, sound⟩

inductive Reachable (rules : List MessageRule) (cap : Nat) : Ledger Key → Prop
  | start : Reachable rules cap ⟨Reservations.new rules cap, ∅⟩
  | step {ledger next : Ledger Key} (call : Call Key) : Reachable rules cap ledger →
      call.Fits ledger → call.apply ledger = .ok next → Reachable rules cap next

theorem Reachable.sound {rules : List MessageRule} {cap : Nat}
    (reachable : Reachable rules cap ledger) : Sound ledger := by
  induction reachable with
  | start =>
    refine ⟨tallied_new rules cap, fun _ => ⟨Nat.two_pow_pos 64, Nat.two_pow_pos 64⟩,
      fun _ _ found => by simp [new] at found, fun _ _ found => by simp at found⟩
  | step call _ fits applied sound =>
    obtain ⟨_, isNext, nextSound⟩ := sound.step call fits
    rw [isNext] at applied
    exact Except.ok.inj applied ▸ nextSound

end Ledger

/-- The rows are the sums over the live reservations, which every subtraction stays within. -/
structure Reservations.TalliesExact {Key : Type} [DecidableEq Key] (map : Reservations Key) :
    Prop where
  owed : ∀ request row, map.rows.lookup request = some row →
    row.owed.frames = total (ofRequest request framesOwed) map.live ∧
      row.owed.bytes = total (ofRequest request bytesOwed) map.live
  remaining : ∀ request row, map.rows.lookup request = some row → ∀ remaining,
    row.count remaining = total (ofRequest request (hasLeft remaining)) map.live
  noUnderflow : ∀ key reservation, map.live.lookup key = some reservation →
    reservation.frames ≤ reservation.cap.frames ∧ reservation.bytes ≤ reservation.cap.bytes ∧
      ∃ row, map.rows.lookup reservation.request = some row ∧
        reservation.owed.frames ≤ row.owed.frames ∧ reservation.owed.bytes ≤ row.owed.bytes ∧
        0 < row.count reservation.remainingBytes

theorem Ledger.Sound.talliesExact {Key : Type} [DecidableEq Key] {ledger : Ledger Key}
    (sound : ledger.Sound) : ledger.map.TalliesExact := by
  have owed (request : Nat) (row : Row) (isRow : ledger.map.rows.lookup request = some row) :
      row.owed.frames = total (ofRequest request framesOwed) ledger.map.live ∧
        row.owed.bytes = total (ofRequest request bytesOwed) ledger.map.live := by
    have tally := sound.tallied.tally request row isRow
    obtain ⟨framesFit, bytesFit⟩ := sound.fits request
    rw [tally.frames, tally.bytes, Nat.mod_eq_of_lt framesFit, Nat.mod_eq_of_lt bytesFit]
    exact ⟨rfl, rfl⟩
  refine ⟨owed, fun request row isRow => (sound.tallied.tally request row isRow).counts, ?_⟩
  intro key reservation isLive
  obtain ⟨row, isRow⟩ := sound.tallied.hasRow key reservation isLive
  obtain ⟨frames, bytes⟩ := owed reservation.request row isRow
  obtain ⟨framesBound, bytesBound⟩ := sound.tallied.bounded key reservation isLive
  refine ⟨framesBound, bytesBound, row, isRow, ?_, ?_, sound.tallied.count_pos isLive isRow⟩
  · rw [frames]
    exact le_total_ofRequest isLive framesOwed
  · rw [bytes]
    exact le_total_ofRequest isLive bytesOwed

/-- While what is owed fits 64 bits: no frame of a conforming response is refused, and of
arbitrary frames no more than the caps is accepted, with exact tallies. -/
theorem responses_within_caps {Key : Type} [DecidableEq Key] (rules : List MessageRule) (cap : Nat) :
    (∀ flow : Flow Key, Flow.Reachable rules cap flow → ∀ operation : Flow.Operation Key,
      operation.Conforming rules → operation.Fits flow →
      ∃ next, operation.apply flow = .ok next) ∧
    (∀ ledger : Ledger Key, Ledger.Reachable rules cap ledger →
      (∀ key account, ledger.accounts.lookup key = some account → account.Within) ∧
      ledger.map.TalliesExact ∧
      ∀ call : Ledger.Call Key, call.Fits ledger → ∃ next, call.apply ledger = .ok next) := by
  refine ⟨?_, ?_⟩
  · intro flow reachable operation conforming fits
    obtain ⟨next, applied, _⟩ := reachable.sound.step operation conforming fits
    exact ⟨next, applied⟩
  intro ledger reachable
  have sound := reachable.sound
  refine ⟨sound.within, sound.talliesExact, ?_⟩
  intro call fits
  obtain ⟨next, applied, _⟩ := sound.step call fits
  exact ⟨next, applied⟩

namespace Sample

def rules : List MessageRule :=
  [⟨1, 8, .request⟩, ⟨2, 64, .response 1 false⟩, ⟨3, 8, .response 1 true⟩]

def response : List Frame := [⟨2, 5⟩, ⟨3, 4⟩]

def runAll : List (Flow.Operation Nat) → Flow Nat → Except ClaimFailure (Flow Nat)
  | [], flow => .ok flow
  | operation :: rest, flow => do
      let next ← operation.apply flow
      runAll rest next

/-- Two caps of 2^63 bytes wrap the row's sum, and the first frame is refused. -/
theorem conforming_frame_refused :
    Conforms rules 1 ⟨1, 2 ^ 63⟩ response ∧ Fallible.failure (runAll [.reserve 0 1 ⟨1, 2 ^ 63⟩ response,
        .reserve 1 1 ⟨1, 2 ^ 63⟩ response, .admitFrame 0] ⟨new rules 4, ∅⟩) =
          some (.refused (.overOwed 4 0)) :=
  ⟨⟨[⟨2, 5⟩], ⟨3, 4⟩, ⟨⟨1, 2 ^ 63⟩, 8, ⟨1, 5⟩⟩, ⟨1, 9⟩, rfl, by decide, rfl, rfl, rfl, by decide⟩,
    by decide +kernel⟩

theorem response_conforms : Conforms rules 1 ⟨1, 100⟩ response :=
  ⟨[⟨2, 5⟩], ⟨3, 4⟩, ⟨⟨1, 100⟩, 8, ⟨1, 5⟩⟩, ⟨1, 9⟩, rfl, by decide, rfl, rfl, rfl, by decide⟩

def empty : Flow Nat := ⟨Reservations.new rules 4, ∅⟩

def reserved : Flow Nat :=
  Fallible.value ((Flow.Operation.reserve 0 1 ⟨1, 100⟩ response).apply empty) (by decide +kernel)

theorem reserved_reachable : Flow.Reachable rules 4 reserved :=
  .step (.reserve 0 1 ⟨1, 100⟩ response) .start response_conforms
    (fun _ _ => ⟨by decide +kernel, by decide +kernel⟩) (Fallible.eq_value _)

def opened : Ledger Nat :=
  Fallible.value ((Ledger.Call.reserve 0 1 ⟨1, 100⟩).apply ⟨new rules 4, ∅⟩) (by decide +kernel)

def claimed : Ledger Nat :=
  Fallible.value ((Ledger.Call.claimFrame 0 2 5).apply opened) (by decide +kernel)

theorem claimed_reachable : Ledger.Reachable rules 4 claimed :=
  .step (.claimFrame 0 2 5) (.step (.reserve 0 1 ⟨1, 100⟩) .start
    (fun _ _ => ⟨by decide +kernel, by decide +kernel⟩) (Fallible.eq_value _)) trivial
    (Fallible.eq_value _)

/-- The frames of a conforming response are admitted, and a claim of it is counted. -/
theorem responses_within_caps_of_one :
    (∃ next, (Flow.Operation.admitFrame 0).apply reserved = .ok next) ∧
      (claimed.accounts.lookup 0).map Account.claims = some [⟨5, false⟩] ∧
      claimed.map.TalliesExact :=
  ⟨(responses_within_caps rules 4).1 reserved reserved_reachable (.admitFrame 0) trivial trivial,
    by decide +kernel, ((responses_within_caps rules 4).2 claimed claimed_reachable).2.1⟩

end Sample

end Zakura.Regulation
