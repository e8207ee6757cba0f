import Zakura.Lib.Fallible
import Zakura.Regulation.WriterFenceCore

/-!
The writer fence over whole runs: the started count, the exclusion after retirement, and
when the connection closes.
-/

namespace Zakura.Regulation

open Fallible Checked List

namespace WriterFence

variable {fence next : WriterFence} {connection closed : Connection} {event : Event}
  {outcome reusable : Bool} {id count : Nat} {exchanges : List Phase}

def Event.Guarded : Event → Prop
  | .openExchange | .publish _ | .tryStart _ _ | .tryFollow _ => True
  | .followWritten | .endExchange _ | .drop _ | .retire => False

def withStarted (started : Nat) (fence : WriterFence) : WriterFence :=
  { fence with state := { fence.state with started := started } }

def withFollowing (following : Nat) (fence : WriterFence) : WriterFence :=
  { fence with state := { fence.state with following := following } }

def withRetired (fence : WriterFence) : WriterFence :=
  { fence with state := { fence.state with retired := true } }

inductive Effect (connection : Connection) (fence : WriterFence) :
    Event → Bool → WriterFence → Connection → Prop
  | opened (admits : fence.admits connection = true) :
      Effect connection fence .openExchange true
        { fence with exchanges := fence.exchanges ++ [.opened] } connection
  | published (id : Nat) (admits : fence.admits connection = true)
      (phase : fence.exchanges[id]? = some .opened) :
      Effect connection fence (.publish id) true (fence.setPhase id .queued) connection
  | started (id : Nat) (admits : fence.admits connection = true)
      (phase : fence.exchanges[id]? = some .queued) :
      Effect connection fence (.tryStart id true) true
        ((fence.withStarted (fence.state.started + 1)).setPhase id .started) connection
  | followed (id : Nat) (admits : fence.admits connection = true)
      (phase : fence.exchanges[id]? = some .started ∨ fence.exchanges[id]? = some .ended) :
      Effect connection fence (.tryFollow id) true
        (fence.withFollowing (fence.state.following + 1)) connection
  | refused (event : Event) (guarded : event.Guarded) : Effect connection fence event false fence connection
  | written : Effect connection fence .followWritten true fence.followWritten connection
  | finished (id : Nat) (phase : fence.exchanges[id]? = some .started) :
      Effect connection fence (.endExchange id) true
        ((fence.withStarted (fence.state.started - 1)).setPhase id .ended) connection
  | abandoned (id : Nat) (old : Phase) (phase : fence.exchanges[id]? = some old)
      (unstarted : old ≠ .started) :
      Effect connection fence (.endExchange id) true (fence.setPhase id .abandoned) connection
  | ended (id : Nat) (unstarted : fence.exchanges[id]? ≠ some .started) :
      Effect connection fence (.endExchange id) true fence connection
  | broken (id : Nat) (phase : fence.exchanges[id]? = some .started) :
      Effect connection fence (.drop id) true
        ((fence.withStarted (fence.state.started - 1)).setPhase id .dropped)
        (connection.close unfinishedExchange)
  | dropped (id : Nat) (old : Phase) (phase : fence.exchanges[id]? = some old)
      (unstarted : old ≠ .started) :
      Effect connection fence (.drop id) true (fence.setPhase id .dropped) connection
  | absent (id : Nat) (missing : fence.exchanges[id]? = none) :
      Effect connection fence (.drop id) true fence connection
  | retiredBusy (busy : fence.state.started ≠ 0 ∨ fence.state.following ≠ 0) :
      Effect connection fence .retire false fence.withRetired (connection.close unfinishedExchange)
  | retiredIdle (idle : fence.state.started = 0) (written : fence.state.following = 0) :
      Effect connection fence .retire (!connection.cancelled) fence.withRetired connection

theorem finishStarted_eq_ok (finished : fence.finishStarted = .ok next) :
    next = fence.withStarted (fence.state.started - 1) := by
  unfold finishStarted sub at finished
  split at finished
  next started isStarted =>
    split at isStarted
    · cases isStarted
      cases finished
      rfl
    · cases isStarted
  · cases finished

theorem apply_cases (applied : event.apply connection fence = .ok (outcome, next, closed)) :
    Effect connection fence event outcome next closed := by
  cases event with
  | openExchange =>
    dsimp only [Event.apply] at applied
    unfold openExchange at applied
    split at applied
    next admits =>
      cases applied
      exact .opened admits
    · cases applied
      exact .refused .openExchange trivial
  | publish id =>
    dsimp only [Event.apply] at applied
    unfold publish at applied
    split at applied
    next allowed =>
      cases applied
      exact .published id allowed.1 allowed.2
    · cases applied
      exact .refused (.publish id) trivial
  | tryStart id claim =>
    obtain ⟨⟨started, after⟩, tried, done⟩ := bind_eq_ok.mp applied
    cases done
    unfold tryStart at tried
    split at tried
    next allowed =>
      obtain ⟨admits, phase, rfl⟩ := allowed
      split at tried
      next total added =>
        cases tried
        unfold add at added
        split at added
        · cases added
          exact .started id admits phase
        · cases added
      · cases tried
    · cases tried
      exact .refused (.tryStart id claim) trivial
  | tryFollow id =>
    obtain ⟨⟨_, after⟩, tried, done⟩ := bind_eq_ok.mp applied
    cases done
    unfold tryFollow at tried
    split at tried
    next allowed =>
      split at tried
      next total added =>
        cases tried
        unfold add at added
        split at added
        · cases added
          exact .followed id allowed.1 allowed.2
        · cases added
      · cases tried
    · cases tried
      exact .refused (.tryFollow id) trivial
  | followWritten =>
    cases applied
    exact .written
  | endExchange id =>
    obtain ⟨after, ended, done⟩ := bind_eq_ok.mp applied
    cases done
    unfold endExchange at ended
    split at ended
    next phase =>
      obtain ⟨finished, isFinished, done⟩ := bind_eq_ok.mp ended
      cases done
      rw [finishStarted_eq_ok isFinished]
      exact .finished id phase
    next phase =>
      cases ended
      exact .abandoned id _ phase (by decide)
    next phase =>
      cases ended
      exact .abandoned id _ phase (by decide)
    all_goals
      rename_i phase
      cases ended
      exact .ended id (by rw [phase]; decide)
  | drop id =>
    obtain ⟨⟨after, _⟩, dropped, done⟩ := bind_eq_ok.mp applied
    cases done
    unfold drop at dropped
    split at dropped
    next phase =>
      obtain ⟨finished, isFinished, done⟩ := bind_eq_ok.mp dropped
      cases done
      rw [finishStarted_eq_ok isFinished]
      exact .broken id phase
    next old unstarted phase =>
      cases dropped
      exact .dropped id old phase unstarted
    next missing =>
      cases dropped
      exact .absent id missing
  | retire =>
    dsimp only [Event.apply] at applied
    unfold retire at applied
    by_cases busy : fence.state.started ≠ 0 ∨ fence.state.following ≠ 0
    · rw [if_pos busy] at applied
      cases applied
      exact .retiredBusy busy
    · rw [if_neg busy] at applied
      cases applied
      exact .retiredIdle (by omega) (by omega)

theorem count_set_started {old : Phase} (found : exchanges[id]? = some old) (phase : Phase) :
    (exchanges.set id phase).count .started + (if old = .started then 1 else 0) =
      exchanges.count .started + (if phase = .started then 1 else 0) := by
  obtain ⟨bound, isOld⟩ := List.getElem?_eq_some_iff.mp found
  have positive : (if old = .started then 1 else 0) ≤ exchanges.count .started := by
    split
    next same =>
      exact List.one_le_count_iff.mpr (List.mem_of_getElem? (same ▸ found))
    · exact Nat.zero_le _
  rw [List.count_set bound, isOld]
  simp only [beq_iff_eq]
  omega

theorem count_set_unstarted {old phase : Phase} (found : exchanges[id]? = some old)
    (wasUnstarted : old ≠ .started) (unstarted : phase ≠ .started) :
    (exchanges.set id phase).count .started = exchanges.count .started := by
  have exchanged := count_set_started found phase
  rwa [if_neg wasUnstarted, if_neg unstarted] at exchanged

theorem count_set_finished {phase : Phase} (found : exchanges[id]? = some .started)
    (unstarted : phase ≠ .started) :
    (exchanges.set id phase).count .started = exchanges.count .started - 1 := by
  have exchanged := count_set_started found phase
  rw [if_pos rfl, if_neg unstarted] at exchanged
  omega

/-- The counter counts the started exchanges. A retired fence on an open connection has none,
and no following frame is being written. -/
structure Sound (fence : WriterFence) (connection : Connection) : Prop where
  started : fence.state.started = fence.exchanges.count .started
  quiet : fence.state.retired = true → connection.cancelled = false →
    fence.state.started = 0 ∧ fence.state.following = 0

theorem sound_new : Sound new connection := ⟨rfl, nofun⟩

theorem Sound.mono (sound : fence.Sound connection)
    (closes : connection.cancelled = true → closed.cancelled = true) : fence.Sound closed := by
  refine ⟨sound.started, fun retired isOpen => sound.quiet retired ?_⟩
  cases cancelled : connection.cancelled with
  | false => rfl
  | true => exact (closes cancelled).symm.trans isOpen

section

variable (effect : Effect connection fence event outcome next closed)
include effect

theorem Effect.closes : connection.cancelled = true → closed.cancelled = true := by
  cases effect <;> first | exact id | exact fun _ => rfl

theorem Effect.retires (retired : fence.state.retired = true) : next.state.retired = true := by
  cases effect <;> first | exact retired | rfl

end

theorem not_admits (retired : fence.state.retired = true) : fence.admits connection = false := by
  simp [admits, retired]

section

variable (effect : Effect connection fence event outcome next closed)
include effect

theorem Effect.fenced (retired : fence.state.retired = true) (guarded : event.Guarded) :
    outcome = false := by
  cases effect with
  | opened admits | published _ admits _ | started _ admits _ | followed _ admits _ =>
    rw [not_admits retired] at admits
    cases admits
  | refused => rfl
  | _ => exact guarded.elim

theorem Effect.sound (sound : fence.Sound connection) : next.Sound closed := by
  cases effect with
  | opened admits =>
    refine ⟨?_, sound.quiet⟩
    rw [count_append]
    exact sound.started
  | published id admits phase =>
    refine ⟨?_, sound.quiet⟩
    exact sound.started.trans (count_set_unstarted phase (by decide) (by decide)).symm
  | started id admits phase =>
    refine ⟨?_, fun retired => ?_⟩
    · have exchanged := count_set_started phase .started
      rw [if_neg (by decide), if_pos rfl, ← sound.started] at exchanged
      exact exchanged.symm
    · have isRetired : fence.state.retired = true := retired
      rw [not_admits isRetired] at admits
      cases admits
  | followed id admits phase =>
    refine ⟨sound.started, fun retired => ?_⟩
    have isRetired : fence.state.retired = true := retired
    rw [not_admits isRetired] at admits
    cases admits
  | refused | ended | absent => exact sound
  | written =>
    refine ⟨sound.started, fun retired isOpen => ?_⟩
    obtain ⟨idle, unwritten⟩ := sound.quiet retired isOpen
    exact ⟨idle, (congrArg (· - 1) unwritten).trans rfl⟩
  | finished id phase =>
    refine ⟨?_, fun retired isOpen => ?_⟩
    · refine Eq.trans ?_ (count_set_finished phase (by decide)).symm
      exact congrArg (· - 1) sound.started
    · obtain ⟨idle, unwritten⟩ := sound.quiet retired isOpen
      exact ⟨(congrArg (· - 1) idle).trans rfl, unwritten⟩
  | abandoned id old phase unstarted | dropped id old phase unstarted =>
    refine ⟨?_, sound.quiet⟩
    exact sound.started.trans (count_set_unstarted phase unstarted (by decide)).symm
  | broken id phase =>
    refine ⟨?_, fun _ => nofun⟩
    refine Eq.trans ?_ (count_set_finished phase (by decide)).symm
    exact congrArg (· - 1) sound.started
  | retiredBusy busy => exact ⟨sound.started, fun _ => nofun⟩
  | retiredIdle idle written => exact ⟨sound.started, fun _ _ => ⟨idle, written⟩⟩

end

theorem Sound.finishStarted (sound : fence.Sound connection)
    (phase : fence.exchanges[id]? = some .started) :
    fence.finishStarted = .ok (fence.withStarted (fence.state.started - 1)) := by
  have positive : 1 ≤ fence.state.started := by
    rw [sound.started]
    exact one_le_count_iff.mpr (mem_of_getElem? phase)
  unfold WriterFence.finishStarted
  rw [sub_of_le positive]
  rfl

theorem add_eq_none (overflow : Checked.add count 1 = none) : u64Max ≤ count := by
  unfold add at overflow
  split at overflow
  · cases overflow
  · omega

theorem Sound.panics {panic : FencePanic} (sound : fence.Sound connection)
    (failed : event.apply connection fence = .error panic) :
    (panic = .startedOverflow ∧ u64Max ≤ fence.exchanges.count .started) ∨
      (panic = .followingOverflow ∧ u64Max ≤ fence.state.following) := by
  cases event with
  | openExchange | publish id | followWritten | retire => cases failed
  | tryStart id claim =>
    rcases bind_eq_error.mp failed with tried | ⟨value, _, done⟩
    · unfold tryStart at tried
      split at tried
      · split at tried
        · cases tried
        next overflow =>
          cases tried
          exact .inl ⟨rfl, sound.started ▸ add_eq_none overflow⟩
      · cases tried
    · cases done
  | tryFollow id =>
    rcases bind_eq_error.mp failed with tried | ⟨value, _, done⟩
    · unfold tryFollow at tried
      split at tried
      · split at tried
        · cases tried
        next overflow =>
          cases tried
          exact .inr ⟨rfl, add_eq_none overflow⟩
      · cases tried
    · cases done
  | endExchange id =>
    rcases bind_eq_error.mp failed with ended | ⟨value, _, done⟩
    · unfold endExchange at ended
      split at ended
      next phase =>
        rw [sound.finishStarted phase] at ended
        cases ended
      all_goals cases ended
    · cases done
  | drop id =>
    rcases bind_eq_error.mp failed with dropped | ⟨value, _, done⟩
    · unfold drop at dropped
      split at dropped
      next phase =>
        rw [sound.finishStarted phase] at dropped
        cases dropped
      all_goals cases dropped
    · cases done

section

/-- Whether a request's first byte was claimed, without an ending or a drop since. The history
lists the events and their results, newest first. -/
def awaits (id : Nat) : List (Event × Bool) → Bool
  | [] => false
  | (.tryStart other _, true) :: earlier => other == id || awaits id earlier
  | (.endExchange other, _) :: earlier => other != id && awaits id earlier
  | (.drop other, _) :: earlier => other != id && awaits id earlier
  | _ :: earlier => awaits id earlier

def unwritten : List (Event × Bool) → Nat
  | [] => 0
  | (.tryFollow _, true) :: earlier => unwritten earlier + 1
  | (.followWritten, _) :: earlier => unwritten earlier - 1
  | _ :: earlier => unwritten earlier

inductive Run : List (Event × Bool) → WriterFence → Connection → Prop
  | new (connection : Connection) : Run [] new connection
  | event {history : List (Event × Bool)} {fence next : WriterFence} {connection closed : Connection}
      {event : Event} {outcome : Bool} (reached : Run history fence connection)
      (applied : event.apply connection fence = .ok (outcome, next, closed)) :
      Run ((event, outcome) :: history) next closed
  | close {history : List (Event × Bool)} {fence : WriterFence} {connection : Connection}
      (reason : String) (reached : Run history fence connection) :
      Run history fence (connection.close reason)

variable {history : List (Event × Bool)}

theorem Run.sound (reached : Run history fence connection) : fence.Sound connection := by
  induction reached with
  | new connection => exact sound_new
  | event _ applied sound => exact (apply_cases applied).sound sound
  | close reason _ sound => exact ⟨sound.started, fun _ => nofun⟩

section

variable {old phase : Phase}

theorem getElem?_set_started (found : exchanges[id]? = some old) (query : Nat) :
    (exchanges.set id .started)[query]? = some .started ↔
      id = query ∨ exchanges[query]? = some .started := by
  rw [getElem?_set']
  by_cases same : id = query
  · subst same
    simp [found]
  · simp [same]

theorem getElem?_set_unstarted (unstarted : phase ≠ .started) (query : Nat) :
    (exchanges.set id phase)[query]? = some .started ↔
      id ≠ query ∧ exchanges[query]? = some .started := by
  rw [getElem?_set']
  by_cases same : id = query
  · subst same
    cases exchanges[id]? <;> simp [unstarted]
  · simp [same]

theorem getElem?_set_idle (found : exchanges[id]? = some old) (wasUnstarted : old ≠ .started)
    (unstarted : phase ≠ .started) (query : Nat) :
    (exchanges.set id phase)[query]? = some .started ↔ exchanges[query]? = some .started := by
  rw [getElem?_set_unstarted unstarted]
  refine and_iff_right_of_imp fun isStarted same => ?_
  rw [← same, found] at isStarted
  exact wasUnstarted (Option.some.inj isStarted)

end

section

variable (effect : Effect connection fence event outcome next closed)
include effect

theorem Effect.awaits
    (before : ∀ id, fence.exchanges[id]? = some .started ↔ awaits id history = true) (id : Nat) :
    next.exchanges[id]? = some .started ↔ WriterFence.awaits id ((event, outcome) :: history) = true := by
  cases effect with
  | opened admits =>
    refine Iff.trans ?_ (before id)
    rw [getElem?_append]
    split
    · rfl
    · have missing : fence.exchanges[id]? = none := getElem?_eq_none (by omega)
      rw [missing]
      cases id - fence.exchanges.length <;> simp
  | published other admits phase =>
    exact (getElem?_set_idle phase (by decide) (by decide) id).trans (before id)
  | started other admits phase =>
    refine (getElem?_set_started phase id).trans ?_
    simp [WriterFence.awaits, before]
  | followed | written | retiredBusy | retiredIdle => exact before id
  | refused event guarded =>
    cases event with
    | openExchange | publish | tryStart | tryFollow => exact before id
    | followWritten | endExchange | drop | retire => exact guarded.elim
  | finished other phase | broken other phase =>
    refine (getElem?_set_unstarted (by decide) id).trans ?_
    have same : (fence.withStarted (fence.state.started - 1)).exchanges = fence.exchanges := rfl
    simp [WriterFence.awaits, same, before]
  | abandoned other old phase unstarted | dropped other old phase unstarted =>
    refine (getElem?_set_unstarted (by decide) id).trans ?_
    simp [WriterFence.awaits, before]
  | ended other unstarted =>
    simp only [WriterFence.awaits, Bool.and_eq_true, bne_iff_ne, ← before]
    refine (and_iff_right_of_imp fun isStarted same => ?_).symm
    exact unstarted (same ▸ isStarted)
  | absent other missing =>
    simp only [WriterFence.awaits, Bool.and_eq_true, bne_iff_ne, ← before]
    refine (and_iff_right_of_imp fun isStarted same => ?_).symm
    rw [same, isStarted] at missing
    cases missing

theorem Effect.unwritten (before : fence.state.following = unwritten history) :
    next.state.following = WriterFence.unwritten ((event, outcome) :: history) := by
  cases effect with
  | followed => exact congrArg (· + 1) before
  | written => exact congrArg (· - 1) before
  | refused event guarded =>
    cases event with
    | openExchange | publish | tryStart | tryFollow => exact before
    | followWritten | endExchange | drop | retire => exact guarded.elim
  | _ => exact before

end

section

variable (reached : Run history fence connection)
include reached

theorem Run.awaits (id : Nat) :
    fence.exchanges[id]? = some .started ↔ awaits id history = true := by
  induction reached generalizing id with
  | new connection => exact ⟨nofun, nofun⟩
  | event _ applied before => exact (apply_cases applied).awaits before id
  | close reason _ before => exact before id

theorem Run.unwritten : fence.state.following = unwritten history := by
  induction reached with
  | new connection => rfl
  | event _ applied before => exact (apply_cases applied).unwritten before
  | close reason _ before => exact before

theorem Run.retired (retired : (Event.retire, reusable) ∈ history) :
    fence.state.retired = true := by
  induction reached with
  | new connection => cases retired
  | event _ applied before =>
    have effect := apply_cases applied
    rcases mem_cons.mp retired with isLast | earlier
    · cases isLast
      cases effect with
      | refused _ guarded => exact guarded.elim
      | retiredBusy | retiredIdle => rfl
    · exact effect.retires (before earlier)
  | close reason _ before => exact before retired

end

theorem Effect.breaks (effect : Effect connection fence event outcome next closed)
    (sound : fence.Sound connection) (phase : fence.exchanges[id]? = some .started)
    (breaking : event = .drop id ∨ event = .retire) : closed.cancelled = true := by
  rcases breaking with rfl | rfl
  · cases effect with
    | refused _ guarded => exact guarded.elim
    | broken => rfl
    | dropped _ old isOld unstarted =>
      rw [phase] at isOld
      exact absurd (Option.some.inj isOld).symm unstarted
    | absent _ missing =>
      rw [phase] at missing
      cases missing
  · cases effect with
    | refused _ guarded => exact guarded.elim
    | retiredBusy => rfl
    | retiredIdle idle =>
      have positive := one_le_count_iff.mpr (mem_of_getElem? phase)
      rw [← sound.started, idle] at positive
      cases positive

structure Fenced (history : List (Event × Bool)) (fence : WriterFence) (connection : Connection) :
    Prop where
  counts : fence.state.started = fence.exchanges.count .started
  awaiting : ∀ id, fence.exchanges[id]? = some .started ↔ WriterFence.awaits id history = true
  noUnderflow : ∀ event : Event, event.apply connection fence ≠ .error .startedUnderflow
  excludes : ∀ reusable, (Event.retire, reusable) ∈ history →
    ∀ (event : Event) (outcome : Bool) (next : WriterFence) (closed : Connection), event.Guarded →
      event.apply connection fence = .ok (outcome, next, closed) → outcome = false
  closes : ∀ id, WriterFence.awaits id history = true →
    ∀ (event : Event) (outcome : Bool) (next : WriterFence) (closed : Connection),
      event = .drop id ∨ event = .retire →
        event.apply connection fence = .ok (outcome, next, closed) → closed.cancelled = true
  follows : WriterFence.unwritten history ≠ 0 → (fence.retire connection).2.2.cancelled = true
  spares : (∀ id, WriterFence.awaits id history = false) → WriterFence.unwritten history = 0 →
    (fence.retire connection).2.2 = connection

theorem Run.fenced (reached : Run history fence connection) : Fenced history fence connection where
  counts := reached.sound.started
  awaiting := reached.awaits
  noUnderflow event failed := by
    rcases reached.sound.panics failed with ⟨overflow, _⟩ | ⟨overflow, _⟩ <;> cases overflow
  excludes reusable retired event outcome next closed guarded applied :=
    (apply_cases applied).fenced (reached.retired retired) guarded
  closes id awaiting event outcome next closed breaking applied :=
    (apply_cases applied).breaks reached.sound ((reached.awaits id).mpr awaiting) breaking
  follows unwritten := by
    rw [← reached.unwritten] at unwritten
    unfold retire
    simp [unwritten, Connection.close]
  spares noneAwaits noneUnwritten := by
    have idle : fence.state.started = 0 := by
      rw [reached.sound.started, count_eq_zero]
      intro listed
      obtain ⟨id, phase⟩ := getElem?_of_mem listed
      have awaiting := (reached.awaits id).mp phase
      rw [noneAwaits id] at awaiting
      cases awaiting
    have written : fence.state.following = 0 := reached.unwritten.trans noneUnwritten
    unfold retire
    simp [idle, written]

end

end WriterFence

end Zakura.Regulation
