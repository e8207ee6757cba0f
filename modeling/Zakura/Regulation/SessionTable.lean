import Zakura.Regulation.WriterFence

/-!
Sessions that replace each other on one connection: once a session was replaced or
removed, no request it wrote can still be answered on an open connection.
-/

namespace Zakura.Regulation

open FiniteMap List

namespace SessionTable

variable {table next last : SessionTable} {step : Step} {outcome : Outcome} {index other conn : Nat}
  {session moved found : Current} {connection closed : Connection}

def Sound (table : SessionTable) : Prop :=
  ∀ (index : Nat) (session : Current), table.sessions[index]? = some session →
    session.fence.Sound (table.connection session.key.connId)

def Retired (index : Nat) (table : SessionTable) : Prop :=
  ∃ session, table.sessions[index]? = some session ∧ session.fence.state.retired = true

theorem connection_setConnection (table : SessionTable) (conn query : Nat)
    (connection : Connection) : (table.setConnection conn connection).connection query =
      if query = conn then connection else table.connection query := by
  unfold SessionTable.connection setConnection
  rw [lookup_insert_ite]
  split <;> rfl

/-- How a step can change the table: every session keeps its index and key, a changed fence
is sound, and connections only close. -/
structure Evolves (table next : SessionTable) : Prop where
  sound : table.Sound → next.Sound
  retired : ∀ index, table.Retired index → next.Retired index

theorem Evolves.refl (table : SessionTable) : Evolves table table :=
  ⟨fun sound => sound, fun _ retired => retired⟩

theorem Evolves.trans (first : Evolves table next) (second : Evolves next last) :
    Evolves table last :=
  ⟨fun sound => second.sound (first.sound sound),
    fun index retired => second.retired index (first.retired index retired)⟩

theorem getElem?_setSession (moved : Current)
    (listed : (table.setSession index moved).sessions[other]? = some found) :
    (other = index ∧ found = moved) ∨ (other ≠ index ∧ table.sessions[other]? = some found) := by
  unfold setSession at listed
  rw [getElem?_set'] at listed
  split at listed
  next same =>
    obtain ⟨_, _, rfl⟩ := Option.map_eq_some_iff.mp listed
    exact .inl ⟨same.symm, rfl⟩
  next differs =>
    exact .inr ⟨fun same => differs same.symm, listed⟩

theorem retired_setSession (found : table.sessions[index]? = some session)
    (retires : session.fence.state.retired = true → moved.fence.state.retired = true)
    (retired : table.Retired other) : (table.setSession index moved).Retired other := by
  obtain ⟨old, listed, isRetired⟩ := retired
  unfold Retired setSession
  rw [getElem?_set']
  split
  next same =>
    subst same
    rw [found] at listed ⊢
    cases listed
    exact ⟨moved, rfl, retires isRetired⟩
  · exact ⟨old, listed, isRetired⟩

theorem evolves_write (found : table.sessions[index]? = some session)
    (sameKey : moved.key = session.key)
    (sound : session.fence.Sound (table.connection session.key.connId) → moved.fence.Sound closed)
    (retires : session.fence.state.retired = true → moved.fence.state.retired = true)
    (closes : (table.connection session.key.connId).cancelled = true → closed.cancelled = true) :
    Evolves table ((table.setSession index moved).setConnection session.key.connId closed) := by
  refine ⟨fun before => ?_, fun _ retired => retired_setSession found retires retired⟩
  intro query written listed
  rw [connection_setConnection]
  rcases getElem?_setSession moved listed with ⟨_, rfl⟩ | ⟨_, isOld⟩
  · rw [sameKey, if_pos rfl]
    exact sound (before index session found)
  have old := before query written isOld
  split
  next same =>
    rw [same] at old
    exact old.mono closes
  · exact old

theorem evolves_cancelSession (table : SessionTable) (index : Nat) :
    Evolves table (table.cancelSession index) := by
  unfold cancelSession
  split
  next session found =>
    refine ⟨fun before => ?_, fun _ retired => retired_setSession found id retired⟩
    intro query written listed
    rcases getElem?_setSession _ listed with ⟨_, rfl⟩ | ⟨_, isOld⟩
    · exact before index session found
    · exact before query written isOld
  · exact Evolves.refl table

theorem evolves_close (table : SessionTable) (conn : Nat) (reason : String) :
    Evolves table (table.setConnection conn ((table.connection conn).close reason)) := by
  refine ⟨fun before => ?_, fun _ retired => retired⟩
  intro query session listed
  rw [connection_setConnection]
  have old := before query session listed
  split
  · exact old.mono fun _ => rfl
  · exact old

theorem evolves_create (table : SessionTable) (key : SessionKey) :
    Evolves table { table with sessions := table.sessions ++ [⟨key, false, .new⟩] } := by
  refine ⟨fun before => ?_, fun index retired => ?_⟩
  · intro query session listed
    rw [List.getElem?_append] at listed
    split at listed
    · exact before query session listed
    · obtain rfl := List.mem_singleton.mp (List.mem_of_getElem? listed)
      exact WriterFence.sound_new
  · obtain ⟨session, listed, isRetired⟩ := retired
    obtain ⟨bound, _⟩ := List.getElem?_eq_some_iff.mp listed
    exact ⟨session, (List.getElem?_append_left bound).trans listed, isRetired⟩

theorem evolves_retireSession (found : table.sessions[index]? = some session) :
    Evolves table (table.retireSession index session).2 := by
  have effect : WriterFence.Effect (table.connection session.key.connId) session.fence .retire
    _ _ _ := WriterFence.apply_cases rfl
  exact evolves_write found rfl effect.sound effect.retires effect.closes

theorem retired_retireSession (found : table.sessions[index]? = some session) :
    (table.retireSession index session).2.Retired index := by
  refine ⟨{ session with fence := session.fence.withRetired }, ?_, rfl⟩
  change (table.sessions.set index _)[index]? = _
  rw [getElem?_set_self', found]
  rfl

def Leaves (old : Nat) : Step × Outcome → Prop
  | (.replace _ _, .replacement (.replaced replaced)) => replaced = old
  | (.remove _ _, .removed (some removed)) => removed = old
  | _ => False

theorem apply_evolves (applied : table.apply step = .ok (outcome, next)) :
    Evolves table next ∧ ∀ old, Leaves old (step, outcome) → next.Retired old := by
  cases step with
  | create key =>
    cases applied
    exact ⟨evolves_create table key, fun _ => False.elim⟩
  | fence index event =>
    dsimp only [apply] at applied
    split at applied
    · cases applied
      exact ⟨Evolves.refl table, fun _ => False.elim⟩
    rename_i session found
    obtain ⟨⟨_, fence, _⟩, moved, done⟩ := Fallible.bind_eq_ok.mp applied
    cases done
    have effect := WriterFence.apply_cases moved
    exact ⟨evolves_write found rfl effect.sound effect.retires effect.closes, fun _ => False.elim⟩
  | replace peer index =>
    dsimp only [apply] at applied
    split at applied
    · cases applied
      exact ⟨Evolves.refl table, fun _ => False.elim⟩
    cases applied
    unfold replace
    split
    · exact ⟨⟨id, fun _ => id⟩, fun _ => False.elim⟩
    rename_i old _
    split
    · exact ⟨⟨id, fun _ => id⟩, fun _ => False.elim⟩
    rename_i oldSession found
    have retired := evolves_retireSession found
    dsimp only
    split
    · exact ⟨retired.trans (evolves_cancelSession _ index), fun _ => False.elim⟩
    have cancelled := evolves_cancelSession (table.retireSession old oldSession).2 old
    refine ⟨⟨(retired.trans cancelled).sound, (retired.trans cancelled).retired⟩, ?_⟩
    rintro _ rfl
    exact cancelled.retired old (retired_retireSession found)
  | remove peer key =>
    cases applied
    split
    · exact ⟨Evolves.refl table, fun _ => False.elim⟩
    rename_i index _
    split
    · exact ⟨Evolves.refl table, fun _ => False.elim⟩
    rename_i session found
    split
    · exact ⟨Evolves.refl table, fun _ => False.elim⟩
    have retired := evolves_retireSession found
    have cancelled := evolves_cancelSession (table.retireSession index session).2 index
    refine ⟨⟨(retired.trans cancelled).sound, (retired.trans cancelled).retired⟩, ?_⟩
    rintro _ rfl
    exact cancelled.retired index (retired_retireSession found)
  | close conn reason =>
    cases applied
    exact ⟨evolves_close table conn reason, fun _ => False.elim⟩

/-- The runs of all sessions and the table. The trace lists the steps and their outcomes, newest
first. -/
inductive Run : List (Step × Outcome) → SessionTable → Prop
  | empty : Run [] empty
  | step {trace : List (Step × Outcome)} {table next : SessionTable} {step : Step}
      {outcome : Outcome} (reached : Run trace table)
      (applied : table.apply step = .ok (outcome, next)) : Run ((step, outcome) :: trace) next

variable {trace : List (Step × Outcome)} {old : Nat}

theorem Run.sound (reached : Run trace table) : table.Sound := by
  induction reached with
  | empty => exact nofun
  | step _ applied before => exact (apply_evolves applied).1.sound before

theorem Run.retired (reached : Run trace table) (left : ∃ entry ∈ trace, Leaves old entry) :
    table.Retired old := by
  induction reached with
  | empty =>
    obtain ⟨_, listed, _⟩ := left
    cases listed
  | step _ applied before =>
    obtain ⟨evolves, leaves⟩ := apply_evolves applied
    obtain ⟨entry, listed, left⟩ := left
    rcases mem_cons.mp listed with rfl | earlier
    · exact leaves old left
    · exact evolves.retired old (before ⟨entry, earlier, left⟩)

/-- A session that left the table: it writes nothing more, and on an open connection no request
it wrote awaits an answer. -/
structure Silent (session : Current) (connection : Connection) : Prop where
  excludes : ∀ (event : WriterFence.Event) (outcome : Bool) (next : WriterFence)
    (closed : Connection), event.Guarded →
      event.apply connection session.fence = .ok (outcome, next, closed) → outcome = false
  answered : connection.cancelled = true ∨
    (∀ id : Nat, session.fence.exchanges[id]? ≠ some Phase.started) ∧ session.fence.state.following = 0

theorem Run.silent (reached : Run trace table) (left : ∃ entry ∈ trace, Leaves old entry) :
    ∃ session, table.sessions[old]? = some session ∧
      Silent session (table.connection session.key.connId) := by
  obtain ⟨session, listed, retired⟩ := reached.retired left
  have sound := reached.sound old session listed
  refine ⟨session, listed, ⟨fun event outcome next closed guarded applied =>
    (WriterFence.apply_cases applied).fenced retired guarded, ?_⟩⟩
  cases cancelled : (table.connection session.key.connId).cancelled with
  | true => exact .inl rfl
  | false =>
    obtain ⟨idle, written⟩ := sound.quiet retired cancelled
    refine .inr ⟨fun id phase => ?_, written⟩
    rw [sound.started, count_eq_zero] at idle
    exact idle (mem_of_getElem? phase)

/-- The fence over every run of its holders, and its sessions over every run of the table. -/
theorem fence_sound : (∀ history fence connection, WriterFence.Run history fence connection →
      WriterFence.Fenced history fence connection) ∧
    ∀ trace table, Run trace table → ∀ old, (∃ entry ∈ trace, Leaves old entry) →
      ∃ session, table.sessions[old]? = some session ∧
        Silent session (table.connection session.key.connId) :=
  ⟨fun _ _ _ reached => reached.fenced, fun _ _ reached _ left => reached.silent left⟩

end SessionTable

namespace Sample

open WriterFence

/-- One request that was written and answered, with a following frame still being written. -/
def followedHistory : List (Event × Bool) :=
  [(.endExchange 0, true), (.tryFollow 0, true), (.tryStart 0 true, true), (.publish 0, true),
    (.openExchange, true)]

def followedFence : WriterFence := ⟨⟨false, 0, 1⟩, [.ended]⟩

theorem followedHistory_run : WriterFence.Run followedHistory followedFence .new :=
  .event (.event (.event (.event (.event (.new .new) rfl) rfl) rfl) rfl) rfl

theorem followedHistory_ended (id : Nat) : awaits id followedHistory = false := by
  by_cases same : 0 = id <;> simp [awaits, followedHistory, same]

/-- Retiring closes the connection although every written request was ended. -/
theorem retire_closes_followed :
    WriterFence.Run followedHistory followedFence .new ∧
      (∀ id, awaits id followedHistory = false) ∧
      (∀ entry ∈ followedHistory, entry.1 ≠ .retire ∧ ∀ id, entry.1 ≠ .drop id) ∧
      (Connection.new.cancelled = false ∧ (followedFence.retire .new).2.2.cancelled = true) :=
  ⟨followedHistory_run, followedHistory_ended, by simp [followedHistory], rfl, rfl⟩

/-- A session whose one request was written and answered is replaced. -/
def replacingTrace : List (SessionTable.Step × SessionTable.Outcome) :=
  [(.replace 5 1, .replacement (.replaced 0)), (.create ⟨7, 2⟩, .done),
    (.fence 0 (.endExchange 0), .fence true), (.fence 0 (.tryStart 0 true), .fence true),
    (.fence 0 (.publish 0), .fence true), (.fence 0 .openExchange, .fence true),
    (.replace 5 0, .replacement .inserted), (.create ⟨7, 1⟩, .done)]

theorem replacingTrace_run : ∃ table, SessionTable.Run replacingTrace table ∧
    table.sessions[0]?.map (·.fence.exchanges) = some [.ended] := by
  refine ⟨_, .step (.step (.step (.step (.step (.step (.step (.step .empty rfl) rfl) rfl) rfl) rfl)
    rfl) rfl) rfl, ?_⟩
  rfl

theorem fence_sound_of_replacement :
    Fenced followedHistory followedFence .new ∧
      ∃ table session, SessionTable.Run replacingTrace table ∧
        table.sessions[0]? = some session ∧ session.fence.exchanges = [.ended] ∧
        SessionTable.Silent session (table.connection session.key.connId) := by
  obtain ⟨table, run, exchanges⟩ := replacingTrace_run
  obtain ⟨session, found, silent⟩ :=
    SessionTable.fence_sound.2 _ _ run 0 ⟨_, mem_cons_self .., rfl⟩
  rw [found] at exchanges
  exact ⟨SessionTable.fence_sound.1 _ _ _ followedHistory_run, table, session, run, found,
    Option.some.inj exchanges, silent⟩

end Sample

end Zakura.Regulation
