import Zakura.BlockMemory.PoolWaiters

/-!
What one step does to the callers that wait. A release has a new version ahead until the
version grows, and a wake-up ahead until every registered caller wakes.
-/

namespace Zakura.BlockMemory

open Checked List Stage

namespace Stage

structure Advances (pool : Pool) (stage : Stage) (after : Pool) (next : Stage) : Prop where
  version : pool.capacityVersion ≤ after.capacityVersion
  bumped : stage.bumps = true → next.bumps = true ∨ pool.capacityVersion < after.capacityVersion
  closes : after.isClosed = true → pool.isClosed = true ∨ next.bumps = true
  keeps : pool.isClosed = true → after.isClosed = true
  room : ∀ job, pool.NoRoom job → after.NoRoom job ∨ next.bumps = true ∨ pool.isClosed = true
  wakes : stage.wakes = true → next.wakes = true ∨ ∃ later, stage = .wake later
  formed : next.Formed after.isClosed

variable {pool after : Pool} {stage next outcome : Stage}

/-- A step that has no new version ahead and releases nothing. -/
theorem Advances.quiet (blockLimit : after.blockLimit = pool.blockLimit)
    (pipelineLimit : after.pipelineLimit = pool.pipelineLimit)
    (reserved : pool.reserved ≤ after.reserved)
    (pipelineBytes : pool.pipelineBytes ≤ after.pipelineBytes)
    (version : after.capacityVersion = pool.capacityVersion) (closed : after.closed = pool.closed)
    (quiet : stage.bumps = false ∧ stage.wakes = false) (formed : next.Formed after.isClosed) :
    Advances pool stage after next where
  version := version.ge
  bumped := fun bumps => absurd (quiet.1.symm.trans bumps) Bool.false_ne_true
  closes := fun isClosed => .inl (by unfold Pool.isClosed at isClosed ⊢; rwa [← closed])
  keeps := fun isClosed => by unfold Pool.isClosed at isClosed ⊢; rwa [closed]
  room := fun _ noRoom => .inl (noRoom.mono blockLimit pipelineLimit reserved pipelineBytes)
  wakes := fun wakes => absurd (quiet.2.symm.trans wakes) Bool.false_ne_true
  formed := formed

/-- A step that keeps the pool and has no new version ahead. -/
theorem Advances.still (quiet : stage.bumps = false ∧ stage.wakes = false)
    (formed : next.Formed pool.isClosed) : Advances pool stage pool next :=
  .quiet rfl rfl le_rfl le_rfl rfl rfl quiet formed

theorem Formed.fail {closed : Bool} (formed : outcome.Formed closed) (amount : Nat) :
    (Stage.fail amount outcome).Formed closed := by
  unfold Stage.fail
  split
  · exact ⟨.inl ⟨_, rfl⟩, formed⟩
  · exact formed

theorem step_advances (choice : Choice) (formed : stage.Formed pool.isClosed)
    (blocks : stage.blocks ≤ pool.reserved) (bytes : stage.bytes ≤ pool.countedBytes)
    (share : stage.share ≤ pool.pipelineBytes)
    (fits : ∀ later, stage = .bump later → pool.capacityVersion < u64Max) :
    Advances pool stage (stage.step pool choice).1 (stage.step pool choice).2 := by
  have refusal (why : AdmissionFailure) (job : Job) (amount : Nat) (closed : Bool) :
      (fail amount (.refused why job)).Formed closed :=
    Formed.fail (show Formed closed (.refused why job) from trivial) amount
  have ahead {after : Pool} {next : Stage} (bumps : next.bumps = true)
      (version : after.capacityVersion = pool.capacityVersion)
      (keeps : pool.isClosed = true → after.isClosed = true) (formed : next.Formed after.isClosed) :
      Advances pool stage after next :=
    ⟨version.ge, fun _ => .inl bumps, fun _ => .inr bumps, keeps, fun _ _ => .inr (.inl bumps),
      fun _ => .inl (wakes_of_bumps bumps), formed⟩
  cases stage with
  | enter job =>
    dsimp only [step]
    repeat' split
    all_goals exact .still ⟨rfl, rfl⟩ trivial
  | gate | registered =>
    dsimp only [step]
    split <;> exact .still ⟨rfl, rfl⟩ trivial
  | charge job =>
    dsimp only [step]
    split
    next charged found =>
      have sum := add_eq_some (Option.filter_eq_some_iff.mp found).1
      exact .quiet rfl rfl le_rfl (sum ▸ Nat.le_add_right _ _) rfl rfl ⟨rfl, rfl⟩ trivial
    · exact .still ⟨rfl, rfl⟩ trivial
  | check job amount used =>
    dsimp only [step]
    split
    · exact .still ⟨rfl, rfl⟩ (refusal _ job amount _)
    · split
      · exact .still ⟨rfl, rfl⟩ (refusal _ job amount _)
      · exact .still ⟨rfl, rfl⟩ trivial
  | exchange job amount used =>
    dsimp only [step]
    split
    next exchanged =>
      exact .quiet rfl rfl (exchanged.2 ▸ Nat.le_succ _) le_rfl rfl rfl ⟨rfl, rfl⟩ trivial
    · exact .still ⟨rfl, rfl⟩ trivial
  | count job amount =>
    dsimp only [step]
    split
    · exact .quiet rfl rfl le_rfl le_rfl rfl rfl ⟨rfl, rfl⟩ trivial
    · exact ahead rfl rfl id ⟨rfl, refusal _ job amount _⟩
  | confirm job amount =>
    dsimp only [step]
    split
    · exact ahead rfl rfl id (refusal _ job amount _)
    · split <;> exact .still ⟨rfl, rfl⟩ trivial
  | decoding | decoded =>
    dsimp only [step]
    split
    · exact ahead rfl rfl id trivial
    · exact .still ⟨rfl, rfl⟩ trivial
  | measured size =>
    dsimp only [step]
    split
    · exact .quiet rfl rfl le_rfl le_rfl rfl rfl ⟨rfl, rfl⟩ trivial
    · exact ahead rfl rfl id trivial
  | unpipe amount next =>
    have enough : amount ≤ pool.pipelineBytes := (Nat.le_add_left _ _).trans share
    dsimp only [step]
    rw [sub_of_le enough]
    have bumps : next.bumps = true := by
      rcases formed.1 with ⟨later, rfl⟩ | ⟨size, later, rfl⟩ <;> rfl
    exact ahead bumps rfl id formed.2
  | uncountBytes size next =>
    have enough : size ≤ pool.countedBytes := (Nat.le_add_left _ _).trans bytes
    dsimp only [step]
    rw [sub_of_le enough]
    exact ahead rfl rfl id formed
  | uncountBlock next =>
    have enough : 1 ≤ pool.reserved := (Nat.le_add_left _ _).trans blocks
    dsimp only [step]
    rw [sub_of_le enough]
    exact ahead rfl rfl id formed
  | undo next =>
    exact ⟨le_rfl, .inl, .inl, id, fun _ _ => .inr (.inr formed.1),
      fun bumps => .inl (wakes_of_bumps bumps), formed.2⟩
  | closing cause next => exact ahead rfl rfl (fun _ => rfl) formed
  | bump next =>
    have room : pool.capacityVersion + 1 ≤ u64Max := fits next rfl
    dsimp only [step]
    rw [add_of_le room]
    exact ⟨Nat.le_succ _, fun _ => .inr (Nat.lt_succ_self _), .inl, id,
      fun _ noRoom => .inl (noRoom.mono rfl rfl le_rfl le_rfl), fun _ => .inl rfl, formed⟩
  | wake next =>
    exact ⟨le_rfl, .inl, .inl, id, fun _ noRoom => .inl noRoom, fun _ => .inr ⟨next, rfl⟩, formed⟩
  | refused why job => cases why <;> exact .still ⟨rfl, rfl⟩ trivial
  | load | live | waiting | awake | done => exact .still ⟨rfl, rfl⟩ trivial

end Stage

namespace State

variable {state : State} {stage : Stage} {thread : Nat}

structure Sound (state : State) : Prop where
  accounted : state.Accounted
  formed : ∀ stage ∈ state.threads, stage.Formed state.pool.isClosed
  watch : ∀ stage ∈ state.threads, state.Watch stage

variable {other next outcome : Stage} {threads : List Stage}

theorem mem_set_of_ne (found : threads[thread]? = some stage) (member : other ∈ threads)
    (different : other ≠ stage) : other ∈ threads.set thread next := by
  obtain ⟨index, isOther⟩ := mem_iff_getElem?.mp member
  refine mem_iff_getElem?.mpr ⟨index, ?_⟩
  rw [getElem?_set, if_neg]
  · exact isOther
  · rintro rfl
    exact different (Option.mem_unique isOther found)

/-- A caller that no wake-up touches keeps its stage unless it takes the step. -/
theorem mem_advance (found : state.threads[thread]? = some stage) (choice : Choice)
    (member : other ∈ state.threads) (unaffected : other.woken = other) (different : other ≠ stage) :
    other ∈ (state.advance thread choice stage).threads := by
  unfold advance
  split
  · refine mem_set_of_ne ?_ ?_ different
    · rw [getElem?_map, found]
      rfl
    · exact unaffected ▸ mem_map_of_mem member
  · exact mem_set_of_ne found member different

theorem next_mem_advance (found : state.threads[thread]? = some stage) (choice : Choice) :
    (stage.step state.pool choice).2 ∈ (state.advance thread choice stage).threads := by
  obtain ⟨inRange, _⟩ := List.getElem?_eq_some_iff.mp found
  refine List.mem_set ?_ _
  split
  · rwa [List.length_map]
  · exact inRange

/-- A caller after a step took the step itself, woke, or kept its stage. -/
theorem of_mem_advance {choice : Choice}
    (member : other ∈ (state.advance thread choice stage).threads) :
    other = (stage.step state.pool choice).2 ∨ other = .awake ∨ other ∈ state.threads ∧
      ((∃ later, stage = .wake later) → ∀ job, other ≠ .waiting job) := by
  rcases mem_or_eq_of_mem_set member with old | rfl
  · right
    split at old
    · obtain ⟨sleeping, isThread, rfl⟩ := mem_map.mp old
      cases sleeping
      case registered => exact .inl rfl
      case waiting => exact .inl rfl
      all_goals exact .inr ⟨isThread, fun _ => nofun⟩
    next notWake =>
      exact .inr ⟨old, fun ⟨later, isWake⟩ => absurd isWake (notWake later)⟩
  · exact .inl rfl

theorem woken_of_wakes (wakes : other.wakes = true) : other.woken = other := by
  cases other <;> first | rfl | exact absurd wakes Bool.false_ne_true

/-- What a caller has ahead stays ahead, of it or of the caller that takes the step. -/
theorem ahead_advance {ahead : Stage → Bool}
    (isWake : ∀ other, ahead other = true → other.wakes = true)
    (found : state.threads[thread]? = some stage) (choice : Choice)
    (pending : ∃ other ∈ state.threads, ahead other = true) :
    (∃ other ∈ (state.advance thread choice stage).threads, ahead other = true) ∨
      ahead stage = true := by
  obtain ⟨other, member, isAhead⟩ := pending
  by_cases same : other = stage
  · exact .inr (same ▸ isAhead)
  · exact .inl ⟨other, mem_advance found choice member (woken_of_wakes (isWake other isAhead)) same,
      isAhead⟩

def Grows (state : State) (stage : Stage) : Prop :=
  ∀ later, stage = .bump later → state.pool.capacityVersion < u64Max

theorem Watch.fail {amount : Nat} (seen : outcome.Seen state.pool.capacityVersion)
    (watch : state.Watch outcome) : state.Watch (Stage.fail amount outcome) := by
  unfold Stage.fail
  split
  · exact seen
  · exact watch

section

variable (sound : state.Sound) (found : state.threads[thread]? = some stage) (choice : Choice)
  (grows : state.Grows stage)
include sound found choice grows

theorem Sound.advances : Stage.Advances state.pool stage
      (stage.step state.pool choice).1 (stage.step state.pool choice).2 :=
  have member := mem_of_getElem? found
  step_advances choice (sound.formed stage member)
    (sound.accounted.blocks ▸ le_held blocks member)
    (sound.accounted.bytes ▸ le_held bytes member)
    (sound.accounted.share ▸ le_held share member) grows

theorem Sound.progress : state.Progress (state.advance thread choice stage) := by
  have advances := sound.advances found choice grows
  have limits := (sound.accounted.moves found choice).limits
  have pending (bumps : (stage.step state.pool choice).2.bumps = true) :
      (state.advance thread choice stage).PendingBump := ⟨_, next_mem_advance found choice, bumps⟩
  refine ⟨limits.1, limits.2, advances.version, fun before => ?_, fun isClosed => ?_,
    fun job noRoom => ?_⟩
  · rcases ahead_advance (fun _ => wakes_of_bumps) found choice before with other | own
    · exact .inl other
    · exact (advances.bumped own).imp_left pending
  · exact (advances.closes isClosed).imp_right pending
  · exact (advances.room job noRoom).imp_right (Or.imp_left pending)

theorem Sound.watchNext :
    (state.advance thread choice stage).Watch (stage.step state.pool choice).2 := by
  have progress := sound.progress found choice grows
  have member := mem_of_getElem? found
  have watch := sound.watch stage member
  have formed := sound.formed stage member
  have failClosed (job : Job) (amount version : Nat) :
      (fail amount (.refused .closed job)).Seen version := by
    unfold fail
    split <;> exact trivial
  cases stage with
  | enter job =>
    dsimp only [step]
    split
    · exact trivial
    rename_i isOpen
    have past : State.Past (state.advance thread choice (.enter job)) job :=
      ⟨watch, fun isClosed => absurd isClosed isOpen⟩
    split
    next limited =>
      exact ⟨past, limited⟩
    · exact past
  | gate job =>
    have past := Past.mono progress watch.1
    dsimp only [step]
    split
    next full =>
      exact ⟨past, .inl (.inl full)⟩
    · exact ⟨past, watch.2⟩
  | charge job =>
    have past := Past.mono progress watch.1
    cases charged : state.pool.chargePipeline job with
    | some sum =>
      simp only [step, charged]
      exact past
    | none =>
      have samePool : (state.advance thread choice (.charge job)).pool = state.pool := by
        simp only [advance, step, charged]
      simp only [step, charged]
      exact ⟨past, .inl (samePool.symm ▸ .inr ⟨watch.2, charged⟩)⟩
  | load job amount => exact ⟨Past.mono progress watch, fun full => .inl (.inl (Nat.lt_succ_iff.mp full))⟩
  | check job amount used =>
    have past := Past.mono progress watch.1
    dsimp only [step]
    split
    · exact .fail trivial trivial
    split
    next full =>
      exact .fail past.1 ⟨past, (watch.2 full).mono progress watch.1⟩
    · exact past
  | exchange job amount used =>
    have past := Past.mono progress watch
    by_cases exchanged : choice.spurious = false ∧ state.pool.reserved = used
    · simp only [step, if_pos exchanged]
      exact past
    have samePool : (state.advance thread choice (.exchange job amount used)).pool =
        state.pool := by
      simp only [advance, step, if_neg exchanged]
    simp only [step, if_neg exchanged]
    refine ⟨past, fun full => .inl (samePool.symm ▸ .inl ?_)⟩
    rw [samePool] at full
    omega
  | count job amount =>
    dsimp only [step]
    split
    · exact Past.mono progress watch
    · exact failClosed job amount _
  | confirm job amount =>
    dsimp only [step]
    split
    · exact failClosed job amount _
    · split <;> exact trivial
  | decoding | measured | decoded =>
    dsimp only [step]
    split <;> exact trivial
  | unpipe amount next =>
    have seen := Stage.Seen.mono watch progress.version
    have enough := (Nat.le_add_left _ _).trans
      (sound.accounted.share ▸ le_held share member)
    simp only [step, sub_of_le enough]
    rcases formed.1 with ⟨later, rfl⟩ | ⟨_, later, rfl⟩ <;> exact seen
  | uncountBytes | uncountBlock =>
    have seen := Stage.Seen.mono watch progress.version
    dsimp only [step]
    split <;> exact seen
  | undo next =>
    obtain ⟨earlier, before, seen⟩ := watch
    exact watch_of_seen seen (before.trans_le progress.version)
  | closing cause next => exact watch
  | bump next =>
    have room : state.pool.capacityVersion + 1 ≤ u64Max := grows next rfl
    have newer : state.pool.capacityVersion <
        (state.advance thread choice (.bump next)).pool.capacityVersion := by
      simp only [advance, step, add_of_le room]
      exact Nat.lt_succ_self _
    simp only [step, add_of_le room]
    exact ⟨state.pool.capacityVersion, newer, watch⟩
  | wake next =>
    obtain ⟨earlier, before, seen⟩ := watch
    exact watch_of_seen seen before
  | refused why job =>
    cases why with
    | capacity => exact ⟨watch.1.mono progress, watch.2.mono progress watch.1⟩
    | _ => exact trivial
  | registered job =>
    have past := watch.1.mono progress
    have alert := watch.2.mono progress watch.1
    dsimp only [step]
    split
    · have notNewer : ¬ job.seen < state.pool.capacityVersion := by omega
      refine ⟨?_, fun isClosed => ?_⟩
      · rcases alert with noRoom | pending | newer
        · exact .inl noRoom
        · exact .inr pending.wake
        · exact absurd newer notNewer
      · rcases past.2 isClosed with pending | newer
        · exact pending.wake
        · exact absurd newer notNewer
    · exact trivial
  | waiting job =>
    refine Watch.mono progress watch fun _ _ pending => ?_
    rcases ahead_advance (fun _ => id) found choice pending with other | own
    · exact other
    · exact absurd own Bool.false_ne_true
  | live | awake | done => exact trivial

theorem Sound.advance : (state.advance thread choice stage).Sound := by
  have advances := sound.advances found choice grows
  have progress := sound.progress found choice grows
  refine ⟨sound.accounted.advance found choice, fun other member => ?_, fun other member => ?_⟩
  · rcases of_mem_advance member with rfl | rfl | ⟨old, _⟩
    · exact advances.formed
    · exact trivial
    · exact (sound.formed other old).mono advances.keeps
  rcases of_mem_advance member with rfl | rfl | ⟨old, sleeps⟩
  · exact sound.watchNext found choice grows
  · exact trivial
  refine (sound.watch other old).mono progress fun job isWaiting pending => ?_
  rcases ahead_advance (fun _ => id) found choice pending with ahead | own
  · exact ahead
  · rcases advances.wakes own with next | isWake
    · exact ⟨_, next_mem_advance found choice, next⟩
    · exact absurd isWaiting (sleeps isWake job)

end

/-- Calls that start or end change no tally and keep each wake-up that is ahead. -/
theorem Sound.edit (sound : state.Sound) (accounted : Accounted ⟨state.pool, threads⟩)
    (kept : ∀ stage ∈ state.threads, stage.wakes = true → stage ∈ threads)
    (changed : ∀ stage ∈ threads, stage ∈ state.threads ∨ stage.Formed state.pool.isClosed ∧
      State.Watch ⟨state.pool, threads⟩ stage) : Sound ⟨state.pool, threads⟩ := by
  have pending : state.PendingBump → PendingBump ⟨state.pool, threads⟩ :=
    fun ⟨stage, member, bumps⟩ => ⟨stage, kept stage member (wakes_of_bumps bumps), bumps⟩
  have progress : state.Progress ⟨state.pool, threads⟩ :=
    ⟨rfl, rfl, le_rfl, fun before => .inl (pending before), .inl, fun _ => .inl⟩
  refine ⟨accounted, fun stage member => ?_, fun stage member => ?_⟩
  · rcases changed stage member with old | new
    · exact sound.formed stage old
    · exact new.1
  rcases changed stage member with old | new
  · refine (sound.watch stage old).mono progress fun _ _ => ?_
    exact fun ⟨other, isThread, wakes⟩ => ⟨other, kept other isThread wakes, wakes⟩
  · exact new.2

theorem Sound.append (sound : state.Sound)
    (accounted : Accounted { state with threads := state.threads ++ [stage] })
    (formed : stage.Formed state.pool.isClosed)
    (watch : State.Watch { state with threads := state.threads ++ [stage] } stage) :
    Sound { state with threads := state.threads ++ [stage] } := by
  refine sound.edit accounted (fun _ member _ => mem_append_left _ member) ?_
  intro other member
  rcases mem_append.mp member with old | new
  · exact .inl old
  · rw [mem_singleton.mp new]
    exact .inr ⟨formed, watch⟩

section

variable {bytes share : Nat} (sound : state.Sound)
  (found : state.threads[thread]? = some (.live bytes share))
include sound found

theorem Sound.drop :
    Sound { state with threads := state.threads.set thread (.dropCharge bytes share) } := by
  refine sound.edit (sound.accounted.drop found) (fun other member wakes => ?_) ?_
  · exact mem_set_of_ne found member (fun isLive => by simp [isLive, Stage.wakes, Stage.bumps] at wakes)
  intro other member
  rcases mem_or_eq_of_mem_set member with old | rfl
  · exact .inl old
  unfold Stage.dropCharge
  split
  · exact .inr ⟨⟨.inr ⟨bytes, .done, rfl⟩, trivial⟩, trivial⟩
  · exact .inr ⟨trivial, trivial⟩

theorem Sound.leavePipeline : Sound { state with
      threads := state.threads.set thread (.live bytes 0) ++ [.leavePipeline share] } := by
  refine sound.edit (sound.accounted.leavePipeline found) (fun other member wakes => ?_) ?_
  · refine mem_append_left _ (mem_set_of_ne found member fun isLive => ?_)
    simp [isLive, Stage.wakes, Stage.bumps] at wakes
  intro other member
  rcases mem_append.mp member with old | new
  · rcases mem_or_eq_of_mem_set old with kept | rfl
    · exact .inl kept
    · exact .inr ⟨trivial, trivial⟩
  rw [mem_singleton.mp new]
  unfold Stage.leavePipeline
  split
  · exact .inr ⟨⟨.inl ⟨.done, rfl⟩, trivial⟩, trivial⟩
  · exact .inr ⟨trivial, trivial⟩

end

end State

end Zakura.BlockMemory
