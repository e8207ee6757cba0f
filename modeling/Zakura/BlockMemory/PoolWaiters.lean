import Zakura.BlockMemory.PoolAccounts

/-!
Callers that wait for capacity. A caller that reads the version, is refused, registers
and sees the same version again either still has no room or has a wake-up ahead.
-/

namespace Zakura.BlockMemory

open Checked Option

variable {stage : Stage}

def Pool.NoRoom (pool : Pool) (job : Job) : Prop :=
  pool.blockLimit ≤ pool.reserved ∨
    pool.pipelineLimit.isSome = true ∧ pool.chargePipeline job = none

theorem Pool.NoRoom.mono {pool after : Pool} {job : Job} (noRoom : pool.NoRoom job)
    (blockLimit : after.blockLimit = pool.blockLimit)
    (pipelineLimit : after.pipelineLimit = pool.pipelineLimit)
    (reserved : pool.reserved ≤ after.reserved)
    (pipelineBytes : pool.pipelineBytes ≤ after.pipelineBytes) : after.NoRoom job := by
  refine noRoom.imp (fun full => blockLimit ▸ full.trans reserved) fun ⟨limited, refused⟩ => ?_
  refine ⟨pipelineLimit ▸ limited, ?_⟩
  by_contra charged
  obtain ⟨_, found⟩ := ne_none_iff_exists'.mp charged
  obtain ⟨added, allowed⟩ := filter_eq_some_iff.mp found
  have sum := Stage.add_eq_some added
  have fits : pool.pipelineBytes + job.bytes ≤ u64Max := by
    unfold add at added
    split at added
    · omega
    · simp at added
  refine absurd refused ?_
  unfold chargePipeline
  rw [add_of_le fits]
  rw [pipelineLimit] at allowed
  cases limit : pool.pipelineLimit with
  | none => simp
  | some bound =>
    simp only [limit, all_some, decide_eq_true_eq, Bool.or_eq_true] at allowed
    simp only [all_some, decide_eq_true_eq, Bool.or_eq_true,
      filter_eq_none_iff, some.injEq, forall_eq', not_not]
    exact allowed.imp_left (by omega)

namespace Stage

def bumps : Stage → Bool
  | .closing _ _ | .bump _ | .uncountBytes _ _ | .uncountBlock _ => true
  | .unpipe _ next | .undo next | .wake next => next.bumps
  | _ => false

def wakes : Stage → Bool
  | .wake _ => true
  | stage => stage.bumps

theorem wakes_of_bumps (bumps : stage.bumps = true) : stage.wakes = true := by
  cases stage <;> first | exact bumps | rfl

def Formed (closed : Bool) : Stage → Prop
  | .unpipe _ next => ((∃ later, next = .bump later) ∨
      ∃ bytes later, next = .uncountBytes bytes later) ∧ next.Formed closed
  | .undo next => closed = true ∧ next.Formed closed
  | .closing _ next => next.Formed true
  | .uncountBytes _ next | .uncountBlock next | .bump next | .wake next => next.Formed closed
  | _ => True

theorem Formed.mono {closed later : Bool} (formed : stage.Formed closed)
    (closes : closed = true → later = true) : stage.Formed later := by
  induction stage with
  | unpipe share next ih => exact ⟨formed.1, ih formed.2⟩
  | undo next ih => exact ⟨closes formed.1, ih formed.2⟩
  | uncountBytes _ _ ih | uncountBlock _ ih | bump _ ih
  | wake _ ih => exact ih formed
  | closing cause next _ => exact formed
  | _ => exact trivial

def Seen (version : Nat) : Stage → Prop
  | .refused .capacity job => job.seen ≤ version
  | .refused _ _ | .done => True
  | .unpipe _ next | .undo next | .wake next | .bump next | .closing _ next
  | .uncountBytes _ next | .uncountBlock next => next.Seen version
  | _ => False

theorem Seen.mono {version later : Nat} (seen : stage.Seen version) (newer : version ≤ later) :
    stage.Seen later := by
  induction stage with
  | refused why job =>
    cases why with
    | capacity => exact seen.trans newer
    | _ => exact trivial
  | done => exact trivial
  | unpipe _ _ ih | undo _ ih | wake _ ih | bump _ ih
  | closing _ _ ih | uncountBytes _ _ ih | uncountBlock _ ih =>
    exact ih seen
  | _ => exact seen.elim

end Stage

namespace State

variable {state after : State} {job : Job}

def PendingBump (state : State) : Prop := ∃ stage ∈ state.threads, stage.bumps = true

def PendingWake (state : State) : Prop := ∃ stage ∈ state.threads, stage.wakes = true

def Past (state : State) (job : Job) : Prop :=
  job.seen ≤ state.pool.capacityVersion ∧ (state.pool.isClosed = true →
    state.PendingBump ∨ job.seen < state.pool.capacityVersion)

def Alert (state : State) (job : Job) : Prop :=
  state.pool.NoRoom job ∨ state.PendingBump ∨ job.seen < state.pool.capacityVersion

def Watch (state : State) : Stage → Prop
  | .enter job => job.seen ≤ state.pool.capacityVersion
  | .load job _ | .exchange job _ _ | .count job _ | .confirm job _ => state.Past job
  | .gate job | .charge job => state.Past job ∧ state.pool.pipelineLimit.isSome = true
  | .check job _ used => state.Past job ∧ (state.pool.blockLimit < used + 1 → state.Alert job)
  | .refused .capacity job | .registered job => state.Past job ∧ state.Alert job
  | .waiting job => (state.pool.NoRoom job ∨ state.PendingWake) ∧
      (state.pool.isClosed = true → state.PendingWake)
  | .wake next | .undo next => ∃ earlier < state.pool.capacityVersion, next.Seen earlier
  | .unpipe _ next | .bump next | .closing _ next | .uncountBytes _ next | .uncountBlock next =>
    next.Seen state.pool.capacityVersion
  | _ => True

structure Progress (state after : State) : Prop where
  blockLimit : after.pool.blockLimit = state.pool.blockLimit
  pipelineLimit : after.pool.pipelineLimit = state.pool.pipelineLimit
  version : state.pool.capacityVersion ≤ after.pool.capacityVersion
  bumped : state.PendingBump →
    after.PendingBump ∨ state.pool.capacityVersion < after.pool.capacityVersion
  closes : after.pool.isClosed = true → state.pool.isClosed = true ∨ after.PendingBump
  room : ∀ job, state.pool.NoRoom job →
    after.pool.NoRoom job ∨ after.PendingBump ∨ state.pool.isClosed = true

theorem PendingBump.wake (pending : state.PendingBump) : state.PendingWake := by
  obtain ⟨stage, member, bumps⟩ := pending
  exact ⟨stage, member, Stage.wakes_of_bumps bumps⟩

section

variable (progress : Progress state after)
include progress

theorem Progress.newer (seen : job.seen ≤ state.pool.capacityVersion)
    (noted : state.PendingBump ∨ job.seen < state.pool.capacityVersion) :
    after.PendingBump ∨ job.seen < after.pool.capacityVersion := by
  have version := progress.version
  rcases noted with pending | _
  · exact (progress.bumped pending).imp id (by omega)
  · exact .inr (by omega)

theorem Past.mono (past : state.Past job) : after.Past job := by
  refine ⟨past.1.trans progress.version, fun isClosed => ?_⟩
  rcases progress.closes isClosed with earlier | pending
  · exact progress.newer past.1 (past.2 earlier)
  · exact .inl pending

theorem Alert.mono (alert : state.Alert job) (past : state.Past job) : after.Alert job := by
  rcases alert with noRoom | noted
  · rcases progress.room job noRoom with still | pending | isClosed
    · exact .inl still
    · exact .inr (.inl pending)
    · exact .inr (progress.newer past.1 (past.2 isClosed))
  · exact .inr (progress.newer past.1 noted)

theorem Watch.mono (watch : state.Watch stage)
    (sleeps : ∀ job, stage = .waiting job → state.PendingWake → after.PendingWake) :
    after.Watch stage := by
  have newer := progress.version
  cases stage with
  | enter job => exact watch.trans progress.version
  | load | exchange | count | confirm => exact Past.mono progress watch
  | gate | charge => exact ⟨watch.1.mono progress, progress.pipelineLimit ▸ watch.2⟩
  | check job share used =>
    refine ⟨watch.1.mono progress, fun full => ?_⟩
    rw [progress.blockLimit] at full
    exact (watch.2 full).mono progress watch.1
  | refused why job =>
    cases why with
    | capacity => exact ⟨watch.1.mono progress, watch.2.mono progress watch.1⟩
    | _ => exact trivial
  | registered job => exact ⟨watch.1.mono progress, watch.2.mono progress watch.1⟩
  | waiting job =>
    have wakes := sleeps job rfl
    have ifClosed (isClosed : state.pool.isClosed = true) := wakes (watch.2 isClosed)
    refine ⟨?_, fun isClosed => ?_⟩
    · rcases watch.1 with noRoom | pending
      · rcases progress.room job noRoom with still | pending | isClosed
        · exact .inl still
        · exact .inr pending.wake
        · exact .inr (ifClosed isClosed)
      · exact .inr (wakes pending)
    · rcases progress.closes isClosed with earlier | pending
      · exact ifClosed earlier
      · exact pending.wake
  | wake | undo =>
    obtain ⟨earlier, _, seen⟩ := watch
    exact ⟨earlier, by omega, seen⟩
  | unpipe | bump | closing | uncountBytes | uncountBlock => exact Stage.Seen.mono watch newer
  | _ => exact trivial

end

/-- After a new version, no caller of an earlier one is missed. -/
theorem watch_of_seen {earlier : Nat} (seen : stage.Seen earlier)
    (before : earlier < state.pool.capacityVersion) : state.Watch stage := by
  cases stage with
  | refused why job =>
    cases why with
    | capacity =>
      have newer : job.seen < state.pool.capacityVersion := Nat.lt_of_le_of_lt seen before
      exact ⟨⟨newer.le, fun _ => .inr newer⟩, .inr (.inr newer)⟩
    | _ => exact trivial
  | done => exact trivial
  | wake | undo => exact ⟨earlier, before, seen⟩
  | unpipe | bump | closing | uncountBytes | uncountBlock => exact Stage.Seen.mono seen before.le
  | _ => exact seen.elim

end State

end Zakura.BlockMemory
