import Zakura.BlockMemory.PoolSteps

/-!
Runs of a pool. Its tallies are exact in every run, and no caller that waits misses a
release while the version of the capacity can grow.
-/

namespace Zakura.BlockMemory

open Checked List Stage Option

namespace Stage

/-- Only a charge lifts the pipeline bytes, within the limit or exempt from it. -/
theorem pipelineBytes_step {pool : Pool} {limit : Nat} (limited : pool.pipelineLimit = some limit)
    (choice : Choice) (stage : Stage) :
    (stage.step pool choice).1.pipelineBytes ≤ max pool.pipelineBytes limit ∨
      ∃ job, stage = .charge job ∧ job.admission = .pipelineExempt := by
  cases stage with
  | charge job =>
    cases charged : pool.chargePipeline job with
    | none =>
      simp only [step, charged]
      exact .inl (le_max_left _ _)
    | some next =>
      have allowed := (filter_eq_some_iff.mp charged).2
      simp only [limited, all_some, decide_eq_true_eq, Bool.or_eq_true] at allowed
      simp only [step, charged]
      exact allowed.imp (·.trans (le_max_right _ _)) fun exempt => ⟨job, rfl, exempt⟩
  | unpipe amount next =>
    refine .inl (le_trans ?_ (le_max_left _ _))
    dsimp only [step]
    split
    next left taken =>
      have := sub_eq_some taken
      dsimp only
      omega
    · exact le_rfl
  | refused why job => cases why <;> exact .inl (le_max_left _ _)
  | _ =>
    refine .inl (le_trans ?_ (le_max_left _ _))
    dsimp only [step]
    repeat' split
    all_goals exact le_rfl

def distance : Stage → Nat
  | .wake _ => 0
  | .bump _ => 1
  | .closing _ _ => 2
  | .uncountBlock _ => 3
  | .uncountBytes _ _ => 4
  | .undo next => next.distance + 1
  | .unpipe _ next => next.distance + 3
  | _ => 0

theorem step_distance {stage : Stage} (pool : Pool) (choice : Choice)
    (wakes : stage.wakes = true) : (∃ later, stage = .wake later) ∨
      (stage.step pool choice).2.wakes = true ∧
        (stage.step pool choice).2.distance < stage.distance := by
  cases stage with
  | wake next => exact .inl ⟨next, rfl⟩
  | unpipe amount next =>
    right
    dsimp only [step]
    split
    · exact ⟨wakes_of_bumps wakes, Nat.lt_add_of_pos_right (by decide)⟩
    · exact ⟨rfl, Nat.lt_of_lt_of_le (Nat.lt_succ_self 2) (Nat.le_add_left 3 next.distance)⟩
  | undo next => exact .inr ⟨wakes_of_bumps wakes, Nat.lt_succ_self _⟩
  | closing cause next => exact .inr ⟨rfl, Nat.lt_succ_self 1⟩
  | bump next =>
    right
    dsimp only [step]
    split <;> exact ⟨rfl, Nat.zero_lt_one⟩
  | uncountBlock | uncountBytes =>
    right
    dsimp only [step]
    split <;> exact ⟨rfl, by simp [distance]⟩
  | _ => exact absurd wakes Bool.false_ne_true

end Stage

namespace State

def advances (state : State) (thread : Nat) (choice : Choice) (count : Nat) : State :=
  (fun current => current.apply (.advance thread choice))^[count] state

/-- A wake-up that is ahead of a caller reaches every caller that waits. -/
theorem awake_soon (state : State) {thread index : Nat} {stage : Stage} {job : Job}
    (found : state.threads[thread]? = some stage) (wakes : stage.wakes = true)
    (waits : state.threads[index]? = some (.waiting job)) (choice : Choice) :
    ∃ count, (state.advances thread choice count).threads[index]? = some .awake := by
  have different : thread ≠ index := by
    rintro rfl
    obtain rfl := mem_unique found waits
    exact absurd wakes Bool.false_ne_true
  have applied : state.apply (.advance thread choice) = state.advance thread choice stage := by
    simp [State.apply, found]
  rcases step_distance state.pool choice wakes with ⟨later, rfl⟩ | ⟨next, closer⟩
  · refine ⟨1, ?_⟩
    change (state.apply (.advance thread choice)).threads[index]? = _
    rw [applied]
    simp only [advance, getElem?_set_ne different, getElem?_map, waits]
    rfl
  have notWake : ∀ later, stage ≠ .wake later := by
    rintro later rfl
    exact absurd closer (Nat.not_lt_zero _)
  have inRange := (List.getElem?_eq_some_iff.mp found).1
  have threads : (state.apply (.advance thread choice)).threads =
      state.threads.set thread (stage.step state.pool choice).2 := by
    rw [applied]
    unfold advance
    split
    · exact absurd rfl (notWake _)
    · rfl
  obtain ⟨count, isAwake⟩ := awake_soon (state.apply (.advance thread choice))
    (threads ▸ List.getElem?_set_self inRange) next
    (threads ▸ (List.getElem?_set_ne different).trans waits) choice
  exact ⟨count + 1, isAwake⟩
termination_by stage.distance

def Fits (state : State) : Operation → Prop
  | .advance thread _ => ∀ stage, state.threads[thread]? = some stage → state.Grows stage
  | _ => True

variable {state : State} {pipelineLimit : Option Nat} {blockLimit limit : Nat}

theorem Sound.apply (sound : state.Sound) (operation : Operation) (fits : state.Fits operation) :
    (state.apply operation).Sound := by
  have accounted := sound.accounted.apply operation
  cases operation with
  | begin bytes admission decodes =>
    dsimp only [State.apply] at accounted ⊢
    rcases firstStage_cases state.pool bytes admission decodes with
      ⟨job, first⟩ | ⟨job, first, _, seen⟩
    · rw [first] at accounted ⊢
      exact sound.append accounted trivial trivial
    · rw [first] at accounted ⊢
      exact sound.append accounted trivial seen.le
  | advance thread choice =>
    dsimp only [State.apply]
    split
    · exact sound
    next stage found =>
      exact sound.advance found choice (fits stage found)
  | leavePipeline thread =>
    dsimp only [State.apply]
    split
    next bytes share found =>
      exact sound.leavePipeline found
    · exact sound
  | drop thread =>
    dsimp only [State.apply]
    split
    next bytes share found =>
      exact sound.drop found
    · exact sound
  | close => exact sound.append accounted trivial trivial

theorem sound_new (blockLimit : Nat) (pipelineLimit : Option Nat) :
    (new blockLimit pipelineLimit).Sound :=
  ⟨⟨rfl, rfl, rfl, Nat.zero_le _, nofun, nofun⟩, nofun, nofun⟩

inductive Reachable (allowed : State → Operation → Prop) (start : State) : State → Prop
  | start : Reachable allowed start start
  | step {state : State} (operation : Operation) (reachable : Reachable allowed start state)
      (isAllowed : allowed state operation) : Reachable allowed start (state.apply operation)

theorem Reachable.accounted {allowed : State → Operation → Prop}
    (reachable : Reachable allowed (new blockLimit pipelineLimit) state) : state.Accounted := by
  induction reachable with
  | start => exact (sound_new blockLimit pipelineLimit).accounted
  | step operation _ _ ih => exact ih.apply operation

theorem Reachable.sound (reachable : Reachable Fits (new blockLimit pipelineLimit) state) :
    state.Sound := by
  induction reachable with
  | start => exact sound_new blockLimit pipelineLimit
  | step operation _ isAllowed ih => exact ih.apply operation isAllowed

theorem pipelineBytes_apply (limited : state.pool.pipelineLimit = some limit)
    (operation : Operation) :
    (state.apply operation).pool.pipelineBytes ≤ max state.pool.pipelineBytes limit ∨
      ∃ thread choice job, operation = .advance thread choice ∧
        state.threads[thread]? = some (.charge job) ∧ job.admission = .pipelineExempt := by
  cases operation with
  | advance thread choice =>
    dsimp only [State.apply]
    split
    · exact .inl (le_max_left _ _)
    rename_i stage found
    rcases pipelineBytes_step limited choice stage with within | ⟨job, rfl, exempt⟩
    · exact .inl within
    · exact .inr ⟨thread, choice, job, rfl, found, exempt⟩
  | begin | close => exact .inl (le_max_left _ _)
  | leavePipeline | drop =>
    dsimp only [State.apply]
    split <;> exact .inl (le_max_left _ _)

/-- In every run the tallies are what the callers hold and each step moves exactly what its
caller holds. In a run whose versions can grow, a caller that waits has no room or has a
wake-up ahead. -/
theorem pool_run_exact (blockLimit : Nat) (pipelineLimit : Option Nat) :
    (∀ state, Reachable (fun _ _ => True) (new blockLimit pipelineLimit) state →
      state.Accounted ∧
      (∀ (thread : Nat) (stage : Stage) (choice : Choice), state.threads[thread]? = some stage →
        Stage.Moves state.pool stage (stage.step state.pool choice).1
          (stage.step state.pool choice).2) ∧
      ∀ limit operation, state.pool.pipelineLimit = some limit →
        (state.apply operation).pool.pipelineBytes ≤ max state.pool.pipelineBytes limit ∨
          ∃ thread choice job, operation = .advance thread choice ∧
            state.threads[thread]? = some (.charge job) ∧ job.admission = .pipelineExempt) ∧
    ∀ state, Reachable Fits (new blockLimit pipelineLimit) state →
      ∀ (index : Nat) (job : Job), state.threads[index]? = some (.waiting job) →
        state.pool.NoRoom job ∨ ∃ thread, ∀ choice, ∃ count,
          (state.advances thread choice count).threads[index]? = some .awake := by
  refine ⟨fun state reachable => ⟨reachable.accounted, fun thread stage choice found => ?_,
    fun limit operation limited => ?_⟩, fun state reachable index job waits => ?_⟩
  · exact reachable.accounted.moves found choice
  · exact pipelineBytes_apply limited operation
  have watch := reachable.sound.watch (.waiting job) (mem_of_getElem? waits)
  rcases watch.1 with noRoom | ⟨stage, member, wakes⟩
  · exact .inl noRoom
  · obtain ⟨thread, found⟩ := mem_iff_getElem?.mp member
    exact .inr ⟨thread, fun choice => awake_soon state found wakes waits choice⟩

namespace Sample

variable {pool after : Pool} {front back others : List Stage} {stage next : Stage}

abbrev Reached (state : State) : Prop := Reachable (fun _ _ => True) (new 1 none) state

def plain : Choice := ⟨false, none⟩

/-- One caller takes a step while no other caller waits. -/
theorem move (reachable : Reached ⟨pool, front ++ stage :: back⟩)
    (busy : ∀ other ∈ front ++ back, other.woken = other)
    (stepped : stage.step pool plain = (after, next)) :
    Reached ⟨after, front ++ next :: back⟩ := by
  have woken (part : List Stage) (included : part ⊆ front ++ back) : part.map woken = part :=
    (map_congr_left fun other member => busy other (included member)).trans (map_id _)
  have frontWoken := woken front (subset_append_left _ _)
  have backWoken := woken back (subset_append_right _ _)
  have applied : State.apply ⟨pool, front ++ stage :: back⟩ (.advance front.length plain) =
      ⟨after, front ++ next :: back⟩ := by
    simp only [State.apply, getElem?_append_right le_rfl, Nat.sub_self,
      getElem?_cons_zero, advance, stepped]
    split <;> simp [frontWoken, backWoken]
  exact applied ▸ reachable.step _ trivial

def oneBlock (version reserved : Nat) : Pool :=
  { Pool.withLimit 1 none with capacityVersion := version, reserved := reserved }

def refusedJob (version : Nat) : Job := ⟨0, .withinLimit, false, version⟩

theorem woken_done (finished : Nat) (busy : ∀ other ∈ others, other.woken = other) :
    ∀ other ∈ replicate finished done ++ others, other.woken = other := by
  intro other member
  rcases mem_append.mp member with done | member
  · rw [eq_of_mem_replicate done]
    rfl
  · exact busy other member

variable {version finished : Nat}

/-- One block enters, next to finished callers. -/
theorem reached_live (reached : Reached ⟨oneBlock version 0, replicate finished .done⟩) :
    Reached ⟨oneBlock version 1, replicate finished .done ++ [.live 0 0]⟩ := by
  have busy := woken_done finished (forall_mem_nil _)
  have begun := reached.step (.begin 0 .withinLimit false) trivial
  have checks := move (move begun busy rfl) busy rfl
  have counts := move (move checks busy rfl) busy rfl
  exact move (move counts busy rfl) busy rfl

theorem woken_pair (finished : Nat) (stage : Stage) (busy : stage.woken = stage) :
    ∀ other ∈ replicate finished done ++ [stage] ++ [], other.woken = other := by
  rw [append_nil]
  exact woken_done finished (forall_mem_singleton.mpr busy)

/-- A second caller is refused while the block is held. -/
theorem reached_refused
    (reached : Reached ⟨oneBlock version 1, replicate finished .done ++ [.live 0 0]⟩) :
    Reached ⟨oneBlock version 1, replicate finished .done ++ [.live 0 0] ++
      [.refused .capacity (refusedJob version)]⟩ := by
  have busy := woken_pair finished (.live 0 0) rfl
  have begun := reached.step (.begin 0 .withinLimit false) trivial
  have checks := move (move begun busy rfl) busy rfl
  exact move checks busy rfl

/-- The block leaves, and its caller has a notification ahead. -/
theorem reached_bump (busy : ∀ other ∈ replicate finished done ++ others, other.woken = other)
    (reached : Reached ⟨oneBlock version 1, replicate finished .done ++ .live 0 0 :: others⟩) :
    Reached ⟨oneBlock version 0, replicate finished .done ++ .bump .done :: others⟩ := by
  have dropped := reached.step (.drop (replicate finished done).length) trivial
  simp only [State.apply, getElem?_append_right le_rfl, Nat.sub_self,
    getElem?_cons_zero, set_append_right _ _ le_rfl, set_cons_zero] at dropped
  exact move (move dropped busy rfl) busy rfl

/-- Each block that enters and leaves adds one to the version. -/
theorem reached_version (inRange : version ≤ u64Max) :
    Reached ⟨oneBlock version 0, replicate version .done⟩ := by
  induction version with
  | zero => exact .start
  | succ version ih =>
    have busy := woken_done version (forall_mem_nil _)
    have bumps := reached_bump busy (reached_live (ih (by omega)))
    have bumped : step (oneBlock version 0) plain (.bump .done) =
        (oneBlock (version + 1) 0, .wake .done) := by
      simp only [step, oneBlock, add_of_le inRange]
    rw [replicate_succ']
    exact move (move bumps busy bumped) busy rfl

/-- The last version: a caller read it and was refused, the block left, and the caller
registered after the notification. -/
def asleep : State :=
  ⟨{ oneBlock u64Max 0 with closed := some .overflow },
    replicate u64Max .done ++ [.done, .waiting (refusedJob u64Max)]⟩

theorem reached_asleep : Reached asleep := by
  have full := reached_live (reached_version le_rfl)
  have refused := reached_refused full
  rw [← append_cons] at refused
  have busy := woken_done u64Max
    (forall_mem_singleton.mpr (rfl : (Stage.refused .capacity (refusedJob u64Max)).woken = _))
  have closes : Stage.step (oneBlock u64Max 0) plain (.bump .done) =
      ({ oneBlock u64Max 0 with closed := some .overflow }, .wake .done) := rfl
  have missed := move (move (reached_bump busy refused) busy closes) busy rfl
  rw [append_cons] at missed
  have alone := woken_pair u64Max .done rfl
  have waits := move (move missed alone rfl) alone rfl
  rw [← append_cons] at waits
  exact waits

theorem advances_asleep (thread : Nat) (choice : Choice) (count : Nat) :
    asleep.advances thread choice count = asleep := by
  have still : asleep.apply (.advance thread choice) = asleep := by
    dsimp only [State.apply]
    split
    · rfl
    rename_i stage found
    have ended : stage = .done ∨ stage = .waiting (refusedJob u64Max) := by
      rcases mem_append.mp (mem_of_getElem? found) with done | last
      · exact .inl (List.eq_of_mem_replicate done)
      · simpa using last
    have unchanged : asleep.threads.set thread stage = asleep.threads := by
      obtain ⟨inRange, equal⟩ := List.getElem?_eq_some_iff.mp found
      rw [← equal]
      exact List.set_getElem_self inRange
    rcases ended with rfl | rfl <;> exact congrArg (State.mk asleep.pool) unchanged
  exact Function.iterate_fixed still count

/-- At the last version a release changes no version, and the refused caller sleeps on. -/
theorem last_version_missed : ¬ ∀ state, Reachable (fun _ _ => True) (new 1 none) state →
    ∀ (index : Nat) (job : Job), state.threads[index]? = some (.waiting job) →
      state.pool.NoRoom job ∨ ∃ thread, ∀ choice, ∃ count,
        (state.advances thread choice count).threads[index]? = some .awake := by
  intro property
  have waits : asleep.threads[u64Max + 1]? = some (.waiting (refusedJob u64Max)) := by
    simp [asleep]
  rcases property asleep reached_asleep (u64Max + 1) (refusedJob u64Max) waits with
    noRoom | ⟨thread, soon⟩
  · rcases noRoom with full | ⟨limited, _⟩
    · exact absurd full (by decide)
    · exact absurd limited (by decide)
  · obtain ⟨_, isAwake⟩ := soon plain
    rw [advances_asleep, waits] at isAwake
    exact absurd (some.inj isAwake) nofun

theorem reached_run {start state : State} (operations : List Operation)
    (reached : Reachable Fits start state) (low : ∀ part ∈ operations.inits,
      (part.foldl State.apply state).pool.capacityVersion < u64Max) :
    Reachable Fits start (operations.foldl State.apply state) := by
  induction operations generalizing state with
  | nil => exact reached
  | cons operation rest ih =>
    have first := low [] (by simp)
    refine ih (reached.step operation ?_) fun part member => low (operation :: part) (by simp_all)
    cases operation <;> first
      | exact trivial
      | exact fun _ _ _ _ => first

/-- A block of 5 bytes enters a pipeline of 10, a caller with 7 bytes waits, and the block leaves
up to its notification. -/
def releasing : List Operation :=
  .begin 5 .withinLimit false :: replicate 8 (.advance 0 plain) ++
    .begin 7 .withinLimit false :: replicate 5 (.advance 1 plain) ++
    .drop 0 :: replicate 4 (.advance 0 plain)

def released : State := releasing.foldl State.apply (new 2 (some 10))

theorem pool_run_exact_of_one :
    released.threads = [.wake .done, .waiting ⟨7, .withinLimit, false, 0⟩] ∧
      released.pool.capacityVersion = 1 ∧ released.Accounted ∧
      ∃ thread, ∀ choice, ∃ count,
        (released.advances thread choice count).threads[1]? = some .awake := by
  have reached : Reachable Fits (new 2 (some 10)) released :=
    reached_run _ .start (by decide +kernel)
  have threads : released.threads = [.wake .done, .waiting ⟨7, .withinLimit, false, 0⟩] := by
    decide +kernel
  refine ⟨threads, by decide +kernel, reached.accounted, ?_⟩
  refine ((pool_run_exact 2 (some 10)).2 released reached 1 _
    (by rw [threads]; rfl)).resolve_left ?_
  unfold Pool.NoRoom
  decide +kernel

end Sample

end State

end Zakura.BlockMemory
