import Zakura.BlockMemory.PoolCore
import Mathlib.Algebra.Order.BigOperators.Group.List
import Mathlib.Algebra.Order.Ring.Nat

/-!
The tallies of a pool are the sums of what its callers hold, after every step of every
caller, so no subtraction underflows.
-/

namespace Zakura.BlockMemory

open Checked List Stage

variable {pool : Pool}

namespace Stage

def blocks : Stage → Nat
  | .count _ _ | .confirm _ _ | .decoding | .measured _ | .decoded _ | .live _ _ => 1
  | .uncountBytes _ next | .uncountBlock next | .undo next => next.blocks + 1
  | .unpipe _ next | .closing _ next | .bump next | .wake next => next.blocks
  | _ => 0

def bytes : Stage → Nat
  | .confirm job _ => job.bytes
  | .decoded bytes | .live bytes _ => bytes
  | .uncountBytes bytes next => next.bytes + bytes
  | .uncountBlock next | .undo next | .unpipe _ next | .closing _ next | .bump next
  | .wake next => next.bytes
  | _ => 0

def share : Stage → Nat
  | .load _ share | .check _ share _ | .exchange _ share _ | .count _ share | .confirm _ share
  | .live _ share => share
  | .unpipe share next => next.share + share
  | .uncountBytes _ next | .uncountBlock next | .undo next | .closing _ next | .bump next
  | .wake next => next.share
  | _ => 0

/-- No close for an underflow is ahead. A decoded block has no pipeline share, and an
exchange stays within the limit. -/
def Regular (limit : Nat) : Stage → Prop
  | .closing cause next => cause ≠ .underflow ∧ next.Regular limit
  | .uncountBytes _ next | .uncountBlock next | .undo next | .unpipe _ next | .bump next
  | .wake next => next.Regular limit
  | .enter job | .gate job | .charge job => job.decodes = true → job.bytes = 0
  | .exchange job share used => used + 1 ≤ limit ∧ (job.decodes = true → job.bytes = 0 ∧ share = 0)
  | .load job share | .check job share _ | .count job share | .confirm job share =>
    job.decodes = true → job.bytes = 0 ∧ share = 0
  | _ => True

@[simp] theorem blocks_fail (amount : Nat) (outcome : Stage) :
    (fail amount outcome).blocks = outcome.blocks := by
  unfold fail
  split <;> rfl

@[simp] theorem bytes_fail (amount : Nat) (outcome : Stage) :
    (fail amount outcome).bytes = outcome.bytes := by
  unfold fail
  split <;> rfl

@[simp] theorem share_fail (amount : Nat) (outcome : Stage) :
    (fail amount outcome).share = outcome.share + amount := by
  unfold fail
  split
  · rfl
  · omega

theorem Regular.fail {limit : Nat} {outcome : Stage} (regular : outcome.Regular limit)
    (amount : Nat) : (Stage.fail amount outcome).Regular limit := by
  unfold Stage.fail
  split <;> exact regular

structure Moves (pool : Pool) (stage : Stage) (after : Pool) (next : Stage) : Prop where
  limits : after.blockLimit = pool.blockLimit ∧ after.pipelineLimit = pool.pipelineLimit
  blocks : after.reserved + stage.blocks = pool.reserved + next.blocks
  bytes : after.countedBytes + stage.bytes = pool.countedBytes + next.bytes
  share : after.pipelineBytes + stage.share = pool.pipelineBytes + next.share
  within : pool.reserved ≤ pool.blockLimit → after.reserved ≤ pool.blockLimit
  regular : next.Regular pool.blockLimit
  cause : after.closed = some .underflow → pool.closed = some .underflow

theorem add_eq_some {first second sum : Nat} (added : add first second = some sum) :
    sum = first + second := by
  unfold add at added
  split at added <;> simp_all

theorem sub_eq_some {first second left : Nat} (taken : sub first second = some left) :
    left + second = first := by
  unfold sub at taken
  split at taken
  · obtain rfl := Option.some.inj taken
    omega
  · simp at taken

/-- A close keeps the first cause. -/
theorem closed_close {cause : CloseCause} (notUnderflow : cause ≠ .underflow)
    (closed : (pool.close cause).closed = some .underflow) : pool.closed = some .underflow := by
  unfold Pool.close at closed
  cases earlier : pool.closed with
  | none =>
    rw [earlier] at closed
    exact absurd (Option.some.inj closed) notUnderflow
  | some first =>
    rw [earlier] at closed
    exact closed

/-- A step that changes no tally. -/
theorem Moves.still {stage next : Stage} (blocks : stage.blocks = next.blocks)
    (bytes : stage.bytes = next.bytes) (share : stage.share = next.share)
    (regular : next.Regular pool.blockLimit) : Moves pool stage pool next :=
  ⟨⟨rfl, rfl⟩, congrArg _ blocks, congrArg _ bytes, congrArg _ share, id, regular, id⟩

theorem step_moves {stage : Stage} (choice : Choice) (regular : stage.Regular pool.blockLimit)
    (blocks : stage.blocks ≤ pool.reserved) (bytes : stage.bytes ≤ pool.countedBytes)
    (share : stage.share ≤ pool.pipelineBytes) :
    Moves pool stage (stage.step pool choice).1 (stage.step pool choice).2 := by
  have refusal (why : AdmissionFailure) (job : Job) (amount : Nat) :
      (fail amount (.refused why job)).Regular pool.blockLimit :=
    Regular.fail (show Regular _ (.refused why job) from trivial) amount
  have taken {held amount next : Nat} (enough : amount ≤ held) :
      held - amount + (next + amount) = held + next := by omega
  cases stage with
  | enter job =>
    dsimp only [step]
    split
    · exact .still rfl rfl rfl trivial
    · split
      · exact .still rfl rfl rfl regular
      · exact .still rfl rfl rfl fun decodes => ⟨regular decodes, rfl⟩
  | gate job =>
    dsimp only [step]
    split
    · exact .still rfl rfl rfl trivial
    · exact .still rfl rfl rfl regular
  | charge job =>
    dsimp only [step]
    split
    next charged found =>
      have sum := add_eq_some (Option.filter_eq_some_iff.mp found).1
      exact ⟨⟨rfl, rfl⟩, rfl, rfl, sum, id, fun decodes => ⟨regular decodes, regular decodes⟩, id⟩
    · exact .still rfl rfl rfl trivial
  | load job amount => exact .still rfl rfl rfl regular
  | check job amount used =>
    have failed (why : AdmissionFailure) :
        Moves pool (.check job amount used) pool (fail amount (.refused why job)) := by
      refine .still ?_ ?_ ?_ (refusal why job amount) <;>
        simp [Stage.blocks, Stage.bytes, Stage.share]
    dsimp only [step]
    split
    · exact failed .closed
    · split
      · exact failed .capacity
      · exact .still rfl rfl rfl ⟨by omega, regular⟩
  | exchange job amount used =>
    dsimp only [step]
    split
    next exchanged =>
      exact ⟨⟨rfl, rfl⟩, congrArg (· + 1) exchanged.2.symm, rfl, rfl, fun _ => regular.1,
        regular.2, id⟩
    · exact .still rfl rfl rfl regular.2
  | count job amount =>
    dsimp only [step]
    split
    next sum added =>
      exact ⟨⟨rfl, rfl⟩, rfl, add_eq_some added, rfl, id, regular, id⟩
    refine .still ?_ ?_ ?_ ⟨nofun, refusal .closed job amount⟩ <;>
      simp [Stage.blocks, Stage.bytes, Stage.share]
  | confirm job amount =>
    dsimp only [step]
    split
    · refine .still ?_ ?_ ?_ (refusal .closed job amount) <;>
        simp [Stage.blocks, Stage.bytes, Stage.share]
    · split
      next decodes =>
        exact .still rfl (regular decodes).1 (regular decodes).2 trivial
      · exact .still rfl rfl rfl trivial
  | decoding =>
    dsimp only [step]
    split <;> exact .still rfl rfl rfl trivial
  | measured size =>
    dsimp only [step]
    split
    next sum added =>
      exact ⟨⟨rfl, rfl⟩, rfl, add_eq_some added, rfl, id, trivial, id⟩
    · exact .still rfl rfl rfl ⟨nofun, trivial⟩
  | decoded size =>
    dsimp only [step]
    split
    · exact .still rfl (Nat.zero_add size).symm rfl trivial
    · exact .still rfl rfl rfl trivial
  | unpipe amount next =>
    have enough : amount ≤ pool.pipelineBytes := (Nat.le_add_left _ _).trans share
    dsimp only [step]
    rw [sub_of_le enough]
    exact ⟨⟨rfl, rfl⟩, rfl, rfl, taken enough, id, regular, id⟩
  | uncountBytes size next =>
    have enough : size ≤ pool.countedBytes := (Nat.le_add_left _ _).trans bytes
    dsimp only [step]
    rw [sub_of_le enough]
    exact ⟨⟨rfl, rfl⟩, rfl, taken enough, rfl, id, regular, id⟩
  | uncountBlock next =>
    have enough : 1 ≤ pool.reserved := (Nat.le_add_left _ _).trans blocks
    dsimp only [step]
    rw [sub_of_le enough]
    exact ⟨⟨rfl, rfl⟩, taken enough, rfl, rfl, (Nat.sub_le _ _).trans, regular, id⟩
  | undo next =>
    have enough : 1 ≤ pool.reserved := (Nat.le_add_left _ _).trans blocks
    dsimp only [step]
    rw [sub_of_le enough, Option.getD_some]
    exact ⟨⟨rfl, rfl⟩, taken enough, rfl, rfl, (Nat.sub_le _ _).trans, regular, id⟩
  | closing cause next =>
    exact ⟨⟨rfl, rfl⟩, rfl, rfl, rfl, id, regular.2, closed_close regular.1⟩
  | bump next =>
    dsimp only [step]
    split
    · exact ⟨⟨rfl, rfl⟩, rfl, rfl, rfl, id, regular, id⟩
    · exact ⟨⟨rfl, rfl⟩, rfl, rfl, rfl, id, regular, closed_close nofun⟩
  | wake next => exact .still rfl rfl rfl regular
  | refused why job => cases why <;> exact .still rfl rfl rfl trivial
  | registered job =>
    dsimp only [step]
    split <;> exact .still rfl rfl rfl trivial
  | live | waiting | awake | done => exact .still rfl rfl rfl trivial

end Stage

namespace State

def held (measure : Stage → Nat) (threads : List Stage) : Nat := (threads.map measure).sum

theorem held_append (measure : Stage → Nat) (threads : List Stage) (stage : Stage) :
    held measure (threads ++ [stage]) = held measure threads + measure stage := by
  simp [held]

variable {thread : Nat} {stage : Stage} {state : State} {threads : List Stage}

theorem held_set (measure : Stage → Nat) (found : threads[thread]? = some stage) (next : Stage) :
    held measure (threads.set thread next) + measure stage = held measure threads + measure next := by
  induction threads generalizing thread with
  | nil => simp at found
  | cons first rest ih =>
    cases thread with
    | zero =>
      obtain rfl := Option.some.inj found
      simp only [held, set_cons_zero, map_cons, sum_cons]
      omega
    | succ thread =>
      have later : held measure (rest.set thread next) + measure stage =
        held measure rest + measure next := ih found
      simp only [held, set_cons_succ, map_cons, sum_cons] at later ⊢
      omega

theorem le_held (measure : Stage → Nat) (member : stage ∈ threads) :
    measure stage ≤ held measure threads :=
  single_le_sum (fun _ _ => Nat.zero_le _) _ (mem_map.mpr ⟨stage, member, rfl⟩)

theorem held_woken (measure : Stage → Nat) (same : ∀ stage, measure stage.woken = measure stage)
    (threads : List Stage) : held measure (threads.map woken) = held measure threads := by
  unfold held
  rw [map_map]
  exact congrArg sum (map_congr_left fun stage _ => same stage)

structure Accounted (state : State) : Prop where
  blocks : state.pool.reserved = held blocks state.threads
  bytes : state.pool.countedBytes = held bytes state.threads
  share : state.pool.pipelineBytes = held share state.threads
  within : state.pool.reserved ≤ state.pool.blockLimit
  regular : ∀ stage ∈ state.threads, stage.Regular state.pool.blockLimit
  cause : state.pool.closed ≠ some .underflow

/-- One caller takes a step while the others wake up or keep their stages. -/
theorem Accounted.moved {after : Pool} {next : Stage} (accounted : state.Accounted)
    (moves : Stage.Moves state.pool stage after next) (found : threads[thread]? = some stage)
    (same : ∀ measure ∈ [Stage.blocks, Stage.bytes, Stage.share],
      held measure threads = held measure state.threads)
    (regular : ∀ other ∈ threads, other.Regular state.pool.blockLimit) :
    Accounted ⟨after, threads.set thread next⟩ := by
  have blocksAfter := held_set Stage.blocks found next
  have bytesAfter := held_set Stage.bytes found next
  have shareAfter := held_set Stage.share found next
  rw [same _ (by simp)] at blocksAfter bytesAfter shareAfter
  obtain ⟨blocks, bytes, share, within, _, cause⟩ := accounted
  obtain ⟨limits, blocksMoved, bytesMoved, shareMoved, stays, nextRegular, causeMoved⟩ := moves
  refine ⟨?_, ?_, ?_, limits.1 ▸ stays within, ?_, mt causeMoved cause⟩
  · dsimp only
    omega
  · dsimp only
    omega
  · dsimp only
    omega
  intro other isThread
  rw [limits.1]
  rcases mem_or_eq_of_mem_set isThread with old | rfl
  · exact regular other old
  · exact nextRegular

section

variable (accounted : state.Accounted) (found : state.threads[thread]? = some stage)
  (choice : Choice)
include accounted found choice

theorem Accounted.moves : Stage.Moves state.pool stage (stage.step state.pool choice).1
      (stage.step state.pool choice).2 :=
  have member := mem_of_getElem? found
  Stage.step_moves choice (accounted.regular stage member)
    (accounted.blocks ▸ le_held Stage.blocks member)
    (accounted.bytes ▸ le_held Stage.bytes member) (accounted.share ▸ le_held Stage.share member)

theorem Accounted.advance : (state.advance thread choice stage).Accounted := by
  have moves := accounted.moves found choice
  unfold State.advance
  split
  · refine accounted.moved moves ?_ (fun measure listed => held_woken measure ?_ _) ?_
    · rw [getElem?_map, found]
      rfl
    · simp only [mem_cons, not_mem_nil, or_false] at listed
      rcases listed with rfl | rfl | rfl <;> rintro (_ | _) <;> rfl
    · intro other isWoken
      obtain ⟨sleeping, isThread, rfl⟩ := mem_map.mp isWoken
      have before := accounted.regular sleeping isThread
      cases sleeping <;> exact before
  · exact accounted.moved moves found (fun _ _ => rfl) accounted.regular

end

/-- A new caller that holds nothing. -/
theorem Accounted.append (accounted : state.Accounted)
    (empty : stage.blocks = 0 ∧ stage.bytes = 0 ∧ stage.share = 0)
    (regular : stage.Regular state.pool.blockLimit) :
    Accounted { state with threads := state.threads ++ [stage] } where
  blocks := by rw [held_append, empty.1]; exact accounted.blocks
  bytes := by rw [held_append, empty.2.1]; exact accounted.bytes
  share := by rw [held_append, empty.2.2]; exact accounted.share
  within := accounted.within
  regular := by
    intro other member
    rcases mem_append.mp member with old | new
    · exact accounted.regular other old
    · rw [mem_singleton.mp new]
      exact regular
  cause := accounted.cause

section

variable {bytes share : Nat} (accounted : state.Accounted)
  (found : state.threads[thread]? = some (.live bytes share))
include accounted found

theorem Accounted.leavePipeline : Accounted { state with
      threads := state.threads.set thread (.live bytes 0) ++ [.leavePipeline share] } := by
  have split : (Stage.leavePipeline share).blocks = 0 ∧ (Stage.leavePipeline share).bytes = 0 ∧
      (Stage.leavePipeline share).share = share ∧
      (Stage.leavePipeline share).Regular state.pool.blockLimit := by
    unfold Stage.leavePipeline
    split
    · exact ⟨rfl, rfl, Nat.zero_add share, trivial⟩
    · exact ⟨rfl, rfl, by simp only [Stage.share]; omega, trivial⟩
  have blocks := held_set Stage.blocks found (.live bytes 0)
  have held := held_set Stage.bytes found (.live bytes 0)
  have shares := held_set Stage.share found (.live bytes 0)
  have before := accounted.blocks
  have bytesBefore := accounted.bytes
  have shareBefore := accounted.share
  simp only [Stage.blocks, Stage.bytes, Stage.share] at blocks held shares
  refine ⟨?_, ?_, ?_, accounted.within, ?_, accounted.cause⟩
  · dsimp only
    rw [held_append, split.1]
    omega
  · dsimp only
    rw [held_append, split.2.1]
    omega
  · dsimp only
    rw [held_append, split.2.2.1]
    omega
  intro other member
  rcases mem_append.mp member with old | new
  · rcases mem_or_eq_of_mem_set old with kept | rfl
    · exact accounted.regular other kept
    · exact trivial
  · rw [mem_singleton.mp new]
    exact split.2.2.2

theorem Accounted.drop :
    Accounted { state with threads := state.threads.set thread (.dropCharge bytes share) } := by
  refine accounted.moved ?_ found (fun _ _ => rfl) accounted.regular
  unfold Stage.dropCharge
  split
  · exact .still rfl (Nat.zero_add bytes).symm (Nat.zero_add share).symm trivial
  · exact .still rfl (Nat.zero_add bytes).symm (by simp only [Stage.share]; omega) trivial

end

/-- A call starts by reading the version, and a decode refuses or holds no bytes yet. -/
theorem firstStage_cases (pool : Pool) (bytes : Nat) (admission : Admission) (decodes : Bool) :
    (∃ job, firstStage pool bytes admission decodes = .refused .decodeRequiresCountLimit job) ∨
      ∃ job, firstStage pool bytes admission decodes = .enter job ∧
        (job.decodes = true → job.bytes = 0) ∧ job.seen = pool.capacityVersion := by
  cases decodes with
  | false => exact .inr ⟨_, rfl, nofun, rfl⟩
  | true =>
    cases limit : pool.pipelineLimit with
    | none => exact .inr ⟨⟨0, .withinLimit, true, pool.capacityVersion⟩,
        by simp [firstStage, limit], fun _ => rfl, rfl⟩
    | some bound => exact .inl ⟨⟨0, .withinLimit, true, pool.capacityVersion⟩,
        by simp [firstStage, limit]⟩

theorem Accounted.apply (accounted : state.Accounted) (operation : Operation) :
    (state.apply operation).Accounted := by
  cases operation with
  | begin bytes admission decodes =>
    dsimp only [State.apply]
    rcases firstStage_cases state.pool bytes admission decodes with
      ⟨job, first⟩ | ⟨job, first, empty, _⟩
    · rw [first]
      exact accounted.append ⟨rfl, rfl, rfl⟩ trivial
    · rw [first]
      exact accounted.append ⟨rfl, rfl, rfl⟩ empty
  | advance thread choice =>
    dsimp only [State.apply]
    split
    · exact accounted
    next stage found =>
      exact accounted.advance found choice
  | leavePipeline thread =>
    dsimp only [State.apply]
    split
    next bytes share found =>
      exact accounted.leavePipeline found
    · exact accounted
  | drop thread =>
    dsimp only [State.apply]
    split
    next bytes share found =>
      exact accounted.drop found
    · exact accounted
  | close => exact accounted.append ⟨rfl, rfl, rfl⟩ ⟨nofun, trivial⟩

end State

end Zakura.BlockMemory
