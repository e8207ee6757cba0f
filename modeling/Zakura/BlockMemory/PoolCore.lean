import Zakura.Lib.Checked

/-!
A pool for decoded blocks, shared by concurrent callers. A caller is a stage of its
call, and one step of a stage is one atomic access to the pool.
-/

namespace Zakura.BlockMemory

open Checked

inductive Admission
  | withinLimit
  | pipelineExempt
  deriving DecidableEq

inductive AdmissionFailure
  | capacity
  | closed
  | decodeRequiresCountLimit
  deriving DecidableEq

inductive CloseCause
  | requested
  | overflow
  | underflow
  deriving DecidableEq

structure Pool where
  blockLimit : Nat
  pipelineLimit : Option Nat
  reserved : Nat
  countedBytes : Nat
  pipelineBytes : Nat
  capacityVersion : Nat
  closed : Option CloseCause
  deriving DecidableEq

/-- One attempt, with the capacity version that its caller read before it. -/
structure Job where
  bytes : Nat
  admission : Admission
  decodes : Bool
  seen : Nat
  deriving DecidableEq

namespace Pool

def withLimit (blockLimit : Nat) (pipelineLimit : Option Nat) : Pool :=
  ⟨blockLimit, pipelineLimit, 0, 0, 0, 0, none⟩

def isClosed (pool : Pool) : Bool := pool.closed.isSome

def close (pool : Pool) (cause : CloseCause) : Pool :=
  { pool with closed := some (pool.closed.getD cause) }

def chargePipeline (pool : Pool) (job : Job) : Option Nat :=
  (add pool.pipelineBytes job.bytes).filter fun next =>
    decide (pool.pipelineLimit.all (next ≤ ·)) || decide (job.admission = .pipelineExempt)

end Pool

inductive Stage
  | enter (job : Job)
  | gate (job : Job)
  | charge (job : Job)
  | load (job : Job) (share : Nat)
  | check (job : Job) (share used : Nat)
  | exchange (job : Job) (share used : Nat)
  | count (job : Job) (share : Nat)
  | confirm (job : Job) (share : Nat)
  | decoding
  | measured (bytes : Nat)
  | decoded (bytes : Nat)
  | live (bytes share : Nat)
  | unpipe (share : Nat) (next : Stage)
  | uncountBytes (bytes : Nat) (next : Stage)
  | uncountBlock (next : Stage)
  | undo (next : Stage)
  | closing (cause : CloseCause) (next : Stage)
  | bump (next : Stage)
  | wake (next : Stage)
  | refused (why : AdmissionFailure) (job : Job)
  | registered (job : Job)
  | waiting (job : Job)
  | awake
  | done
  deriving DecidableEq

/-- What a step leaves open: a spurious failure of an exchange, and a decoder's result. -/
structure Choice where
  spurious : Bool
  decoded : Option Nat

namespace Stage

def fail (share : Nat) (outcome : Stage) : Stage :=
  if 0 < share then .unpipe share (.bump outcome) else outcome

def dropCharge (bytes share : Nat) : Stage :=
  if 0 < share then .unpipe share (.uncountBytes bytes .done) else .uncountBytes bytes .done

def leavePipeline (share : Nat) : Stage :=
  if 0 < share then .unpipe share (.bump .done) else .done

def woken : Stage → Stage
  | .registered _ | .waiting _ => .awake
  | stage => stage

def step (pool : Pool) (choice : Choice) : Stage → Pool × Stage
  | .enter job =>
    (pool, if pool.isClosed then .refused .closed job
      else if pool.pipelineLimit.isSome then .gate job else .load job 0)
  | .gate job =>
    (pool, if pool.blockLimit ≤ pool.reserved then .refused .capacity job else .charge job)
  | .charge job =>
    match pool.chargePipeline job with
    | some next => ({ pool with pipelineBytes := next }, .load job job.bytes)
    | none => (pool, .refused .capacity job)
  | .load job share => (pool, .check job share pool.reserved)
  | .check job share used =>
    (pool, if pool.isClosed then fail share (.refused .closed job)
      else if pool.blockLimit < used + 1 then fail share (.refused .capacity job)
      else .exchange job share used)
  | .exchange job share used =>
    if choice.spurious = false ∧ pool.reserved = used then
      ({ pool with reserved := used + 1 }, .count job share)
    else (pool, .check job share pool.reserved)
  | .count job share =>
    match add pool.countedBytes job.bytes with
    | some next => ({ pool with countedBytes := next }, .confirm job share)
    | none => (pool, .closing .overflow (.undo (fail share (.refused .closed job))))
  | .confirm job share =>
    (pool, if pool.isClosed then .uncountBytes job.bytes (fail share (.refused .closed job))
      else if job.decodes then .decoding else .live job.bytes share)
  | .decoding =>
    (pool, match choice.decoded with
      | none => .uncountBytes 0 .done
      | some bytes => .measured bytes)
  | .measured bytes =>
    match add pool.countedBytes bytes with
    | some next => ({ pool with countedBytes := next }, .decoded bytes)
    | none => (pool, .closing .overflow (.uncountBytes 0 .done))
  | .decoded bytes => (pool, if pool.isClosed then .uncountBytes bytes .done else .live bytes 0)
  | .unpipe share next =>
    match sub pool.pipelineBytes share with
    | some left => ({ pool with pipelineBytes := left }, next)
    | none => (pool, .closing .underflow next)
  | .uncountBytes bytes next =>
    match sub pool.countedBytes bytes with
    | some left => ({ pool with countedBytes := left }, .uncountBlock next)
    | none => (pool, .closing .underflow next)
  | .uncountBlock next =>
    match sub pool.reserved 1 with
    | some left => ({ pool with reserved := left }, .bump next)
    | none => (pool, .closing .underflow next)
  | .undo next => ({ pool with reserved := (sub pool.reserved 1).getD pool.reserved }, next)
  | .closing cause next => (pool.close cause, .bump next)
  | .bump next =>
    match add pool.capacityVersion 1 with
    | some version => ({ pool with capacityVersion := version }, .wake next)
    | none => (pool.close .overflow, .wake next)
  | .wake next => (pool, next)
  | .refused .capacity job => (pool, .registered job)
  | .registered job =>
    (pool, if pool.capacityVersion = job.seen then .waiting job else .done)
  | stage => (pool, stage)

end Stage

/-- A pool and the calls on it. A live charge is a call that has not dropped its block. -/
structure State where
  pool : Pool
  threads : List Stage

inductive Operation
  | begin (bytes : Nat) (admission : Admission) (decodes : Bool)
  | advance (thread : Nat) (choice : Choice)
  | leavePipeline (thread : Nat)
  | drop (thread : Nat)
  | close

namespace State

def new (blockLimit : Nat) (pipelineLimit : Option Nat) : State :=
  ⟨.withLimit blockLimit pipelineLimit, []⟩

def firstStage (pool : Pool) (bytes : Nat) (admission : Admission) (decodes : Bool) : Stage :=
  let seen := pool.capacityVersion
  if decodes then
    if pool.pipelineLimit.isSome then
      .refused .decodeRequiresCountLimit ⟨0, .withinLimit, true, seen⟩
    else .enter ⟨0, .withinLimit, true, seen⟩
  else .enter ⟨bytes, admission, false, seen⟩

def advance (state : State) (thread : Nat) (choice : Choice) (stage : Stage) : State :=
  let stepped := stage.step state.pool choice
  let threads :=
    match stage with
    | .wake _ => state.threads.map Stage.woken
    | _ => state.threads
  ⟨stepped.1, threads.set thread stepped.2⟩

def apply (state : State) : Operation → State
  | .begin bytes admission decodes =>
    { state with
      threads := state.threads ++ [firstStage state.pool bytes admission decodes] }
  | .advance thread choice =>
    match state.threads[thread]? with
    | none => state
    | some stage => state.advance thread choice stage
  | .leavePipeline thread =>
    match state.threads[thread]? with
    | some (.live bytes share) =>
      { state with
        threads := state.threads.set thread (.live bytes 0) ++ [.leavePipeline share] }
    | _ => state
  | .drop thread =>
    match state.threads[thread]? with
    | some (.live bytes share) =>
      { state with threads := state.threads.set thread (.dropCharge bytes share) }
    | _ => state
  | .close => { state with threads := state.threads ++ [.closing .requested .done] }

end State

end Zakura.BlockMemory
