import Zakura.Lib.Checked
import Zakura.Lib.FiniteMap

/-!
One session's fence over its request writers, and the table of each peer's current
session. Every operation runs under the fence's lock, so an operation is one step.
-/

namespace Zakura.Regulation

inductive Phase
  | opened
  | queued
  | started
  | ended
  | abandoned
  | dropped
deriving DecidableEq

/-- A connection's cancellation token and the first cause recorded for closing it. -/
structure Connection where
  cancelled : Bool
  closeCause : Option String
deriving DecidableEq

namespace Connection

def new : Connection := ⟨false, none⟩

def close (reason : String) (connection : Connection) : Connection :=
  ⟨true, some (connection.closeCause.getD reason)⟩

end Connection

def unfinishedExchange : String := "unfinished_exchange"

inductive FencePanic
  | startedUnderflow
  | startedOverflow
  | followingOverflow
deriving DecidableEq

structure FenceState where
  retired : Bool
  started : Nat
  following : Nat
deriving DecidableEq

/-- A fence and the phases of its exchanges, in the order they were opened. -/
structure WriterFence where
  state : FenceState
  exchanges : List Phase
deriving DecidableEq

namespace WriterFence

def new : WriterFence := ⟨⟨false, 0, 0⟩, []⟩

def admits (connection : Connection) (fence : WriterFence) : Bool :=
  !fence.state.retired && !connection.cancelled

def openExchange (connection : Connection) (fence : WriterFence) : Option Nat × WriterFence :=
  if fence.admits connection then
    (some fence.exchanges.length, { fence with exchanges := fence.exchanges ++ [.opened] })
  else (none, fence)

/-- Fence every unstarted write. Returns whether the connection can host a replacement. -/
def retire (connection : Connection) (fence : WriterFence) : Bool × WriterFence × Connection :=
  let retired := { fence with state := { fence.state with retired := true } }
  let closed :=
    if fence.state.started ≠ 0 ∨ fence.state.following ≠ 0 then connection.close unfinishedExchange
    else connection
  (!closed.cancelled, retired, closed)

def setPhase (id : Nat) (phase : Phase) (fence : WriterFence) : WriterFence :=
  { fence with exchanges := fence.exchanges.set id phase }

def finishStarted (fence : WriterFence) : Except FencePanic WriterFence :=
  match Checked.sub fence.state.started 1 with
  | some started => .ok { fence with state := { fence.state with started := started } }
  | none => .error .startedUnderflow

def endExchange (id : Nat) (fence : WriterFence) : Except FencePanic WriterFence :=
  match fence.exchanges[id]? with
  | some .started => do
      let finished ← fence.finishStarted
      return finished.setPhase id .ended
  | some .opened | some .queued => .ok (fence.setPhase id .abandoned)
  | some .ended | some .abandoned | some .dropped | none => .ok fence

def publish (id : Nat) (connection : Connection) (fence : WriterFence) : Bool × WriterFence :=
  if fence.admits connection ∧ fence.exchanges[id]? = some .opened then
    (true, fence.setPhase id .queued)
  else (false, fence)

/-- Claim a request's first byte, with the result of the caller's own work claim. -/
def tryStart (id : Nat) (claim : Bool) (connection : Connection) (fence : WriterFence) :
    Except FencePanic (Bool × WriterFence) :=
  if fence.admits connection ∧ fence.exchanges[id]? = some .queued ∧ claim = true then
    match Checked.add fence.state.started 1 with
    | some started =>
      .ok (true, { fence with state := { fence.state with started := started } }.setPhase id .started)
    | none => .error .startedOverflow
  else .ok (false, fence)

def tryFollow (id : Nat) (connection : Connection) (fence : WriterFence) :
    Except FencePanic (Bool × WriterFence) :=
  if fence.admits connection ∧
      (fence.exchanges[id]? = some .started ∨ fence.exchanges[id]? = some .ended) then
    match Checked.add fence.state.following 1 with
    | some following =>
      .ok (true, { fence with state := { fence.state with following := following } })
    | none => .error .followingOverflow
  else .ok (false, fence)

def followWritten (fence : WriterFence) : WriterFence :=
  { fence with state := { fence.state with following := fence.state.following - 1 } }

/-- Drop an exchange's owner. A started exchange closes the connection. -/
def drop (id : Nat) (connection : Connection) (fence : WriterFence) :
    Except FencePanic (WriterFence × Connection) :=
  match fence.exchanges[id]? with
  | some .started => do
      let finished ← fence.finishStarted
      return (finished.setPhase id .dropped, connection.close unfinishedExchange)
  | some _ => .ok (fence.setPhase id .dropped, connection)
  | none => .ok (fence, connection)

inductive Event
  | openExchange
  | publish (id : Nat)
  | tryStart (id : Nat) (claim : Bool)
  | tryFollow (id : Nat)
  | followWritten
  | endExchange (id : Nat)
  | drop (id : Nat)
  | retire
deriving DecidableEq

/-- The result of an event, with what it leaves of the fence and its connection. -/
def Event.apply (event : Event) (connection : Connection) (fence : WriterFence) :
    Except FencePanic (Bool × WriterFence × Connection) :=
  match event with
  | .openExchange =>
    let (id, next) := fence.openExchange connection
    .ok (id.isSome, next, connection)
  | .publish id =>
    let (published, next) := fence.publish id connection
    .ok (published, next, connection)
  | .tryStart id claim => do
      let (started, next) ← fence.tryStart id claim connection
      return (started, next, connection)
  | .tryFollow id => do
      let (follows, next) ← fence.tryFollow id connection
      return (follows, next, connection)
  | .followWritten => .ok (true, fence.followWritten, connection)
  | .endExchange id => do
      let next ← fence.endExchange id
      return (true, next, connection)
  | .drop id => do
      let (next, closed) ← fence.drop id connection
      return (true, next, closed)
  | .retire =>
    let (reusable, next, closed) := fence.retire connection
    .ok (reusable, next, closed)

end WriterFence

structure SessionKey where
  connId : Nat
  sessionId : Nat
deriving DecidableEq

/-- A session: its key, whether its cancellation token was cancelled, and its fence. -/
structure Current where
  key : SessionKey
  cancelled : Bool
  fence : WriterFence
deriving DecidableEq

/-- All sessions that were created, and the current one of each peer. -/
structure SessionTable where
  connections : FiniteMap Nat Connection
  sessions : List Current
  current : FiniteMap Nat Nat

inductive Replacement
  | inserted
  | replaced (old : Nat)
  | refused
deriving DecidableEq

namespace SessionTable

def empty : SessionTable := ⟨∅, [], ∅⟩

def connection (conn : Nat) (table : SessionTable) : Connection :=
  (table.connections.lookup conn).getD .new

def setConnection (conn : Nat) (connection : Connection) (table : SessionTable) : SessionTable :=
  { table with connections := table.connections.insert conn connection }

def setSession (index : Nat) (session : Current) (table : SessionTable) : SessionTable :=
  { table with sessions := table.sessions.set index session }

def cancelSession (index : Nat) (table : SessionTable) : SessionTable :=
  match table.sessions[index]? with
  | some session => table.setSession index { session with cancelled := true }
  | none => table

def retireSession (index : Nat) (session : Current) (table : SessionTable) : Bool × SessionTable :=
  let (reusable, fence, closed) := session.fence.retire (table.connection session.key.connId)
  (reusable, (table.setSession index { session with fence := fence }).setConnection
    session.key.connId closed)

def install (peer index : Nat) (table : SessionTable) : SessionTable :=
  { table with current := table.current.insert peer index }

/-- Make a session the peer's current one, unless the old one closed their connection. -/
def replace (peer index : Nat) (session : Current) (table : SessionTable) :
    Replacement × SessionTable :=
  match table.current.lookup peer with
  | none => (.inserted, table.install peer index)
  | some old =>
    match table.sessions[old]? with
    | none => (.inserted, table.install peer index)
    | some oldSession =>
      let (reusable, retired) := table.retireSession old oldSession
      if reusable = false ∧ oldSession.key.connId = session.key.connId then
        (.refused, retired.cancelSession index)
      else (.replaced old, (retired.cancelSession old).install peer index)

def remove (peer : Nat) (key : SessionKey) (table : SessionTable) : Option Nat × SessionTable :=
  match table.current.lookup peer with
  | none => (none, table)
  | some index =>
    match table.sessions[index]? with
    | none => (none, table)
    | some session =>
      if session.key ≠ key then (none, table)
      else
        let (_, retired) := table.retireSession index session
        let cancelled := retired.cancelSession index
        (some index, { cancelled with current := cancelled.current.erase peer })

inductive Step
  | create (key : SessionKey)
  | fence (index : Nat) (event : WriterFence.Event)
  | replace (peer index : Nat)
  | remove (peer : Nat) (key : SessionKey)
  | close (conn : Nat) (reason : String)
deriving DecidableEq

inductive Outcome
  | done
  | fence (succeeded : Bool)
  | replacement (outcome : Replacement)
  | removed (old : Option Nat)
deriving DecidableEq

/-- One step of the sessions' holders, the table's users or the rest of the connection. -/
def apply (step : Step) (table : SessionTable) : Except FencePanic (Outcome × SessionTable) :=
  match step with
  | .create key => .ok (.done, { table with sessions := table.sessions ++ [⟨key, false, .new⟩] })
  | .fence index event =>
    match table.sessions[index]? with
    | none => .ok (.done, table)
    | some session => do
        let (succeeded, fence, closed) ←
          event.apply (table.connection session.key.connId) session.fence
        return (.fence succeeded, (table.setSession index { session with fence := fence }).setConnection
          session.key.connId closed)
  | .replace peer index =>
    match table.sessions[index]? with
    | none => .ok (.done, table)
    | some session =>
      let (outcome, next) := table.replace peer index session
      .ok (.replacement outcome, next)
  | .remove peer key =>
    let (old, next) := table.remove peer key
    .ok (.removed old, next)
  | .close conn reason =>
    .ok (.done, table.setConnection conn ((table.connection conn).close reason))

end SessionTable

end Zakura.Regulation
