import Deno.Core.Machine
import Deno.Core.StableSort
import Deno.Error
import Mathlib.Order.Lattice
import Mathlib.Algebra.Ring.Nat

/-!
# Local crons

A `LocalCronHandler` keeps its crons and their deadlines by name. The handle of a cron asks for its
next deadline over one channel, and is told over another one that it has passed. A step of the model
is what runs between two awaits of the loop, of a call of `next`, or of the program. The handler is
there for the whole run, and its loop may wake before a deadline has passed.
-/

namespace Deno.Cron

open Core

variable {Name Schedule : Type} [DecidableEq Name]

/-! ### Deadlines -/

def maxCrons : ℕ := 100

def dispatchConcurrencyLimit : ℕ := 50

def maxBackoffMs : ℕ := 60 * 60 * 1000

def maxBackoffCount : ℕ := 5

def defaultBackoffSchedule : List ℕ := [100, 1000, 5000, 30000, 60000]

/-- The `saffron` crate, and the offset of the test schedule if the environment has one. -/
structure Saffron (Schedule : Type) where
  parses : Schedule → Bool
  nextAfter : Schedule → ℕ → Option ℕ
  testOffset : Option ℕ

structure CronSpec (Name Schedule : Type) where
  name : Name
  cronSchedule : Schedule
  backoffSchedule : Option (List ℕ)
  deriving DecidableEq

def computeNextDeadline (saffron : Saffron Schedule) (cronSchedule : Schedule) (now : ℕ) :
    Option ℕ :=
  match saffron.testOffset with
  | some offset => some (now + offset)
  | none =>
    if saffron.parses cronSchedule then saffron.nextAfter cronSchedule now else none

def validateBackoffSchedule (backoffSchedule : List ℕ) : Except AnyError Unit :=
  if maxBackoffCount < backoffSchedule.length then .error (typeError "Invalid backoff schedule")
  else if backoffSchedule.any (maxBackoffMs < ·) then
    .error (typeError "Invalid backoff schedule")
  else .ok ()

/-! ### The state -/

/-- A registration: a successful `create`, by its number. -/
abbrev Reg := ℕ

/-- A deadline, with the registration it was computed for and the call of `next` that was the last
one of that registration then. -/
structure Deadline where
  time : ℕ
  owner : Reg
  after : Option ℕ
  deriving DecidableEq

inductive Receiver where
  | kept
  | taken
  | dropped
  deriving DecidableEq

/-- A `CronExecutionHandle` with its channel, and the `Cron` that was made with it. -/
structure Handle (Name Schedule : Type) where
  spec : CronSpec Name Schedule
  currentExecutionRetries : ℕ
  /-- `shutdown_tx` was dropped. -/
  closed : Bool
  nextRx : Receiver
  /-- What is in the channel, which has room for one, with the deadline it was sent for. -/
  signal : Option Deadline
  permit : Bool
  deriving DecidableEq

def Handle.new (spec : CronSpec Name Schedule) : Handle Name Schedule where
  spec := spec
  currentExecutionRetries := 0
  closed := false
  nextRx := .kept
  signal := none
  permit := false

/-- What a call of `next` waits for. -/
inductive Stage where
  | sending (prevSuccess : Bool)
  | waiting
  | acquiring (deadline : Deadline)
  deriving DecidableEq

structure Call where
  id : ℕ
  reg : Reg
  stage : Stage
  deriving DecidableEq

/-- A message to the loop, with the registration that sent it. -/
structure Message (Name : Type) where
  name : Name
  prevSuccess : Bool
  sender : Reg
  deriving DecidableEq

/-- What the loop does: it waits, goes through the crons to execute, waits to send to one of them
with its sender upgraded, or has failed. -/
inductive Loop where
  | select
  | dispatching (ready : List (Reg × Deadline))
  | sending (reg : Reg) (deadline : Deadline) (ready : List (Reg × Deadline))
  | failed
  deriving DecidableEq

structure State (Name Schedule : Type) where
  now : ℕ
  crons : List (Name × Reg)
  scheduledDeadlines : List (Name × Deadline)
  /-- What is in the channel to the loop, which has room for one. -/
  cronSchedule : Option (Message Name)
  loop : Loop
  count : ℕ
  handles : Reg → Option (Handle Name Schedule)
  calls : List Call
  callCount : ℕ
  lastCall : Reg → Option ℕ

def init (now : ℕ) : State Name Schedule where
  now := now
  crons := []
  scheduledDeadlines := []
  cronSchedule := none
  loop := .select
  count := 0
  handles _ := none
  calls := []
  callCount := 0
  lastCall _ := none

namespace State

variable (saffron : Saffron Schedule) (s : State Name Schedule)

def setHandle (reg : Reg) (handle : Handle Name Schedule) : State Name Schedule :=
  { s with handles := Function.update s.handles reg (some handle) }

variable (spec : CronSpec Name Schedule)

def insertCron : State Name Schedule :=
  { s.setHandle s.count (.new spec) with
    crons := (spec.name, s.count) :: s.crons
    count := s.count + 1 }

def removeCron (name : Name) : State Name Schedule :=
  { s with crons := s.crons.filter fun entry => entry.1 ≠ name }

/-! ### The program -/

def create : Except AnyError (State Name Schedule) :=
  if maxCrons < s.crons.length then .error (typeError "Too many crons")
  else if (s.crons.lookup spec.name).isSome then
    .error (typeError "Cron with this name already exists")
  else if !saffron.parses spec.cronSchedule then .error (typeError "Invalid cron schedule")
  else do
    spec.backoffSchedule.elim (.ok ()) validateBackoffSchedule
    return s.insertCron spec

/-- A call of `next` gives the permit back and goes to send its message. -/
def startNext (reg : Reg) (prevSuccess : Bool) : State Name Schedule :=
  match s.handles reg with
  | none => s
  | some handle =>
    { s.setHandle reg { handle with permit := false } with
      calls := ⟨s.callCount, reg, .sending prevSuccess⟩ :: s.calls
      callCount := s.callCount + 1
      lastCall := Function.update s.lastCall reg (some s.callCount) }

def close (reg : Reg) : State Name Schedule :=
  match s.handles reg with
  | none => s
  | some handle => (s.setHandle reg { handle with closed := true }).removeCron handle.spec.name

/-! ### The calls of `next` -/

variable (call : Call)

def endCall : State Name Schedule :=
  { s with calls := s.calls.filter fun other => other ≠ call }

def moveCall (stage : Stage) : State Name Schedule :=
  { s with calls := { call with stage := stage } :: (s.endCall call).calls }

/-- The message is sent when the channel has room, and the receiver is taken. -/
def callSend : State Name Schedule :=
  match s.handles call.reg, call.stage with
  | some handle, .sending prevSuccess =>
    match s.loop with
    | .failed => s.endCall call
    | _ =>
      if s.cronSchedule.isNone then
        let sent := { s with cronSchedule := some ⟨handle.spec.name, prevSuccess, call.reg⟩ }
        match handle.nextRx with
        | .kept => (sent.setHandle call.reg { handle with nextRx := .taken }).moveCall call .waiting
        | _ => sent.endCall call
      else s
  | _, _ => s

/-- The loop holds a sender of the registration. -/
def upgraded (reg : Reg) : Bool :=
  match s.loop with
  | .sending other _ _ => other = reg
  | _ => false

/-- A signal is received, or there is none and all senders are gone. -/
def callReceive : State Name Schedule :=
  match s.handles call.reg, call.stage with
  | some handle, .waiting =>
    match handle.signal with
    | some deadline =>
      (s.setHandle call.reg { handle with signal := none }).moveCall call (.acquiring deadline)
    | none =>
      if handle.closed && !s.upgraded call.reg then
        (s.setHandle call.reg { handle with nextRx := .dropped }).endCall call
      else s
  | _, _ => s

def permits : ℕ :=
  (List.range s.count).countP fun reg => (s.handles reg).any fun handle => handle.permit

def callAcquire : State Name Schedule :=
  match s.handles call.reg, call.stage with
  | some handle, .acquiring _ =>
    if s.permits < dispatchConcurrencyLimit then
      (s.setHandle call.reg { handle with nextRx := .kept, permit := true }).endCall call
    else s
  | _, _ => s

/-! ### The loop -/

/-- `get_ready_crons`: the deadlines that have passed, and the crons that have their names now. -/
def getReadyCrons : State Name Schedule :=
  let passed := s.scheduledDeadlines.filter fun entry => entry.2.time ≤ s.now
  let ready := sortBy (fun entry => entry.2.time) passed
  { s with
    scheduledDeadlines := s.scheduledDeadlines.filter fun entry => s.now < entry.2.time
    loop := .dispatching (ready.filterMap fun entry =>
      (s.crons.lookup entry.1).map fun reg => (reg, entry.2)) }

/-- The next deadline of a cron, and the number of retries after it. -/
def nextDeadline (handle : Handle Name Schedule) (prevSuccess : Bool) : Option (ℕ × ℕ) :=
  let backoffSchedule := handle.spec.backoffSchedule.getD defaultBackoffSchedule
  match backoffSchedule[handle.currentExecutionRetries]?, prevSuccess with
  | some backoffMs, false => some (s.now + backoffMs, handle.currentExecutionRetries + 1)
  | _, _ =>
    (computeNextDeadline saffron handle.spec.cronSchedule s.now).map fun time => (time, 0)

/-- The loop receives a message, and schedules the cron that has the name now. -/
def loopReceive : State Name Schedule :=
  match s.loop, s.cronSchedule with
  | .select, some message =>
    let s := { s with cronSchedule := none }
    match s.crons.lookup message.name with
    | none => s.getReadyCrons
    | some reg =>
      match s.handles reg with
      | none => s.getReadyCrons
      | some handle =>
        match s.nextDeadline saffron handle message.prevSuccess with
        | none => { s with loop := .failed }
        | some (time, retries) =>
          getReadyCrons
            { s.setHandle reg { handle with currentExecutionRetries := retries } with
              scheduledDeadlines :=
                s.scheduledDeadlines ++ [(message.name, ⟨time, reg, s.lastCall reg⟩)] }
  | _, _ => s

def loopWake : State Name Schedule :=
  match s.loop with
  | .select => s.getReadyCrons
  | _ => s

/-- The sender of the next cron to execute is upgraded, which fails when it was closed. -/
def loopUpgrade : State Name Schedule :=
  match s.loop with
  | .dispatching [] => { s with loop := .select }
  | .dispatching ((reg, deadline) :: ready) =>
    if (s.handles reg).any fun handle => !handle.closed then
      { s with loop := .sending reg deadline ready }
    else { s with loop := .dispatching ready }
  | _ => s

/-- The signal is sent when the channel has room, or not at all when its receiver was dropped. -/
def loopSend : State Name Schedule :=
  match s.loop with
  | .sending reg deadline ready =>
    match s.handles reg with
    | none => { s with loop := .dispatching ready }
    | some handle =>
      if handle.nextRx = .dropped then { s with loop := .dispatching ready }
      else if handle.signal.isNone then
        { s.setHandle reg { handle with signal := some deadline } with loop := .dispatching ready }
      else s
  | _ => s

end State

/-! ### Steps -/

inductive Step (Name Schedule : Type) where
  | create (spec : CronSpec Name Schedule)
  | startNext (reg : Reg) (prevSuccess : Bool)
  | close (reg : Reg)
  | tick (ms : ℕ)
  | callSend (call : Call)
  | callReceive (call : Call)
  | callAcquire (call : Call)
  | loopReceive
  | loopWake
  | loopUpgrade
  | loopSend

/-- The step of a call that is in progress. -/
def State.onCall (s : State Name Schedule) (call : Call)
    (step : State Name Schedule → Call → State Name Schedule) : State Name Schedule :=
  if s.calls.contains call then step s call else s

def machine (saffron : Saffron Schedule) : Machine (State Name Schedule) (Step Name Schedule) where
  step s
    | .create spec =>
      match s.create saffron spec with
      | .ok s' => s'
      | .error _ => s
    | .startNext reg prevSuccess => s.startNext reg prevSuccess
    | .close reg => s.close reg
    | .tick ms => { s with now := s.now + ms }
    | .callSend call => s.onCall call State.callSend
    | .callReceive call => s.onCall call State.callReceive
    | .callAcquire call => s.onCall call State.callAcquire
    | .loopReceive => s.loopReceive saffron
    | .loopWake => s.loopWake
    | .loopUpgrade => s.loopUpgrade
    | .loopSend => s.loopSend

end Deno.Cron
