import Deno.Core.AssocList
import Deno.Cron.Local

/-!
# Phases of local crons

The handler keeps deadlines by name, and a name is free again once its cron is closed. So a deadline
can outlive its registration and be taken for one of the next registration of the name. It cannot
where no handle is closed while a call of it waits: then each registration goes through the phases
below, and its phase says what the state has of it.
-/

namespace Deno.Cron

open Core

variable {Name Schedule : Type}

/-! ### Own deadlines -/

namespace State

variable (s : State Name Schedule)

def pending (reg : Reg) : List (Name × Deadline) :=
  s.scheduledDeadlines.filter fun entry => entry.2.owner = reg

/-- Crons run at their own deadlines. A call that is going to return `true` was told of a deadline
that has passed and that was computed for its registration after the call, which is the last one. -/
structure OwnDeadlines : Prop where
  caused : ∀ call ∈ s.calls, ∀ deadline, call.stage = .acquiring deadline →
    deadline.owner = call.reg ∧ deadline.after = some call.id ∧
      s.lastCall call.reg = some call.id ∧ deadline.time ≤ s.now
  length_pending_le : ∀ reg, (s.pending reg).length ≤ 1
  pending_closed : ∀ reg handle, s.handles reg = some handle → handle.closed = true →
    s.pending reg = []

def isOpen (reg : Reg) : Bool := (s.handles reg).any fun handle => !handle.closed

end State

/-- A call in this stage was told of its deadline. -/
def Stage.told : Stage → Bool
  | .acquiring _ => true
  | _ => false

/-- The calls of a handle follow one another, and it is closed once, after its calls or when the
last one was told of its deadline. -/
def Sequential (s : State Name Schedule) : Step Name Schedule → Prop
  | .startNext reg _ => s.isOpen reg = true ∧ ∀ call ∈ s.calls, call.reg ≠ reg
  | .close reg => s.isOpen reg = true ∧ ∀ call ∈ s.calls, call.reg = reg → call.stage.told
  | _ => True

instance (s : State Name Schedule) (step : Step Name Schedule) : Decidable (Sequential s step) := by
  cases step <;> unfold Sequential <;> infer_instance

lemma State.create_eq_ok [DecidableEq Name] {saffron : Saffron Schedule}
    {s s' : State Name Schedule} {spec : CronSpec Name Schedule}
    (h : s.create saffron spec = .ok s') :
    s.crons.lookup spec.name = none ∧ s' = s.insertCron spec := by
  unfold State.create at h
  split_ifs at h with _ hname
  obtain ⟨-, -, hnew⟩ := bind_eq_ok.mp h
  exact ⟨Option.not_isSome_iff_eq_none.mp hname, (Except.ok.inj hnew).symm⟩

/-! ### What the state has of a registration -/

/-- The signals that the loop is going to send. -/
def Loop.ready : Loop → List (Reg × Deadline)
  | .dispatching ready => ready
  | .sending reg deadline ready => (reg, deadline) :: ready
  | _ => []

@[ext] structure Footprint (Name Schedule : Type) where
  handle : Option (Handle Name Schedule)
  crons : List (Name × Reg)
  calls : List Call
  message : Option (Message Name)
  pending : List (Name × Deadline)
  ready : List (Reg × Deadline)
  lastCall : Option ℕ

def State.footprint (s : State Name Schedule) (reg : Reg) : Footprint Name Schedule where
  handle := s.handles reg
  crons := s.crons.filter fun entry => entry.2 = reg
  calls := s.calls.filter fun call => call.reg = reg
  message := s.cronSchedule.filter fun message => message.sender = reg
  pending := s.pending reg
  ready := s.loop.ready.filter fun entry => entry.1 = reg
  lastCall := s.lastCall reg

/-- Before `create`. -/
def Footprint.unborn : Footprint Name Schedule := ⟨none, [], [], none, [], [], none⟩

/-! ### Phases -/

/-- How far a request for a deadline has come. It is lost if the loop fails. -/
inductive Request where
  | asked (prevSuccess : Bool)
  | scheduled (time : ℕ)
  | ready (time : ℕ)
  | signalled (time : ℕ)
  | lost

inductive Phase where
  | idle
  | asking (id : ℕ) (prevSuccess : Bool)
  | waiting (id : ℕ) (request : Request)
  | acquiring (id time : ℕ)

variable {phase : Phase} {call : Call} {deadline : Deadline}

namespace Phase

variable (reg : Reg)

/-- The handle cannot have been closed. -/
def NeedsOpen : Phase → Prop
  | asking _ _ => True
  | waiting _ _ => True
  | _ => False

def nextRx : Phase → Receiver
  | idle => .kept
  | asking _ _ => .kept
  | _ => .taken

def signal : Phase → Option Deadline
  | waiting id (.signalled time) => some ⟨time, reg, some id⟩
  | _ => none

def calls : Phase → List Call
  | idle => []
  | asking id prevSuccess => [⟨id, reg, .sending prevSuccess⟩]
  | waiting id _ => [⟨id, reg, .waiting⟩]
  | acquiring id time => [⟨id, reg, .acquiring ⟨time, reg, some id⟩⟩]

def message (name : Name) : Phase → Option (Message Name)
  | waiting _ (.asked prevSuccess) => some ⟨name, prevSuccess, reg⟩
  | _ => none

def pending (name : Name) : Phase → List (Name × Deadline)
  | waiting id (.scheduled time) => [(name, ⟨time, reg, some id⟩)]
  | _ => []

def ready : Phase → List (Reg × Deadline)
  | waiting id (.ready time) => [(reg, ⟨time, reg, some id⟩)]
  | _ => []

def IsLast (lastCall : Option ℕ) : Phase → Prop
  | idle => True
  | asking id _ => lastCall = some id
  | waiting id _ => lastCall = some id
  | acquiring id _ => lastCall = some id

/-- The deadline that the registration is told of has passed. -/
def Passed (now : ℕ) : Phase → Prop
  | waiting _ (.ready time) => time ≤ now
  | waiting _ (.signalled time) => time ≤ now
  | acquiring _ time => time ≤ now
  | _ => True

lemma eq_idle (h : phase.calls reg = []) : phase = idle := by
  cases phase <;> first | rfl | cases h

lemma calls_eq_of_mem (h : call ∈ phase.calls reg) : phase.calls reg = [call] := by
  cases phase <;> simp_all [calls]

section

variable (h : phase.calls reg = [call])

include h

lemma eq_asking {prevSuccess : Bool}
    (hstage : call.stage = .sending prevSuccess) : phase = asking call.id prevSuccess := by
  cases phase <;> simp_all [calls] <;> subst h <;> simp_all

lemma eq_waiting (hstage : call.stage = .waiting) : ∃ request, phase = waiting call.id request := by
  cases phase <;> simp_all [calls] <;> subst h <;> simp_all

lemma eq_acquiring (hstage : call.stage = .acquiring deadline) :
    phase = acquiring call.id deadline.time ∧ deadline = ⟨deadline.time, reg, some call.id⟩ := by
  cases phase <;> simp_all [calls] <;> subst h <;> simp_all
  subst hstage
  exact ⟨rfl, rfl⟩

end

variable {name : Name}

lemma of_mem_pending {entry : Name × Deadline}
    (h : entry ∈ phase.pending reg name) : phase.NeedsOpen ∧ entry.1 = name := by
  unfold pending at h
  split at h
  · exact ⟨trivial, congrArg Prod.fst (List.mem_singleton.mp h)⟩
  · cases h

lemma eq_scheduled (h : phase.pending reg name ≠ []) :
    ∃ id time, phase = waiting id (.scheduled time) := by
  unfold pending at h
  split at h
  · exact ⟨_, _, rfl⟩
  · exact absurd rfl h

lemma eq_ready (h : (reg, deadline) ∈ phase.ready reg) :
    ∃ id, deadline = ⟨deadline.time, reg, some id⟩ ∧ phase = waiting id (.ready deadline.time) := by
  unfold ready at h
  split at h
  · obtain ⟨-, rfl⟩ := Prod.mk.inj (List.mem_singleton.mp h)
    exact ⟨_, rfl, rfl⟩
  · cases h

lemma eq_asked {message : Message Name} (h : phase.message reg name = some message) :
    message.name = name ∧ ∃ id, phase = waiting id (.asked message.prevSuccess) := by
  unfold Phase.message at h
  split at h
  · obtain rfl := Option.some.inj h
    exact ⟨rfl, _, rfl⟩
  · cases h

lemma length_pending_le : (phase.pending reg name).length ≤ 1 := by
  unfold pending
  split
  · exact le_rfl
  · exact Nat.zero_le 1

lemma Passed.mono {now now' : ℕ} (hnow : now ≤ now') (h : phase.Passed now) :
    phase.Passed now' := by
  unfold Passed at h ⊢
  split at h <;> first | trivial | exact h.trans hnow

end Phase

structure Footprint.At (f : Footprint Name Schedule) (now : ℕ) (reg : Reg)
    (handle : Handle Name Schedule) (phase : Phase) : Prop where
  handle_eq : f.handle = some handle
  nextRx : handle.nextRx = phase.nextRx
  signal : handle.signal = phase.signal reg
  open_of : phase.NeedsOpen → handle.closed = false
  crons : f.crons = if handle.closed then [] else [(handle.spec.name, reg)]
  calls : f.calls = phase.calls reg
  message : f.message = phase.message reg handle.spec.name
  pending : f.pending = phase.pending reg handle.spec.name
  ready : f.ready = phase.ready reg
  last : phase.IsLast f.lastCall
  passed : phase.Passed now

/-- A registration that is not made yet, or is in some phase. -/
def Tracked (count now : ℕ) (reg : Reg) (f : Footprint Name Schedule) : Prop :=
  f = .unborn ∨ (reg < count ∧ ∃ handle phase, f.At now reg handle phase)

structure Inv (s : State Name Schedule) : Prop where
  nodup : (s.crons.map Prod.fst).Nodup
  tracked : ∀ reg, Tracked s.count s.now reg (s.footprint reg)

variable {reg : Reg}

lemma Tracked.mono {count count' now now' : ℕ} {f : Footprint Name Schedule}
    (hcount : count ≤ count') (hnow : now ≤ now') (h : Tracked count now reg f) :
    Tracked count' now' reg f := by
  obtain h | ⟨hlt, handle, phase, hat⟩ := h
  · exact .inl h
  · exact .inr ⟨hlt.trans_le hcount, handle, phase, { hat with passed := hat.passed.mono hnow }⟩

namespace Inv

variable {s s' : State Name Schedule}

lemma init (now : ℕ) : Inv (init now : State Name Schedule) where
  nodup := List.nodup_nil
  tracked _ := .inl rfl

/-- A step that changes nothing of the registrations but one. -/
lemma update (h : Inv s) (reg : Reg) (hnodup : (s'.crons.map Prod.fst).Nodup)
    (hcount : s.count ≤ s'.count) (hnow : s.now ≤ s'.now)
    (hothers : ∀ other, other ≠ reg → s'.footprint other = s.footprint other)
    (hreg : Tracked s'.count s'.now reg (s'.footprint reg)) : Inv s' where
  nodup := hnodup
  tracked other := by
    by_cases hother : other = reg
    · exact hother ▸ hreg
    · rw [hothers other hother]
      exact (h.tracked other).mono hcount hnow

lemma phase_of (h : Inv s) {P : Footprint Name Schedule → Prop} (hP : P (s.footprint reg))
    (hunborn : ¬ P .unborn) :
    ∃ handle phase, reg < s.count ∧ s.handles reg = some handle ∧
      (s.footprint reg).At s.now reg handle phase := by
  obtain hreg | ⟨hlt, handle, phase, hat⟩ := h.tracked reg
  · exact absurd (hreg ▸ hP) hunborn
  · exact ⟨handle, phase, hlt, hat.handle_eq, hat⟩

variable {handle : Handle Name Schedule}

lemma phase_of_handle (h : Inv s) (hhandle : s.handles reg = some handle) :
    reg < s.count ∧ ∃ phase, (s.footprint reg).At s.now reg handle phase := by
  obtain ⟨handle', phase, hlt, hhandle', hat⟩ :=
    h.phase_of (P := fun f => f.handle = some handle) hhandle nofun
  rw [hhandle, Option.some.injEq] at hhandle'
  subst hhandle'
  exact ⟨hlt, phase, hat⟩

lemma phase_of_call (h : Inv s) (hcall : call ∈ s.calls) :
    ∃ handle phase, call.reg < s.count ∧ s.handles call.reg = some handle ∧
      (s.footprint call.reg).At s.now call.reg handle phase ∧ phase.calls call.reg = [call] := by
  have hmem : call ∈ (s.footprint call.reg).calls := List.mem_filter.mpr ⟨hcall, by simp⟩
  obtain ⟨handle, phase, hlt, hhandle, hat⟩ := h.phase_of (P := fun f => call ∈ f.calls) hmem nofun
  refine ⟨handle, phase, hlt, hhandle, hat, ?_⟩
  rw [hat.calls] at hmem
  exact Phase.calls_eq_of_mem _ hmem

lemma mem_crons {now : ℕ}
    (hat : (s.footprint reg).At now reg handle phase) (hopen : handle.closed = false) :
    (handle.spec.name, reg) ∈ s.crons := by
  have hcrons := hat.crons
  rw [hopen, if_neg Bool.false_ne_true] at hcrons
  exact List.mem_of_mem_filter (hcrons ▸ List.mem_singleton_self _)

/-- A message comes from a registration that waits for its deadline. -/
lemma phase_of_message (h : Inv s) {message : Message Name}
    (hmessage : s.cronSchedule = some message) :
    ∃ handle id, message.sender < s.count ∧ s.handles message.sender = some handle ∧
      message.name = handle.spec.name ∧
      (s.footprint message.sender).At s.now message.sender handle
        (.waiting id (.asked message.prevSuccess)) := by
  have hown : (s.footprint message.sender).message = some message := by
    simp [State.footprint, hmessage]
  obtain ⟨handle, phase, hlt, hhandle, hat⟩ :=
    h.phase_of (P := fun f => f.message = some message) hown nofun
  rw [hat.message] at hown
  obtain ⟨hname, id, rfl⟩ := Phase.eq_asked _ hown
  exact ⟨handle, id, hlt, hhandle, hname, hat⟩

/-- A signal that is going to be sent is for a registration that waits for it. -/
lemma phase_of_ready (h : Inv s)
    {ready : List (Reg × Deadline)} (hready : s.loop.ready = (reg, deadline) :: ready) :
    ∃ handle id, reg < s.count ∧ s.handles reg = some handle ∧
      deadline = ⟨deadline.time, reg, some id⟩ ∧
      (s.footprint reg).At s.now reg handle (.waiting id (.ready deadline.time)) := by
  have hmem : (reg, deadline) ∈ (s.footprint reg).ready := by
    simp [State.footprint, hready]
  obtain ⟨handle, phase, hlt, hhandle, hat⟩ :=
    h.phase_of (P := fun f => (reg, deadline) ∈ f.ready) hmem nofun
  rw [hat.ready] at hmem
  obtain ⟨id, hdeadline, rfl⟩ := Phase.eq_ready _ hmem
  exact ⟨handle, id, hlt, hhandle, hdeadline, hat⟩

lemma of_ready (h : Inv s) {loop : Loop} (hready : loop.ready = s.loop.ready) :
    Inv { s with loop := loop } where
  nodup := h.nodup
  tracked reg := by
    have hsame : State.footprint { s with loop := loop } reg = s.footprint reg := by
      simp [State.footprint, State.pending, hready]
    rw [hsame]
    exact h.tracked reg

end Inv

end Deno.Cron
