import Deno.Cron.LocalRuns

/-!
# Retries of local crons

A cron whose runs fail one after the other is scheduled by the times of its backoff schedule, then
at its next regular time, and so on, whatever the loop handles in between.
-/

namespace Deno.Cron

open Core Function List

variable {Name Schedule : Type}

def Handle.backoffSchedule (handle : Handle Name Schedule) : List ℕ :=
  handle.spec.backoffSchedule.getD defaultBackoffSchedule

namespace State

variable {saffron : Saffron Schedule} {s s' : State Name Schedule} {failures : Reg → ℕ} {reg : Reg}
  {handle : Handle Name Schedule} {n : ℕ}

/-- The schedule of each cron was parsed. As long as the loop has not failed, the retries of the cron
are those of its failures. -/
def Retries (saffron : Saffron Schedule) (s : State Name Schedule) (failures : Reg → ℕ) : Prop :=
  ∀ reg handle, s.handles reg = some handle → saffron.parses handle.spec.cronSchedule ∧
    (s.loop = .failed ∨
      handle.currentExecutionRetries = failures reg % (handle.backoffSchedule.length + 1))

lemma Retries.set (h : s.Retries saffron failures)
    (hhandles : s'.handles = update s.handles reg (some handle))
    (hfailed : s.loop = .failed → s'.loop = .failed)
    (hhandle : saffron.parses handle.spec.cronSchedule ∧ (s'.loop = .failed ∨
      handle.currentExecutionRetries = n % (handle.backoffSchedule.length + 1))) :
    s'.Retries saffron (update failures reg n) := by
  intro other after hafter
  rw [hhandles] at hafter
  by_cases hother : other = reg
  · subst hother
    rw [update_self] at hafter ⊢
    obtain rfl := Option.some.inj hafter
    exact hhandle
  · rw [update_of_ne hother] at hafter ⊢
    exact (h other after hafter).imp_right (Or.imp_left hfailed)

/-- The other fields of a handle do not matter. -/
lemma Retries.keep (h : s.Retries saffron failures) {closed nextRx signal permit}
    (hhandle : s.handles reg = some handle) (hhandles : s'.handles = update s.handles reg (some
      ⟨handle.spec, handle.currentExecutionRetries, closed, nextRx, signal, permit⟩))
    (hfailed : s.loop = .failed → s'.loop = .failed) : s'.Retries saffron failures := by
  have hset := h.set hhandles hfailed ((h reg handle hhandle).imp_right (Or.imp_left hfailed))
  rwa [update_eq_self] at hset

variable (saffron) in
/-- The next deadline after some failures and another outcome, and the retries after it. -/
def deadlineAfter (handle : Handle Name Schedule) (now failures : ℕ) (prevSuccess : Bool) :
    Option (ℕ × ℕ) :=
  let backoff := handle.backoffSchedule
  let k := failures % (backoff.length + 1)
  if hk : prevSuccess = false ∧ k < backoff.length then some (now + backoff[k], k + 1)
  else (saffron.nextAfter handle.spec.cronSchedule now).map (·, 0)

variable {prevSuccess : Bool}

lemma nextDeadline_eq (htest : saffron.testOffset = none)
    (hparses : saffron.parses handle.spec.cronSchedule)
    (h : handle.currentExecutionRetries = n % (handle.backoffSchedule.length + 1)) :
    s.nextDeadline saffron handle prevSuccess = deadlineAfter saffron handle s.now n prevSuccess := by
  have hcompute : computeNextDeadline saffron handle.spec.cronSchedule s.now =
      saffron.nextAfter handle.spec.cronSchedule s.now := by
    simp [computeNextDeadline, htest, hparses]
  simp only [nextDeadline, deadlineAfter, h, hcompute]
  unfold Handle.backoffSchedule
  grind

/-- One more failure leads to the next retry, and from the last one to none. -/
lemma retries_deadlineAfter {now time retries : ℕ}
    (h : deadlineAfter saffron handle now n prevSuccess = some (time, retries)) :
    retries = (if prevSuccess then 0 else n + 1) % (handle.backoffSchedule.length + 1) := by
  simp only [deadlineAfter] at h
  split_ifs at h with hk
  · rw [hk.1, if_neg Bool.false_ne_true, ← Nat.mod_add_mod,
      Nat.mod_eq_of_lt (Nat.succ_lt_succ hk.2)]
    simp_all
  · obtain rfl : 0 = retries := by simp_all
    have hlt := Nat.mod_lt n (Nat.add_one_pos handle.backoffSchedule.length)
    cases prevSuccess with
    | true => simp
    | false => exact (Nat.succ_mod_succ_eq_zero_iff.mpr (by simp at hk; omega)).symm

variable (saffron) [DecidableEq Name]

/-- The failures of each cron since its registration or its last success, as the loop is told of
them. -/
def countFailures (s : State Name Schedule) (failures : Reg → ℕ) : Step Name Schedule → Reg → ℕ
  | .create spec =>
    match s.create saffron spec with
    | .ok _ => update failures s.count 0
    | .error _ => failures
  | .loopReceive =>
    match s.loop, s.cronSchedule with
    | .select, some message =>
      match s.crons.lookup message.name with
      | some reg => update failures reg (if message.prevSuccess then 0 else failures reg + 1)
      | none => failures
    | _, _ => failures
  | _ => failures

/-- The state, and the failures of each cron. -/
def counting : Machine (State Name Schedule × (Reg → ℕ)) (Step Name Schedule) where
  step p step := ((machine saffron).step p.1 step, p.1.countFailures saffron p.2 step)

lemma parses_of_create {spec : CronSpec Name Schedule} (h : s.create saffron spec = .ok s') :
    saffron.parses spec.cronSchedule := by
  unfold create at h
  split_ifs at h with _ _ hparses
  simpa using hparses

lemma loopReceive_eq (hloop : s.loop = .select) {message : Message Name}
    (hmessage : s.cronSchedule = some message) (hname : s.crons.lookup message.name = some reg)
    (hhandle : s.handles reg = some handle) :
    s.loopReceive saffron = match s.nextDeadline saffron handle message.prevSuccess with
      | none => { s with cronSchedule := none, loop := .failed }
      | some (time, retries) =>
        getReadyCrons
          { s.setHandle reg { handle with currentExecutionRetries := retries } with
            cronSchedule := none
            scheduledDeadlines :=
              s.scheduledDeadlines ++ [(message.name, ⟨time, reg, s.lastCall reg⟩)] } := by
  simp only [State.loopReceive, hloop, hmessage, hname, hhandle]
  rfl

variable {saffron} (htest : saffron.testOffset = none)

include htest

lemma Retries.loopReceive (h : s.Retries saffron failures) :
    (s.loopReceive saffron).Retries saffron (s.countFailures saffron failures .loopReceive) := by
  cases hloop : s.loop with
  | select =>
    have hretries {reg : Reg} {handle} (hhandle : s.handles reg = some handle) :=
      (h reg handle hhandle).imp_right (Or.resolve_left · (by simp [hloop]))
    cases hmessage : s.cronSchedule with
    | none => simpa [State.loopReceive, countFailures, hloop, hmessage] using h
    | some message =>
      simp only [State.loopReceive, countFailures, hloop, hmessage]
      cases s.crons.lookup message.name with
      | none => exact fun _ _ hhandle => (hretries hhandle).imp_right .inr
      | some reg =>
        dsimp only
        cases hhandle : s.handles reg with
        | none =>
          intro other handle hother
          rw [update_of_ne]
          · exact (hretries hother).imp_right .inr
          · rintro rfl
            cases hhandle.symm.trans hother
        | some handle =>
          obtain ⟨hparses, hhandle'⟩ := hretries hhandle
          dsimp only
          split
          · exact fun _ _ hother => ⟨(hretries hother).1, .inl rfl⟩
          · next hnext =>
            have hnext := (nextDeadline_eq htest hparses hhandle').symm.trans hnext
            exact h.set rfl (by simp [hloop]) ⟨hparses, .inr (retries_deadlineAfter hnext)⟩
  | _ => simpa [State.loopReceive, countFailures, hloop] using h

lemma Retries.step (h : s.Retries saffron failures) (step : Step Name Schedule) :
    ((machine saffron).step s step).Retries saffron (s.countFailures saffron failures step) := by
  cases step with
  | create spec =>
    simp only [countFailures, machine]
    cases hcreate : s.create saffron spec with
    | ok s' =>
      have hparses := parses_of_create saffron hcreate
      obtain ⟨-, rfl⟩ := create_eq_ok hcreate
      exact h.set rfl id ⟨hparses, .inr (Nat.zero_mod _).symm⟩
    | error e => exact h
  | loopReceive => exact h.loopReceive htest
  | tick ms => exact h
  | _ =>
    simp only [countFailures, machine, onCall, startNext, close, callSend, callReceive,
      callAcquire, loopWake, loopUpgrade, loopSend]
    repeat' split
    all_goals first
      | exact h
      | exact h.keep ‹_› rfl (by simp_all)
      | exact fun reg handle hhandle => (h reg handle hhandle).imp_right (Or.imp_left (by simp_all))

/-- After every run, a message to the loop schedules the next deadline of its cron by the backoff
schedule or at the next regular time. What has passed already is executed. The loop fails if there is
no next regular time. -/
theorem run_loopReceive (now : ℕ) (steps : List (Step Name Schedule))
    (hrun : (counting saffron).run (init now, fun _ => 0) steps = (s, failures))
    (hloop : s.loop = .select) {message : Message Name} (hmessage : s.cronSchedule = some message)
    (hname : s.crons.lookup message.name = some reg) (hhandle : s.handles reg = some handle) :
    match deadlineAfter saffron handle s.now (failures reg) message.prevSuccess with
    | none => (s.loopReceive saffron).loop = .failed
    | some (time, retries) =>
      let deadline : Deadline := ⟨time, reg, s.lastCall reg⟩
      (s.loopReceive saffron).scheduledDeadlines =
          (s.scheduledDeadlines ++ [(message.name, deadline)]).filter (s.now < ·.2.time) ∧
        (time ≤ s.now → (reg, deadline) ∈ (s.loopReceive saffron).loop.ready) ∧
        (s.loopReceive saffron).handles reg =
          some { handle with currentExecutionRetries := retries } := by
  have hinit : (init now : State Name Schedule).Retries saffron fun _ => 0 := by
    simp [Retries, init]
  have h := Machine.run_invariant (M := counting saffron) (P := fun p => p.1.Retries saffron p.2)
    (fun p step h => h.step htest step) (s := (init now, fun _ => 0)) hinit steps
  rw [hrun] at h
  obtain ⟨hparses, hretries⟩ := h reg handle hhandle
  rw [← nextDeadline_eq htest hparses (hretries.resolve_left (by simp [hloop])),
    loopReceive_eq saffron hloop hmessage hname hhandle]
  cases s.nextDeadline saffron handle message.prevSuccess with
  | none => rfl
  | some next =>
    obtain ⟨time, retries⟩ := next
    refine ⟨rfl, fun htime => mem_filterMap.mpr ?_, update_self reg _ s.handles⟩
    refine ⟨(message.name, ⟨time, reg, s.lastCall reg⟩), (mergeSort_perm _ _).mem_iff.mpr ?_,
      by simp [setHandle, hname]⟩
    exact mem_filter.mpr ⟨mem_append_right _ (mem_singleton_self _), decide_eq_true htime⟩

omit htest

def failing : List (Step String ℕ) :=
  [.create hourly, .startNext 0 false, .callSend ⟨0, 0, .sending false⟩, .loopReceive, .loopUpgrade,
    .startNext 0 false, .callSend ⟨1, 0, .sending false⟩]

theorem run_loopReceive_failing :
    (loopReceive everyMinutes
      ((counting everyMinutes).run (init 0, fun _ => 0) failing).1).scheduledDeadlines =
        [("backup", ⟨100, 0, some 0⟩), ("backup", ⟨1000, 0, some 1⟩)] := by
  have h := @run_loopReceive _ _ everyMinutes _ _ 0 ⟨hourly, 1, false, .taken, none, false⟩ _ rfl 0
    failing rfl (by decide +kernel) ⟨"backup", false, 0⟩ (by decide +kernel) (by decide +kernel)
    (by decide +kernel)
  rw [show deadlineAfter _ _ _ _ _ = some (1000, 2) by decide +kernel] at h
  exact h.1.trans (by decide +kernel)

end State

end Deno.Cron
