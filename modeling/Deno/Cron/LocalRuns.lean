import Deno.Cron.LocalPhases

/-!
# Runs of local crons

Every step takes the registrations from phase to phase.
-/

namespace Deno.Cron

open Core List

variable {Name Schedule : Type}

attribute [simp] State.footprint State.pending State.setHandle State.moveCall State.endCall
  State.insertCron State.removeCron Loop.ready Phase.calls

namespace Inv

variable {s s' : State Name Schedule}

/-! ### The calls of a handle -/

variable {reg : Reg}

lemma exists_open (hopen : s.isOpen reg = true) :
    ∃ handle, s.handles reg = some handle ∧ handle.closed = false := by
  simpa [State.isOpen, Option.any_eq_true] using hopen

lemma startNext (h : Inv s) (hopen : s.isOpen reg = true)
    (hcalls : ∀ call ∈ s.calls, call.reg ≠ reg) (prevSuccess : Bool) :
    Inv (s.startNext reg prevSuccess) := by
  obtain ⟨handle, hhandle, hclosed⟩ := exists_open hopen
  obtain ⟨hlt, phase, hat⟩ := h.phase_of_handle hhandle
  have hnil : (s.footprint reg).calls = [] := List.filter_eq_nil_iff.mpr (by simpa using hcalls)
  obtain rfl := Phase.eq_idle reg (hat.calls.symm.trans hnil)
  unfold State.startNext
  rw [hhandle]
  refine h.update reg h.nodup le_rfl le_rfl ?_ (.inr ⟨hlt, { handle with permit := false },
    .asking s.callCount prevSuccess, ?_⟩)
  · intro other hother
    simp [hother, hother.symm]
  · exact
      { hat with
        handle_eq := by simp
        open_of := fun _ => hclosed
        calls := by simpa using hcalls
        last := by simp [Phase.IsLast] }

variable {call : Call}

lemma filter_calls_of_ne {other : Reg} (hother : other ≠ call.reg) :
    ((s.calls.filter fun call' => call' ≠ call).filter fun call' => call'.reg = other) =
      s.calls.filter fun call' => call'.reg = other := by
  rw [filter_filter]
  refine filter_congr fun call' _ => ?_
  by_cases hreg : call'.reg = other
  · have hne : call' ≠ call := by
      rintro rfl
      exact hother hreg.symm
    simp [hne]
  · simp [hreg]

lemma filter_calls_self (hcalls : (s.calls.filter fun call' => call'.reg = call.reg) = [call]) :
    ((s.calls.filter fun call' => call' ≠ call).filter fun call' => call'.reg = call.reg) = [] := by
  rw [filter_comm, hcalls]
  simp

lemma callSend (h : Inv s) (hcall : call ∈ s.calls) : Inv (s.callSend call) := by
  obtain ⟨handle, phase, hlt, hhandle, hat, hcalls⟩ := h.phase_of_call hcall
  have hself := filter_calls_self (hat.calls.trans hcalls)
  unfold State.callSend
  rw [hhandle]
  cases hstage : call.stage with
  | waiting | acquiring deadline => exact h
  | sending prevSuccess =>
    obtain rfl := Phase.eq_asking _ hcalls hstage
    have hopen := hat.open_of trivial
    dsimp only
    split
    · -- The loop has failed, and the call returns.
      refine h.update call.reg h.nodup le_rfl le_rfl ?_ (.inr ⟨hlt, handle, .idle, ?_⟩)
      · intro other hother
        simpa using filter_calls_of_ne hother
      · exact { hat with open_of := fun _ => hopen, calls := hself, last := trivial }
    · split_ifs with hroom
      · rw [Option.isNone_iff_eq_none] at hroom
        rw [show handle.nextRx = .kept from hat.nextRx]
        refine h.update call.reg h.nodup le_rfl le_rfl ?_ (.inr ⟨hlt,
          { handle with nextRx := .taken }, .waiting call.id (.asked prevSuccess), ?_⟩)
        · intro other hother
          simpa [hother, hother.symm, hroom] using filter_calls_of_ne hother
        · exact
            { hat with
              handle_eq := by simp
              nextRx := rfl
              calls := by
                simpa using hself
              message := by
                simp [Phase.message] }
      · exact h

lemma callReceive (h : Inv s) (hcall : call ∈ s.calls) : Inv (s.callReceive call) := by
  obtain ⟨handle, phase, hlt, hhandle, hat, hcalls⟩ := h.phase_of_call hcall
  have hself := filter_calls_self (hat.calls.trans hcalls)
  unfold State.callReceive
  rw [hhandle]
  cases hstage : call.stage with
  | sending prevSuccess | acquiring deadline => exact h
  | waiting =>
    obtain ⟨request, rfl⟩ := Phase.eq_waiting _ hcalls hstage
    have hopen := hat.open_of trivial
    cases hsignal : handle.signal with
    | none =>
      simp only [hsignal, hopen, Bool.false_and, Bool.false_eq_true, if_false]
      exact h
    | some deadline =>
      simp only [hsignal]
      rw [hat.signal] at hsignal
      cases request with
      | signalled time =>
        obtain rfl := Option.some.inj hsignal
        refine h.update call.reg h.nodup le_rfl le_rfl ?_ (.inr ⟨hlt,
          { handle with signal := none }, .acquiring call.id time, ?_⟩)
        · intro other hother
          simpa [hother, hother.symm] using filter_calls_of_ne hother
        · exact
            { hat with
              handle_eq := by simp
              signal := rfl
              open_of := fun _ => hopen
              calls := by
                simpa using hself }
      | asked prevSuccess | scheduled time | ready time | lost => cases hsignal

lemma callAcquire (h : Inv s) (hcall : call ∈ s.calls) : Inv (s.callAcquire call) := by
  obtain ⟨handle, phase, hlt, hhandle, hat, hcalls⟩ := h.phase_of_call hcall
  have hself := filter_calls_self (hat.calls.trans hcalls)
  unfold State.callAcquire
  rw [hhandle]
  cases hstage : call.stage with
  | sending prevSuccess | waiting => exact h
  | acquiring deadline =>
    obtain ⟨rfl, -⟩ := Phase.eq_acquiring _ hcalls hstage
    split_ifs
    · refine h.update call.reg h.nodup le_rfl le_rfl ?_ (.inr ⟨hlt,
        { handle with nextRx := .kept, permit := true }, .idle, ?_⟩)
      · intro other hother
        simpa [hother] using filter_calls_of_ne hother
      · exact
          { hat with
            handle_eq := by simp
            nextRx := rfl
            calls := hself
            last := trivial
            passed := trivial }
    · exact h

/-! ### The signals of the loop -/

lemma loopUpgrade (h : Inv s) : Inv s.loopUpgrade := by
  unfold State.loopUpgrade
  split
  · next hloop => exact h.of_ready (by rw [hloop]; rfl)
  · next reg deadline ready hloop =>
    obtain ⟨handle, id, -, hhandle, -, hat⟩ := h.phase_of_ready (congrArg Loop.ready hloop)
    rw [hhandle, Option.any_some, hat.open_of trivial]
    exact h.of_ready (by rw [hloop]; rfl)
  · exact h

lemma loopSend (h : Inv s) : Inv s.loopSend := by
  unfold State.loopSend
  split
  · next reg deadline ready hloop =>
    obtain ⟨handle, id, hlt, hhandle, hdeadline, hat⟩ :=
      h.phase_of_ready (congrArg Loop.ready hloop)
    have hrx : handle.nextRx = .taken := hat.nextRx
    have hsignal : handle.signal = none := hat.signal
    rw [hhandle]
    dsimp only
    rw [if_neg (by rw [hrx]; simp), if_pos (by rw [hsignal]; rfl)]
    refine h.update reg h.nodup le_rfl le_rfl ?_ (.inr ⟨hlt,
      { handle with signal := some deadline }, .waiting id (.signalled deadline.time), ?_⟩)
    · intro other hother
      simp [hloop, hother, hother.symm]
    · have hrest : (ready.filter fun entry => entry.1 = reg) = [] := by
        have hone := hat.ready
        rw [State.footprint, hloop] at hone
        simp only [Loop.ready, Phase.ready, filter_cons_of_pos, decide_true] at hone
        exact (List.cons.inj hone).2
      exact
        { hat with
          handle_eq := by simp
          signal := congrArg some hdeadline
          ready := hrest }
  · exact h

lemma ownDeadlines (h : Inv s) : s.OwnDeadlines where
  caused call hcall deadline hstage := by
    obtain ⟨handle, phase, -, -, hat, hcalls⟩ := h.phase_of_call hcall
    obtain ⟨rfl, hdeadline⟩ := Phase.eq_acquiring _ hcalls hstage
    refine ⟨?_, ?_, hat.last, hat.passed⟩
    · rw [hdeadline]
    · rw [hdeadline]
  length_pending_le reg := by
    obtain hunborn | ⟨-, handle, phase, hat⟩ := h.tracked reg
    · exact (congrArg (·.pending.length) hunborn).trans_le (Nat.zero_le 1)
    · exact (congrArg List.length hat.pending).trans_le (Phase.length_pending_le reg)
  pending_closed reg handle hhandle hclosed := by
    obtain ⟨-, phase, hat⟩ := h.phase_of_handle hhandle
    refine hat.pending.trans (List.eq_nil_iff_forall_not_mem.mpr fun entry hentry => ?_)
    have hopen := hat.open_of (Phase.of_mem_pending reg hentry).1
    rw [hclosed] at hopen
    cases hopen

variable [DecidableEq Name]

lemma close (h : Inv s) (hopen : s.isOpen reg = true)
    (hcalls : ∀ call ∈ s.calls, call.reg = reg → call.stage.told) : Inv (s.close reg) := by
  obtain ⟨handle, hhandle, hclosed⟩ := exists_open hopen
  obtain ⟨hlt, phase, hat⟩ := h.phase_of_handle hhandle
  have hphase : ¬ phase.NeedsOpen := by
    have htold : ∀ call ∈ phase.calls reg, call.stage.told := by
      rw [← hat.calls]
      intro call hcall
      obtain ⟨hcall, hreg⟩ := List.mem_filter.mp hcall
      exact hcalls call hcall (of_decide_eq_true hreg)
    cases phase <;> simp_all [Phase.calls, Phase.NeedsOpen, Stage.told]
  have hmem := mem_crons hat hclosed
  unfold State.close
  rw [hhandle]
  refine h.update reg ?_ le_rfl le_rfl ?_ (.inr ⟨hlt, { handle with closed := true }, phase, ?_⟩)
  · exact h.nodup.sublist (List.filter_sublist.map Prod.fst)
  · intro other hother
    -- No other registration has the name.
    have hcrons : ((s.crons.filter fun entry => entry.1 ≠ handle.spec.name).filter
        fun entry => entry.2 = other) = s.crons.filter fun entry => entry.2 = other := by
      rw [filter_filter]
      refine filter_congr fun entry hentry => ?_
      by_cases hreg : entry.2 = other
      · have hname : entry.1 ≠ handle.spec.name := by
          rintro hname
          refine hother (eq_of_mem_of_nodup h.nodup ?_ hmem)
          rw [← hname, ← hreg]
          exact hentry
        simp [hname]
      · simp [hreg]
    simpa [hother] using hcrons
  · have hcrons : ((s.crons.filter fun entry => entry.1 ≠ handle.spec.name).filter
        fun entry => entry.2 = reg) = [] := by
      rw [filter_comm]
      exact (congrArg _ hat.crons).trans (by simp [hclosed])
    exact
      { hat with
        handle_eq := by simp
        open_of := fun hneeds => absurd hneeds hphase
        crons := hcrons }

lemma create (h : Inv s) (saffron : Saffron Schedule) {spec : CronSpec Name Schedule}
    (hcreate : s.create saffron spec = .ok s') : Inv s' := by
  obtain ⟨hname, rfl⟩ := State.create_eq_ok hcreate
  have hunborn : s.footprint s.count = .unborn := by
    obtain hunborn | ⟨hlt, -⟩ := h.tracked s.count
    · exact hunborn
    · exact absurd hlt (lt_irrefl _)
  refine h.update s.count ?_ (Nat.le_succ _) le_rfl ?_
    (.inr ⟨Nat.lt_succ_self _, .new spec, .idle, ?_⟩)
  · exact List.nodup_cons.mpr ⟨lookup_eq_none_iff_notMem.mp hname, h.nodup⟩
  · intro other hother
    simp [hother, hother.symm]
  · exact
      { handle_eq := by simp
        nextRx := rfl
        signal := rfl
        open_of := fun _ => rfl
        crons := by
          have hnil : (s.crons.filter fun entry => entry.2 = s.count) = [] :=
            congrArg Footprint.crons hunborn
          simp [Handle.new, hnil]
        calls := congrArg Footprint.calls hunborn
        message := congrArg Footprint.message hunborn
        pending := congrArg Footprint.pending hunborn
        ready := congrArg Footprint.ready hunborn
        last := trivial
        passed := trivial }

/-! ### The loop -/

/-- A pending deadline is one of the cron that has its name. -/
lemma lookup_of_pending (h : Inv s) {entry : Name × Deadline}
    (hentry : entry ∈ s.scheduledDeadlines) : s.crons.lookup entry.1 = some entry.2.owner := by
  have hmem : entry ∈ (s.footprint entry.2.owner).pending := List.mem_filter.mpr ⟨hentry, by simp⟩
  obtain ⟨handle, phase, -, -, hat⟩ := h.phase_of (P := fun f => entry ∈ f.pending) hmem nofun
  rw [hat.pending] at hmem
  obtain ⟨hopen, hname⟩ := Phase.of_mem_pending _ hmem
  rw [hname]
  exact lookup_of_mem h.nodup (mem_crons hat (hat.open_of hopen))

/-- The deadlines of a registration that are ready, in one order or another. -/
lemma ready_getReadyCrons (h : Inv s) (reg : Reg) : (s.getReadyCrons.footprint reg).ready.Perm
      (((s.pending reg).filter fun entry => entry.2.time ≤ s.now).map fun entry =>
        (entry.2.owner, entry.2)) := by
  set passed := s.scheduledDeadlines.filter fun entry => entry.2.time ≤ s.now
  have hsorted : (sortBy (fun entry => entry.2.time) passed).Perm passed := mergeSort_perm _ _
  have hmap : (sortBy (fun entry => entry.2.time) passed).filterMap (fun entry =>
      (s.crons.lookup entry.1).map fun reg => (reg, entry.2)) =
      (sortBy (fun entry => entry.2.time) passed).map fun entry => (entry.2.owner, entry.2) := by
    rw [← filterMap_eq_map]
    refine filterMap_congr fun entry hentry => ?_
    rw [h.lookup_of_pending (mem_of_mem_filter (hsorted.mem_iff.mp hentry))]
    rfl
  change List.Perm (List.filter _ (List.filterMap _ _)) _
  rw [hmap, filter_map, State.pending, filter_comm]
  exact (hsorted.filter _).map _

lemma pending_getReadyCrons (s : State Name Schedule) (reg : Reg) :
    s.getReadyCrons.pending reg = (s.pending reg).filter fun entry => s.now < entry.2.time :=
  filter_comm _ _ _

/-- The deadlines of a registration that has none pending stay as they are. -/
lemma footprint_getReadyCrons (h : Inv s) (hready : s.loop.ready = [])
    (hpending : s.pending reg = []) : s.getReadyCrons.footprint reg = s.footprint reg := by
  have hnew := h.ready_getReadyCrons reg
  rw [hpending] at hnew
  refine Footprint.ext rfl rfl rfl rfl ?_ ?_ rfl
  · change s.getReadyCrons.pending reg = s.pending reg
    rw [pending_getReadyCrons, hpending]
    rfl
  · rw [List.perm_nil.mp hnew, State.footprint, hready]
    rfl

lemma getReadyCrons (h : Inv s) (hready : s.loop.ready = []) : Inv s.getReadyCrons where
  nodup := h.nodup
  tracked reg := by
    obtain hunborn | ⟨hlt, handle, phase, hat⟩ := h.tracked reg
    · rw [h.footprint_getReadyCrons hready (congrArg Footprint.pending hunborn)]
      exact .inl hunborn
    · by_cases hpending : s.pending reg = []
      · rw [h.footprint_getReadyCrons hready hpending]
        exact .inr ⟨hlt, handle, phase, hat⟩
      · obtain ⟨id, time, rfl⟩ := Phase.eq_scheduled reg fun hnil =>
          hpending (hat.pending.trans hnil)
        have hone : s.pending reg = [(handle.spec.name, ⟨time, reg, some id⟩)] := hat.pending
        have hnew := h.ready_getReadyCrons reg
        rw [hone] at hnew
        have hlate := pending_getReadyCrons s reg
        rw [hone] at hlate
        by_cases hpassed : time ≤ s.now
        · rw [filter_cons_of_pos (by simpa using hpassed)] at hnew
          rw [filter_cons_of_neg (by simpa using hpassed)] at hlate
          exact .inr ⟨hlt, handle, .waiting id (.ready time),
            { hat with
              pending := hlate
              ready := List.perm_singleton.mp hnew
              passed := hpassed }⟩
        · rw [filter_cons_of_neg (by simpa using hpassed)] at hnew
          rw [filter_cons_of_pos (by simpa using hpassed)] at hlate
          exact .inr ⟨hlt, handle, .waiting id (.scheduled time),
            { hat with
              pending := hlate
              ready := List.perm_nil.mp hnew }⟩

lemma loopWake (h : Inv s) : Inv s.loopWake := by
  unfold State.loopWake
  split
  · next hselect => exact h.getReadyCrons (by rw [hselect]; rfl)
  · exact h

lemma loopReceive (h : Inv s) (saffron : Saffron Schedule) : Inv (s.loopReceive saffron) := by
  unfold State.loopReceive
  split
  · next message hselect hmessage =>
    obtain ⟨handle, id, hlt, hhandle, hname, hat⟩ := h.phase_of_message hmessage
    have hlookup : s.crons.lookup message.name = some message.sender :=
      hname ▸ lookup_of_mem h.nodup (mem_crons hat (hat.open_of trivial))
    have hfree (other : Reg) (hother : other ≠ message.sender) :
        (s.cronSchedule.filter fun message => message.sender = other) = none := by
      rw [hmessage, Option.filter_some, if_neg (by simpa using hother.symm)]
    simp only [hlookup, hhandle]
    split
    · -- The loop fails.
      refine h.update message.sender h.nodup le_rfl le_rfl ?_
        (.inr ⟨hlt, handle, .waiting id .lost, ?_⟩)
      · intro other hother
        simp [hselect, hfree other hother]
      · exact
          { hat with
            message := rfl
            ready := rfl }
    · next time retries hnext =>
      refine getReadyCrons ?_ (congrArg Loop.ready hselect)
      refine h.update message.sender h.nodup le_rfl le_rfl ?_ (.inr ⟨hlt,
        { handle with currentExecutionRetries := retries }, .waiting id (.scheduled time), ?_⟩)
      · intro other hother
        simp [hfree other hother, hother, hother.symm]
      · have hnone : s.pending message.sender = [] := hat.pending
        have hlast : s.lastCall message.sender = some id := hat.last
        exact
          { hat with
            handle_eq := by simp
            message := rfl
            pending := by
              simpa [hlast, hname, Phase.pending] using hnone }
  · exact h

/-- A step of the program that follows the rule, and every other step, keeps the invariant. -/
lemma step (h : Inv s) (saffron : Saffron Schedule) {step : Step Name Schedule}
    (hstep : Sequential s step) : Inv ((machine saffron).step s step) := by
  have honCall {call : Call} {f : State Name Schedule → Call → State Name Schedule}
      (hf : call ∈ s.calls → Inv (f s call)) : Inv (s.onCall call f) := by
    unfold State.onCall
    split_ifs with hcall
    · exact hf (List.contains_iff_mem.mp hcall)
    · exact h
  cases step with
  | create spec =>
    cases hcreate : s.create saffron spec with
    | ok s' =>
      simp only [machine, hcreate]
      exact h.create saffron hcreate
    | error e =>
      simp only [machine, hcreate]
      exact h
  | startNext reg prevSuccess => exact h.startNext hstep.1 hstep.2 prevSuccess
  | close reg => exact h.close hstep.1 hstep.2
  | tick ms =>
    exact ⟨h.nodup, fun reg => (h.tracked reg).mono le_rfl (Nat.le_add_right s.now ms)⟩
  | callSend call => exact honCall h.callSend
  | callReceive call => exact honCall h.callReceive
  | callAcquire call => exact honCall h.callAcquire
  | loopReceive => exact h.loopReceive saffron
  | loopWake => exact h.loopWake
  | loopUpgrade => exact h.loopUpgrade
  | loopSend => exact h.loopSend

end Inv

/-- Crons run at their own deadlines in every run in which the calls of each handle follow one
another and no handle is closed while a call of it waits. -/
theorem run_ownDeadlines [DecidableEq Name] (saffron : Saffron Schedule) (now : ℕ)
    (steps : List (Step Name Schedule))
    (hsteps : (machine saffron).Along Sequential (init now) steps) :
    ((machine saffron).run (init now) steps).OwnDeadlines :=
  (Machine.run_invariant_of_along (fun _ _ hstep h => h.step saffron hstep)
    (Inv.init now) steps hsteps).ownDeadlines

/-! ### A name that is used again -/

def everyMinutes : Saffron ℕ where
  parses minutes := 0 < minutes
  nextAfter minutes now := some ((now / (minutes * 60000) + 1) * (minutes * 60000))
  testOffset := none

def hourly : CronSpec String ℕ := ⟨"backup", 60, none⟩

/-- An hourly cron whose first call is told of its deadline. -/
def oneCall : List (Step String ℕ) :=
  [.create hourly, .startNext 0 true, .callSend ⟨0, 0, .sending true⟩, .loopReceive, .loopUpgrade,
    .tick 3600000, .loopWake, .loopUpgrade, .loopSend, .callReceive ⟨0, 0, .waiting⟩]

theorem run_ownDeadlines_oneCall : ((machine everyMinutes).run (init 0) oneCall).calls =
        [⟨0, 0, .acquiring ⟨3600000, 0, some 0⟩⟩] ∧
      ((machine everyMinutes).run (init 0) oneCall).OwnDeadlines :=
  ⟨by decide +kernel, run_ownDeadlines everyMinutes 0 oneCall (by decide +kernel)⟩

/-- The cron is closed while its first call waits, and the name is used again at the half hour for a
daily cron. -/
def reused : List (Step String ℕ) :=
  [.create hourly, .startNext 0 true, .callSend ⟨0, 0, .sending true⟩, .loopReceive, .loopUpgrade,
    .close 0, .callReceive ⟨0, 0, .waiting⟩, .tick 1800000, .create ⟨"backup", 1440, none⟩,
    .startNext 1 true, .callSend ⟨1, 1, .sending true⟩, .loopReceive, .loopUpgrade,
    .tick 1800000, .loopWake, .loopUpgrade, .loopSend, .callReceive ⟨1, 1, .waiting⟩]

/-- The first deadline is still pending when its registration was closed, and then the second cron
runs at it. -/
theorem run_reused : let closed := (machine everyMinutes).run (init 0) (reused.take 6)
    let s := (machine everyMinutes).run (init 0) reused
    (closed.pending 0 = [("backup", ⟨3600000, 0, some 0⟩)] ∧ ¬ closed.OwnDeadlines) ∧
      (s.calls = [⟨1, 1, .acquiring ⟨3600000, 0, some 0⟩⟩] ∧ ¬ s.OwnDeadlines) := by
  intro closed s
  have hpending : closed.pending 0 = [("backup", ⟨3600000, 0, some 0⟩)] := by decide +kernel
  have hclosed : (closed.handles 0).any (fun handle => handle.closed) = true := by decide +kernel
  have hcalls : s.calls = [⟨1, 1, .acquiring ⟨3600000, 0, some 0⟩⟩] := by decide +kernel
  refine ⟨⟨hpending, fun h => ?_⟩, hcalls, fun h => ?_⟩
  · obtain ⟨handle, hhandle, hclosed⟩ := (Option.any_eq_true _ _).mp hclosed
    have hnil := h.pending_closed 0 handle hhandle hclosed
    rw [hpending] at hnil
    cases hnil
  · obtain ⟨howner, -⟩ := h.caused _ (hcalls ▸ mem_singleton_self _) _ rfl
    cases howner

end Deno.Cron
