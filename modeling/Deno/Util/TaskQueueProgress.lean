import Deno.Util.TaskQueue

/-!
# Permits and wake-ups that are not lost

The drop of a future reads `is_ready` and then raises `is_future_dropped`, and a poll reads
`is_ready` and then registers its waker. A permit that is passed on in between can be lost, and so
can a wake-up.
-/

namespace Deno.TaskQueue

open Core

/-- No operation is in progress with the future. -/
def Phase.isQuiet : Phase → Bool
  | idle _ | permit | gone => true
  | _ => false

def Quiet (s : State) : Prop := ∀ i < s.count, (s.phase i).isQuiet

/-- The permit that is out is kept by someone, or will be given to a future that is kept; and who
returned `Pending` and is ready was woken. -/
def NothingLost (s : State) : Prop :=
  (s.isRunning = true →
    ∃ i < s.count, s.phase i = .permit ∨ (s.phase i).isLive ∧ s.isReady i = true) ∧
  ∀ i < s.count, s.phase i = .idle true → s.isReady i = true → s.woken i = true

instance decidableQuiet (s : State) : Decidable (Quiet s) :=
  inferInstanceAs (Decidable (∀ i < s.count, (s.phase i).isQuiet = true))

instance decidableNothingLost (s : State) : Decidable (NothingLost s) :=
  inferInstanceAs (Decidable ((_ → _) ∧ _))

/-- A future whose drop has read that it is not ready is still in the list when `is_future_dropped`
is raised; and a future that has become ready since a poll has read that it is not, is still to be
woken when the waker is registered. -/
def Guard (s : State) : Step → Prop
  | .dropRaise i => s.phase i = .dropping → i ∈ s.items
  | .pollRegister i =>
    s.phase i = .polling → s.isReady i = true → ∃ k < s.count, s.phase k = .waking i
  | _ => True

variable {s s' : State} {i : ℕ} {phase : Phase}

/-! ### Wake-ups -/

/-- Who returned `Pending` has its last waker registered or woken, and was woken, or is about to be,
once it is ready. -/
structure WakerKept (s : State) : Prop where
  waker : ∀ i, s.phase i = .idle true → s.registered i = true ∨ s.woken i = true
  wakes : ∀ i, s.phase i = .idle true → s.isReady i = true →
    s.woken i = true ∨ ∃ k, s.phase k = .waking i

/-- A step that moves one future on, which was not about to wake another. -/
lemma WakerKept.move (h : WakerKept s) (hphase : s'.phase = Function.update s.phase i phase)
    (hsame : ∀ j ≠ i, s'.isReady j = s.isReady j ∧ s'.registered j = s.registered j ∧
      s'.woken j = s.woken j) (hwaking : ∀ j, s.phase i ≠ .waking j)
    (hidle : phase = .idle true → (s'.registered i = true ∨ s'.woken i = true) ∧
      (s'.isReady i = true → ∃ k, k ≠ i ∧ s.phase k = .waking i)) : WakerKept s' := by
  obtain ⟨hself, hother⟩ := phase_of_update hphase
  constructor
  · intro j hj
    by_cases hji : j = i
    · subst hji
      exact (hidle (hself ▸ hj)).1
    · obtain ⟨-, hregistered, hwoken⟩ := hsame j hji
      rw [hregistered, hwoken]
      exact h.waker j (hother j hji ▸ hj)
  · intro j hj hready
    by_cases hji : j = i
    · subst hji
      obtain ⟨k, hkj, hk⟩ := (hidle (hself ▸ hj)).2 hready
      exact .inr ⟨k, by rw [hother k hkj, hk]⟩
    · obtain ⟨hready', -, hwoken⟩ := hsame j hji
      rw [hwoken]
      refine (h.wakes j (hother j hji ▸ hj) (hready' ▸ hready)).imp_right ?_
      rintro ⟨k, hk⟩
      have hki : k ≠ i := by
        rintro rfl
        exact hwaking j hk
      exact ⟨k, by rw [hother k hki, hk]⟩

lemma Inv.phase_count (h : Inv s) : s.phase s.count = .gone := by
  by_contra hne
  exact lt_irrefl _ (h.lt_count _ hne)

lemma WakerKept.acquire (hinv : Inv s) (h : WakerKept s) : WakerKept s.acquire := by
  have hgone := hinv.phase_count
  unfold State.acquire
  split_ifs <;>
    exact h.move rfl (fun j hj => by simp [hj]) (by simp [hgone]) (by simp)

lemma WakerKept.raiseNextReady (h : WakerKept s) (i : ℕ) : WakerKept (s.raiseNextReady i) := by
  unfold State.raiseNextReady
  split
  · next next hi =>
    constructor
    · exact fun j hj => h.waker j (of_update hj (by simp)).2
    · intro j hj hready
      by_cases hjn : j = next
      · exact .inr ⟨i, by simp [hjn]⟩
      · have hidle := (of_update hj (by simp)).2
        refine (h.wakes j hidle (by simpa [hjn] using hready)).imp_right ?_
        rintro ⟨k, hk⟩
        have hki : k ≠ i := by
          rintro rfl
          simp [hi] at hk
        exact ⟨k, by simpa [hki] using hk⟩
  · exact h

/-- Whose waker is registered is woken, and who is woken stays so. -/
lemma WakerKept.raiseNextWake (h : WakerKept s) (i : ℕ) : WakerKept (s.raiseNextWake i) := by
  unfold State.raiseNextWake
  split
  · next next hi =>
    have hphase : ∀ j, Function.update s.phase i .gone j = .idle true → s.phase j = .idle true :=
      fun j hj => (of_update hj (by simp)).2
    constructor
    · intro j hj
      have hwaker := h.waker j (hphase j hj)
      by_cases hjn : j = next
      · subst hjn
        simpa [or_comm] using hwaker
      · simpa [hjn] using hwaker
    · intro j hj hready
      by_cases hjn : j = next
      · subst hjn
        have hwaker := h.waker j (hphase j hj)
        exact .inl (by simpa [or_comm] using hwaker)
      · refine (h.wakes j (hphase j hj) hready).imp (by simp [hjn]) ?_
        rintro ⟨k, hk⟩
        have hki : k ≠ i := by
          rintro rfl
          exact hjn (by simpa [hi, eq_comm] using hk)
        exact ⟨k, by simpa [hki] using hk⟩
  · exact h

lemma WakerKept.step (hinv : Inv s) (h : WakerKept s) (step : Step) (hguard : Guard s step) :
    WakerKept (machine.step s step) := by
  cases step with
  | acquire => exact h.acquire hinv
  | pollRead i | dropRead i =>
    simp only [machine, State.pollRead, State.dropRead]
    split
    · next hi =>
      split_ifs <;> exact h.move rfl (fun _ _ => ⟨rfl, rfl, rfl⟩) (by simp [hi]) (by simp)
    · exact h
  | pollRegister i =>
    simp only [machine, State.pollRegister]
    split
    · next hi =>
      refine h.move rfl (fun j hj => by simp [State.setPhase, hj]) (by simp [hi]) fun _ => ?_
      refine ⟨by simp, fun hready => ?_⟩
      obtain ⟨k, -, hk⟩ := hguard hi hready
      exact ⟨k, fun hki => by simp [hki, hi] at hk, hk⟩
    · exact h
  | dropRaise i | dropPermit i =>
    simp only [machine, State.dropRaise, State.dropPermit]
    split
    · next hi => exact h.move rfl (fun _ _ => ⟨rfl, rfl, rfl⟩) (by simp [hi]) (by simp)
    · exact h
  | raiseNextLock i =>
    simp only [machine, State.raiseNextLock]
    split
    · next hi =>
      split <;> exact h.move rfl (fun _ _ => ⟨rfl, rfl, rfl⟩) (by simp [hi]) (by simp)
    · exact h
  | raiseNextReady i => exact h.raiseNextReady i
  | raiseNextWake i => exact h.raiseNextWake i

/-! ### The permit -/

/-- The permit that is out is with someone, and who it is passed to is there to take it. -/
structure PermitKept (s : State) : Prop where
  holder : s.isRunning = true → ∃ i, Holds s i
  raising : ∀ i next, s.phase i = .raising next → (s.phase next).isLive

lemma PermitKept.move (h : PermitKept s) (hphase : s'.phase = Function.update s.phase i phase)
    (hready : ∀ j ≠ i, s'.isReady j = s.isReady j) (hrunning : s'.isRunning = s.isRunning)
    (hholds : Holds s i → Holds s' i) (hraising : ∀ next, phase ≠ .raising next)
    (hlive : ∀ k, s.phase k = .raising i → phase.isLive) : PermitKept s' := by
  obtain ⟨hself, hother⟩ := phase_of_update hphase
  constructor
  · rw [hrunning]
    intro hrun
    obtain ⟨j, hj⟩ := h.holder hrun
    by_cases hji : j = i
    · exact ⟨i, hholds (hji ▸ hj)⟩
    · exact ⟨j, by simpa only [Holds, ReadyLive, hother j hji, hready j hji] using hj⟩
  · intro k next hk
    obtain ⟨-, hk⟩ := of_update (hphase ▸ hk) (hraising next)
    by_cases hni : next = i
    · subst hni
      rw [hself]
      exact hlive k hk
    · rw [hother next hni]
      exact h.raising k next hk

lemma PermitKept.acquire (hinv : Inv s) (h : PermitKept s) : PermitKept s.acquire := by
  unfold State.acquire
  split_ifs with hrunning
  · refine h.move rfl (fun j hj => by simp [hj]) rfl (fun hholds => ?_) (by simp) fun _ _ => rfl
    simp [hinv.phase_count] at hholds
  · refine ⟨fun _ => ⟨s.count, .inl ?_⟩, fun k next hk => ?_⟩
    · simp
    · have hraising := (of_update hk (by simp)).2
      exact absurd (hinv.running k (holds_of_raising hraising)) hrunning

/-- Who is taken out of the list was not dropped. -/
lemma PermitKept.raiseNextLock (hinv : Inv s) (h : PermitKept s) (i : ℕ) :
    PermitKept (s.raiseNextLock i) := by
  unfold State.raiseNextLock
  split
  · next hi =>
    have hholds : Holds s i := .inr (by rw [hi]; rfl)
    have hnot : ∀ k next, k ≠ i → s.phase k ≠ .raising next :=
      fun k next hki hk => hinv.not_holds hholds hki (holds_of_raising hk)
    split
    · refine ⟨by simp, fun k next hk => ?_⟩
      obtain ⟨hki, hk⟩ := of_update hk (by simp)
      exact absurd hk (hnot k next hki)
    · next next rest hrest =>
      refine ⟨fun _ => ⟨i, .inr (by simp)⟩, fun k other hk => ?_⟩
      by_cases hki : k = i
      · obtain rfl : next = other := by simpa [hki] using hk
        have hwaits := hinv.waits next (List.dropWhile_subset _ (hrest ▸ List.mem_cons_self))
        have hni := hwaits.ne hholds
        have hdropped : s.isFutureDropped next = false := by
          have := List.head?_dropWhile_not s.isFutureDropped s.items
          simpa [hrest] using this
        simpa [hni, hdropped] using hwaits.2
      · exact absurd (by simpa [hki] using hk) (hnot k other hki)
  · exact h

/-- Who is raised is there, and has the permit then. -/
lemma PermitKept.raiseNextReady (hinv : Inv s) (h : PermitKept s) (i : ℕ) :
    PermitKept (s.raiseNextReady i) := by
  unfold State.raiseNextReady
  split
  · next next hi =>
    have hholds := holds_of_raising hi
    have hni := (hinv.raising i next hi).1.ne hholds
    refine ⟨fun _ => ⟨next, .inl ?_⟩, fun k other hk => ?_⟩
    · simpa [hni] using h.raising i next hi
    · obtain ⟨hki, hraising⟩ := of_update (s := s) hk (by simp)
      exact absurd (holds_of_raising hraising) (hinv.not_holds hholds hki)
  · exact h

lemma PermitKept.step (hinv : Inv s) (h : PermitKept s) (step : Step) (hguard : Guard s step) :
    PermitKept (machine.step s step) := by
  cases step with
  | acquire => exact h.acquire hinv
  | pollRead i | dropRead i =>
    simp only [machine, State.pollRead, State.dropRead]
    split
    · next hi =>
      split_ifs with hready
      · have hholds : Holds s i := .inl ⟨by rw [hi]; rfl, hready⟩
        exact h.move rfl (fun _ _ => rfl) rfl (fun _ => .inr (by simp)) (by simp)
          fun k hk => ((hinv.raising k i hk).1.not_holds hholds).elim
      · refine h.move rfl (fun _ _ => rfl) rfl ?_ (by simp) fun _ _ => rfl
        simp [hi, hready]
    · exact h
  | pollRegister i =>
    simp only [machine, State.pollRegister]
    split
    · next hi =>
      refine h.move rfl (fun _ _ => rfl) rfl ?_ (by simp) fun _ _ => rfl
      simp [hi]
    · exact h
  | dropRaise i =>
    simp only [machine, State.dropRaise]
    split
    · next hi =>
      have hmem := hguard hi
      refine h.move rfl (fun _ _ => rfl) rfl
        (fun hholds => absurd hholds (hinv.waits i hmem).not_holds) (by simp) fun k hk => ?_
      exact absurd ((hinv.raising k i hk).2.2.1 i hmem) (lt_irrefl i)
    · exact h
  | dropPermit i =>
    simp only [machine, State.dropPermit]
    split
    · next hi =>
      have hholds : Holds s i := .inr (by rw [hi]; rfl)
      exact h.move rfl (fun _ _ => rfl) rfl (fun _ => .inr (by simp)) (by simp)
        fun k hk => ((hinv.raising k i hk).1.not_holds hholds).elim
    · exact h
  | raiseNextLock i => exact h.raiseNextLock hinv i
  | raiseNextReady i => exact h.raiseNextReady hinv i
  | raiseNextWake i =>
    simp only [machine, State.raiseNextWake]
    split
    · next next hi =>
      refine h.move rfl (fun _ _ => rfl) rfl (fun hholds => ?_) (by simp) fun k hk => ?_
      · simp [hi] at hholds
      · have hlive := h.raising k i hk
        simp [hi] at hlive
    · exact h

/-! ### Runs -/

/-- What holds as long as nothing is lost. -/
structure Safe (s : State) : Prop where
  inv : Inv s
  permit : PermitKept s
  waker : WakerKept s

lemma safe_init : Safe init := by
  refine ⟨inv_init, ⟨?_, ?_⟩, ⟨?_, ?_⟩⟩ <;> simp [init]

lemma Safe.step (h : Safe s) (step : Step) (hguard : Guard s step) : Safe (machine.step s step) :=
  ⟨h.inv.step step, h.permit.step h.inv step hguard, h.waker.step h.inv step hguard⟩

lemma Safe.nothingLost (h : Safe s) (hquiet : Quiet s) : NothingLost s := by
  constructor
  · intro hrunning
    obtain ⟨i, hi⟩ := h.permit.holder hrunning
    have hgone : s.phase i ≠ .gone := by
      intro hgone
      simp [hgone] at hi
    have hlt := h.inv.lt_count i hgone
    refine ⟨i, hlt, ?_⟩
    rcases hi with hready | hpermit
    · exact .inr hready
    · have hquiet := hquiet i hlt
      revert hpermit hquiet
      cases s.phase i <;> simp [Phase.isQuiet]
  · intro i hlt hidle hready
    rcases h.waker.wakes i hidle hready with hwoken | ⟨k, hk⟩
    · exact hwoken
    · have hquiet := hquiet k (h.inv.lt_count k (by simp [hk]))
      simp [hk, Phase.isQuiet] at hquiet

/-- When no operation is in progress, neither the permit nor a wake-up was lost, if every future
that was dropped was in the list when `is_future_dropped` was raised, and every waker of a future
that had become ready was registered before it was to be woken. -/
theorem run_nothingLost (steps : List Step) (hguard : machine.Along Guard init steps)
    (hquiet : Quiet (machine.run init steps)) : NothingLost (machine.run init steps) := by
  have hsafe := Machine.run_invariant_of_along
    (fun _ step hstep h => h.step step hstep) safe_init steps hguard
  exact hsafe.nothingLost hquiet

def handOver : List Step :=
  [.acquire, .acquire, .pollRead 0, .pollRead 1, .pollRegister 1, .dropPermit 0, .raiseNextLock 0,
    .raiseNextReady 0, .raiseNextWake 0]

theorem run_nothingLost_handOver :
    (machine.run init handOver).isRunning = true ∧ NothingLost (machine.run init handOver) :=
  ⟨by decide, run_nothingLost handOver
    ⟨trivial, trivial, trivial, trivial, fun _ h => by revert h; decide, trivial, trivial, trivial,
      trivial, trivial⟩ (by decide)⟩

/-- The permit is passed on to a future whose drop has read that it is not ready, and nobody has it
then. A future is woken between its poll's reading and registering, and not again. -/
theorem run_loses :
    (let s := machine.run init [.acquire, .acquire, .pollRead 0, .dropRead 1, .dropPermit 0,
      .raiseNextLock 0, .raiseNextReady 0, .raiseNextWake 0, .dropRaise 1]
    Quiet s ∧ s.isRunning = true ∧ s.phase 0 = .gone ∧ s.phase 1 = .gone ∧ ¬ NothingLost s) ∧
    (let s := machine.run init [.acquire, .acquire, .pollRead 0, .pollRead 1, .dropPermit 0,
      .raiseNextLock 0, .raiseNextReady 0, .raiseNextWake 0, .pollRegister 1]
    Quiet s ∧ s.phase 1 = .idle true ∧ s.isReady 1 = true ∧ s.registered 1 = true ∧
      s.woken 1 = false ∧ ¬ NothingLost s) := by
  decide

end Deno.TaskQueue
