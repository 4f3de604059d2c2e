import Deno.Core.Machine
import Mathlib.Order.Lattice
import Mathlib.Algebra.Ring.Nat

/-!
# The task queue

A `TaskQueue` gives out one permit at a time. Threads take steps on it in any order; a step is a
section under the lock, or one operation on a flag or a waker outside of it.
-/

namespace Deno.TaskQueue

open Core List Function

/-- What the owner of a future is doing with it, or with the permit it has become. -/
inductive Phase where
  /-- The future is kept; the last poll, if there was one, returned `Pending` or not. -/
  | idle (pended : Bool)
  /-- A poll has read that the future is not ready, and will register its waker. -/
  | polling
  /-- The future has given its permit, which is kept. -/
  | permit
  /-- A drop has read that the future is not ready, and will raise `is_future_dropped`. -/
  | dropping
  /-- `raise_next` was called and has not taken the lock. -/
  | releasing
  /-- `raise_next` has taken the next future out of the list, and will raise its `is_ready`. -/
  | raising (next : ℕ)
  /-- `raise_next` has raised `is_ready` of the next future, and will wake it. -/
  | waking (next : ℕ)
  /-- The future, and its permit, were dropped. -/
  | gone
  deriving DecidableEq

/-- The queue, and the items of all its futures. A future is the number of the `acquire` that made
it. -/
structure State where
  isRunning : Bool
  items : List ℕ
  count : ℕ
  phase : ℕ → Phase
  isReady : ℕ → Bool
  isFutureDropped : ℕ → Bool
  /-- A waker was registered and not taken since. -/
  registered : ℕ → Bool
  /-- The waker that was registered last was woken. -/
  woken : ℕ → Bool
  /-- The futures that have given a permit, in the order in which they did. -/
  obtained : List ℕ

def init : State where
  isRunning := false
  items := []
  count := 0
  phase _ := .gone
  isReady _ := false
  isFutureDropped _ := false
  registered _ := false
  woken _ := false
  obtained := []

namespace State

variable (s : State)

section

variable (i : ℕ)

def setPhase (phase : Phase) : State :=
  { s with phase := update s.phase i phase }

def raiseReady : State := { s with isReady := update s.isReady i true }

def newItem : State :=
  { s.setPhase s.count (.idle false) with
    count := s.count + 1
    isReady := update s.isReady s.count false
    isFutureDropped := update s.isFutureDropped s.count false
    registered := update s.registered s.count false
    woken := update s.woken s.count false }

/-- `TaskQueuePermitAcquireFuture::new`, all of it under the lock. -/
def acquire : State :=
  if s.isRunning then { s.newItem with items := s.items ++ [s.count] }
  else { s.newItem.raiseReady s.count with isRunning := true }

def pollRead : State :=
  match s.phase i with
  | .idle _ =>
    if s.isReady i then { s.setPhase i .permit with obtained := s.obtained ++ [i] }
    else s.setPhase i .polling
  | _ => s

/-- The poll registers its waker and returns `Pending`. -/
def pollRegister : State :=
  match s.phase i with
  | .polling =>
    { s.setPhase i (.idle true) with
      registered := update s.registered i true
      woken := update s.woken i false }
  | _ => s

def dropRead : State :=
  match s.phase i with
  | .idle _ => s.setPhase i (if s.isReady i then .releasing else .dropping)
  | _ => s

def dropRaise : State :=
  match s.phase i with
  | .dropping =>
    { s.setPhase i .gone with isFutureDropped := update s.isFutureDropped i true }
  | _ => s

def dropPermit : State :=
  match s.phase i with
  | .permit => s.setPhase i .releasing
  | _ => s

/-- The section of `raise_next` under the lock. -/
def raiseNextLock : State :=
  match s.phase i with
  | .releasing =>
    match s.items.dropWhile s.isFutureDropped with
    | [] => { s.setPhase i .gone with items := [], isRunning := false }
    | next :: rest => { s.setPhase i (.raising next) with items := rest, isRunning := true }
  | _ => s

def raiseNextReady : State :=
  match s.phase i with
  | .raising next => (s.raiseReady next).setPhase i (.waking next)
  | _ => s

def raiseNextWake : State :=
  match s.phase i with
  | .waking next =>
    { s.setPhase i .gone with
      registered := update s.registered next false
      woken := update s.woken next (s.woken next || s.registered next) }
  | _ => s

end

end State

inductive Step where
  | acquire
  | pollRead (i : ℕ)
  | pollRegister (i : ℕ)
  | dropRead (i : ℕ)
  | dropRaise (i : ℕ)
  | dropPermit (i : ℕ)
  | raiseNextLock (i : ℕ)
  | raiseNextReady (i : ℕ)
  | raiseNextWake (i : ℕ)
  deriving DecidableEq

def machine : Machine State Step where
  step s
    | .acquire => s.acquire
    | .pollRead i => s.pollRead i
    | .pollRegister i => s.pollRegister i
    | .dropRead i => s.dropRead i
    | .dropRaise i => s.dropRaise i
    | .dropPermit i => s.dropPermit i
    | .raiseNextLock i => s.raiseNextLock i
    | .raiseNextReady i => s.raiseNextReady i
    | .raiseNextWake i => s.raiseNextWake i

/-! ### The permit -/

/-- The future is kept, or its drop has not ended. -/
def Phase.isLive : Phase → Bool
  | idle _ | polling | dropping => true
  | _ => false

/-- The future has given its permit, which was not passed on. -/
def Phase.isPermit : Phase → Bool
  | permit | releasing | raising _ => true
  | _ => false

/-- A future that is kept and has its `is_ready` raised. -/
def ReadyLive (s : State) (i : ℕ) : Prop := (s.phase i).isLive ∧ s.isReady i = true

/-- The permit, or the right to pass it on, is with the future. -/
def Holds (s : State) (i : ℕ) : Prop := ReadyLive s i ∨ (s.phase i).isPermit

/-- The future waits for the permit, or was dropped while it did. -/
def Waits (s : State) (i : ℕ) : Prop :=
  s.isReady i = false ∧ ((s.phase i).isLive ∨ s.phase i = .gone ∧ s.isFutureDropped i = true)

/-- The permits go to `i` after those who had one, and before those in the list. -/
def InTurn (s : State) (i : ℕ) : Prop :=
  (∀ j ∈ s.obtained, j < i) ∧ (∀ j ∈ s.items, i < j) ∧ i < s.count

/-- What holds between the flags, the list and the futures. -/
structure Inv (s : State) : Prop where
  unique : ∀ i j, Holds s i → Holds s j → i = j
  running : ∀ i, Holds s i → s.isRunning = true
  items_nil : s.isRunning = false → s.items = []
  waits : ∀ j ∈ s.items, Waits s j
  raising : ∀ i next, s.phase i = .raising next → Waits s next ∧ InTurn s next
  ready : ∀ i, ReadyLive s i → InTurn s i
  lt_count : ∀ i, s.phase i ≠ .gone → i < s.count
  sorted : (s.obtained ++ s.items).Pairwise (· < ·)
  bounded : ∀ j ∈ s.obtained ++ s.items, j < s.count

attribute [simp] Phase.isLive Phase.isPermit ReadyLive Holds Waits State.newItem State.raiseReady

lemma inv_init : Inv init := by
  constructor <;> simp [init]

variable {s s' : State} {i : ℕ} {phase : Phase}

lemma phase_of_update (h : s'.phase = update s.phase i phase) :
    s'.phase i = phase ∧ ∀ j ≠ i, s'.phase j = s.phase j := by
  rw [h]
  exact ⟨update_self .., fun j hj => update_of_ne hj ..⟩

lemma of_update {j : ℕ} {p : Phase} (h : update s.phase i phase j = p) (hne : phase ≠ p) :
    j ≠ i ∧ s.phase j = p := by
  have hji : j ≠ i := by
    rintro rfl
    exact hne (by simpa using h)
  exact ⟨hji, by simpa [hji] using h⟩

lemma Inv.lt_of_update (h : Inv s) {n j : ℕ} (hi : i < n) (hn : s.count ≤ n)
    (hj : update s.phase i phase j ≠ .gone) : j < n := by
  by_cases hji : j = i
  · exact hji ▸ hi
  · exact (h.lt_count j (by simpa [hji] using hj)).trans_le hn

/-- A step that only moves one future on, without the permit coming to it. -/
lemma Inv.move (h : Inv s) (hphase : s'.phase = update s.phase i phase)
    (hready : s'.isReady = s.isReady) (hrunning : s'.isRunning = s.isRunning)
    (hitems : s'.items = s.items) (hcount : s'.count = s.count)
    (hobtained : s'.obtained = s.obtained)
    (hdropped : ∀ j ≠ i, s'.isFutureDropped j = s.isFutureDropped j)
    (hholds : Holds s' i → Holds s i) (hwaits : Waits s i → Waits s' i)
    (hlive : phase.isLive → (s.phase i).isLive) (hraising : ∀ next, phase ≠ .raising next)
    (hgone : s.phase i ≠ .gone) : Inv s' := by
  obtain ⟨hself, hother⟩ := phase_of_update hphase
  have hholds' : ∀ j, Holds s' j → Holds s j := by
    intro j
    by_cases hj : j = i
    · exact hj ▸ hholds
    · simp [hother j hj, hready]
  have hwaits' : ∀ j, Waits s j → Waits s' j := by
    intro j
    by_cases hj : j = i
    · exact hj ▸ hwaits
    · simp [hother j hj, hready, hdropped j hj]
  have hturn : ∀ j, InTurn s j → InTurn s' j := by
    intro j hj
    rwa [InTurn, hobtained, hitems, hcount]
  refine ⟨fun j k hj hk => h.unique j k (hholds' j hj) (hholds' k hk), fun j hj => ?_, ?_, ?_, ?_,
    ?_, ?_, ?_, ?_⟩
  · rw [hrunning]
    exact h.running j (hholds' j hj)
  · rw [hrunning, hitems]
    exact h.items_nil
  · rw [hitems]
    exact fun j hj => hwaits' j (h.waits j hj)
  · intro j next hj
    obtain ⟨-, hj⟩ := of_update (hphase ▸ hj) (hraising next)
    exact ⟨hwaits' next (h.raising j next hj).1, hturn next (h.raising j next hj).2⟩
  · rintro j ⟨hj, hjready⟩
    rw [hready] at hjready
    refine hturn j (h.ready j ⟨?_, hjready⟩)
    by_cases hji : j = i
    · subst hji
      rw [hself] at hj
      exact hlive hj
    · rwa [hother j hji] at hj
  · rw [hcount, hphase]
    exact fun j => h.lt_of_update (h.lt_count i hgone) le_rfl
  · rw [hobtained, hitems]
    exact h.sorted
  · rw [hobtained, hitems, hcount]
    exact h.bounded

lemma Inv.setPhase (h : Inv s) (hholds : Holds (s.setPhase i phase) i → Holds s i)
    (hwaits : Waits s i → Waits (s.setPhase i phase) i)
    (hlive : phase.isLive → (s.phase i).isLive) (hraising : ∀ next, phase ≠ .raising next)
    (hgone : s.phase i ≠ .gone) : Inv (s.setPhase i phase) :=
  h.move rfl rfl rfl rfl rfl rfl (fun _ _ => rfl) hholds hwaits hlive hraising hgone

@[simp] lemma State.phase_setPhase : (s.setPhase i phase).phase = update s.phase i phase :=
  rfl

@[simp] lemma State.isReady_setPhase : (s.setPhase i phase).isReady = s.isReady := rfl

@[simp] lemma State.isFutureDropped_setPhase :
    (s.setPhase i phase).isFutureDropped = s.isFutureDropped := rfl

@[simp] lemma State.items_setPhase : (s.setPhase i phase).items = s.items := rfl

lemma Inv.not_holds (h : Inv s) (hi : Holds s i) {j : ℕ} (hj : j ≠ i) : ¬ Holds s j :=
  fun hholds => hj (h.unique j i hholds hi)

lemma holds_of_raising {next : ℕ} (h : s.phase i = .raising next) : Holds s i :=
  .inr (by rw [h]; rfl)

lemma Waits.not_holds (h : Waits s i) : ¬ Holds s i := by
  obtain ⟨hready, hlive | ⟨hgone, -⟩⟩ := h
  · rintro (⟨-, habsurd⟩ | hpermit)
    · simp [hready] at habsurd
    · revert hlive hpermit
      cases s.phase i <;> simp
  · simp [hgone]

lemma Waits.ne {j : ℕ} (h : Waits s j) (hi : Holds s i) : j ≠ i := by
  rintro rfl
  exact h.not_holds hi

/-- Where only `k` can have the permit, the rest is to be seen of `k`. -/
lemma Inv.of_holder {k : ℕ} (honly : ∀ j, Holds s j → j = k) (hrunning : s.isRunning = true)
    (hwaits : ∀ j ∈ s.items, Waits s j)
    (hraising : ∀ next, s.phase k = .raising next → Waits s next ∧ InTurn s next)
    (hready : ReadyLive s k → InTurn s k) (hcount : ∀ i, s.phase i ≠ .gone → i < s.count)
    (hsorted : (s.obtained ++ s.items).Pairwise (· < ·))
    (hbounded : ∀ j ∈ s.obtained ++ s.items, j < s.count) : Inv s where
  unique i j hi hj := (honly i hi).trans (honly j hj).symm
  running _ _ := hrunning
  items_nil h := by simp [hrunning] at h
  waits := hwaits
  raising i next h := by
    obtain rfl := honly i (holds_of_raising h)
    exact hraising next h
  ready i h := by
    obtain rfl := honly i (.inl h)
    exact hready h
  lt_count := hcount
  sorted := hsorted
  bounded := hbounded

/-- The one whose turn it is goes between those who had a permit and those in the list. -/
lemma InTurn.sorted (h : InTurn s i) (hsorted : (s.obtained ++ s.items).Pairwise (· < ·)) :
    ((s.obtained ++ [i]) ++ s.items).Pairwise (· < ·) := by
  obtain ⟨hobtained, hitems, hcross⟩ := List.pairwise_append.mp hsorted
  rw [append_assoc, singleton_append, pairwise_append, pairwise_cons]
  refine ⟨hobtained, ⟨h.2.1, hitems⟩, fun a ha => ?_⟩
  exact List.forall_mem_cons.mpr ⟨h.1 a ha, hcross a ha⟩

lemma Inv.pollRead (h : Inv s) (i : ℕ) : Inv (s.pollRead i) := by
  unfold State.pollRead
  split
  · next hi =>
    split_ifs with hready
    · have hlive : ReadyLive s i := ⟨by rw [hi]; rfl, hready⟩
      have hturn := h.ready i hlive
      refine Inv.of_holder (k := i) (fun j hj => ?_) (h.running i (.inl hlive)) (fun j hj => ?_)
        (by simp) (by simp) (fun j => h.lt_of_update hturn.2.2 le_rfl) (hturn.sorted h.sorted) ?_
      · by_contra hji
        refine h.not_holds (.inl hlive) hji ?_
        simpa [hji] using hj
      · have hji : j ≠ i := (hturn.2.1 j hj).ne'
        simpa [hji] using h.waits j hj
      · intro j hj
        rw [append_assoc, mem_append, singleton_append, mem_cons] at hj
        rcases hj with hj | rfl | hj
        · exact h.bounded j (mem_append_left _ hj)
        · exact hturn.2.2
        · exact h.bounded j (mem_append_right _ hj)
    · refine h.setPhase ?_ ?_ ?_ ?_ ?_ <;>
        simp_all
  · exact h

/-- A new future takes the permit if nobody has it, and else waits at the end of the list. -/
lemma Inv.acquire (h : Inv s) : Inv s.acquire := by
  have hcount : ∀ j, s.newItem.phase j ≠ .gone → j < s.count + 1 :=
    fun j => h.lt_of_update (Nat.lt_succ_self _) (Nat.le_succ _)
  unfold State.acquire
  split_ifs with hrunning
  · have hholds : ∀ j, Holds { s.newItem with items := s.items ++ [s.count] } j → Holds s j := by
      intro j hj
      have hjc : j ≠ s.count := by
        rintro rfl
        simp at hj
      simpa [hjc] using hj
    have hwaits : ∀ j, j < s.count → Waits s j →
        Waits { s.newItem with items := s.items ++ [s.count] } j := by
      intro j hj
      simp [hj.ne]
    have hturn : ∀ j, InTurn s j → InTurn { s.newItem with items := s.items ++ [s.count] } j := by
      rintro j ⟨hbefore, hafter, hlt⟩
      refine ⟨hbefore, fun k hk => ?_, hlt.trans (Nat.lt_succ_self _)⟩
      rcases List.mem_append.mp hk with hk | hk
      · exact hafter k hk
      · exact List.mem_singleton.mp hk ▸ hlt
    refine ⟨fun j k hj hk => h.unique j k (hholds j hj) (hholds k hk), fun _ _ => hrunning,
      fun hfalse => ?_, fun j hj => ?_, fun j next hj => ?_, fun j hj => ?_, hcount, ?_, ?_⟩
    · exact absurd (hrunning.symm.trans hfalse) (by simp)
    · rcases List.mem_append.mp hj with hj | hj
      · exact hwaits j (h.bounded j (mem_append_right _ hj)) (h.waits j hj)
      · rw [List.mem_singleton.mp hj]
        simp
    · have hraising := h.raising j next (of_update hj (by simp)).2
      exact ⟨hwaits next hraising.2.2.2 hraising.1, hturn next hraising.2⟩
    · have hjc : j ≠ s.count := by
        rintro rfl
        simp at hj
      exact hturn j (h.ready j (by simpa [hjc] using hj))
    · rw [← append_assoc, pairwise_append]
      refine ⟨h.sorted, pairwise_singleton _ _, fun j hj k hk => ?_⟩
      exact List.mem_singleton.mp hk ▸ h.bounded j hj
    · intro j hj
      rw [← append_assoc] at hj
      rcases List.mem_append.mp hj with hj | hj
      · exact (h.bounded j hj).trans (Nat.lt_succ_self _)
      · rw [List.mem_singleton.mp hj]
        exact Nat.lt_succ_self _
  · rw [Bool.not_eq_true] at hrunning
    have hnone : ∀ j, ¬ Holds s j := fun j hj => by simp [h.running j hj] at hrunning
    have hnil := h.items_nil hrunning
    refine Inv.of_holder (k := s.count) (fun j hj => ?_) rfl (fun j hj => ?_) ?_ (fun _ => ?_)
      hcount h.sorted fun j hj => (h.bounded j hj).trans (Nat.lt_succ_self _)
    · by_contra hjc
      refine hnone j ?_
      simpa [hjc] using hj
    · simp [hnil] at hj
    · simp
    · refine ⟨fun j hj => h.bounded j (mem_append_left _ hj), ?_, Nat.lt_succ_self _⟩
      simp [hnil]

/-- The permit goes on to the first in the list that was not dropped. -/
lemma Inv.raiseNextLock (h : Inv s) (i : ℕ) : Inv (s.raiseNextLock i) := by
  unfold State.raiseNextLock
  split
  · next hi =>
    have hholds : Holds s i := .inr (by rw [hi]; rfl)
    have hnot : ∀ j ≠ i, ¬ Holds s j := fun j => h.not_holds hholds
    have hcount : ∀ phase j, update s.phase i phase j ≠ .gone → j < s.count :=
      fun _ _ => h.lt_of_update (h.lt_count i (by simp [hi])) le_rfl
    split
    · have hnone : ∀ j, ¬ Holds { s.setPhase i .gone with items := [] } j := by
        intro j hj
        by_cases hji : j = i
        · simp [hji] at hj
        · exact hnot j hji (by simpa [hji] using hj)
      refine ⟨fun j k hj => absurd hj (hnone j), fun j hj => absurd hj (hnone j), fun _ => rfl,
        by simp, fun j next hj => absurd (holds_of_raising hj) (hnone j),
        fun j hj => absurd (.inl hj) (hnone j), hcount .gone, ?_, ?_⟩
      · rw [append_nil]
        exact (List.pairwise_append.mp h.sorted).1
      · intro j hj
        rw [append_nil] at hj
        exact h.bounded j (mem_append_left _ hj)
    · next next rest hrest =>
      obtain ⟨before, hitems⟩ : ∃ before, s.items = before ++ next :: rest :=
        ⟨_, (hrest ▸ takeWhile_append_dropWhile).symm⟩
      have hmem : ∀ j ∈ next :: rest, j ∈ s.items := by simp +contextual [hitems]
      have hwaits : ∀ j ∈ next :: rest, Waits { s.setPhase i (.raising next) with
          items := rest } j := by
        intro j hj
        have hji := (h.waits j (hmem j hj)).ne hholds
        simpa [hji] using h.waits j (hmem j hj)
      have hsorted : (s.obtained ++ next :: rest).Pairwise (· < ·) := by
        refine h.sorted.sublist (List.Sublist.append_left ?_ s.obtained)
        rw [hitems]
        exact sublist_append_right before _
      obtain ⟨hobtained, hnext, hcross⟩ := List.pairwise_append.mp hsorted
      refine Inv.of_holder (k := i) (fun j hj => ?_) rfl
        (fun j hj => hwaits j (mem_cons_of_mem _ hj)) (fun other hother => ?_)
        (by simp) (hcount (.raising next))
        (hsorted.sublist ((sublist_cons_self _ _).append_left _)) fun j hj => ?_
      · by_contra hji
        exact hnot j hji (by simpa [hji] using hj)
      · obtain rfl : next = other := by simpa using hother
        refine ⟨hwaits next mem_cons_self, fun j hj => hcross j hj next mem_cons_self,
          (List.pairwise_cons.mp hnext).1, ?_⟩
        exact h.bounded next (mem_append_right _ (hmem next mem_cons_self))
      · rcases List.mem_append.mp hj with hj | hj
        · exact h.bounded j (mem_append_left _ hj)
        · exact h.bounded j (mem_append_right _ (hmem j (mem_cons_of_mem _ hj)))
  · exact h

lemma Inv.raiseNextReady (h : Inv s) (i : ℕ) : Inv (s.raiseNextReady i) := by
  unfold State.raiseNextReady
  split
  · next next hi =>
    obtain ⟨hwaits, hturn⟩ := h.raising i next hi
    have hholds := holds_of_raising hi
    have hne := hwaits.ne hholds
    refine Inv.of_holder (fun j hj => ?_) (h.running i hholds) (fun j hj => ?_)
      (fun other hother => ?_) (fun _ => hturn)
      (fun j => h.lt_of_update (h.lt_count i (by simp [hi])) le_rfl) h.sorted h.bounded
    · by_contra hjn
      by_cases hji : j = i
      · simp [hji] at hj
      · refine h.not_holds hholds hji ?_
        simpa [hji, hjn] using hj
    · have hjn : j ≠ next := (hturn.2.1 j hj).ne'
      have hji := (h.waits j hj).ne hholds
      simpa [hji, hjn] using h.waits j hj
    · have hraising : s.phase next = .raising other := by
        simpa [hne] using hother
      exact absurd (holds_of_raising hraising) (h.not_holds hholds hne)
  · exact h

lemma Inv.step (h : Inv s) (step : Step) : Inv (machine.step s step) := by
  cases step with
  | acquire => exact h.acquire
  | pollRead i => exact h.pollRead i
  | raiseNextLock i => exact h.raiseNextLock i
  | raiseNextReady i => exact h.raiseNextReady i
  | pollRegister i | raiseNextWake i | dropRaise i | dropPermit i =>
    simp only [machine, State.pollRegister, State.raiseNextWake, State.dropRaise, State.dropPermit]
    split
    · next hi =>
      refine h.move rfl rfl rfl rfl rfl rfl (fun j hj => by simp [hj]) ?_ ?_ ?_ ?_ ?_ <;>
        simp_all
    · exact h
  | dropRead i =>
    simp only [machine, State.dropRead]
    split
    · next hi =>
      split_ifs <;> refine h.setPhase ?_ ?_ ?_ ?_ ?_ <;>
        simp_all
    · exact h

lemma inv_run (steps : List Step) : Inv (machine.run init steps) :=
  Machine.run_invariant (fun _ step h => h.step step) inv_init steps

/-- After any steps of any threads, at most one future has a permit, is ready to give one, or passes
one on; and the permits were obtained in the order of the futures. -/
theorem permit_unique_and_in_order (steps : List Step) :
    (∀ i j, Holds (machine.run init steps) i → Holds (machine.run init steps) j → i = j) ∧
      (machine.run init steps).obtained.Pairwise (· < ·) :=
  ⟨(inv_run steps).unique, (List.pairwise_append.mp (inv_run steps).sorted).1⟩

/-- After any steps of any threads, nobody waits or has a permit while the queue is not running, and
who is in the list waits. -/
theorem run_waits (steps : List Step) :
    ((machine.run init steps).isRunning = false →
      (machine.run init steps).items = [] ∧ ∀ i, ¬ Holds (machine.run init steps) i) ∧
    ∀ j ∈ (machine.run init steps).items, Waits (machine.run init steps) j := by
  have h := inv_run steps
  refine ⟨fun hrunning => ⟨h.items_nil hrunning, fun i hi => ?_⟩, h.waits⟩
  rw [h.running i hi] at hrunning
  cases hrunning

theorem run_waits_two : (machine.run init [.acquire, .acquire]).items = [1] ∧
    Waits (machine.run init [.acquire, .acquire]) 1 :=
  ⟨rfl, (run_waits _).2 1 (by decide)⟩

end Deno.TaskQueue
