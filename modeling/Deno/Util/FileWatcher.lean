import Deno.Core.Machine

/-!
# The file watcher

The receiver task hands changed paths over in a cell, where they replace those in it, and queues a
restart. The main loop starts an operation with what it takes from the cell, and the next one for
every restart.
-/

namespace Deno.Watcher

open Core List

inductive WatcherRestartMode where
  | automatic
  | manual

/-- Where the main loop is: on its way to an operation, with an operation that runs, or with one
that has finished. -/
inductive Phase where
  | starting
  | running
  | waiting
  deriving DecidableEq

variable {PathBuf : Type}

/-- A batch arrives, or an operation is started with the paths of the cell. -/
inductive Event (PathBuf : Type) where
  | received (batch : List PathBuf)
  | started (changedPaths : Option (List PathBuf))
  deriving DecidableEq

/-- The state of `watch_recv`, and for the record what has happened, the last event first. -/
structure State (PathBuf : Type) where
  phase : Phase
  changedPaths : Option (List PathBuf)
  restarts : ℕ
  broadcast : List (List PathBuf)
  log : List (Event PathBuf)

def new : State PathBuf := ⟨.starting, none, 0, [], []⟩

/-- The receiver task gets a batch; the main loop starts the operation, sees it finish, or receives
a restart. -/
inductive Action (PathBuf : Type) where
  | receive (batch : List PathBuf)
  | start
  | finish
  | restart

/-- An action that is not possible changes nothing. -/
def step (mode : WatcherRestartMode) (s : State PathBuf) : Action PathBuf → State PathBuf
  | .receive batch =>
    let s := { s with changedPaths := some batch, log := .received batch :: s.log }
    match mode with
    | .automatic => { s with restarts := s.restarts + 1 }
    | .manual => { s with broadcast := s.broadcast ++ [batch] }
  | .start =>
    if s.phase = .starting then
      { s with phase := .running, changedPaths := none, log := .started s.changedPaths :: s.log }
    else s
  | .finish => if s.phase = .running then { s with phase := .waiting } else s
  -- a restart is received in both `select!`s, and stops an operation that runs
  | .restart =>
    if s.phase ≠ .starting ∧ 0 < s.restarts then
      { s with phase := .starting, restarts := s.restarts - 1 }
    else s

def machine (mode : WatcherRestartMode) : Machine (State PathBuf) (Action PathBuf) := ⟨step mode⟩

/-- An operation knows of a batch if it is told its paths, or that everything may have changed. -/
def Event.Accounts (batch : List PathBuf) : Event PathBuf → Prop
  | .received _ => False
  | .started changedPaths => ∀ paths ∈ changedPaths, batch ⊆ paths

/-- No operation since its arrival knows of the batch. -/
def Missing (batch : List PathBuf) : List (Event PathBuf) → Prop
  | [] => False
  | event :: log => event = .received batch ∨ ¬ event.Accounts batch ∧ Missing batch log

lemma missing_of_append {batch : List PathBuf} {newer older : List (Event PathBuf)}
    (h : ∀ event ∈ newer, ¬ event.Accounts batch) :
    Missing batch (newer ++ .received batch :: older) := by
  induction newer with
  | nil => exact Or.inl rfl
  | cons event newer ih =>
    rw [forall_mem_cons] at h
    exact Or.inr ⟨h.1, ih h.2⟩

variable {s : State PathBuf}

/-- The operations that will be started even if no batch arrives any more. -/
def State.starts (s : State PathBuf) : ℕ := s.restarts + if s.phase = .starting then 1 else 0

lemma starts_receive (batch : List PathBuf) :
    (step .automatic s (.receive batch)).starts = s.starts + 1 := Nat.add_right_comm ..

/-- A batch that no operation knows of is in the cell, or was replaced there: then the next
operation takes the other batch, and the one behind it finds the cell empty. -/
def State.Sound (s : State PathBuf) : Prop :=
  ∀ batch, Missing batch s.log →
    0 < s.starts ∧ ∀ paths ∈ s.changedPaths, batch = paths ∨ 1 < s.starts

lemma State.Sound.step (h : s.Sound) (action : Action PathBuf) :
    (step .automatic s action).Sound := by
  cases action with
  | receive batch =>
    rintro other (hbatch | ⟨-, hmissing⟩)
    · cases hbatch
      rw [starts_receive]
      exact ⟨Nat.succ_pos _, by simp [Watcher.step]⟩
    · rw [starts_receive]
      exact ⟨Nat.succ_pos _, fun _ _ => Or.inr (Nat.succ_lt_succ (h other hmissing).1)⟩
  | start =>
    rw [Watcher.step]
    split_ifs with hphase
    · rintro batch (hbatch | ⟨hunknown, hmissing⟩)
      · cases hbatch
      -- the cell held another batch, whose message is still to come
      · simp only [Event.Accounts, not_forall] at hunknown
        obtain ⟨paths, hpaths, hsubset⟩ := hunknown
        have hstarts := ((h batch hmissing).2 paths hpaths).resolve_left fun hbatch =>
          hsubset (hbatch ▸ Subset.refl paths)
        simp only [State.starts, hphase, if_true] at hstarts
        exact ⟨by simp [State.starts]; omega, by simp⟩
    · exact h
  | finish =>
    rw [Watcher.step]
    split_ifs with hphase
    · simpa [State.Sound, State.starts, hphase] using h
    · exact h
  | restart =>
    rw [Watcher.step]
    split_ifs with hphase
    · have hstarts : s.restarts - 1 + 1 = s.restarts := Nat.sub_add_cancel hphase.2
      simpa [State.Sound, State.starts, hphase.1, hstarts] using h
    · exact h

/-- When no restart is queued and the last operation has its paths, every batch is known to an
operation that was started after it had arrived. -/
theorem batches_accounted (actions : List (Action PathBuf)) {s : State PathBuf}
    (hs : s = (machine .automatic).run new actions) (hrestarts : s.restarts = 0)
    (hphase : s.phase ≠ .starting) {batch : List PathBuf} {newer older : List (Event PathBuf)}
    (hlog : s.log = newer ++ .received batch :: older) :
    ∃ changedPaths, .started changedPaths ∈ newer ∧ ∀ paths ∈ changedPaths, batch ⊆ paths := by
  have hnew : (new : State PathBuf).Sound := fun _ h => False.elim h
  have hsound : s.Sound := hs ▸ Machine.run_invariant (M := machine .automatic)
    (fun _ action h => h.step action) hnew actions
  by_contra hunknown
  have hmissing : Missing batch s.log := by
    rw [hlog]
    refine missing_of_append fun event hevent haccounts => hunknown ?_
    cases event with
    | received => exact haccounts.elim
    | started changedPaths => exact ⟨changedPaths, hevent, haccounts⟩
  have hstarts := (hsound batch hmissing).1
  simp [State.starts, hrestarts, hphase] at hstarts

/-- Two batches arrive during the first operation. The second operation is told the last one, and
the third one that everything may have changed. -/
theorem batches_accounted_replaced :
    ∃ changedPaths : Option (List ℕ),
      Event.started changedPaths ∈ [.started none, .started (some [2]), .received [2]] ∧
        ∀ paths ∈ changedPaths, [1] ⊆ paths :=
  batches_accounted [.start, .receive [1], .receive [2], .restart, .start, .restart, .start] rfl rfl
    (by decide) rfl

end Deno.Watcher
