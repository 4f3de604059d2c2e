import Deno.Core.Machine
import Deno.Core.Utf8
import Mathlib.Logic.Function.Basic

/-!
# The cache of emitted code

Processes of several versions share the files of the cache. One that emits code writes its metadata
and then the code, another one may read between the two writes, and any of them may stop there.
-/

namespace Deno.EmitCache

open Core List

structure EmitMetadata where
  sourceHash : List Char
  emitHash : List Char

inductive Extension where
  | metadata
  | js
deriving DecidableEq

/-- What the cache uses: the path of the files of a specifier but for the extension, if it has one,
the version of each process, the hasher, and JSON that reads what it writes. -/
structure Library (Specifier Path Pid : Type) where
  getCacheFilename : Specifier → Option Path
  cliVersion : Pid → Bytes
  finish : Bytes → ℕ
  toVec : EmitMetadata → Bytes
  fromSlice : Bytes → Option EmitMetadata
  fromSlice_toVec (m : EmitMetadata) : fromSlice (toVec m) = some m

/-- The next read or write of a process. -/
inductive Task (Path : Type) where
  | setMetadata (path : Path) (sourceHash : ℕ) (code : List Char)
  | setEmit (path : Path) (code : List Char)
  | getMetadata (path : Path) (expectedSourceHash : ℕ)
  | getEmit (path : Path) (expectedSourceHash : ℕ) (metadata : EmitMetadata)

/-- The files, the processes, and for the record what `get_emit_code` returned. -/
structure State (Path Pid : Type) where
  files : Path × Extension → Option Bytes
  task : Pid → Option (Task Path)
  served : List (Pid × Path × ℕ × List Char)

def new {Path Pid : Type} : State Path Pid := ⟨fun _ => none, fun _ => none, []⟩

/-- A process calls a function, goes on to its next read or write, or stops where it is. -/
inductive Action (Specifier Pid : Type) where
  | setEmitCode (pid : Pid) (specifier : Specifier) (sourceHash : ℕ) (code : List Char)
  | getEmitCode (pid : Pid) (specifier : Specifier) (expectedSourceHash : ℕ)
  | proceed (pid : Pid)
  | stop (pid : Pid)

variable {Specifier Path Pid : Type} (lib : Library Specifier Path Pid)

def computeEmitHash (bytes : Bytes) (pid : Pid) : List Char :=
  Nat.toDigits 10 (lib.finish (bytes ++ lib.cliVersion pid))

def metadata (pid : Pid) (sourceHash : ℕ) (code : List Char) : EmitMetadata :=
  ⟨Nat.toDigits 10 sourceHash, computeEmitHash lib (encodeUtf8 code) pid⟩

section Step

variable (s : State Path Pid)

/-- `get_emit_code` up to the check of the source. -/
def loadMetadata (path : Path) (expectedSourceHash : ℕ) : Option EmitMetadata := do
  let bytes ← s.files (path, .metadata)
  let metadata ← lib.fromSlice bytes
  if metadata.sourceHash = Nat.toDigits 10 expectedSourceHash then some metadata else none

/-- The rest of `get_emit_code`. -/
def loadEmit (pid : Pid) (path : Path) (metadata : EmitMetadata) : Option (List Char) := do
  let bytes ← s.files (path, .js)
  if metadata.emitHash = computeEmitHash lib bytes pid then fromUtf8 bytes else none

variable [DecidableEq Pid]

def State.setTask (pid : Pid) (task : Option (Task Path)) : State Path Pid :=
  { s with task := Function.update s.task pid task }

variable [DecidableEq Path]

/-- `DiskCache::set`, which replaces the whole file. -/
def State.set (path : Path) (extension : Extension) (data : Bytes) : State Path Pid :=
  { s with files := Function.update s.files (path, extension) (some data) }

def step : Action Specifier Pid → State Path Pid
  | .setEmitCode pid specifier sourceHash code =>
    s.setTask pid ((lib.getCacheFilename specifier).map (.setMetadata · sourceHash code))
  | .getEmitCode pid specifier expectedSourceHash =>
    s.setTask pid ((lib.getCacheFilename specifier).map (.getMetadata · expectedSourceHash))
  | .stop pid => s.setTask pid none
  | .proceed pid =>
    match s.task pid with
    | none => s
    | some (.setMetadata path sourceHash code) =>
      (s.set path .metadata (lib.toVec (metadata lib pid sourceHash code))).setTask pid
        (some (.setEmit path code))
    | some (.setEmit path code) => (s.set path .js (encodeUtf8 code)).setTask pid none
    | some (.getMetadata path expectedSourceHash) =>
      s.setTask pid
        ((loadMetadata lib s path expectedSourceHash).map (.getEmit path expectedSourceHash))
    | some (.getEmit path expectedSourceHash metadata) =>
      match loadEmit lib s pid path metadata with
      | none => s.setTask pid none
      | some code =>
        { s with served := (pid, path, expectedSourceHash, code) :: s.served }.setTask pid none

def machine : Machine (State Path Pid) (Action Specifier Pid) := ⟨fun s => step lib s⟩

end Step

/-! ### What the files hold -/

variable (actions : List (Action Specifier Pid))

/-- One of the actions is a call of `set_emit_code` for the file. -/
def Called (pid : Pid) (path : Path) (sourceHash : ℕ) (code : List Char) : Prop :=
  ∃ specifier, lib.getCacheFilename specifier = some path ∧
    .setEmitCode pid specifier sourceHash code ∈ actions

def Written (path : Path) (sourceHash : ℕ) (m : EmitMetadata) : Prop :=
  ∃ pid code, Called lib actions pid path sourceHash code ∧ m = metadata lib pid sourceHash code

/-- A file holds what some call wrote, not always the same call as for the other file. -/
def FileSound (path : Path) : Extension → Bytes → Prop
  | .metadata, bytes => ∃ sourceHash m, Written lib actions path sourceHash m ∧ bytes = lib.toVec m
  | .js, bytes =>
    ∃ pid sourceHash code, Called lib actions pid path sourceHash code ∧ bytes = encodeUtf8 code

def TaskSound (pid : Pid) : Task Path → Prop
  | .setMetadata path sourceHash code => Called lib actions pid path sourceHash code
  | .setEmit path code => ∃ sourceHash, Called lib actions pid path sourceHash code
  | .getMetadata .. => True
  | .getEmit path sourceHash m => Written lib actions path sourceHash m

/-- The code was given to the cache for the file, and has the hash of code that was given to it for
the file and this source. -/
def ServedSound : Pid × Path × ℕ × List Char → Prop
  | (pid, path, sourceHash, code) => (∃ other hash, Called lib actions other path hash code) ∧
    ∃ other text, Called lib actions other path sourceHash text ∧
      computeEmitHash lib (encodeUtf8 text) other = computeEmitHash lib (encodeUtf8 code) pid

structure Sound (s : State Path Pid) : Prop where
  files : ∀ path e, ∀ bytes ∈ s.files (path, e), FileSound lib actions path e bytes
  tasks : ∀ pid, ∀ task ∈ s.task pid, TaskSound lib actions pid task
  served : ∀ call ∈ s.served, ServedSound lib actions call

variable {lib actions} {s : State Path Pid} {pid : Pid} {path : Path} {sourceHash : ℕ}
  {m : EmitMetadata} {code : List Char}

lemma Sound.loadMetadata (h : Sound lib actions s)
    (hload : loadMetadata lib s path sourceHash = some m) :
    Written lib actions path sourceHash m := by
  obtain ⟨bytes, hfile, hload⟩ := Option.bind_eq_some_iff.mp hload
  obtain ⟨_, _, ⟨pid, code, hcall, rfl⟩, rfl⟩ := h.files path .metadata bytes hfile
  obtain ⟨m, hslice, hload⟩ := Option.bind_eq_some_iff.mp hload
  rw [lib.fromSlice_toVec] at hslice
  cases hslice
  split_ifs at hload with hhash
  cases hload
  -- the digits of a hash tell which one it is
  have hvalue := congrArg (Nat.ofDigitChars 10 · 0) hhash
  simp only [metadata, Nat.ofDigitChars_ten_toDigits] at hvalue
  exact hvalue ▸ ⟨pid, code, hcall, rfl⟩

lemma Sound.loadEmit (h : Sound lib actions s) (hm : Written lib actions path sourceHash m)
    (hload : loadEmit lib s pid path m = some code) :
    ServedSound lib actions (pid, path, sourceHash, code) := by
  obtain ⟨other, text, hcall, rfl⟩ := hm
  obtain ⟨bytes, hfile, hload⟩ := Option.bind_eq_some_iff.mp hload
  obtain ⟨writer, hash, written, hwriter, rfl⟩ := h.files path .js bytes hfile
  split_ifs at hload with hhash
  rw [fromUtf8, decodeUtf8_encodeUtf8, if_pos rfl] at hload
  cases hload
  exact ⟨⟨writer, hash, hwriter⟩, other, text, hcall, hhash⟩

variable [DecidableEq Path]

lemma Sound.set (h : Sound lib actions s) (e : Extension) {data : Bytes}
    (hdata : FileSound lib actions path e data) : Sound lib actions (s.set path e data) where
  files path' e' bytes hfile := by
    simp only [State.set, Function.update_apply] at hfile
    split_ifs at hfile with hpath
    · cases hpath
      cases hfile
      exact hdata
    · exact h.files path' e' bytes hfile
  tasks := h.tasks
  served := h.served

variable [DecidableEq Pid]

omit [DecidableEq Path] in
lemma Sound.setTask (h : Sound lib actions s) {task : Option (Task Path)}
    (htask : ∀ t ∈ task, TaskSound lib actions pid t) :
    Sound lib actions (s.setTask pid task) where
  files := h.files
  tasks other t ht := by
    simp only [State.setTask, Function.update_apply] at ht
    split_ifs at ht with hother
    · exact hother ▸ htask t ht
    · exact h.tasks other t ht
  served := h.served

lemma Sound.step (h : Sound lib actions s) {action : Action Specifier Pid}
    (hmem : action ∈ actions) : Sound lib actions (step lib s action) := by
  cases action with
  | setEmitCode pid specifier sourceHash code =>
    refine h.setTask fun t ht => ?_
    obtain ⟨path, hpath, rfl⟩ := Option.map_eq_some_iff.mp ht
    exact ⟨specifier, hpath, hmem⟩
  | getEmitCode =>
    refine h.setTask fun t ht => ?_
    obtain ⟨path, -, rfl⟩ := Option.map_eq_some_iff.mp ht
    trivial
  | stop => exact h.setTask nofun
  | proceed pid =>
    rw [EmitCache.step]
    split
    · exact h
    · rename_i path sourceHash code hpid
      have hcall : Called lib actions pid path sourceHash code := h.tasks pid _ hpid
      have hset := h.set .metadata ⟨sourceHash, _, ⟨pid, code, hcall, rfl⟩, rfl⟩
      refine hset.setTask fun t ht => ?_
      cases ht
      exact ⟨sourceHash, hcall⟩
    · rename_i path code hpid
      obtain ⟨sourceHash, hcall⟩ := h.tasks pid _ hpid
      exact (h.set .js ⟨pid, sourceHash, code, hcall, rfl⟩).setTask nofun
    · refine h.setTask fun t ht => ?_
      obtain ⟨m, hload, rfl⟩ := Option.map_eq_some_iff.mp ht
      exact h.loadMetadata hload
    · rename_i hpid
      split
      · exact h.setTask nofun
      · rename_i hload
        have hserved := forall_mem_cons.mpr ⟨h.loadEmit (h.tasks pid _ hpid) hload, h.served⟩
        exact Sound.setTask (s := { s with served := _ :: _ }) ⟨h.files, h.tasks, hserved⟩ nofun

/-- Both calls from their beginning to their end. -/
def setThenGet (pid other : Pid) (specifier : Specifier) (sourceHash : ℕ) (code : List Char) :
    List (Action Specifier Pid) :=
  [.setEmitCode pid specifier sourceHash code, .proceed pid, .proceed pid,
    .getEmitCode other specifier sourceHash, .proceed other, .proceed other]

lemma run_set_get {other : Pid} {specifier : Specifier}
    (hversion : lib.cliVersion other = lib.cliVersion pid)
    (hpath : lib.getCacheFilename specifier = some path) :
    ((machine lib).run s (setThenGet pid other specifier sourceHash code)).served =
      (other, path, sourceHash, code) :: s.served := by
  simp [setThenGet, Machine.run, machine, EmitCache.step, State.setTask, State.set, metadata,
    EmitCache.loadMetadata, EmitCache.loadEmit, computeEmitHash, fromUtf8, hversion, hpath,
    lib.fromSlice_toVec, decodeUtf8_encodeUtf8]

/-- However the processes take turns and wherever they stop, code from the cache was given to it for
the file, and its hash with the version of the reader is that of code given for this very source
with the version of the writer. Code that is set without interruption is what a process of the same
version gets. -/
theorem served_was_set (lib : Library Specifier Path Pid) :
    (∀ actions, ∀ call ∈ ((machine lib).run new actions).served, ServedSound lib actions call) ∧
    ∀ (s : State Path Pid) pid other specifier path sourceHash code,
      lib.cliVersion other = lib.cliVersion pid → lib.getCacheFilename specifier = some path →
        ((machine lib).run s (setThenGet pid other specifier sourceHash code)).served =
          (other, path, sourceHash, code) :: s.served := by
  refine ⟨fun actions => ?_, fun _ _ _ _ _ _ _ => run_set_get⟩
  have hnew : Sound lib actions new := ⟨nofun, nofun, nofun⟩
  exact (Machine.run_invariant_of_along (P := Sound lib actions) (fun _ _ hmem h => h.step hmem)
    hnew actions (Machine.along_of_forall_mem fun _ _ hmem => hmem)).served

/-- One file, one version, and metadata written behind the length of its first field. -/
def sampleLibrary : Library Unit Unit Unit where
  getCacheFilename _ := some ()
  cliVersion _ := []
  finish bytes := bytes.length
  toVec m := replicate m.sourceHash.length 0 ++ 1 :: encodeUtf8 (m.sourceHash ++ m.emitHash)
  fromSlice bytes :=
    let n := (bytes.takeWhile (· == 0)).length
    let text := decodeUtf8 (bytes.drop (n + 1))
    some ⟨text.take n, text.drop n⟩
  fromSlice_toVec m := by
    simp [takeWhile_append_of_pos, drop_append, decodeUtf8_encodeUtf8]

theorem served_was_set_sample :
    ServedSound sampleLibrary (setThenGet () () () 7 ['x']) ((), (), 7, ['x']) := by
  refine (served_was_set sampleLibrary).1 _ _ ?_
  rw [(served_was_set sampleLibrary).2 new () () () () 7 ['x'] rfl rfl]
  exact mem_cons_self

end Deno.EmitCache
