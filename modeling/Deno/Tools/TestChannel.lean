import Deno.Core.Bytes
import Mathlib.Data.List.Infix

/-!
# The output of tests

The output of a worker is read from a pipe. A flush writes a marker into the pipe, and reads until
what has been read ends in it.
-/

namespace Deno

open Core List

def syncMarker : Bytes := [226, 128, 139, 0, 226, 128, 139, 0]

/-- A `TestStream` with its `Output` events. -/
structure TestStream where
  /-- The pipe has not been dropped. -/
  isAlive : Bool
  /-- The events are received. -/
  isReceived : Bool
  output : List Bytes

namespace TestStream

variable (self : TestStream)

def send (buffer : Bytes) : TestStream :=
  if buffer.isEmpty then self
  else if self.isReceived then { self with output := self.output ++ [buffer] }
  else { self with isAlive := false }

/-- What a read gives: bytes, of which there are none at the end, or an error. -/
abbrev Read := Option Bytes

/-- `poll_pipe` after a read. -/
def pipe : Read → TestStream
  | none | some [] => { self with isAlive := false }
  | some buffer => self.send buffer

/-- The loop waits when there is nothing to read, and gives the reads that are left. -/
def readLoop (flush : Bytes) : List Read → Option (TestStream × List Read)
  | [] => none
  | none :: reads | some [] :: reads => some ({ self with isAlive := false }, reads)
  | some buffer :: reads =>
    let flush := flush ++ buffer
    if syncMarker.isSuffixOf flush then
      some (self.send (flush.take (flush.length - syncMarker.length)), reads)
    else readLoop flush reads

def readUntilSyncMarker (reads : List Read) : Option (TestStream × List Read) :=
  if self.isAlive then self.readLoop [] reads else some (self, reads)

variable {self} {reads : List Bytes} {flush p q : Bytes}

lemma output_send (h : self.isReceived) (buffer : Bytes) : (self.send buffer).isReceived ∧
    (self.send buffer).output.flatten = self.output.flatten ++ buffer := by
  unfold send
  split_ifs with hempty
  · simp_all
  · simp [h]

lemma output_pipe (h : self.isReceived) (hreads : ∀ chunk ∈ reads, chunk ≠ []) :
    ((reads.map some).foldl pipe self).output.flatten = self.output.flatten ++ reads.flatten := by
  induction reads generalizing self with
  | nil => simp
  | cons chunk reads ih =>
    rw [forall_mem_cons] at hreads
    obtain ⟨hsend, houtput⟩ := output_send h chunk
    rw [map_cons, foldl_cons, pipe, ih hsend hreads.2, houtput, flatten_cons, append_assoc]
    exact hreads.1

/-- After this many reads, and not before, what has been read ends in the marker. -/
def FirstMarker (flush : Bytes) (reads : List Bytes) (n : ℕ) : Prop :=
  syncMarker <:+ flush ++ (reads.take n).flatten ∧
    ∀ m < n, ¬ syncMarker <:+ flush ++ (reads.take m).flatten

lemma firstMarker_cons {chunk : Bytes} (h : ¬ syncMarker <:+ flush) (n : ℕ) :
    FirstMarker flush (chunk :: reads) n ↔ ∃ m, n = m + 1 ∧
      if syncMarker <:+ flush ++ chunk then m = 0 else FirstMarker (flush ++ chunk) reads m := by
  cases n with
  | zero => simpa [FirstMarker] using h
  | succ m =>
    have hcons (k : ℕ) : flush ++ (take (k + 1) (chunk :: reads)).flatten =
        flush ++ chunk ++ (take k reads).flatten := by simp
    have hzero (P : ℕ → Prop) : (∀ k < m + 1, P k) ↔ P 0 ∧ ∀ k < m, P (k + 1) :=
      Nat.forall_lt_succ_left
    simp only [FirstMarker, hzero, hcons, take_zero, flatten_nil, append_nil, h, not_false_eq_true,
      true_and, Nat.add_right_cancel_iff, exists_eq_left']
    split_ifs with hmarker
    · cases m with
      | zero => simpa using hmarker
      | succ m =>
        refine iff_of_false (fun hfirst => hfirst.2 0 (Nat.succ_pos m) ?_) (Nat.succ_ne_zero m)
        simpa using hmarker
    · rfl

/-- The loop ends with the first read after which what has been read ends in the marker. -/
lemma readLoop_eq_some_iff (hreads : ∀ chunk ∈ reads, chunk ≠ []) (hflush : ¬ syncMarker <:+ flush)
    {result : TestStream × List Read} :
    self.readLoop flush (reads.map some) = some result ↔ ∃ n, FirstMarker flush reads n ∧
      let read := flush ++ (reads.take n).flatten
      result = (self.send (read.take (read.length - syncMarker.length)),
        (reads.drop n).map some) := by
  induction reads generalizing flush with
  | nil => simp [readLoop, FirstMarker, hflush]
  | cons chunk reads ih =>
    rw [forall_mem_cons] at hreads
    rw [map_cons, readLoop]
    · simp only [firstMarker_cons hflush, isSuffixOf_iff_suffix]
      split_ifs with hmarker
      · simp [eq_comm]
      · rw [ih hreads.2 hmarker]
        simp
    · exact hreads.1

/-- A flush is exact if and only if a read ends with the marker, and no read before it ends with
bytes that look like a marker. -/
theorem readUntilSyncMarker_exact_iff (halive : self.isAlive) (h : self.isReceived)
    (hne : ∀ chunk ∈ reads, chunk ≠ []) (hreads : reads.flatten = p ++ syncMarker ++ q) :
    (∃ flushed left, self.readUntilSyncMarker (reads.map some) = some (flushed, left) ∧
      flushed.output.flatten = self.output.flatten ++ p ∧
      (left.foldl pipe flushed).output.flatten = self.output.flatten ++ p ++ q) ↔
    ∃ n, (reads.take n).flatten = p ++ syncMarker ∧
      ∀ m < n, ¬ syncMarker <:+ (reads.take m).flatten := by
  have hloop := @readLoop_eq_some_iff self reads [] hne (by simp [syncMarker])
  simp only [readUntilSyncMarker, if_pos halive, hloop, nil_append, FirstMarker]
  constructor
  · rintro ⟨flushed, left, ⟨n, ⟨⟨t, ht⟩, hfirst⟩, hresult⟩, houtput, -⟩
    obtain ⟨rfl, -⟩ := Prod.mk.inj hresult
    rw [(output_send h _).2, append_cancel_left_eq, ← ht] at houtput
    obtain rfl : t = p := by simpa using houtput
    exact ⟨n, ht.symm, hfirst⟩
  · rintro ⟨n, hn, hfirst⟩
    have hrest : (reads.drop n).flatten = q := by
      rwa [← take_append_drop n reads, flatten_append, hn, append_cancel_left_eq] at hreads
    obtain ⟨hsend, houtput⟩ := output_send h p
    have hdrop := @output_pipe _ (reads.drop n) hsend fun chunk h => hne chunk (mem_of_mem_drop h)
    refine ⟨self.send p, (reads.drop n).map some, ⟨n, ⟨⟨p, hn.symm⟩, hfirst⟩, ?_⟩, houtput, ?_⟩
    · simp [hn]
    · rw [hdrop, houtput, hrest]

theorem readUntilSyncMarker_exact_two_reads : ∃ flushed left,
    readUntilSyncMarker ⟨true, true, []⟩ ([[65, 226], 128 :: 65 :: syncMarker, [66]].map some) =
        some (flushed, left) ∧ flushed.output.flatten = [65, 226, 128, 65] ∧
      (left.foldl pipe flushed).output.flatten = [65, 226, 128, 65, 66] :=
  (@readUntilSyncMarker_exact_iff ⟨true, true, []⟩ [[65, 226], 128 :: 65 :: syncMarker, [66]]
    [65, 226, 128, 65] [66] rfl rfl (by decide) rfl).mpr ⟨2, rfl, by decide⟩

/-- The marker is read together with a byte behind it, and the flush does not return. -/
theorem readUntilSyncMarker_behind :
    readUntilSyncMarker ⟨true, true, []⟩ [some (65 :: syncMarker ++ [66])] = none := by
  decide

end TestStream

end Deno
