import Deno.Web.ByteStreamRespond

/-!
# A byte stream delivers what was enqueued

In every run the bytes are delivered in the order in which the source produces them, and no
assertion fails, as long as the bytes of a released reader do not come between the reads of a
default reader and their descriptors.
-/

namespace Deno.ByteStream

open Core List

variable {s : ByteStream}

lemma Sound.pullReturns (hs : s.Sound) : Returns s.pullReturns := by
  have hframe := hs.frame
  have hconserved := hs.conserved
  unfold FrameSound at hframe
  unfold ByteStream.pullReturns
  cases hcase : s.frame with
  | none => exact hs
  | some frame =>
    rw [hcase] at hframe hconserved
    cases frame with
    | read chunk =>
      refine { hs with conserved := ?_, frame := trivial }
      show s.delivered ++ chunk ++ [] ++ headFilled s.pendingPullIntos ++ queueBytes s.queue = s.produced
      rw [append_nil]
      exact hconserved
    | enqueue chunk view =>
      obtain ⟨hpending, hqueue, htype, hview⟩ := hframe
      obtain ⟨n, hreader⟩ : ∃ n, s.reader = some (.default n) := by
        unfold readerType at htype
        split at htype
        · cases htype
        · exact ⟨_, by assumption⟩
        · cases htype
      have hn : s.numRequests = n := by rw [numRequests, hreader]
      have hproduced : s.produced = s.delivered ++ chunk ++ view.bytes := by
        rw [← hconserved, hpending, hqueue]
        simp
      have hsettled : Settled { s with
          frame := none, delivered := s.delivered ++ chunk, produced := s.delivered ++ chunk } := by
        refine { hs with conserved := ?_, request := hs.noRequest hpending, noFrame := rfl, own := ?_ }
        · rw [hpending, hqueue]
          simp
        · rw [hpending]
          exact forall_mem_nil _
      have hreturns := hsettled.returns_processReadRequests hview hreader (fun _ => hqueue)
      rw [← hproduced, ← hn] at hreturns
      exact hreturns
    | released chunk view => exact hframe.elim

/-- The source may act: it enqueues or answers a request when the bytes of a released reader do not
come between the reads of a default reader, and it answers with the memory of the request. Readers
are used while no operation waits for the pull algorithm. -/
def Admits (s : ByteStream) : ByteStreamAction → Prop
  | .enqueue _ => s.MayEnqueue
  | .respond _ => s.MayRespond
  | .respondWithNewView view => s.MayRespond ∧ s.ShowsRequest view
  | .getReader _ | .releaseLock | .read | .readInto _ _ => s.frame = none
  | _ => True

instance (s : ByteStream) : ∀ action, Decidable (s.Admits action)
  | .enqueue _ => inferInstanceAs (Decidable s.MayEnqueue)
  | .respond _ => inferInstanceAs (Decidable s.MayRespond)
  | .respondWithNewView view => inferInstanceAs (Decidable (s.MayRespond ∧ s.ShowsRequest view))
  | .getReader _ | .releaseLock | .read | .readInto _ _ =>
    decidable_of_iff (s.frame.isNone = true) Option.isNone_iff_eq_none
  | .getBYOBRequest | .transferRequest | .pullReturns | .start | .pullResolved => .isTrue trivial

/-- Nothing is asked of a run that has failed. -/
def Admitted : Except StreamError ByteStream → ByteStreamAction → Prop
  | .ok s, action => s.Admits action
  | .error _, _ => True

instance : ∀ state action, Decidable (Admitted state action)
  | .ok s, action => inferInstanceAs (Decidable (s.Admits action))
  | .error _, _ => .isTrue trivial

variable {action : ByteStreamAction}

lemma Sound.perform (hs : s.Sound) (h : s.Admits action) : Returns (s.perform action) := by
  cases action with
  | enqueue chunk => exact hs.enqueue h
  | getBYOBRequest => exact hs.getBYOBRequest
  | transferRequest => exact hs.transferRequest
  | respond written => exact hs.respond h written
  | respondWithNewView view => exact hs.respondWithNewView h.1 h.2
  | pullReturns => exact hs.pullReturns
  | getReader byob => exact hs.getReader h byob
  | releaseLock => exact hs.releaseLock h
  | read => exact hs.read h
  | readInto view min => exact hs.readInto h view min
  | start => exact hs.start
  | pullResolved => exact hs.pullResolved

lemma Sound.act (hs : s.Sound) (h : s.Admits action) : ∃ s', s.act action = .ok s' ∧ s'.Sound := by
  unfold ByteStream.act
  split_ifs with hwaits
  · exact ⟨s, rfl, hs⟩
  · exact hs.caught (hs.perform h)

variable (autoAllocateChunkSize : Option { size : ℕ // 0 < size }) (highWaterMark : ℕ)

lemma sound_fresh : (fresh autoAllocateChunkSize highWaterMark).Sound where
  entries := forall_mem_nil _
  total := rfl
  pending := forall_mem_nil _
  behind := forall_mem_nil _
  types := forall_mem_nil _
  requests := rfl
  committed := forall_mem_nil _
  conserved := rfl
  pullAgain := nofun
  pulling := nofun
  chunkSize := by
    intro size hsize
    obtain ⟨size, -, rfl⟩ := Option.map_eq_some_iff.mp hsize
    exact size.property
  idle := fun _ => rfl
  waiting := fun _ => rfl
  request := nofun
  attached := forall_mem_nil _
  frame := trivial

lemma run_sound (actions : List ByteStreamAction)
    (h : machine.Along Admitted (.ok (fresh autoAllocateChunkSize highWaterMark)) actions) :
    ∃ s, machine.run (.ok (fresh autoAllocateChunkSize highWaterMark)) actions = .ok s ∧ s.Sound := by
  refine machine.run_invariant_of_along (P := fun state => ∃ s, state = .ok s ∧ s.Sound) ?_
    ⟨_, rfl, sound_fresh autoAllocateChunkSize highWaterMark⟩ actions h
  rintro _ action hadmits ⟨s, rfl, hs⟩
  exact hs.act hadmits

/-- No assertion fails in a run where the source may do what it does, and what the source has
produced is what readers got, then what an operation has for one, then what the first descriptor
has, then the queue. -/
theorem run_delivers (autoAllocateChunkSize : Option { size : ℕ // 0 < size }) (highWaterMark : ℕ)
    (actions : List ByteStreamAction)
    (h : machine.Along Admitted (.ok (fresh autoAllocateChunkSize highWaterMark)) actions) :
    ∃ s, machine.run (.ok (fresh autoAllocateChunkSize highWaterMark)) actions = .ok s ∧
      s.delivered ++ inFlight s.frame ++ headFilled s.pendingPullIntos ++ queueBytes s.queue =
        s.produced ∧
      s.queueTotalSize = queueSize s.queue ∧
      ∀ d ∈ s.committed,
        d.elementSize ∣ d.bytesFilled ∧ d.minimumFill ≤ d.bytesFilled ∧ d.bytesFilled ≤ d.byteLength := by
  obtain ⟨s, hrun, hs⟩ := run_sound autoAllocateChunkSize highWaterMark actions h
  refine ⟨s, hrun, hs.conserved, hs.total, ?_⟩
  intro d hd
  have hcomplete := hs.committed d hd
  exact ⟨hcomplete.aligned, hcomplete.enough, hcomplete.fits⟩

def uint8View (bytes : Bytes) : ArrayBufferView :=
  ⟨.uint8Array, bytes, 0, bytes.length, by simp [ViewConstructor.elementSize]⟩

def uint16View (length : ℕ) : ArrayBufferView :=
  ⟨.uint16Array, List.replicate (length * 2) 0, 0, length, by simp [ViewConstructor.elementSize]⟩

/-- Two reads of pairs: the first gets `1, 2`, and the second is released when it has `3`, which
goes to the queue with the answer to its request. -/
theorem run_delivers_pairs :
    ∃ s, machine.run (.ok (fresh none 0)) [.getReader true, .readInto (uint16View 1) 1,
        .readInto (uint16View 1) 1, .enqueue (uint8View [1, 2, 3]), .releaseLock, .getBYOBRequest,
        .respond [4], .getReader false, .enqueue (uint8View [5])] = .ok s ∧
      s.delivered ++ inFlight s.frame ++ headFilled s.pendingPullIntos ++ queueBytes s.queue =
        s.produced ∧
      s.queueTotalSize = queueSize s.queue ∧
      ∀ d ∈ s.committed,
        d.elementSize ∣ d.bytesFilled ∧ d.minimumFill ≤ d.bytesFilled ∧ d.bytesFilled ≤ d.byteLength := by
  exact run_delivers none 0 _ (by decide +kernel)

/-- A released reader leaves a request to the source, and a default reader waits without a
descriptor: the bytes that answer the request go to the queue, where the next read finds them
although another one waits. -/
theorem run_respond_assertion :
    machine.run (.ok (fresh none 0)) [.getReader true, .readInto (uint8View [0]) 1, .getBYOBRequest,
      .releaseLock, .getReader false, .read, .respond [1], .read] = .error .assertion := rfl

-- the byte of a released reader serves the read, whose descriptor is still there for the chunk
example : machine.run (.ok (fresh (some ⟨4, by decide⟩) 0)) [.getReader true,
    .readInto (uint16View 1) 1, .enqueue (uint8View [1]), .releaseLock, .getReader false, .read,
    .enqueue (uint8View [2])] = .error .assertion := rfl

-- the byte of a released reader serves the read, and the source enqueues when it is pulled for that
example : (machine.run (.ok (fresh none 1)) [.getReader true, .readInto (uint16View 1) 1,
    .enqueue (uint8View [1]), .releaseLock, .getReader false, .read, .start, .pullResolved,
    .enqueue (uint8View [2]), .enqueue (uint8View [3]), .pullReturns]).toOption.map
      (fun s => (s.delivered, queueBytes s.queue, s.produced)) = some ([1], [3, 2], [1, 2, 3]) := rfl

-- the reader is released when the source is pulled for that
example : machine.run (.ok (fresh none 1)) [.getReader true, .readInto (uint16View 1) 1,
    .enqueue (uint8View [1]), .releaseLock, .getReader false, .read, .start, .pullResolved,
    .enqueue (uint8View [2]), .releaseLock, .pullReturns] = .error .assertion := rfl

-- the source answers with other memory
example : (machine.run (.ok (fresh none 0)) [.getReader true, .readInto (uint8View [0, 0]) 2,
    .enqueue (uint8View [1]), .getBYOBRequest,
    .respondWithNewView ⟨.uint8Array, [9, 2], 1, 1, by decide⟩]).toOption.map
      (fun s => (s.delivered, s.produced)) = some ([9, 2], [1, 2]) := rfl

end Deno.ByteStream
