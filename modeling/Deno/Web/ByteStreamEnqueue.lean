import Deno.Web.ByteStreamInvariant

/-!
# Enqueueing a chunk

A chunk goes to the queue, to a read request or to the pending descriptors, behind the bytes that a
released reader has left. It keeps the order if the source does not enqueue in the middle of an
`enqueue`, and if no read of a default reader has its descriptor behind those bytes.
-/

namespace Deno.ByteStream

open Core List

variable {s : ByteStream} {chunk : ArrayBufferView}

lemma Consistent.enqueueChunk (hs : s.Consistent) (hchunk : 0 < chunk.byteLength) :
    ({ s with produced := s.produced ++ chunk.bytes }.enqueueChunkToQueue chunk.buffer
      chunk.byteOffset chunk.byteLength).Consistent := by
  refine { hs with entries := ?_, total := ?_, conserved := ?_ }
  · exact forall_mem_append.mpr ⟨hs.entries, forall_mem_singleton.mpr ⟨hchunk, chunk.inBounds⟩⟩
  · show s.queueTotalSize + chunk.byteLength = queueSize (s.queue ++ [_])
    rw [queueSize_concat, hs.total]
  · show s.delivered ++ inFlight s.frame ++ headFilled s.pendingPullIntos ++
      queueBytes (s.queue ++ [_]) = s.produced ++ chunk.bytes
    rw [queueBytes_concat, ← append_assoc, hs.conserved]
    rfl

lemma Sound.enqueueChunk (hs : s.Sound) (hchunk : 0 < chunk.byteLength)
    (hpending : s.pendingPullIntos = []) (hrequests : s.numRequests = 0)
    (hframe : ∀ bytes view, s.frame ≠ some (.enqueue bytes view)) :
    ({ s with produced := s.produced ++ chunk.bytes }.enqueueChunkToQueue chunk.buffer
      chunk.byteOffset chunk.byteLength).Sound := by
  refine { hs.toConsistent.enqueueChunk hchunk with
    idle := fun h => absurd hpending h, waiting := fun h => absurd hrequests h
    request := hs.request, attached := hs.attached, frame := ?_ }
  cases hcase : s.frame with
  | none => simp [FrameSound, enqueueChunkToQueue]
  | some frame =>
    cases frame with
    | read bytes =>
      exact ⟨hpending, hrequests⟩
    | enqueue bytes view => exact absurd hcase (hframe bytes view)
    | released bytes view =>
      have hframe := hs.frame
      rw [FrameSound, hcase] at hframe
      exact hframe.elim

lemma Settled.enqueueChunk (hs : s.Settled) (hchunk : 0 < chunk.byteLength)
    (hawaited : s.awaited = 0) (hrequests : s.numRequests = 0) :
    s.pendingPullIntos = [] ∧ ({ s with produced := s.produced ++ chunk.bytes }.enqueueChunkToQueue
      chunk.buffer chunk.byteOffset chunk.byteLength).Sound := by
  have hpending : s.pendingPullIntos = [] :=
    List.length_eq_zero_iff.mp (hs.length_pending.trans hawaited)
  have hsound := hs.sound (fun h => absurd hpending h) (fun h => absurd hrequests h)
  refine ⟨hpending, hsound.enqueueChunk hchunk hpending hrequests fun bytes view => ?_⟩
  rw [hs.noFrame]
  simp

variable {n : ℕ}

lemma Settled.types_default (hs : s.Settled) (hreader : s.reader = some (.default n)) :
    ∀ d ∈ s.pendingPullIntos, d.readerType = .default := by
  intro d hd
  have htype := (hs.types d hd).resolve_left (hs.own d hd).1
  rw [readerType, hreader] at htype
  exact (Option.some.inj htype).symm

/-- The chunk goes to the first read request, whose descriptor is not needed. -/
lemma Settled.fulfill (hs : s.Settled) (chunk : ArrayBufferView) (hqueue : s.queue = [])
    (hreader : s.reader = some (.default (n + 1))) : Sound { s with
      pendingPullIntos := s.pendingPullIntos.tail, reader := some (.default n)
      delivered := s.delivered ++ chunk.bytes, produced := s.produced ++ chunk.bytes } := by
  have htypes := hs.types_default hreader
  have hzero : ∀ d ∈ s.pendingPullIntos, d.bytesFilled = 0 := by
    intro d hd
    have hwaits := (hs.pending d hd).waits
    rw [(hs.pending d hd).default (htypes d hd)] at hwaits
    exact Nat.lt_one_iff.mp hwaits
  have htail : ∀ d ∈ s.pendingPullIntos.tail, d ∈ s.pendingPullIntos := fun d hd =>
    mem_of_mem_tail hd
  have hsettled : Settled { s with
      pendingPullIntos := s.pendingPullIntos.tail, reader := some (.default n)
      delivered := s.delivered ++ chunk.bytes, produced := s.produced ++ chunk.bytes } := by
    refine { hs with
      pending := fun d hd => hs.pending d (htail d hd)
      behind := fun d hd => hs.behind d (mem_of_mem_tail hd)
      types := fun d hd => .inr (congrArg some (htypes d (htail d hd)).symm)
      requests := ?_, conserved := ?_, own := fun d hd => hs.own d (htail d hd) }
    · have hlength := hs.length_pending
      rw [awaited, hreader] at hlength
      show (live s.pendingPullIntos.tail).length = if s.autoAllocateChunkSize.isSome then n else 0
      rw [live_eq_self fun d hd => (hs.own d (htail d hd)).1, length_tail, hlength]
      split_ifs <;> rfl
    · have hconserved := hs.conserved
      rw [hs.noFrame, hqueue, headFilled_eq_nil hzero] at hconserved
      rw [hs.noFrame, hqueue, headFilled_eq_nil fun d hd => hzero d (htail d hd), ← hconserved]
      simp
  exact hsettled.sound (fun _ => hqueue) (fun _ => hqueue)

lemma enqueueForDefaultReader_zero (hreader : s.reader = some (.default 0))
    (hpending : s.pendingPullIntos = []) :
    s.enqueueForDefaultReader chunk =
      (s.enqueueChunkToQueue chunk.buffer chunk.byteOffset chunk.byteLength).endWithPull := by
  simp only [ByteStream.enqueueForDefaultReader, hreader, assert, if_pos hpending]
  rfl

lemma enqueueForDefaultReader_succ (hreader : s.reader = some (.default (n + 1)))
    (hqueue : s.queue = []) (hrequest : s.byobRequest = none)
    (htypes : ∀ d ∈ s.pendingPullIntos, d.readerType = .default) :
    s.enqueueForDefaultReader chunk = ({ s with
      pendingPullIntos := s.pendingPullIntos.tail, reader := some (.default n) }.deliver
        chunk.bytes).endWithPull := by
  simp only [ByteStream.enqueueForDefaultReader, hreader, assert, if_pos hqueue, bind, Except.bind]
  cases hpending : s.pendingPullIntos with
  | nil =>
    simp [fulfillReadRequest, hreader, hpending]
  | cons first rest =>
    have hfirst := htypes first (hpending ▸ mem_cons_self)
    simp [if_pos hfirst, shiftPendingPullInto, assert, if_pos hrequest, bind, Except.bind, pure,
      Except.pure, fulfillReadRequest, hreader, hpending]

lemma Settled.returns_enqueueForDefaultReader (hs : s.Settled) (hchunk : 0 < chunk.byteLength)
    (hreader : s.reader = some (.default n)) (hqueue : n ≠ 0 → s.queue = []) :
    Returns ({ s with produced := s.produced ++ chunk.bytes }.enqueueForDefaultReader chunk) := by
  cases n with
  | zero =>
    obtain ⟨hpending, hsound⟩ := hs.enqueueChunk hchunk (by simp [awaited, hreader])
      (by rw [numRequests, hreader])
    rw [enqueueForDefaultReader_zero (s := { s with produced := s.produced ++ chunk.bytes }) hreader
      hpending]
    exact hsound.returns_endWithPull
  | succ n =>
    have hqueue := hqueue n.succ_ne_zero
    have hsound := hs.fulfill chunk hqueue hreader
    rw [enqueueForDefaultReader_succ (s := { s with produced := s.produced ++ chunk.bytes }) hreader
      hqueue hs.request (hs.types_default hreader)]
    exact hsound.returns_endWithPull

variable {entry : ReadableByteStreamQueueEntry}

lemma takeFromQueue_eq
    {queue : List ReadableByteStreamQueueEntry} (hentry : entry.Wf) (hqueue : s.queue = entry :: queue)
    (htotal : s.queueTotalSize = queueSize s.queue) (hagain : s.pullAgain = true → s.pulling = true)
    (hpulling : s.pulling = true → s.started = true) :
    ∃ pulling pullAgain called, s.takeFromQueue = .ok (entry.bytes, { s with
        queue := queue, queueTotalSize := queueSize queue, pulling := pulling
        pullAgain := pullAgain }, called) ∧
      (pullAgain = true → pulling = true) ∧ (pulling = true → s.started = true) := by
  rw [hqueue, queueSize_cons] at htotal
  have hpos : 0 < entry.byteLength + queueSize queue := Nat.add_pos_left hentry.nonempty _
  obtain ⟨pulling, pullAgain, called, hcall, hagain, hpulling⟩ := callPullIfNeeded_eq
    (s := { s with queue := queue, queueTotalSize := queueSize queue }) hagain hpulling
  refine ⟨pulling, pullAgain, called, ?_, hagain, hpulling⟩
  simp only [takeFromQueue, assert, htotal, if_pos hpos, bind, Except.bind, hqueue,
    Nat.add_sub_cancel_left]
  rw [hcall]
  rfl

/-- No read request waits, or there are no bytes for one. -/
lemma Settled.returns_processReadRequests (hs : s.Settled) (hchunk : 0 < chunk.byteLength)
    (hreader : s.reader = some (.default n)) (hqueue : n ≠ 0 → s.queue = []) :
    Returns (processReadRequests n { s with produced := s.produced ++ chunk.bytes } chunk) := by
  have hreturns := hs.returns_enqueueForDefaultReader hchunk hreader hqueue
  cases n with
  | zero => exact hreturns
  | succ n =>
    have htotal : s.queueTotalSize = 0 := by
      rw [hs.total, hqueue n.succ_ne_zero, queueSize_nil]
    rw [processReadRequests, if_pos htotal]
    exact hreturns

/-- The bytes of a released reader go to the first read request, before the chunk. -/
lemma Settled.returns_processReadRequests_detached (hs : s.Settled) (hchunk : 0 < chunk.byteLength)
    (hreader : s.reader = some (.default (n + 1))) (hpending : s.pendingPullIntos = [])
    (hqueue : s.queue = [entry]) :
    Returns (processReadRequests (n + 1) { s with produced := s.produced ++ chunk.bytes } chunk) := by
  have htotal : s.queueTotalSize ≠ 0 := by
    have := (hs.entries entry (hqueue ▸ mem_cons_self)).nonempty
    rw [hs.total, hqueue, queueSize_cons]
    omega
  have hawaited : s.autoAllocateChunkSize.isSome = false := by
    have hlength := hs.length_pending
    rw [hpending, awaited, hreader] at hlength
    by_contra hauto
    rw [Bool.not_eq_false] at hauto
    dsimp only at hlength
    rw [if_pos hauto] at hlength
    cases hlength
  have hconserved := hs.conserved
  rw [hs.noFrame, hpending, hqueue] at hconserved
  obtain ⟨pulling, pullAgain, called, htake, hagain, hpulling⟩ := takeFromQueue_eq
    (s := { s with produced := s.produced ++ chunk.bytes, reader := some (.default n) })
    (hs.entries entry (hqueue ▸ mem_cons_self)) hqueue hs.total hs.pullAgain hs.pulling
  have hempty : ∀ entry ∈ [], ReadableByteStreamQueueEntry.Wf entry := forall_mem_nil _
  have hrequests : (live s.pendingPullIntos).length =
      if s.autoAllocateChunkSize.isSome then n else 0 := by
    rw [hpending, hawaited]
    rfl
  have hsettled : Settled { s with
      reader := some (.default n), queue := [], queueTotalSize := 0, pulling := pulling
      pullAgain := pullAgain, delivered := s.delivered ++ entry.bytes } := by
    refine { hs with
      entries := hempty, total := rfl, types := ?_, requests := hrequests, conserved := ?_
      pullAgain := hagain, pulling := hpulling }
    · rw [hpending]
      exact forall_mem_nil _
    · rw [hs.noFrame, hpending, ← hconserved]
      simp
  have hsound := hsettled.sound (fun _ => rfl) (fun _ => rfl)
  rw [processReadRequests, if_neg htotal]
  rw [htake]
  cases called with
  | true =>
    refine { hsound with conserved := ?_, frame := ⟨hpending, rfl, rfl, hchunk⟩ }
    rw [hpending, ← hconserved]
    simp
  | false => exact hsettled.returns_processReadRequests hchunk rfl (fun _ => rfl)

lemma process_of_nil (hpending : s.pendingPullIntos = []) :
    s.processPullIntoDescriptorsUsingQueue = .ok s := by
  rw [processPullIntoDescriptorsUsingQueue, hpending, processPullIntos]

/-- The chunk finds no descriptor of a released reader. For a default reader the queue is empty, or
has the bytes of that descriptor. -/
lemma Settled.returns_enqueueForReader (hs : s.Settled) (hchunk : 0 < chunk.byteLength)
    (hqueue : ∀ n, s.reader = some (.default (n + 1)) →
      s.queue = [] ∨ s.pendingPullIntos = [] ∧ ∃ entry, s.queue = [entry]) :
    Returns ({ s with produced := s.produced ++ chunk.bytes }.enqueueForReader chunk) := by
  unfold enqueueForReader
  cases hreader : s.reader with
  | none =>
    obtain ⟨-, henqueued⟩ := hs.enqueueChunk hchunk (by rw [awaited, hreader])
      (by rw [numRequests, hreader])
    rw [hreader] at henqueued
    exact henqueued.returns_endWithPull
  | some reader =>
    cases reader with
    | default n =>
      dsimp only
      rw [← hreader]
      cases n with
      | zero => exact hs.returns_processReadRequests hchunk hreader (fun h => absurd rfl h)
      | succ n =>
        rcases hqueue n hreader with hempty | ⟨hpending, entry, hentry⟩
        · exact hs.returns_processReadRequests hchunk hreader (fun _ => hempty)
        · exact hs.returns_processReadRequests_detached hchunk hreader hpending hentry
    | byob n =>
      have hprocessing : Processing ({ s with
          produced := s.produced ++ chunk.bytes }.enqueueChunkToQueue chunk.buffer chunk.byteOffset
            chunk.byteLength) := by
        refine { hs.toConsistent.enqueueChunk hchunk with
          request := hs.request, noFrame := hs.noFrame, own := hs.own, covered := ?_ }
        show s.numRequests = s.awaited
        rw [numRequests, awaited, hreader]
      rw [hreader] at hprocessing
      exact hprocessing.returns_process

/-- The source may enqueue: no other chunk is on its way in, and no read of a default reader waits
with its descriptor behind the bytes of a released one. -/
@[mk_iff]
structure MayEnqueue (s : ByteStream) : Prop where
  noEnqueue : ∀ bytes view, s.frame ≠ some (.enqueue bytes view)
  noneBehind : ∀ first second rest, s.pendingPullIntos = first :: second :: rest →
    s.readerType = some .default → first.readerType = .none → first.bytesFilled = 0

instance (s : ByteStream) : Decidable s.MayEnqueue :=
  match hframe : s.frame, hpending : s.pendingPullIntos with
  | some (.enqueue bytes view), _ => .isFalse fun h => h.noEnqueue bytes view hframe
  | none, first :: _ :: _ | some (.read _), first :: _ :: _
  | some (.released _ _), first :: _ :: _ =>
    decidable_of_iff (s.readerType = some .default → first.readerType = .none → first.bytesFilled = 0)
      (by simp [mayEnqueue_iff, hframe, hpending])
  | none, [] | none, [_] | some (.read _), [] | some (.read _), [_] | some (.released _ _), []
  | some (.released _ _), [_] =>
    .isTrue (by simp [mayEnqueue_iff, hframe, hpending])

lemma Sound.enqueue_of_nil (hs : s.Sound) (hmay : s.MayEnqueue) (hchunk : 0 < chunk.byteLength)
    (hpending : s.pendingPullIntos = []) :
    Returns ({ s with produced := s.produced ++ chunk.bytes }.enqueueForReader chunk) := by
  by_cases hrequests : s.numRequests = 0
  · -- also in the middle of a read, where nothing is settled
    have henqueued := hs.enqueueChunk hchunk hpending hrequests hmay.noEnqueue
    unfold enqueueForReader
    cases hreader : s.reader with
    | none =>
      rw [hreader] at henqueued
      exact henqueued.returns_endWithPull
    | some reader =>
      cases reader with
      | default n =>
        have hn : n = 0 := by
          rw [numRequests, hreader] at hrequests
          exact hrequests
        subst hn
        dsimp only
        rw [← hreader, processReadRequests, enqueueForDefaultReader_zero]
        · exact henqueued.returns_endWithPull
        · exact hreader
        · exact hpending
      | byob n =>
        rw [hreader] at henqueued
        rw [process_of_nil]
        · exact henqueued.returns_endWithPull
        · exact hpending
  · have hframe : s.frame = none := by
      have hframe := hs.frame
      unfold FrameSound at hframe
      cases hcase : s.frame with
      | none => rfl
      | some frame =>
        rw [hcase] at hframe
        cases frame with
        | read bytes => exact absurd hframe.2 hrequests
        | enqueue bytes view => exact absurd hcase (hmay.noEnqueue bytes view)
        | released bytes view => exact hframe.elim
    have hown : ∀ d ∈ s.pendingPullIntos, d.readerType ≠ .none ∧ d.detached = false := by
      rw [hpending]
      exact forall_mem_nil _
    have hsettled : s.Settled := { hs.toConsistent with
      request := hs.noRequest hpending, noFrame := hframe, own := hown }
    exact hsettled.returns_enqueueForReader hchunk fun n _ => .inl (hs.waiting hrequests)

lemma Sound.enqueue (hs : s.Sound) (hmay : s.MayEnqueue) : Returns (s.enqueue chunk) := by
  unfold ByteStream.enqueue
  by_cases hzero : chunk.byteLength = 0
  · rw [if_pos hzero]
    trivial
  · rw [if_neg hzero]
    have hchunk : 0 < chunk.byteLength := Nat.pos_of_ne_zero hzero
    cases hpending : s.pendingPullIntos with
    | nil =>
      have hreturns := hs.enqueue_of_nil hmay hchunk hpending
      rw [hpending] at hreturns
      exact hreturns
    | cons first rest =>
      dsimp only
      by_cases hdetached : first.detached = true
      · rw [if_pos hdetached]
        trivial
      · have hqueue := hs.queue_of_pending hpending
        have htotal : s.queueTotalSize = 0 := by rw [hs.total, hqueue, queueSize_nil]
        have hwf := hs.pending first (mem_first hpending)
        rw [if_neg hdetached]
        by_cases hnone : first.readerType = .none
        · have hsettled := hs.detach hpending hnone (append_nil first.filled).symm
          rw [append_nil] at hsettled
          rw [if_pos hnone, enqueueDetachedPullIntoToQueue_eq hnone]
          · refine hsettled.returns_enqueueForReader hchunk fun n hreader => ?_
            by_cases hbytes : 0 < first.filled.length
            · right
              refine ⟨?_, _, if_pos hbytes⟩
              cases hrest : rest with
              | nil => rfl
              | cons second rest' =>
                have htype : s.readerType = some .default := by
                  rw [readerType, show s.reader = _ from hreader]
                have hzero := hmay.noneBehind first second rest' (by rw [hpending, hrest]) htype hnone
                rw [PullIntoDescriptor.filled, length_slice hwf.filled_inBounds, hzero] at hbytes
                exact absurd hbytes (Nat.lt_irrefl 0)
            · exact .inl (if_neg hbytes)
          · rfl
          · exact hqueue
          · exact htotal
          · exact hwf.filled_inBounds
        · rw [if_neg hnone]
          have hown : ∀ d ∈ s.pendingPullIntos, d.readerType ≠ .none ∧ d.detached = false := by
            rw [hpending, forall_mem_cons]
            have hbehind := hs.behind_first hpending
            exact ⟨⟨hnone, Bool.eq_false_iff.mpr hdetached⟩, fun d hd =>
              ⟨(hbehind d hd).1, (hbehind d hd).2.2⟩⟩
          have hframe := hs.noFrame_of_pending hpending
          have hsettled : { s with byobRequest := none }.Settled := { hs.toConsistent with
            request := rfl, noFrame := hframe, own := hown }
          rw [hpending] at hsettled
          exact hsettled.returns_enqueueForReader hchunk fun _ _ => .inl hqueue

end Deno.ByteStream
