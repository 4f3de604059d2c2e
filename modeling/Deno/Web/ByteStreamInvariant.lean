import Deno.Web.ByteStreamProcess

/-!
# Operations that keep the invariant

Locks, promises and requests to the source keep the invariant, and so do the bytes that a released
reader leaves in its descriptor.
-/

namespace Deno.ByteStream

open Core List

variable {s : ByteStream}

/-- An operation that fails at most with an error for its caller. -/
def Returns : Except StreamError ByteStream → Prop
  | .ok s => s.Sound
  | .error (.typeError _) => True
  | .error (.rangeError _) => True
  | .error _ => False

lemma Sound.caught (hs : s.Sound) {result : Except StreamError ByteStream} (h : Returns result) :
    ∃ s', s.caught result = .ok s' ∧ s'.Sound := by
  cases result with
  | ok s' => exact ⟨s', rfl, h⟩
  | error e =>
    cases e with
    | assertion | nullDereference => exact h.elim
    | typeError message | rangeError message => exact ⟨s, rfl, hs⟩

lemma Sound.returns_endWithPull (hs : s.Sound) : Returns s.endWithPull := by
  obtain ⟨s', hpull, hs'⟩ := hs.endWithPull
  rw [hpull]
  exact hs'

lemma Processing.returns_process (hs : s.Processing) :
    Returns (s.processPullIntoDescriptorsUsingQueue.bind endWithPull) := by
  obtain ⟨s', hprocess, hs'⟩ := hs.process
  rw [hprocess]
  exact hs'.returns_endWithPull

/-! ### Readers and descriptors -/

lemma queue_eq_nil (hs : s.Consistent) (h : s.queueTotalSize = 0) : s.queue = [] :=
  eq_nil_of_queueSize_eq_zero hs.entries (hs.total ▸ h)

/-- Requests with descriptors are all of them. -/
lemma covered_of_awaited (h : s.awaited ≠ 0) : s.numRequests = s.awaited := by
  unfold awaited numRequests at *
  cases hreader : s.reader with
  | none => rfl
  | some reader =>
    rw [hreader] at h
    cases reader with
    | default n =>
      split_ifs at h ⊢ with hauto
      · rfl
      · exact absurd rfl h
    | byob n => rfl

section

variable (hs : s.Sound)

include hs

/-- A request to the source is for the first descriptor. -/
lemma Sound.noRequest (hpending : s.pendingPullIntos = []) : s.byobRequest = none := by
  cases hcase : s.byobRequest with
  | none => rfl
  | some request =>
    obtain ⟨d, rest, hcons, -⟩ := hs.request request hcase
    rw [hpending] at hcons
    cases hcons

/-! ### Locks and promises -/

lemma Sound.setReader (hframe : s.frame = none) (hreader : s.reader = none)
    {reader : StreamReader} (hnew : reader = .byob 0 ∨ reader = .default 0) :
    { s with reader := some reader }.Sound := by
  have hawaited : s.awaited = 0 := by rw [awaited, hreader]
  have hrequests : { s with reader := some reader }.numRequests = 0 := by
    rcases hnew with rfl | rfl <;> rfl
  refine { hs with types := ?_, requests := ?_, waiting := ?_, frame := ?_ }
  · intro d hd
    refine .inl ((hs.types d hd).resolve_right ?_)
    rw [readerType, hreader]
    exact nofun
  · rw [hs.requests, hawaited]
    rcases hnew with rfl | rfl
    · rfl
    · exact (ite_self 0).symm
  · intro h
    exact absurd hrequests h
  · simp [FrameSound, hframe]

lemma Sound.getReader (hframe : s.frame = none) (byob : Bool) : Returns (s.getReader byob) := by
  unfold ByteStream.getReader
  cases hreader : s.reader with
  | some reader => trivial
  | none =>
    cases byob with
    | true => exact hs.setReader hframe hreader (.inl rfl)
    | false => exact hs.setReader hframe hreader (.inr rfl)

lemma Sound.releaseLock (hframe : s.frame = none) : s.releaseLock.Sound := by
  unfold ByteStream.releaseLock
  cases hreader : s.reader with
  | none => exact hs
  | some reader =>
    cases hpending : s.pendingPullIntos with
    | nil =>
      refine { hs with
        pending := by simp, behind := by simp, types := by simp, requests := rfl, conserved := ?_
        idle := by simp, waiting := by simp [numRequests], request := ?_, attached := by simp, frame := ?_ }
      · have hconserved := hs.conserved
        rw [hpending, hframe] at hconserved
        rwa [hframe]
      · intro request hrequest
        obtain ⟨d, rest, hcons, -⟩ := hs.request request hrequest
        rw [hpending] at hcons
        cases hcons
      · simp [FrameSound, hframe]
    | cons first rest =>
      have hfirst := mem_first hpending
      have hqueue := hs.queue_of_pending hpending
      refine { hs with
        pending := ?_, behind := by simp, types := ?_, requests := rfl, conserved := ?_
        idle := fun _ => hqueue, waiting := by simp [numRequests], request := ?_, attached := ?_
        frame := ?_ }
      · exact forall_mem_singleton.mpr { hs.pending first hfirst with default := by simp }
      · exact forall_mem_singleton.mpr (.inl rfl)
      · have hconserved := hs.conserved
        rw [hpending, hframe] at hconserved
        rwa [hframe]
      · intro request hrequest
        obtain ⟨d, rest', hcons, heq⟩ := hs.request request hrequest
        rw [hpending] at hcons
        cases hcons
        exact ⟨_, [], rfl, heq⟩
      · exact forall_mem_singleton.mpr (hs.attached first hfirst)
      · simp [FrameSound, hframe]

lemma Sound.start : Returns s.start := by
  unfold ByteStream.start
  by_cases hstarted : s.started = true
  · rw [if_pos hstarted]
    exact hs
  · have hpulling : s.pulling = false := Bool.eq_false_iff.mpr fun h => hstarted (hs.pulling h)
    have hagain : s.pullAgain = false := by
      refine Bool.eq_false_iff.mpr fun h => ?_
      rw [hs.pullAgain h] at hpulling
      cases hpulling
    have hs' : { s with started := true }.Sound := { hs with pulling := fun _ => rfl }
    simp only [if_neg hstarted, assert, if_pos hpulling, if_pos hagain, bind, Except.bind]
    exact hs'.returns_endWithPull

lemma Sound.pullResolved : Returns s.pullResolved := by
  unfold ByteStream.pullResolved
  by_cases hpulling : s.pulling = true
  · rw [if_neg (by simp [hpulling])]
    by_cases hagain : s.pullAgain = true
    · rw [if_pos hagain]
      have hs' : { s with pulling := false, pullAgain := false }.Sound := hs.setPulling nofun nofun
      exact hs'.returns_endWithPull
    · rw [if_neg hagain]
      exact hs.setPulling (fun h => absurd h hagain) nofun
  · rw [if_pos (by simp [hpulling])]
    exact hs

/-! ### Requests to the source -/

lemma Sound.getBYOBRequest : s.getBYOBRequest.Sound := by
  unfold ByteStream.getBYOBRequest
  split
  · next first rest hrequest hpending =>
    refine { hs with request := ?_, attached := fun _ _ _ => Option.some_ne_none _ }
    intro request h
    exact ⟨first, rest, hpending, (Option.some.inj h).symm⟩
  · exact hs

lemma Sound.transferRequest : s.transferRequest.Sound := by
  unfold ByteStream.transferRequest
  split
  · next request first rest hrequest hpending =>
    have hconserved := hs.conserved
    rw [hpending] at hconserved
    have hconsistent := hs.toConsistent.replaceFirst hpending { first with detached := true }
      s.byobRequest { hs.pending first (mem_first hpending) with } rfl hs.entries hconserved
    have hqueue := hs.queue_of_pending hpending
    rw [← hs.total] at hconsistent
    refine { hconsistent with
      idle := fun _ => hqueue, waiting := hs.waiting, request := ?_, attached := ?_, frame := ?_ }
    · intro request' hrequest'
      obtain ⟨d, rest', hcons, heq⟩ := hs.request request' hrequest'
      rw [hpending] at hcons
      cases hcons
      exact ⟨_, rest, rfl, heq⟩
    · intro d hd hdetached
      exact hrequest ▸ Option.some_ne_none request
    · simp [FrameSound, hs.noFrame_of_pending hpending]
  · exact hs

end

/-! ### Bytes of a released reader -/

variable (bytes : Bytes)

def clonedQueue : List ReadableByteStreamQueueEntry :=
  if 0 < bytes.length then [⟨bytes, 0, bytes.length⟩] else []

lemma queueBytes_clonedQueue : queueBytes (clonedQueue bytes) = bytes := by
  unfold clonedQueue
  split_ifs with h
  · rw [queueBytes_cons, queueBytes_nil, append_nil]
    show slice bytes 0 bytes.length = bytes
    rw [slice, drop_zero, take_length]
  · exact (List.length_eq_zero_iff.mp (Nat.eq_zero_of_not_pos h)).symm

lemma wf_clonedQueue : ∀ entry ∈ clonedQueue bytes, entry.Wf := by
  unfold clonedQueue
  split_ifs with h
  · exact forall_mem_singleton.mpr ⟨h, Nat.le_of_eq (Nat.zero_add _)⟩
  · exact forall_mem_nil _

/-- Bytes of a buffer are cloned into an empty queue. -/
lemma enqueueClonedChunkToQueue_eq {buffer : Bytes} {byteOffset byteLength : ℕ}
    (hqueue : s.queue = []) (htotal : s.queueTotalSize = 0)
    (hbounds : byteOffset + byteLength ≤ buffer.length) :
    (if 0 < byteLength then s.enqueueClonedChunkToQueue buffer byteOffset byteLength else s) =
      { s with
        queue := clonedQueue (slice buffer byteOffset byteLength)
        queueTotalSize := queueSize (clonedQueue (slice buffer byteOffset byteLength)) } := by
  unfold clonedQueue
  rw [length_slice hbounds]
  split_ifs
  · simp [enqueueClonedChunkToQueue, enqueueChunkToQueue, hqueue, htotal, queueSize_nil]
  · rw [queueSize_nil, ← hqueue, ← htotal]

lemma enqueueDetachedPullIntoToQueue_eq {d : PullIntoDescriptor} (hnone : d.readerType = .none)
    (hrequest : s.byobRequest = none) (hqueue : s.queue = []) (htotal : s.queueTotalSize = 0)
    (hbounds : d.byteOffset + d.bytesFilled ≤ d.buffer.length) :
    s.enqueueDetachedPullIntoToQueue d = .ok { s with
      pendingPullIntos := s.pendingPullIntos.tail, queue := clonedQueue d.filled
      queueTotalSize := queueSize (clonedQueue d.filled) } := by
  simp only [enqueueDetachedPullIntoToQueue, assert, if_pos hnone, bind, Except.bind,
    enqueueClonedChunkToQueue_eq hqueue htotal hbounds, shiftPendingPullInto, if_pos hrequest]
  rfl

/-- The first descriptor is of a released reader. Its bytes go to the queue, with the given ones
written behind them. -/
lemma Sound.detach {first d : PullIntoDescriptor} {rest : List PullIntoDescriptor} {bytes : Bytes}
    (hs : s.Sound) (hpending : s.pendingPullIntos = first :: rest) (hnone : first.readerType = .none)
    (hfilled : d.filled = first.filled ++ bytes) :
    Settled { s with
      byobRequest := none, pendingPullIntos := rest, queue := clonedQueue d.filled
      queueTotalSize := queueSize (clonedQueue d.filled), produced := s.produced ++ bytes } := by
  have hbehind := hs.behind_first hpending
  have hframe := hs.noFrame_of_pending hpending
  refine { hs with
    entries := wf_clonedQueue d.filled, total := rfl
    pending := fun e he => hs.pending e (mem_rest hpending he)
    behind := fun e he => hbehind e (mem_of_mem_tail he)
    types := fun e he => hs.types e (mem_rest hpending he), requests := ?_, conserved := ?_
    request := rfl, noFrame := hframe
    own := fun e he => ⟨(hbehind e he).1, (hbehind e he).2.2⟩ }
  · have hlive : live rest = live s.pendingPullIntos := by
      rw [hpending, live, live, filter_cons_of_neg (by simp [hnone])]
    rw [hlive]
    exact hs.requests
  · rw [hframe, headFilled_eq_nil fun e he => (hbehind e he).2.1, queueBytes_clonedQueue, hfilled,
      hs.produced_of_pending hpending]
    simp

end Deno.ByteStream
