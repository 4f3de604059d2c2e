import Deno.Web.ByteStreamRead

/-!
# Responding to a request

The source writes into the buffer of the first descriptor. A descriptor that has enough is committed
up to its last whole element, and the rest goes to the queue; all the bytes of a descriptor of a
released reader do.
-/

namespace Deno.ByteStream

open Core List

variable {s : ByteStream} {first g : PullIntoDescriptor} {rest : List PullIntoDescriptor}
  {bytes : Bytes}

/-- The source may respond: for the descriptor of a released reader only if no read of a default
reader waits without a descriptor. -/
def MayRespond (s : ByteStream) : Prop :=
  ∀ first, s.pendingPullIntos = [first] → first.readerType = .none →
    s.readerType = some .default → s.numRequests = 0

instance (s : ByteStream) : Decidable s.MayRespond :=
  match hpending : s.pendingPullIntos with
  | [first] => decidable_of_iff (first.readerType = .none →
      s.readerType = some .default → s.numRequests = 0) (by simp [MayRespond, hpending])
  | [] | _ :: _ :: _ => .isTrue (by simp [MayRespond, hpending])

/-- The first descriptor, with the bytes that the source has written behind what it had. -/
structure Written (first g : PullIntoDescriptor) (bytes : Bytes) : Prop where
  elementSize : g.elementSize = first.elementSize
  minimumFill : g.minimumFill = first.minimumFill
  byteLength : g.byteLength = first.byteLength
  readerType : g.readerType = first.readerType
  byteOffset : g.byteOffset = first.byteOffset
  bufferByteLength : g.bufferByteLength = first.bufferByteLength
  length : g.buffer.length = first.buffer.length
  detached : g.detached = false
  fits : g.bytesFilled ≤ g.byteLength
  filled : g.filled = first.filled ++ bytes

lemma Written.filled_inBounds (hg : Written first g bytes) (hwf : first.Wf) :
    g.byteOffset + g.bytesFilled ≤ g.buffer.length := by
  have hinBounds := hwf.inBounds
  have hfits := hg.fits
  rw [hg.byteLength] at hfits
  rw [hg.length, hg.byteOffset]
  omega

lemma Written.wf (hg : Written first g bytes) (hwf : first.Wf) (hwaits : g.bytesFilled < g.minimumFill) :
    g.Wf where
  elementSize := hg.elementSize ▸ hwf.elementSize
  minimumFill := by
    rw [hg.elementSize, hg.minimumFill]
    exact hwf.minimumFill
  minimumFill_le := by
    rw [hg.minimumFill, hg.byteLength]
    exact hwf.minimumFill_le
  inBounds := by
    rw [hg.byteOffset, hg.byteLength, hg.length]
    exact hwf.inBounds
  bufferByteLength := by
    rw [hg.bufferByteLength, hg.length]
    exact hwf.bufferByteLength
  waits := hwaits
  default := fun h => by
    rw [hg.minimumFill]
    exact hwf.default (hg.readerType ▸ h)

variable (g)

/-- What is left when the descriptor is cut to whole elements. -/
def remainder : Bytes :=
  slice g.buffer (g.byteOffset + g.bytesFilled - g.bytesFilled % g.elementSize)
    (g.bytesFilled % g.elementSize)

def aligned : PullIntoDescriptor :=
  { g with bytesFilled := g.bytesFilled - g.bytesFilled % g.elementSize }

lemma filled_aligned : (aligned g).filled ++ remainder g = g.filled := by
  have hmod : g.bytesFilled % g.elementSize ≤ g.bytesFilled := Nat.mod_le _ _
  show slice g.buffer g.byteOffset (g.bytesFilled - g.bytesFilled % g.elementSize) ++
    slice g.buffer (g.byteOffset + g.bytesFilled - g.bytesFilled % g.elementSize)
      (g.bytesFilled % g.elementSize) = slice g.buffer g.byteOffset g.bytesFilled
  rw [Nat.add_sub_assoc hmod, ← slice_add, Nat.sub_add_cancel hmod]

variable {g}

lemma Written.complete_aligned (hg : Written first g bytes) (hwf : first.Wf)
    (henough : ¬g.bytesFilled < g.minimumFill) : (aligned g).Complete where
  aligned := Nat.dvd_sub_mod _
  enough := by
    refine le_sub_mod_of_dvd ?_ (Nat.le_of_not_lt henough)
    rw [hg.elementSize]
    exact hg.minimumFill ▸ hwf.minimumFill
  fits := Nat.le_trans (Nat.sub_le _ _) hg.fits

/-- The bytes of a released reader are for those behind it. -/
lemma Sound.processing_detached (hs : s.Sound) (hmay : s.MayRespond)
    (hpending : s.pendingPullIntos = first :: rest) (hnone : first.readerType = .none)
    (hg : Written first g bytes) :
    Processing { s with
      byobRequest := none, pendingPullIntos := rest, queue := clonedQueue g.filled
      queueTotalSize := queueSize (clonedQueue g.filled), produced := s.produced ++ bytes } := by
  have hsettled := hs.detach hpending hnone hg.filled
  refine { hsettled with covered := ?_ }
  have hlength : rest.length = s.awaited := hsettled.length_pending
  show s.numRequests = s.awaited
  by_cases hawaited : s.awaited = 0
  · rw [hawaited] at hlength
    rw [List.length_eq_zero_iff.mp hlength] at hpending
    rw [hawaited]
    cases hreader : s.reader with
    | none => rw [numRequests, hreader]
    | some reader =>
      cases reader with
      | default n => exact hmay first hpending hnone (by rw [readerType, hreader])
      | byob n =>
        rw [awaited, hreader] at hawaited
        rw [numRequests, hreader]
        exact hawaited
  · exact covered_of_awaited hawaited

/-- The first descriptor has enough, and what is left over goes to the queue. -/
lemma Sound.committing (hs : s.Sound) (hpending : s.pendingPullIntos = first :: rest)
    (hsome : first.readerType ≠ .none) (hg : Written first g bytes)
    (henough : ¬g.bytesFilled < g.minimumFill) :
    Committing { s with
      byobRequest := none, pendingPullIntos := rest, queue := clonedQueue (remainder g)
      queueTotalSize := queueSize (clonedQueue (remainder g))
      produced := s.produced ++ bytes } (aligned g) := by
  have hbehind := hs.behind_first hpending
  have hframe := hs.noFrame_of_pending hpending
  have htype := (hs.types first (mem_first hpending)).resolve_left hsome
  have hrequests : rest.length + 1 = s.awaited := by
    rw [← hs.requests, hpending, live_eq_self, length_cons]
    exact forall_mem_cons.mpr ⟨hsome, fun d hd => (hbehind d hd).1⟩
  have hcovered : s.numRequests = s.awaited :=
    covered_of_awaited (by rw [← hrequests]; exact Nat.succ_ne_zero _)
  refine { hs with
    complete := hg.complete_aligned (hs.pending first (mem_first hpending)) henough
    type := htype.trans (congrArg some hg.readerType.symm)
    entries := wf_clonedQueue _, total := rfl
    pending := fun d hd => hs.pending d (mem_rest hpending hd)
    behind := ?_, requests := hrequests, covered := hcovered, conserved := ?_, request := rfl
    noFrame := hframe }
  · intro d hd
    have hsame := (hs.types d (mem_rest hpending hd)).resolve_left (hbehind d hd).1
    rw [htype] at hsame
    exact ⟨(Option.some.inj hsame).symm.trans hg.readerType.symm, (hbehind d hd).2⟩
  · rw [queueBytes_clonedQueue, append_assoc, filled_aligned, hg.filled,
      hs.produced_of_pending hpending, append_assoc]

lemma Sound.sound_partial (hs : s.Sound) (hpending : s.pendingPullIntos = first :: rest)
    (hg : Written first g bytes) (hless : g.bytesFilled < g.minimumFill) :
    Sound { s with
      byobRequest := none, pendingPullIntos := g :: rest, produced := s.produced ++ bytes } := by
  have hqueue := hs.queue_of_pending hpending
  have hframe := hs.noFrame_of_pending hpending
  have hconserved : s.delivered ++ inFlight s.frame ++ g.filled ++ queueBytes s.queue =
      s.produced ++ bytes := by
    rw [hframe, hqueue, hg.filled, hs.produced_of_pending hpending]
    simp
  have hconsistent := hs.toConsistent.replaceFirst hpending g none
    (hg.wf (hs.pending first (mem_first hpending)) hless) hg.readerType hs.entries hconserved
  rw [← hs.total] at hconsistent
  refine { hconsistent with
    idle := fun _ => hqueue, waiting := fun _ => hqueue, request := by simp, attached := ?_, frame := ?_ }
  · intro d hd hdetached
    rcases List.mem_cons.mp hd with rfl | hd
    · rw [hg.detached] at hdetached
      cases hdetached
    · rw [(hs.behind_first hpending d hd).2.2] at hdetached
      cases hdetached
  · simp [FrameSound, hframe]

variable {f : PullIntoDescriptor}

lemma Sound.respondInReadableState (hs : s.Sound) (hmay : s.MayRespond)
    (hpending : s.pendingPullIntos = first :: rest) {n : ℕ}
    (hg : Written first { f with bytesFilled := f.bytesFilled + n } bytes) :
    ∃ s', ({ s with
      byobRequest := none, pendingPullIntos := f :: rest
      produced := s.produced ++ bytes }.respondInReadableState n f) = .ok s' ∧ s'.Sound := by
  have hqueue := hs.queue_of_pending hpending
  have htotal : s.queueTotalSize = 0 := by rw [hs.total, hqueue, queueSize_nil]
  have hinBounds := hg.filled_inBounds (hs.pending first (mem_first hpending))
  simp only [ByteStream.respondInReadableState, assert, if_pos hg.fits, bind, Except.bind]
  rw [fillHeadPullIntoDescriptor_eq (.inr ⟨rest, rfl⟩) rfl rfl]
  dsimp only
  by_cases hnone : first.readerType = .none
  · have hnone' : f.readerType = .none := hg.readerType.trans hnone
    rw [if_pos hnone', enqueueDetachedPullIntoToQueue_eq]
    · exact (hs.processing_detached hmay hpending hnone hg).process
    · exact hnone'
    · rfl
    · exact hqueue
    · exact htotal
    · exact hinBounds
  · have hsome : ¬f.readerType = .none := fun h => hnone (hg.readerType.symm.trans h)
    rw [if_neg hsome]
    by_cases hless : f.bytesFilled + n < f.minimumFill
    · rw [if_pos hless]
      exact ⟨_, rfl, hs.sound_partial hpending hg hless⟩
    · rw [if_neg hless]
      obtain ⟨s', hcommit, hproc, -⟩ := (hs.committing hpending hnone hg hless).commit
      obtain ⟨s'', hprocess, hsound⟩ := hproc.process
      refine ⟨s'', ?_, hsound⟩
      simp only [shiftPendingPullInto, assert, if_true, tail_cons, bind, Except.bind, pure,
        Except.pure]
      rw [enqueueClonedChunkToQueue_eq]
      · unfold remainder aligned at hcommit
        rw [hcommit]
        exact hprocess
      · exact hqueue
      · exact htotal
      · have hmod := Nat.mod_le (f.bytesFilled + n) f.elementSize
        dsimp only at hinBounds
        omega

lemma Sound.respondInternal (hs : s.Sound) (hmay : s.MayRespond)
    (hpending : s.pendingPullIntos = first :: rest) {n : ℕ} (hn : 0 < n)
    (hg : Written first { f with bytesFilled := f.bytesFilled + n } bytes) :
    Returns ({ s with produced := s.produced ++ bytes }.respondInternal n f rest) := by
  obtain ⟨s', hrespond, hsound⟩ := hs.respondInReadableState hmay hpending hg
  simp only [ByteStream.respondInternal, assert, show f.detached = false from hg.detached, if_true,
    if_pos hn, bind, Except.bind, invalidateBYOBRequest]
  rw [hrespond]
  exact hsound.returns_endWithPull

lemma Sound.respond (hs : s.Sound) (hmay : s.MayRespond) (written : Bytes) :
    Returns (s.respond written) := by
  unfold ByteStream.respond
  cases hrequest : s.byobRequest with
  | none => trivial
  | some request =>
    obtain ⟨first, rest, hpending, rfl⟩ := hs.request request hrequest
    have hwf := hs.pending first (hpending ▸ mem_cons_self)
    have hinBounds := hwf.inBounds
    have hmin := hwf.minimumFill_le
    have hwaits := hwf.waits
    have hview : 0 < first.byteLength - first.bytesFilled := by omega
    have hbuffer : 0 < first.buffer.length := by omega
    rw [hpending]
    dsimp only
    by_cases hdetached : first.detached = true
    · rw [if_pos hdetached]
      trivial
    · simp only [assert, if_pos hview, if_pos hbuffer, bind, Except.bind]
      split_ifs with hzero hrange
      · trivial
      · trivial
      · have hreturns := hs.respondInternal hmay hpending (Nat.pos_of_ne_zero hzero)
          (f := { first with
            buffer := writeAt first.buffer (first.byteOffset + first.bytesFilled) written })
          { elementSize := rfl, minimumFill := rfl, byteLength := rfl, readerType := rfl
            byteOffset := rfl, bufferByteLength := rfl, length := length_writeAt (by omega)
            detached := Bool.eq_false_iff.mpr hdetached, fits := Nat.le_of_not_gt hrange
            filled := slice_writeAt_add hwf.filled_inBounds }
        exact hreturns

/-- The view shows the memory of the request: what is before it is as it was. -/
def ShowsRequest (s : ByteStream) (view : ArrayBufferView) : Prop :=
  ∀ first ∈ s.pendingPullIntos.head?, view.buffer.take (first.byteOffset + first.bytesFilled) =
    first.buffer.take (first.byteOffset + first.bytesFilled)

instance (s : ByteStream) (view : ArrayBufferView) : Decidable (s.ShowsRequest view) :=
  inferInstanceAs (Decidable (∀ first ∈ s.pendingPullIntos.head?, _ = _))

lemma Sound.respondWithNewView (hs : s.Sound) (hmay : s.MayRespond) {view : ArrayBufferView}
    (hview : s.ShowsRequest view) : Returns (s.respondWithNewView view) := by
  unfold ByteStream.respondWithNewView
  cases hrequest : s.byobRequest with
  | none => trivial
  | some request =>
    obtain ⟨first, rest, hpending, rfl⟩ := hs.request request hrequest
    have hwf := hs.pending first (hpending ▸ mem_cons_self)
    have hsame := hview first (by rw [hpending]; rfl)
    rw [hpending]
    dsimp only
    split_ifs with hzero hoffset hlength hrange
    · trivial
    · trivial
    · trivial
    · trivial
    · have hfilled : slice view.buffer first.byteOffset (first.bytesFilled + view.byteLength) =
          first.filled ++ view.bytes := by
        rw [slice_add, slice_congr hsame (Nat.le_refl _), Classical.not_not.mp hoffset]
        rfl
      have hreturns := hs.respondInternal hmay hpending (Nat.pos_of_ne_zero hzero)
        (f := { first with buffer := view.buffer, detached := false })
        { elementSize := rfl, minimumFill := rfl, byteLength := rfl, readerType := rfl
          byteOffset := rfl, bufferByteLength := rfl
          length := (Classical.not_not.mp hlength).symm.trans hwf.bufferByteLength
          detached := rfl, fits := Nat.le_of_not_gt hrange, filled := hfilled }
      exact hreturns

end Deno.ByteStream
