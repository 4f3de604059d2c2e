import Deno.Web.ByteStreamEnqueue

/-!
# Reading

A read gets what is in the queue, or waits with a request and, for a buffer of its own or of the
consumer, a descriptor.
-/

namespace Deno.ByteStream

open Core List

variable {s : ByteStream} {d : PullIntoDescriptor} {reader : StreamReader}

lemma Consistent.push (hs : s.Consistent) (hwf : d.Wf) (hzero : d.bytesFilled = 0)
    (hattached : d.detached = false) (htype : s.readerType = some d.readerType)
    (htype' : { s with reader := some reader }.readerType = s.readerType)
    (hawaited : { s with reader := some reader }.awaited = s.awaited + 1) :
    Consistent { s with
      pendingPullIntos := s.pendingPullIntos ++ [d], reader := some reader } := by
  have hnone := readerType_ne_none htype
  refine { hs with pending := ?_, behind := ?_, types := ?_, requests := ?_, conserved := ?_ }
  · exact forall_mem_append.mpr ⟨hs.pending, forall_mem_singleton.mpr hwf⟩
  · intro e he
    have hcases : e ∈ s.pendingPullIntos.tail ∨ e = d := by
      cases hpending : s.pendingPullIntos with
      | nil =>
        rw [hpending] at he
        cases he
      | cons first rest =>
        rw [hpending] at he
        exact (List.mem_append.mp he).imp_right List.mem_singleton.mp
    rcases hcases with he | rfl
    · exact hs.behind e he
    · exact ⟨hnone, hzero, hattached⟩
  · exact forall_mem_append.mpr ⟨fun e he => (hs.types e he).imp_right htype'.trans,
      forall_mem_singleton.mpr (.inr (htype'.trans htype))⟩
  · refine Eq.trans ?_ hawaited.symm
    rw [← hs.requests]
    simp [live, hnone]
  · have hhead : headFilled (s.pendingPullIntos ++ [d]) = headFilled s.pendingPullIntos := by
      cases s.pendingPullIntos with
      | nil => exact headFilled_eq_nil fun e he => (List.mem_singleton.mp he) ▸ hzero
      | cons first rest => rfl
    rw [hhead]
    exact hs.conserved

lemma Sound.push (hs : s.Sound) (hframe : s.frame = none) (hqueue : s.queue = []) (hwf : d.Wf)
    (hzero : d.bytesFilled = 0) (hattached : d.detached = false)
    (htype : s.readerType = some d.readerType)
    (htype' : { s with reader := some reader }.readerType = s.readerType)
    (hawaited : { s with reader := some reader }.awaited = s.awaited + 1) :
    Sound { s with
      pendingPullIntos := s.pendingPullIntos ++ [d], reader := some reader } := by
  refine { hs.toConsistent.push hwf hzero hattached htype htype' hawaited with
    idle := fun _ => hqueue, waiting := fun _ => hqueue, request := ?_, attached := ?_, frame := ?_ }
  · intro request hrequest
    obtain ⟨first, rest, hpending, heq⟩ := hs.request request hrequest
    exact ⟨first, rest ++ [d], by rw [hpending]; rfl, heq⟩
  · refine forall_mem_append.mpr ⟨hs.attached, forall_mem_singleton.mpr fun hdetached => ?_⟩
    rw [hattached] at hdetached
    cases hdetached
  · simp [FrameSound, hframe]

lemma wf_autoAllocatedDescriptor {size : ℕ} (hsize : 0 < size) : (autoAllocatedDescriptor size).Wf where
  elementSize := Nat.one_pos
  minimumFill := Nat.dvd_refl 1
  minimumFill_le := hsize
  inBounds := by simp [autoAllocatedDescriptor]
  bufferByteLength := by simp [autoAllocatedDescriptor]
  waits := Nat.one_pos
  default := fun _ => rfl

/-- With bytes in the queue nothing is pending. -/
lemma Sound.nothing_pending (hs : s.Sound) (hqueue : s.queue ≠ []) :
    s.pendingPullIntos = [] ∧ s.numRequests = 0 :=
  ⟨Classical.not_not.mp (mt hs.idle hqueue), Classical.not_not.mp (mt hs.waiting hqueue)⟩

/-- A read gets its chunk now, or when the source returns. -/
lemma Sound.handOver {chunk : Bytes} (hs : (s.deliver chunk).Sound) (hframe : s.frame = none)
    (hpending : s.pendingPullIntos = []) (hrequests : s.numRequests = 0) (called : Bool) :
    Sound (if called then { s with frame := some (.read chunk) } else s.deliver chunk) := by
  cases called with
  | true =>
    refine { hs with conserved := ?_, frame := ⟨hpending, hrequests⟩ }
    have hconserved := hs.conserved
    rw [show inFlight (s.deliver chunk).frame = [] by rw [deliver, hframe]; rfl, append_nil]
      at hconserved
    exact hconserved
  | false => exact hs

lemma Sound.deliver {entry : ReadableByteStreamQueueEntry} {queue : List ReadableByteStreamQueueEntry}
    (hs : s.Sound) (hframe : s.frame = none) (hqueue : s.queue = entry :: queue)
    {pulling pullAgain : Bool} (hagain : pullAgain = true → pulling = true)
    (hpulling : pulling = true → s.started = true) :
    Sound ({ s with
      queue := queue, queueTotalSize := queueSize queue, pulling := pulling
      pullAgain := pullAgain }.deliver entry.bytes) := by
  obtain ⟨hpending, hrequests⟩ := hs.nothing_pending (by rw [hqueue]; exact cons_ne_nil _ _)
  have hconserved := hs.conserved
  rw [hframe, hpending, hqueue] at hconserved
  refine { hs with
    entries := fun e he => hs.entries e (hqueue ▸ mem_cons_of_mem entry he), total := rfl
    conserved := ?_, pullAgain := hagain, pulling := hpulling
    idle := fun h => absurd hpending h, waiting := fun h => absurd hrequests h, frame := ?_ }
  · show s.delivered ++ entry.bytes ++ inFlight s.frame ++ headFilled s.pendingPullIntos ++
      queueBytes queue = s.produced
    rw [hframe, hpending, ← hconserved]
    simp
  · simp [FrameSound, ByteStream.deliver, hframe]

lemma Sound.read (hs : s.Sound) (hframe : s.frame = none) : Returns s.read := by
  unfold ByteStream.read
  cases hreader : s.reader with
  | none => trivial
  | some reader =>
    cases reader with
    | byob n => trivial
    | default n =>
      have htype : s.readerType = some .default := by rw [readerType, hreader]
      dsimp only
      by_cases htotal : 0 < s.queueTotalSize
      · rw [if_pos htotal]
        cases hqueue : s.queue with
        | nil =>
          rw [hs.total, hqueue] at htotal
          exact absurd htotal (Nat.lt_irrefl 0)
        | cons entry queue =>
          obtain ⟨hpending, hrequests⟩ := hs.nothing_pending (by rw [hqueue]; exact cons_ne_nil _ _)
          have hn : n = 0 := by
            rw [numRequests, hreader] at hrequests
            exact hrequests
          obtain ⟨pulling, pullAgain, called, htake, hagain, hpulling⟩ := takeFromQueue_eq
            (hs.entries entry (hqueue ▸ mem_cons_self)) hqueue hs.total hs.pullAgain hs.pulling
          simp only [assert, if_pos hn, bind, Except.bind]
          rw [htake]
          exact (hs.deliver hframe hqueue hagain hpulling).handOver hframe hpending hrequests called
      · rw [if_neg htotal]
        have hqueue := queue_eq_nil hs.toConsistent (Nat.eq_zero_of_not_pos htotal)
        cases hauto : s.autoAllocateChunkSize with
        | none =>
          have hrequests := hs.requests
          simp only [awaited, hreader, hauto] at hrequests
          have hsound : Sound { s with reader := some (.default (n + 1)) } := by
            refine { hs with
              types := fun d hd => (hs.types d hd).imp_right htype.symm.trans, requests := ?_
              waiting := fun _ => hqueue, frame := ?_ }
            · simp only [awaited, hauto]
              exact hrequests
            · simp [FrameSound, hframe]
          exact hsound.returns_endWithPull
        | some size =>
          have hsound : Sound { s with
              pendingPullIntos := s.pendingPullIntos ++ [autoAllocatedDescriptor size]
              reader := some (.default (n + 1)) } := by
            refine hs.push hframe hqueue (wf_autoAllocatedDescriptor (hs.chunkSize size hauto)) rfl rfl
              htype htype.symm ?_
            simp [awaited, hreader, hauto, Option.isSome_some]
          rw [hauto] at hsound
          exact hsound.returns_endWithPull

lemma elementSize_pos (c : ViewConstructor) : 0 < c.elementSize := by
  cases c <;> exact Nat.succ_pos _

variable {view : ArrayBufferView} {min : ℕ}

lemma wf_pullIntoDescriptor (hmin : min ≠ 0)
    (hle : min ≤ view.length) : (pullIntoDescriptor view min).Wf where
  elementSize := elementSize_pos _
  minimumFill := Nat.dvd_mul_left _ _
  minimumFill_le := Nat.mul_le_mul_right _ hle
  inBounds := view.inBounds
  bufferByteLength := rfl
  waits := Nat.mul_pos (Nat.pos_of_ne_zero hmin) (elementSize_pos _)
  default := nofun

variable {n : ℕ}

lemma Sound.addReadIntoRequest (hs : s.Sound) (hframe : s.frame = none) (hqueue : s.queue = [])
    (hreader : s.reader = some (.byob n)) (hmin : min ≠ 0) (hle : min ≤ view.length) :
    ∃ s', s.addReadIntoRequest (pullIntoDescriptor view min) = .ok s' ∧ s'.Sound := by
  refine ⟨_, by rw [ByteStream.addReadIntoRequest, hreader], ?_⟩
  have htype : s.readerType = some .byob := by rw [readerType, hreader]
  refine hs.push hframe hqueue (wf_pullIntoDescriptor hmin hle) rfl rfl htype htype.symm ?_
  simp [awaited, hreader]

/-- The queue has bytes for the request of a BYOB reader. -/
lemma Sound.processing_push (hs : s.Sound) (hframe : s.frame = none) (hqueue : s.queue ≠ [])
    (hreader : s.reader = some (.byob n)) (hmin : min ≠ 0) (hle : min ≤ view.length) :
    Processing { s with
      pendingPullIntos := [pullIntoDescriptor view min], reader := some (.byob (n + 1)) } := by
  obtain ⟨hpending, -⟩ := hs.nothing_pending hqueue
  have htype : s.readerType = some .byob := by rw [readerType, hreader]
  have hpush : Consistent { s with
      pendingPullIntos := s.pendingPullIntos ++ [pullIntoDescriptor view min]
      reader := some (.byob (n + 1)) } :=
    hs.toConsistent.push (wf_pullIntoDescriptor hmin hle) rfl rfl htype htype.symm
      (by simp [awaited, hreader])
  rw [hpending] at hpush
  refine { hpush with
    request := hs.noRequest hpending, noFrame := hframe, own := ?_, covered := rfl }
  exact forall_mem_singleton.mpr ⟨by simp [pullIntoDescriptor], rfl⟩

lemma Sound.pullInto (hs : s.Sound) (hframe : s.frame = none)
    (hreader : s.reader = some (.byob n)) (hmin : min ≠ 0)
    (hle : min ≤ view.length) : Returns (s.pullInto view min) := by
  have hwf := wf_pullIntoDescriptor hmin hle
  have haligned : (pullIntoDescriptor view min).minimumFill % (pullIntoDescriptor view min).elementSize
      = 0 := Nat.mod_eq_zero_of_dvd hwf.minimumFill
  simp only [ByteStream.pullInto, assert, if_pos hwf.minimumFill_le, if_pos haligned, bind, Except.bind]
  by_cases hpending : s.pendingPullIntos = []
  · rw [if_neg (fun h => h hpending)]
    by_cases htotal : 0 < s.queueTotalSize
    · rw [if_pos htotal]
      have hqueue : s.queue ≠ [] := by
        intro hempty
        rw [hs.total, hempty] at htotal
        exact Nat.lt_irrefl 0 htotal
      have hproc := hs.processing_push hframe hqueue hreader hmin hle
      obtain ⟨ready, data, queue, hfill, hwf', hbytes, hcomplete, hshort⟩ :=
        fillPullIntoDescriptorFromQueue_eq (.inl rfl) hs.entries hs.total htotal hpending hproc.request
          hwf
      rw [hfill]
      cases ready with
      | true =>
        have hcomplete := hcomplete rfl
        have hmod := Nat.mod_eq_zero_of_dvd hcomplete.aligned
        have hdelivered : Sound ({ s with
            pendingPullIntos := [], queue := queue, queueTotalSize := queueSize queue
            committed := s.committed ++ [(pullIntoDescriptor view min).write data]
            reader := some (.byob n) }.deliver ((pullIntoDescriptor view min).write data).filled) :=
          (hproc.committing rfl hwf' hbytes hcomplete).processing.sound (fun h => absurd rfl h)
        rw [← hreader] at hdelivered
        obtain ⟨pulling, pullAgain, called, hcall, hagain, hpulling⟩ := callPullIfNeeded_eq
          (s := { s with
            pendingPullIntos := [], queue := queue, queueTotalSize := queueSize queue
            committed := s.committed ++ [(pullIntoDescriptor view min).write data] })
          hs.pullAgain hs.pulling
        simp only [if_true, convertPullIntoDescriptor, assert, if_pos hcomplete.fits, if_pos hmod, bind,
          Except.bind, pure, Except.pure]
        rw [hcall]
        refine Sound.handOver ?_ ?_ ?_ ?_ called
        · exact hdelivered.setPulling hagain hpulling
        · exact hframe
        · rfl
        · exact (hs.nothing_pending hqueue).2
      | false =>
        obtain ⟨rfl, hwf''⟩ := hshort rfl
        have hsound := (hproc.drained rfl hbytes hwf'').sound (fun _ => rfl)
        simp only [Bool.false_eq_true, if_false, ByteStream.addReadIntoRequest, hreader]
        exact hsound.returns_endWithPull
    · rw [if_neg htotal]
      have hqueue := queue_eq_nil hs.toConsistent (Nat.eq_zero_of_not_pos htotal)
      obtain ⟨s', hadd, hs'⟩ := hs.addReadIntoRequest hframe hqueue hreader hmin hle
      rw [hadd]
      exact hs'.returns_endWithPull
  · rw [if_pos hpending]
    obtain ⟨s', hadd, hs'⟩ := hs.addReadIntoRequest hframe (hs.idle hpending) hreader hmin hle
    rw [hadd]
    exact hs'

lemma Sound.readInto (hs : s.Sound) (hframe : s.frame = none) (view : ArrayBufferView) (min : ℕ) :
    Returns (s.readInto view min) := by
  unfold ByteStream.readInto
  split_ifs with hlength hmin hlt
  · trivial
  · trivial
  · trivial
  · cases hreader : s.reader with
    | none => trivial
    | some reader =>
      cases reader with
      | default n => trivial
      | byob n => exact hs.pullInto hframe hreader hmin (Nat.le_of_not_gt hlt)

end Deno.ByteStream
