import Deno.Web.ByteStream

/-!
# Filling descriptors from the queue

Bytes move from the front of the queue to the end of what a descriptor has, so that the bytes of
the descriptor followed by those of the queue stay the same.
-/

namespace Deno

open Core List PullIntoDescriptor

/-- An entry shows a part of its buffer, and is not empty. -/
structure ReadableByteStreamQueueEntry.Wf (entry : ReadableByteStreamQueueEntry) : Prop where
  nonempty : 0 < entry.byteLength
  inBounds : entry.byteOffset + entry.byteLength ≤ entry.buffer.length

/-- A descriptor that is pending. -/
structure PullIntoDescriptor.Wf (d : PullIntoDescriptor) : Prop where
  elementSize : 0 < d.elementSize
  minimumFill : d.elementSize ∣ d.minimumFill
  minimumFill_le : d.minimumFill ≤ d.byteLength
  inBounds : d.byteOffset + d.byteLength ≤ d.buffer.length
  bufferByteLength : d.bufferByteLength = d.buffer.length
  waits : d.bytesFilled < d.minimumFill
  default : d.readerType = .default → d.minimumFill = 1

structure PullIntoDescriptor.Complete (d : PullIntoDescriptor) : Prop where
  aligned : d.elementSize ∣ d.bytesFilled
  enough : d.minimumFill ≤ d.bytesFilled
  fits : d.bytesFilled ≤ d.byteLength

section

variable (queue : List ReadableByteStreamQueueEntry)

def queueBytes : Bytes :=
  queue.flatMap ReadableByteStreamQueueEntry.bytes

def queueSize : ℕ :=
  (queue.map ReadableByteStreamQueueEntry.byteLength).sum

end

section

variable {entry : ReadableByteStreamQueueEntry} {queue : List ReadableByteStreamQueueEntry}

@[simp] lemma queueBytes_nil : queueBytes [] = [] := rfl

@[simp] lemma queueBytes_cons : queueBytes (entry :: queue) = entry.bytes ++ queueBytes queue := rfl

@[simp] lemma queueBytes_concat : queueBytes (queue ++ [entry]) = queueBytes queue ++ entry.bytes := by
  simp [queueBytes]

@[simp] lemma queueSize_nil : queueSize [] = 0 := rfl

@[simp] lemma queueSize_cons : queueSize (entry :: queue) = entry.byteLength + queueSize queue := by
  simp [queueSize]

@[simp] lemma queueSize_concat : queueSize (queue ++ [entry]) = queueSize queue + entry.byteLength := by
  simp [queueSize]

lemma eq_nil_of_queueSize_eq_zero (hwf : ∀ entry ∈ queue, entry.Wf) (h : queueSize queue = 0) :
    queue = [] := by
  cases queue with
  | nil => rfl
  | cons entry queue =>
    have := (hwf entry mem_cons_self).nonempty
    rw [queueSize_cons] at h
    omega

end

def PullIntoDescriptor.write (d : PullIntoDescriptor) (data : Bytes) : PullIntoDescriptor :=
  { d with
    buffer := writeAt d.buffer (d.byteOffset + d.bytesFilled) data
    bytesFilled := d.bytesFilled + data.length }

namespace PullIntoDescriptor

variable {d : PullIntoDescriptor} {data more : Bytes}

@[simp] lemma write_nil : d.write [] = d := by
  rw [write, writeAt_nil, length_nil, Nat.add_zero]

lemma write_append (h : d.byteOffset + d.bytesFilled ≤ d.buffer.length) :
    (d.write data).write more = d.write (data ++ more) := by
  simp only [write, length_append, Nat.add_assoc]
  rw [← Nat.add_assoc, writeAt_append h]

lemma filled_write (h : d.byteOffset + d.bytesFilled ≤ d.buffer.length) :
    (d.write data).filled = d.filled ++ data := slice_writeAt_add h

lemma Wf.write (hd : d.Wf) (hfits : d.bytesFilled + data.length ≤ d.byteLength)
    (hless : (d.write data).bytesFilled < (d.write data).minimumFill) : (d.write data).Wf := by
  have hinBounds := hd.inBounds
  have hlength : (d.write data).buffer.length = d.buffer.length := length_writeAt (by omega)
  exact {
    elementSize := hd.elementSize
    minimumFill := hd.minimumFill
    minimumFill_le := hd.minimumFill_le
    inBounds := by rw [hlength]; exact hinBounds
    bufferByteLength := by rw [hlength]; exact hd.bufferByteLength
    waits := hless
    default := hd.default }

lemma Wf.filled_inBounds (hd : d.Wf) : d.byteOffset + d.bytesFilled ≤ d.buffer.length := by
  have hinBounds := hd.inBounds
  have hfits := hd.minimumFill_le
  have hwaits := hd.waits
  omega

end PullIntoDescriptor

lemma le_sub_mod_of_dvd {e m n : ℕ} (hdvd : e ∣ m) (h : m ≤ n) : m ≤ n - n % e := by
  obtain ⟨k, rfl⟩ := hdvd
  rcases Nat.eq_zero_or_pos e with rfl | he
  · rw [Nat.zero_mul]
    exact Nat.zero_le _
  · have hk : k ≤ n / e := (Nat.le_div_iff_mul_le he).mpr (by rwa [Nat.mul_comm])
    calc e * k ≤ e * (n / e) := Nat.mul_le_mul_left e hk
      _ = n - n % e := (Nat.sub_eq_of_eq_add (Nat.div_add_mod n e).symm).symm

/-- Where a descriptor is: not in the list, or the first of it. -/
def Place (place : PullIntoDescriptor → List PullIntoDescriptor) : Prop :=
  (place = fun _ => []) ∨ ∃ rest, place = fun d => d :: rest

namespace ByteStream

variable {place : PullIntoDescriptor → List PullIntoDescriptor} {s : ByteStream}
variable {d d' : PullIntoDescriptor}

lemma setFirst_eq (hplace : Place place) (hpending : s.pendingPullIntos = place d) :
    s.setFirst d d' = { s with pendingPullIntos := place d' } := by
  rcases hplace with rfl | ⟨rest, rfl⟩
  · rw [setFirst, hpending, if_neg (by simp), ← hpending]
  · rw [setFirst, hpending]
    exact if_pos rfl

lemma fillHeadPullIntoDescriptor_eq (hplace : Place place) (hpending : s.pendingPullIntos = place d)
    (hrequest : s.byobRequest = none) (size : ℕ) :
    s.fillHeadPullIntoDescriptor size d =
      .ok ({ s with pendingPullIntos := place { d with bytesFilled := d.bytesFilled + size } },
        { d with bytesFilled := d.bytesFilled + size }) := by
  have hfirst : s.pendingPullIntos = [] ∨ s.pendingPullIntos.head? = some d := by
    rw [hpending]
    rcases hplace with rfl | ⟨rest, rfl⟩
    · exact .inl rfl
    · exact .inr rfl
  simp only [fillHeadPullIntoDescriptor, assert, if_pos hfirst, if_pos hrequest, bind, Except.bind]
  rw [setFirst_eq hplace hpending]
  rfl

lemma copyFromQueue_zero (queue : List ReadableByteStreamQueueEntry) :
    copyFromQueue queue 0 s d = .ok (s, d) := by
  cases queue <;> rfl

lemma copyFromQueue_eq (hplace : Place place) {queue : List ReadableByteStreamQueueEntry}
    {remaining : ℕ} (hqueue : s.queue = queue) (hwf : ∀ entry ∈ queue, entry.Wf)
    (htotal : s.queueTotalSize = queueSize queue) (hremaining : remaining ≤ queueSize queue)
    (hpending : s.pendingPullIntos = place d) (hrequest : s.byobRequest = none)
    (hbounds : d.byteOffset + d.bytesFilled + remaining ≤ d.buffer.length) :
    ∃ data queue', copyFromQueue queue remaining s d = .ok ({ s with
          pendingPullIntos := place (d.write data), queue := queue'
          queueTotalSize := queueSize queue' }, d.write data) ∧
      data.length = remaining ∧ (∀ entry ∈ queue', entry.Wf) ∧
      queueSize queue' + remaining = queueSize queue ∧
      data ++ queueBytes queue' = queueBytes queue := by
  induction queue generalizing s d remaining with
  | nil =>
    have hzero : remaining = 0 := by simpa using hremaining
    subst hzero
    refine ⟨[], [], ?_, rfl, hwf, rfl, rfl⟩
    rw [copyFromQueue_zero, d.write_nil, ← hpending, ← htotal, ← hqueue]
  | cons entry queue ih =>
    have hentry := hwf entry mem_cons_self
    have hrest := fun e he => hwf e (mem_cons_of_mem entry he)
    rw [queueSize_cons] at htotal hremaining
    by_cases hzero : remaining = 0
    · subst hzero
      refine ⟨[], entry :: queue, ?_, rfl, hwf, rfl, rfl⟩
      rw [copyFromQueue_zero, d.write_nil, ← hpending, queueSize_cons, ← htotal, ← hqueue]
    by_cases hle : entry.byteLength ≤ remaining
    · -- the whole entry is copied, and the loop goes on with the rest of the queue
      have hlength : entry.bytes.length = entry.byteLength := length_slice hentry.inBounds
      let s' := { s with
        pendingPullIntos := place (d.write entry.bytes), queue := queue
        queueTotalSize := s.queueTotalSize - entry.byteLength }
      have hstep : copyFromQueue (entry :: queue) remaining s d =
          copyFromQueue queue (remaining - entry.byteLength) s' (d.write entry.bytes) := by
        rw [copyFromQueue, if_neg hzero]
        simp only [Nat.min_eq_right hle, if_true, setFirst_eq hplace hpending]
        rw [fillHeadPullIntoDescriptor_eq hplace]
        · simp only [s', write, hlength]
          rfl
        · rfl
        · exact hrequest
      have hbounds' : (d.write entry.bytes).byteOffset + (d.write entry.bytes).bytesFilled +
          (remaining - entry.byteLength) ≤ (d.write entry.bytes).buffer.length := by
        simp only [write, hlength]
        rw [length_writeAt (by omega)]
        omega
      have htotal' : s'.queueTotalSize = queueSize queue := by
        simp only [s']
        omega
      have hremaining' : remaining - entry.byteLength ≤ queueSize queue := by omega
      obtain ⟨data, queue', hcopy, hdata, hwf', hsize, hbytes⟩ :=
        ih rfl hrest htotal' hremaining' rfl hrequest hbounds'
      rw [write_append (by omega)] at hcopy
      refine ⟨entry.bytes ++ data, queue', hstep.trans hcopy, ?_, hwf', ?_, ?_⟩
      · rw [length_append]
        omega
      · rw [queueSize_cons]
        omega
      · rw [append_assoc, hbytes, queueBytes_cons]
    · -- a part of the entry is copied, which ends the loop
      have hmin : min remaining entry.byteLength = remaining := Nat.min_eq_left (by omega)
      have hlength : (slice entry.buffer entry.byteOffset remaining).length = remaining :=
        length_slice (by have := hentry.inBounds; omega)
      refine ⟨slice entry.buffer entry.byteOffset remaining, { entry with
        byteOffset := entry.byteOffset + remaining
        byteLength := entry.byteLength - remaining } :: queue, ?_, hlength, ?_, ?_, ?_⟩
      · rw [copyFromQueue, if_neg hzero]
        simp only [hmin, if_neg (show entry.byteLength ≠ remaining by omega),
          setFirst_eq hplace hpending]
        rw [fillHeadPullIntoDescriptor_eq hplace]
        · simp only [write, hlength, queueSize_cons]
          rw [htotal, Nat.sub_add_comm (by omega)]
        · rfl
        · exact hrequest
      · refine forall_mem_cons.mpr ⟨?_, hrest⟩
        exact ⟨by simp only; omega, by have := hentry.inBounds; simp only; omega⟩
      · simp only [queueSize_cons]
        omega
      · rw [queueBytes_cons, ← append_assoc]
        congr 1
        simp only [ReadableByteStreamQueueEntry.bytes]
        rw [← slice_add]
        congr 1
        omega

/-- What is taken is a whole number of elements, or too little for the read and everything there
is. -/
lemma fillPullIntoDescriptorFromQueue_eq (hplace : Place place) (hwf : ∀ entry ∈ s.queue, entry.Wf)
    (htotal : s.queueTotalSize = queueSize s.queue) (hpos : 0 < s.queueTotalSize)
    (hpending : s.pendingPullIntos = place d) (hrequest : s.byobRequest = none) (hd : d.Wf) :
    ∃ ready data queue', s.fillPullIntoDescriptorFromQueue d = .ok (ready, { s with
          pendingPullIntos := place (d.write data), queue := queue'
          queueTotalSize := queueSize queue' }, d.write data) ∧
      (∀ entry ∈ queue', entry.Wf) ∧ data ++ queueBytes queue' = queueBytes s.queue ∧
      (ready = true → (d.write data).Complete) ∧
      (ready = false → queue' = [] ∧ (d.write data).Wf) := by
  have hfits := hd.inBounds
  have hmin := hd.minimumFill_le
  have hwaits := hd.waits
  have haligned : ∀ n, d.minimumFill ≤ n → d.minimumFill ≤ n - n % d.elementSize :=
    fun n hn => le_sub_mod_of_dvd hd.minimumFill hn
  let toCopy := min s.queueTotalSize (d.byteLength - d.bytesFilled)
  have hcopy_total : toCopy ≤ queueSize s.queue := htotal ▸ Nat.min_le_left _ _
  let aligned := d.bytesFilled + toCopy - (d.bytesFilled + toCopy) % d.elementSize
  by_cases hready : d.minimumFill ≤ aligned
  · obtain ⟨data, queue', hcopy, hdata, hwf', -, hbytes⟩ := copyFromQueue_eq hplace rfl hwf htotal
      (show aligned - d.bytesFilled ≤ queueSize s.queue by omega) hpending hrequest (by omega)
    have hfilled : (d.write data).bytesFilled = aligned := by
      simp only [write, hdata]
      omega
    refine ⟨true, data, queue', ?_, hwf', hbytes, fun _ => ⟨?_, ?_, ?_⟩, nofun⟩
    · simp only [fillPullIntoDescriptorFromQueue, assert, if_pos hwaits, bind, Except.bind]
      rw [if_pos hready, hcopy]
      rfl
    · rw [hfilled]
      exact Nat.dvd_sub_mod _
    · rw [hfilled]
      exact hready
    · rw [hfilled]
      show aligned ≤ d.byteLength
      omega
  · -- the queue is too short
    have hshort : d.bytesFilled + toCopy < d.minimumFill := by
      by_contra hge
      exact hready (haligned _ (by omega))
    obtain ⟨data, queue', hcopy, hdata, hwf', hsize, hbytes⟩ :=
      copyFromQueue_eq hplace rfl hwf htotal hcopy_total hpending hrequest (by omega)
    have hempty : queue' = [] := eq_nil_of_queueSize_eq_zero hwf' (by omega)
    have hfilled : (d.write data).bytesFilled = d.bytesFilled + toCopy := by
      simp [write, hdata]
    have hsome : 0 < (d.write data).bytesFilled := by omega
    have hless : (d.write data).bytesFilled < (d.write data).minimumFill := hfilled ▸ hshort
    refine ⟨false, data, queue', ?_, hwf', hbytes, nofun, fun _ => ⟨hempty, ?_⟩⟩
    · simp only [fillPullIntoDescriptorFromQueue, assert, if_pos hwaits, bind, Except.bind]
      rw [if_neg hready, hcopy, hempty]
      simp only [queueSize_nil, if_true, if_pos hsome, if_pos hless]
      rfl
    · exact hd.write (by omega) hless

end ByteStream

end Deno
