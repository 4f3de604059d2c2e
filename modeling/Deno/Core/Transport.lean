import Deno.Core.Bytes

/-!
# Transports

A transport delivers bytes in pieces: each time it is polled it makes its reader wait, or hands
out some of the next piece, as much as there is room for. At its end it closes or fails.
-/

namespace Core

open List

/-- What a transport has to offer when it is polled. -/
inductive Delivery where
  | pending
  | chunk (bytes : Bytes) (nonempty : bytes ≠ [])
  deriving DecidableEq

def Delivery.bytes : Delivery → Bytes
  | .pending => []
  | .chunk bytes _ => bytes

inductive Poll (ε : Type*) where
  | pending
  | ready (bytes : Bytes)
  | failed (error : ε)

def Poll.bytes {ε : Type*} : Poll ε → Bytes
  | .ready bytes => bytes
  | _ => []

/-- A transport: what it will deliver, and the error it ends with, if any. -/
structure Transport (ε : Type*) where
  deliveries : List Delivery
  failure : Option ε

namespace Transport

variable {ε : Type*}

def bytes (t : Transport ε) : Bytes := t.deliveries.flatMap Delivery.bytes

/-- A bound on the number of polls that get somewhere. -/
def weight (t : Transport ε) : ℕ := t.deliveries.length + t.bytes.length

/-- Poll a transport with room for the given number of bytes. -/
def pollRead (t : Transport ε) (room : ℕ) : Poll ε × Transport ε :=
  match t.deliveries with
  | [] =>
    match t.failure with
    | some error => (.failed error, t)
    | none => (.ready [], t)
  | .pending :: rest => (.pending, { t with deliveries := rest })
  | .chunk bytes _ :: rest =>
    if h : bytes.length ≤ room then (.ready bytes, { t with deliveries := rest })
    else (.ready (bytes.take room), { t with
      deliveries := .chunk (bytes.drop room) (by simpa using h) :: rest })

inductive PollRule (t : Transport ε) (room : ℕ) : Poll ε → Transport ε → Prop where
  | pending (t' : Transport ε) (hbytes : t'.bytes = t.bytes) (hfailure : t'.failure = t.failure)
      (hweight : t'.weight < t.weight) : PollRule t room .pending t'
  | data (piece : Bytes) (t' : Transport ε) (hne : piece ≠ []) (hroom : piece.length ≤ room)
      (hbytes : piece ++ t'.bytes = t.bytes) (hfailure : t'.failure = t.failure)
      (hweight : piece.length + t'.weight ≤ t.weight) : PollRule t room (.ready piece) t'
  | noRoom (hroom : room = 0) : PollRule t room (.ready []) t
  | closed (hbytes : t.bytes = []) (hfailure : t.failure = none) : PollRule t room (.ready []) t
  | failed (error : ε) (hbytes : t.bytes = []) (hfailure : t.failure = some error) :
      PollRule t room (.failed error) t

theorem PollRule.of_pollRead {t t' : Transport ε} {room : ℕ} {poll : Poll ε}
    (h : t.pollRead room = (poll, t')) : PollRule t room poll t' := by
  obtain ⟨deliveries, failure⟩ := t
  cases deliveries with
  | nil =>
    cases failure with
    | none =>
      cases h
      exact .closed rfl rfl
    | some error =>
      cases h
      exact .failed error rfl rfl
  | cons delivery rest =>
    cases delivery with
    | pending =>
      cases h
      exact .pending _ rfl rfl (Nat.add_lt_add_right (Nat.lt_succ_self _) _)
    | chunk bytes hne =>
      by_cases hle : bytes.length ≤ room
      · simp only [pollRead, dif_pos hle] at h
        cases h
        refine .data bytes _ hne hle rfl rfl ?_
        simp only [weight, Transport.bytes, flatMap_cons, Delivery.bytes, length_append,
          length_cons]
        omega
      · simp only [pollRead, dif_neg hle] at h
        cases h
        cases room with
        | zero => exact .noRoom rfl
        | succ n =>
          refine .data (bytes.take (n + 1)) _ ?_ (length_take_le _ _) ?_ rfl ?_
          · rw [Ne, take_eq_nil_iff]
            rintro (h | h)
            · cases h
            · exact hne h
          · simp only [Transport.bytes, flatMap_cons, Delivery.bytes]
            rw [← append_assoc, take_append_drop]
          · simp only [weight, Transport.bytes, flatMap_cons, Delivery.bytes,
              length_append, length_cons, length_drop, length_take]
            omega

end Transport

end Core
