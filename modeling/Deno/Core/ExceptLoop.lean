import Mathlib.Data.List.Forall2

/-!
# Loops that can fail

A loop over a list succeeds when each of its steps does.
-/

namespace Core

open List

variable {ε α β σ : Type}

lemma map_eq_ok {x : Except ε α} {f : α → β} {b : β} :
    x.map f = .ok b ↔ ∃ a, x = .ok a ∧ f a = b := by
  cases x <;> simp [Except.map]

section

variable {f : α → Except ε β} {a : α} {as : List α} {bs : List β}

lemma mapM_cons_eq_ok : (a :: as).mapM f = .ok bs ↔
    ∃ b bs', f a = .ok b ∧ as.mapM f = .ok bs' ∧ bs = b :: bs' := by
  rw [mapM_cons]
  constructor
  · intro h
    cases ha : f a with
    | error e => simp [ha, bind, Except.bind] at h
    | ok b =>
      cases has : as.mapM f with
      | error e => simp [ha, has, bind, Except.bind] at h
      | ok bs' =>
        simp only [ha, has, bind, Except.bind, pure, Except.pure, Except.ok.injEq] at h
        exact ⟨b, bs', rfl, rfl, h.symm⟩
  · rintro ⟨b, bs', ha, has, rfl⟩
    rw [ha, has]
    rfl

lemma mapM_eq_ok_iff : as.mapM f = .ok bs ↔ List.Forall₂ (fun a b => f a = .ok b) as bs := by
  induction as generalizing bs with
  | nil =>
    rw [forall₂_nil_left_iff]
    constructor
    · rintro ⟨⟩
      rfl
    · rintro rfl
      rfl
  | cons a as ih =>
    simp only [mapM_cons_eq_ok, forall₂_cons_left_iff, ih]

lemma mapM_eq_ok_map {g : α → β} (h : ∀ a ∈ as, f a = .ok (g a)) : as.mapM f = .ok (as.map g) := by
  rw [mapM_eq_ok_iff, forall₂_map_right_iff]
  exact List.forall₂_same.mpr h

lemma forall_mem_of_mapM {P : β → Prop} (h : as.mapM f = .ok bs)
    (hP : ∀ a ∈ as, ∀ b, f a = .ok b → P b) : ∀ b ∈ bs, P b := by
  induction as generalizing bs with
  | nil =>
    cases h
    simp
  | cons a as ih =>
    obtain ⟨b, bs', ha, has, rfl⟩ := mapM_cons_eq_ok.mp h
    refine List.forall_mem_cons.mpr ⟨hP a mem_cons_self b ha, ih has ?_⟩
    exact fun a' ha' => hP a' (mem_cons_of_mem a ha')

/-- A search in which no step fails finds what one of its steps does, or nothing in any of them. -/
lemma findSomeM?_eq_ok {f : α → Except ε (Option β)} (h : ∀ a ∈ as, ∃ found, f a = .ok found) :
    ∃ found, as.findSomeM? f = .ok found ∧ (found = none → ∀ a ∈ as, f a = .ok none) ∧
      ∀ b, found = some b → ∃ a ∈ as, f a = .ok (some b) := by
  induction as with
  | nil => exact ⟨none, rfl, by simp, by simp⟩
  | cons a as ih =>
    obtain ⟨⟨found, ha⟩, has⟩ := List.forall_mem_cons.mp h
    cases found with
    | some b =>
      refine ⟨some b, by rw [List.findSomeM?, ha]; rfl, by simp, fun b' hb' => ?_⟩
      exact ⟨a, mem_cons_self, hb' ▸ ha⟩
    | none =>
      obtain ⟨found, hfound, hnone, hsome⟩ := ih has
      refine ⟨found, by rw [List.findSomeM?, ha]; exact hfound, fun hn => ?_, fun b hb => ?_⟩
      · exact List.forall_mem_cons.mpr ⟨ha, hnone hn⟩
      · obtain ⟨a', ha', hb'⟩ := hsome b hb
        exact ⟨a', mem_cons_of_mem a ha', hb'⟩

end

section

variable {f : σ → α → Except ε σ} {s s' : σ} {a : α} {as : List α}

lemma foldlM_cons_eq_ok : (a :: as).foldlM f s = .ok s' ↔
    ∃ t, f s a = .ok t ∧ as.foldlM f t = .ok s' := by
  rw [foldlM_cons]
  cases f s a with
  | error e | ok t => simp [bind, Except.bind]

theorem foldlM_invariant {P : σ → Prop} (hstep : ∀ s a t, a ∈ as → P s → f s a = .ok t → P t)
    (hs : P s) (h : as.foldlM f s = .ok s') : P s' := by
  induction as generalizing s with
  | nil =>
    cases h
    exact hs
  | cons a as ih =>
    obtain ⟨t, ha, has⟩ := foldlM_cons_eq_ok.mp h
    refine ih (fun s b t hb => hstep s b t (mem_cons_of_mem a hb)) ?_ has
    exact hstep s a t mem_cons_self hs ha

end

section

def collect (step : σ → α → Except ε (List β × σ)) : σ → List α → Except ε (List β × σ)
  | s, [] => .ok ([], s)
  | s, a :: as => do
    let (out, s) ← step s a
    let (rest, s) ← collect step s as
    return (out ++ rest, s)

/-- Where no step fails, the loop does not, and what holds of the inputs, the outputs and the state
so far holds in the end. -/
theorem collect_invariant {step : σ → α → Except ε (List β × σ)} {P : List α → List β → σ → Prop}
    (hstep : ∀ as bs s a, P as bs s →
      ∃ out t, step s a = .ok (out, t) ∧ P (as ++ [a]) (bs ++ out) t)
    {as : List α} {bs : List β} {s : σ} (h : P as bs s) (rest : List α) :
    ∃ out t, collect step s rest = .ok (out, t) ∧ P (as ++ rest) (bs ++ out) t := by
  induction rest generalizing as bs s with
  | nil => exact ⟨[], s, rfl, by simpa using h⟩
  | cons a rest ih =>
    obtain ⟨out, t, ha, ht⟩ := hstep as bs s a h
    obtain ⟨outs, t', hrest, ht'⟩ := ih ht
    refine ⟨out ++ outs, t', ?_, by simpa using ht'⟩
    simp [collect, ha, hrest, bind, Except.bind, pure, Except.pure]

end

end Core
