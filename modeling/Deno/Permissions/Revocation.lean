import Deno.Permissions.Unary.Properties

/-!
# Scopes and their revocation

What is granted is granted in all its parts: no full grant is reported for a scope of which
something is denied. Revoking a descriptor takes away the grants that cover it and no others.
-/

namespace Deno

open Core PermissionState

/-- Descriptors that are stronger than the same one can be compared. -/
lemma UnaryName.strongerThan_total (host : Host) (k : UnaryName) {d e f : k.Desc}
    (hd : (k.descriptor host).strongerThan d f = true)
    (he : (k.descriptor host).strongerThan e f = true) :
    (k.descriptor host).strongerThan d e = true ∨ (k.descriptor host).strongerThan e d = true := by
  cases k with
  | read | write | ffi =>
    exact (List.prefix_or_prefix_of_prefix (Path.startsWith_iff.mp hd)
      (Path.startsWith_iff.mp he)).imp Path.startsWith_iff.mpr Path.startsWith_iff.mpr
  | net =>
    obtain ⟨hhost, hport⟩ := NetDescriptor.strongerThan_iff.mp hd
    obtain ⟨hhost', hport'⟩ := NetDescriptor.strongerThan_iff.mp he
    refine Or.imp NetDescriptor.strongerThan_iff.mpr NetDescriptor.strongerThan_iff.mpr ?_
    grind
  | env | sys | run =>
    have hdf : d = f := @of_decide_eq_true _ _ hd
    exact .inr (hdf ▸ he)

namespace UnaryPermission

variable {T : Type} {D : Descriptor T} {self : UnaryPermission T} {d e : T} {desc : Option T}
variable {mode : AllowPartial}

/-! ### Full grants -/

lemma stateOf_full_iff : self.stateOf D desc .treatAsPartialGranted = .granted ↔
    ¬ self.isFlagDenied D desc = true ∧ ¬ self.isPromptDenied D desc = true ∧
      ¬ self.isPartialFlagDenied D desc = true ∧ self.isGranted D desc = true := by
  grind [stateOf]

lemma stateOf_some_full_iff : self.stateOf D (some d) .treatAsPartialGranted = .granted ↔
    ¬ (self.flagDeniedGlobal = true ∨ ∃ v ∈ self.flagDeniedList, D.strongerThan v d = true) ∧
      ¬ (∃ v ∈ self.promptDeniedList, D.strongerThan d v = true) ∧
      ¬ (∃ v ∈ self.flagDeniedList, D.strongerThan d v = true) ∧
      (self.grantedGlobal = true ∨ ∃ v ∈ self.grantedList, D.strongerThan v d = true) := by
  rw [stateOf_full_iff, isFlagDenied, isGranted, listContains_some, listContains_some,
    isPromptDenied_some, isPartialFlagDenied_some]

lemma queryDesc_of_aliases_nil (h : D.aliases d = []) :
    self.queryDesc D (some d) mode = self.stateOf D (some d) mode := by
  rw [queryDesc, Option.elim_some, h]
  exact firstDecided_singleton ..

/-- A full grant of a scope is a full grant of every part of it, none of which is denied; a full
grant of everything is one of every descriptor. -/
theorem granted_downward_closed (host : Host) (k : UnaryName) (self : UnaryPermission k.Desc) :
    (∀ d e, (k.descriptor host).strongerThan d e = true →
      self.queryDesc (k.descriptor host) (some d) .treatAsPartialGranted = .granted →
      self.queryDesc (k.descriptor host) (some e) .treatAsPartialGranted = .granted ∧
        ¬ self.isFlagDenied (k.descriptor host) (some e) = true ∧
        ¬ self.isPromptDenied (k.descriptor host) (some e) = true) ∧
    (self.queryDesc (k.descriptor host) none .treatAsPartialGranted = .granted →
      ∀ d, self.queryDesc (k.descriptor host) (some d) .treatAsPartialGranted = .granted) := by
  have hD := UnaryName.descriptor_lawful host k
  constructor
  · intro d e hde h
    have he : self.queryDesc (k.descriptor host) (some e) .treatAsPartialGranted = .granted := by
      by_cases heq : d = e
      · exact heq ▸ h
      -- descriptors that are not only stronger than themselves have no aliases
      have hnil (x : k.Desc) : (k.descriptor host).aliases x = [] :=
        List.eq_nil_iff_forall_not_mem.mpr fun a ha => heq (hD.eq_of_alias ha hde)
      rw [queryDesc_of_aliases_nil (hnil _), stateOf_some_full_iff] at h ⊢
      -- a denial that covers the part covers the scope or lies in it
      have htotal := fun v hv => UnaryName.strongerThan_total host k (d := v) hv hde
      have htrans := @hD.trans
      grind
    refine ⟨he, fun hdenied => ?_, fun hdenied => ?_⟩
    · rw [queryDesc_denied (.inl hdenied)] at he
      cases he
    · rw [queryDesc_denied (.inr hdenied)] at he
      cases he
  · intro h d
    rw [queryDesc_none, stateOf_full_iff] at h
    have hstate : self.stateOf (k.descriptor host) (some d) .treatAsPartialGranted = .granted := by
      rw [stateOf_some_full_iff]
      grind [isFlagDenied, isPromptDenied, isPartialFlagDenied, isGranted, listContains,
        HashSet.not_mem_of_isEmpty]
    rw [queryDesc_eq, hstate]
    rfl

/-- A directory that is granted, and a file in it. -/
theorem granted_downward_closed_file : queryDesc (ReadDescriptor.descriptor .bare)
      { UnaryPermission.default with grantedList := .ofList [⟨.ofString "/a"⟩] }
      (some ⟨.ofString "/a/b"⟩) .treatAsPartialGranted = .granted := by
  refine ((granted_downward_closed .bare .read _).1 ⟨.ofString "/a"⟩ ⟨.ofString "/a/b"⟩ ?_ ?_).1
  · decide +kernel
  · decide +kernel

/-! ### Revocation -/

/-- Without a grant that covers one of the descriptors a query walks, nothing is granted. -/
lemma prompt_le_firstDecided {descs : List (Option T)}
    (h : ∀ x ∈ descs, ¬ self.isGranted D x = true) : .prompt ≤ self.firstDecided D mode descs := by
  induction descs with
  | nil => exact le_refl _
  | cons x descs ih =>
    have hdenied := le_denied .prompt
    rw [firstDecided_cons]
    cases mode <;> grind [stateOf]

section

variable {self' : UnaryPermission T} (hkept : self' = { self with grantedList := self'.grantedList })
variable (hl : ∀ v ∈ self'.grantedList, v ∈ self.grantedList)

include hkept hl

/-- With fewer grants the state stays, or a grant is undecided now. -/
lemma stateOf_shrink (desc : Option T) (mode : AllowPartial) :
    self'.stateOf D desc mode = self.stateOf D desc mode ∨ self'.stateOf D desc mode = .prompt ∧
        (self.stateOf D desc mode = .granted ∨ self.stateOf D desc mode = .grantedPartial ∧
          self.isPartialFlagDenied D desc = true ∧ ¬ self.isFlagDenied D desc = true) := by
  have hgranted : self'.isGranted D desc = true → self.isGranted D desc = true := by
    cases desc with
    | none =>
      rw [hkept]
      exact id
    | some d =>
      simp only [isGranted, listContains_some]
      grind
  have hdenials : self'.isFlagDenied D desc = self.isFlagDenied D desc ∧
      self'.isPromptDenied D desc = self.isPromptDenied D desc ∧
      self'.isPartialFlagDenied D desc = self.isPartialFlagDenied D desc := by
    rw [hkept]
    exact ⟨rfl, rfl, rfl⟩
  cases mode <;> grind [stateOf]

lemma queryDesc_shrink (hD : D.Lawful) (desc : Option T) (mode : AllowPartial) :
    self.queryDesc D desc mode ≤ self'.queryDesc D desc mode := by
  have hstep (x : Option T) : self.stateOf D x mode ≤ self'.stateOf D x mode := by
    rcases stateOf_shrink hkept hl x mode with h | ⟨h, hs | ⟨hs, -⟩⟩
    · exact h ▸ le_refl _
    · exact hs ▸ granted_le _
    · rw [h, hs]
      decide
  cases desc with
  | none =>
    rw [queryDesc_none, queryDesc_none]
    exact hstep none
  | some d =>
    rcases hD.aliases_cases d with hal | ⟨a, hal⟩
    · rw [queryDesc_of_aliases_nil hal, queryDesc_of_aliases_nil hal]
      exact hstep (some d)
    rw [queryDesc_eq, queryDesc_eq, Option.elim_some, hal, List.map_singleton,
      firstDecided_singleton, firstDecided_singleton]
    rcases stateOf_shrink hkept hl (some d) mode with h | ⟨h, hs | ⟨hs, hpart, hflag⟩⟩
    · rw [h]
      split_ifs
      · exact hstep (some a)
      · exact le_refl _
    · rw [hs]
      exact granted_le _
    · -- where there are aliases nothing is denied in part
      obtain ⟨v, hv, hdv⟩ := isPartialFlagDenied_some.mp hpart
      obtain rfl := hD.eq_of_alias (hal ▸ List.mem_singleton_self a) hdv
      exact absurd (isFlagDenied_of_mem hv hdv) hflag

end

lemma mem_retainNotStronger {list : HashSet T} {descs : List T} {v : T} :
    v ∈ retainNotStronger D list descs ↔ v ∈ list ∧ ∀ a ∈ descs, ¬ D.strongerThan v a = true := by
  induction descs generalizing list with
  | nil => simp [retainNotStronger]
  | cons a descs ih =>
    rw [retainNotStronger, List.foldl_cons, ← retainNotStronger, ih, List.forall_mem_cons,
      ← and_assoc]
    simp [HashSet.mem_def, HashSet.retain]

/-- What the revocation of a descriptor does to a permission. -/
structure Revoked (D : Descriptor T) (d : T) (self self' : UnaryPermission T) : Prop where
  kept : self' = { self with grantedList := self'.grantedList }
  survives : ∀ v, v ∈ self'.grantedList ↔
    v ∈ self.grantedList ∧ ∀ a ∈ d :: D.aliases d, ¬ D.strongerThan v a = true
  le : ∀ desc mode, self.queryDesc D desc mode ≤ self'.queryDesc D desc mode
  gone : self.grantedGlobal = false → ∀ e, D.strongerThan e d = true ∨ e ∈ D.aliases d →
    ∀ mode, .prompt ≤ self'.queryDesc D (some e) mode

/-- What covers the descriptor is not granted if nothing is that covers it or its alias. -/
lemma prompt_le_queryDesc (hD : D.Lawful) (hglobal : self.grantedGlobal = false)
    (hlist : ∀ v ∈ self.grantedList, ∀ a ∈ d :: D.aliases d, ¬ D.strongerThan v a = true)
    (he : D.strongerThan e d = true ∨ e ∈ D.aliases d) (mode : AllowPartial) :
    .prompt ≤ self.queryDesc D (some e) mode := by
  have hcovers : ∀ x ∈ e :: D.aliases e, ∃ a ∈ d :: D.aliases d, D.strongerThan x a = true := by
    have hrefl := hD.refl
    have heq := @hD.eq_of_alias
    have halias := @hD.aliases_alias
    grind
  refine prompt_le_firstDecided fun x hx hgranted => ?_
  obtain ⟨x, hmem, rfl⟩ : ∃ y ∈ e :: D.aliases e, some y = x := List.mem_map.mp (by simpa using hx)
  obtain ⟨a, ha, hxa⟩ := hcovers x hmem
  rcases listContains_some.mp hgranted with h | ⟨v, hv, hvx⟩
  · rw [hglobal] at h
    cases h
  · exact hlist v hv a ha (hD.trans hvx hxa)

/-- A revocation is effective and only revokes; it returns the state of what was revoked. After
the revocation of everything nothing is granted. -/
theorem revokeDesc_revoked (host : Host) (k : UnaryName) (self : UnaryPermission k.Desc)
    (d : k.Desc) :
    Revoked (k.descriptor host) d self (self.revokeDesc (k.descriptor host) (some d)).2 ∧
      (self.revokeDesc (k.descriptor host) (some d)).1 =
        (self.revokeDesc (k.descriptor host) (some d)).2.queryDesc (k.descriptor host) (some d)
          .treatAsPartialGranted ∧
      ∀ desc mode, .prompt ≤
        (self.revokeDesc (k.descriptor host) none).2.queryDesc (k.descriptor host) desc mode := by
  have hD := UnaryName.descriptor_lawful host k
  refine ⟨⟨rfl, fun v => mem_retainNotStronger, ?_, ?_⟩, rfl, ?_⟩
  · exact queryDesc_shrink rfl (fun v hv => (mem_retainNotStronger.mp hv).1) hD
  · exact fun hglobal e he => prompt_le_queryDesc hD hglobal
      (fun v hv => (mem_retainNotStronger.mp hv).2) he
  · intro desc mode
    refine prompt_le_firstDecided fun x _ hgranted => ?_
    cases x with
    | none => cases hgranted
    | some x =>
      rcases listContains_some.mp hgranted with h | ⟨v, hv, -⟩
      · cases h
      · cases hv

end UnaryPermission

end Deno
