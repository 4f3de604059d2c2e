import Deno.Permissions.Container
import Deno.Permissions.Unary.Machine

/-!
# Children have no more permissions than their parents

A child repeats the denials of its parent. Its grants are either those of the parent, or were
checked one by one in the parent, which may have prompted for them. A descriptor the parent
accepted is granted in the parent, or it is a name whose path is granted there.
-/

namespace Deno

open Core PermissionState Permissions

variable {pr : Prompter}

namespace UnaryPermission

variable {T : Type} {D : Descriptor T}

/-- A child that denies what its parent denies and grants no more. -/
structure NoEscalation (D : Descriptor T) (parent child : UnaryPermission T) : Prop where
  query : ∀ desc mode, parent.queryDesc D desc mode ≤ child.queryDesc D desc mode
  allowAll : child.isAllowAll = true → parent.isAllowAll = true
  flagDenied : child.flagDeniedGlobal = parent.flagDeniedGlobal ∧
    child.flagDeniedList = parent.flagDeniedList
  promptDenied : child.promptDeniedGlobal = parent.promptDeniedGlobal ∧
    child.promptDeniedList = parent.promptDeniedList

/-! ### Permissions with the same denials -/

structure SameDenials (s t : UnaryPermission T) : Prop where
  flagGlobal : t.flagDeniedGlobal = s.flagDeniedGlobal
  flagList : t.flagDeniedList = s.flagDeniedList
  promptGlobal : t.promptDeniedGlobal = s.promptDeniedGlobal
  promptList : t.promptDeniedList = s.promptDeniedList

variable {desc : Option T} {mode : AllowPartial}

namespace SameDenials

variable {s t : UnaryPermission T} (h : SameDenials s t)

include h

lemma isFlagDenied (desc : Option T) : t.isFlagDenied D desc = s.isFlagDenied D desc := by
  unfold UnaryPermission.isFlagDenied
  rw [h.flagGlobal, h.flagList]

lemma isPromptDenied (desc : Option T) : t.isPromptDenied D desc = s.isPromptDenied D desc := by
  unfold UnaryPermission.isPromptDenied
  rw [h.promptGlobal, h.promptList]

lemma isPartialFlagDenied (desc : Option T) :
    t.isPartialFlagDenied D desc = s.isPartialFlagDenied D desc := by
  unfold UnaryPermission.isPartialFlagDenied
  rw [h.flagList]

lemma stateOf_eq (mode : AllowPartial) (hg : t.isGranted D desc = s.isGranted D desc) :
    t.stateOf D desc mode = s.stateOf D desc mode := by
  unfold UnaryPermission.stateOf
  rw [h.isFlagDenied, h.isPromptDenied, h.isPartialFlagDenied, hg]

lemma stateOf_le_prompt
    (ht : t.stateOf D desc mode = .prompt) : s.stateOf D desc mode ≤ .prompt := by
  obtain ⟨hf, hp, _, hpart⟩ := stateOf_eq_prompt.mp ht
  rw [h.isFlagDenied] at hf
  rw [h.isPromptDenied] at hp
  rw [h.isPartialFlagDenied] at hpart
  unfold UnaryPermission.stateOf
  cases mode <;> cases hg : s.isGranted D desc <;> cases hq : s.isPartialFlagDenied D desc <;>
    simp_all <;> decide

end SameDenials

/-! ### Accepted descriptors -/

/-- The second permission denies the same as the first and grants at least as much. -/
structure GrantsMore (D : Descriptor T) (s t : UnaryPermission T) : Prop where
  same : SameDenials s t
  granted : ∀ desc, s.isGranted D desc = true → t.isGranted D desc = true

lemma GrantsMore.refl (s : UnaryPermission T) : GrantsMore D s s :=
  ⟨⟨rfl, rfl, rfl, rfl⟩, fun _ => id⟩

lemma GrantsMore.trans {s t u : UnaryPermission T} (h : GrantsMore D s t)
    (h' : GrantsMore D t u) : GrantsMore D s u where
  same := ⟨h'.same.flagGlobal.trans h.same.flagGlobal, h'.same.flagList.trans h.same.flagList,
    h'.same.promptGlobal.trans h.same.promptGlobal, h'.same.promptList.trans h.same.promptList⟩
  granted desc hd := h'.granted desc (h.granted desc hd)

/-- A descriptor of which neither the command line nor a prompt denied anything. -/
def NotDenied (D : Descriptor T) (s : UnaryPermission T) (d : T) : Prop :=
  s.isFlagDenied D (some d) = false ∧ s.isPromptDenied D (some d) = false

/-- A descriptor that passed a check: it is granted, or it is undecided and its alias granted. -/
def Accepts (D : Descriptor T) (s : UnaryPermission T) (v : T) : Prop :=
  s.isGranted D (some v) = true ∨
    ∃ a, D.aliases v = [a] ∧ s.isGranted D (some a) = true ∧ NotDenied D s v ∧ NotDenied D s a

variable {v : T} {s t : UnaryPermission T}

lemma GrantsMore.accepts (h : GrantsMore D s t) (hv : Accepts D s v) : Accepts D t v := by
  have hnd : ∀ {d}, NotDenied D s d → NotDenied D t d := by
    rintro d ⟨hf, hp⟩
    exact ⟨(h.same.isFlagDenied _).trans hf, (h.same.isPromptDenied _).trans hp⟩
  rcases hv with hg | ⟨a, ha, hg, hdv, hda⟩
  · exact Or.inl (h.granted _ hg)
  · exact Or.inr ⟨a, ha, h.granted _ hg, hnd hdv, hnd hda⟩

variable {s : UnaryPermission T}

/-- A granted query was settled by the descriptor or by its alias. -/
lemma accepts_of_queryDesc (hD : D.Lawful)
    (h : s.queryDesc D (some v) mode = .granted) : Accepts D s v := by
  rw [queryDesc_eq] at h
  split_ifs at h with hs
  · rcases hD.aliases_cases v with hal | ⟨a, hal⟩
    · simp [hal, firstDecided] at h
    · simp only [Option.elim_some, hal, List.map_cons, List.map_nil] at h
      rw [firstDecided_cons] at h
      split_ifs at h with hsa
      · cases h
      · obtain ⟨hf, hp, _, _⟩ := stateOf_eq_prompt.mp hs
        obtain ⟨hfa, hpa, hga⟩ := stateOf_eq_granted h
        exact Or.inr ⟨a, hal, hga, ⟨hf, hp⟩, hfa, hpa⟩
  · exact Or.inl (stateOf_eq_granted h).2.2

variable [DecidableEq T]

lemma grantsMore_insertGranted (s : UnaryPermission T) (desc : Option T) :
    GrantsMore D s (s.insertGranted D desc) where
  same := ⟨rfl, rfl, rfl, rfl⟩
  granted := by
    intro e he
    cases desc with
    | none => exact isGranted_of_global rfl e
    | some d =>
      cases e with
      | none => exact he
      | some e =>
        rcases listContains_some.mp he with hg | ⟨v, hv, hve⟩
        · exact listContains_some.mpr (Or.inl hg)
        · exact listContains_some.mpr (Or.inr ⟨v, mem_insertGranted_some.mpr (Or.inl hv), hve⟩)

/-- A check that succeeds only adds grants, and accepts its descriptor. -/
lemma CheckRule.accepts (hD : D.Lawful) {o : Outcome (UnaryPermission T) (Except AnyError Unit)}
    (h : CheckRule D s (some v) mode pr o) (hok : o.result = .ok ()) :
    GrantsMore D s o.perm ∧ Accepts D o.perm v := by
  cases h with
  | fast hall =>
    exact ⟨GrantsMore.refl s, Or.inl (isGranted_of_global (isAllowAll_iff.mp hall).1 _)⟩
  | granted _ hq => exact ⟨GrantsMore.refl s, accepts_of_queryDesc hD hq⟩
  | rejected _ _ _ _ | deny _ _ _ _ _ _ => cases hok
  | allow _ _ _ _ _ =>
    exact ⟨grantsMore_insertGranted s (some v), Or.inl (isGranted_insertGranted hD s (some v))⟩
  | allowAll _ _ _ _ _ =>
    exact ⟨grantsMore_insertGranted s none, Or.inl (isGranted_of_global rfl _)⟩

/-- Checks that all succeed accept all their descriptors, however they were interleaved with
prompts. -/
lemma checkEach_accepts (hD : D.Lawful) {descs : List T}
    (h : (s.checkEach D pr descs).result = true) : GrantsMore D s (s.checkEach D pr descs).perm ∧
      ∀ v ∈ descs, Accepts D (s.checkEach D pr descs).perm v := by
  induction descs generalizing s pr with
  | nil => exact ⟨GrantsMore.refl s, fun v hv => by cases hv⟩
  | cons d descs ih =>
    have hrule := CheckRule.of_checkDesc (D := D) s (some d) D.assertNonPartial none none pr
    simp only [checkEach, checkInPermission_eq] at h ⊢
    split_ifs at h ⊢ with hok
    obtain ⟨hmore, hacc⟩ := hrule.accepts hD (eq_ok_of_isOk hok)
    obtain ⟨hmore', hacc'⟩ := ih h
    exact ⟨hmore.trans hmore', List.forall_mem_cons.mpr ⟨hmore'.accepts hacc, hacc'⟩⟩

/-! ### Comparing queries -/

omit [DecidableEq T]

lemma stateOf_of_not_granted (hg : s.isGranted D desc = false) (mode : AllowPartial) :
    s.stateOf D desc mode = .denied ∨ s.stateOf D desc mode = .prompt := by
  simp only [stateOf, hg, Bool.false_eq_true, if_false]
  split_ifs
  · exact Or.inl rfl
  · exact Or.inl rfl
  · exact Or.inr rfl

variable {d : T}

/-- Where aliases exist nothing is partially denied without being denied. -/
lemma NotDenied.not_partially_denied (hD : D.Lawful) {v a : T}
    (ha : a ∈ D.aliases v) (hd : NotDenied D s d) : s.isPartialFlagDenied D (some d) = false := by
  rw [Bool.eq_false_iff]
  intro hpart
  obtain ⟨e, he, hde⟩ := isPartialFlagDenied_some.mp hpart
  obtain rfl := hD.eq_of_alias ha hde
  rw [NotDenied, isFlagDenied_of_mem he hde] at hd
  exact Bool.noConfusion hd.1

lemma SameDenials.queryDesc_eq (h : SameDenials s t)
    (hg : ∀ desc, t.isGranted D desc = s.isGranted D desc) (desc : Option T)
    (mode : AllowPartial) : t.queryDesc D desc mode = s.queryDesc D desc mode := by
  have hwalk : ∀ descs, t.firstDecided D mode descs = s.firstDecided D mode descs := by
    intro descs
    induction descs with
    | nil => rfl
    | cons e descs ih => rw [firstDecided_cons, firstDecided_cons, h.stateOf_eq mode (hg e), ih]
  exact hwalk _

/-- A name that is not denied and whose path is granted is granted. -/
lemma queryDesc_of_alias_granted (hD : D.Lawful) {v a : T}
    (ha : D.aliases v = [a]) (hg : s.isGranted D (some a) = true) (hv : NotDenied D s v)
    (hda : NotDenied D s a) (mode : AllowPartial) : s.queryDesc D (some v) mode = .granted := by
  have hmem : a ∈ D.aliases v := by simp [ha]
  have hsa : s.stateOf D (some a) mode = .granted := by
    rw [stateOf_of_not_partially_denied hda.1 hda.2 (hda.not_partially_denied hD hmem), hg]
    rfl
  rw [UnaryPermission.queryDesc_eq,
    stateOf_of_not_partially_denied hv.1 hv.2 (hv.not_partially_denied hD hmem)]
  simp only [Option.elim_some, ha, List.map_cons, List.map_nil, firstDecided_singleton, hsa]
  split_ifs <;> simp_all

section

variable {parent child : UnaryPermission T} (hD : D.Lawful) (hsame : SameDenials parent child)
  (hglobal : child.grantedGlobal = false) (hacc : ∀ v ∈ child.grantedList, Accepts D parent v)

include hglobal in
lemma isGranted_of_list (hg : child.isGranted D (some d) = true) :
    ∃ v ∈ child.grantedList, D.strongerThan v d = true := by
  rcases listContains_some.mp hg with h | h
  · rw [hglobal] at h
    cases h
  · exact h

include hsame in
/-- A descriptor the child does not grant is at most as open in the child as in the parent. -/
lemma stateOf_le_of_not_granted (hg : child.isGranted D desc = false)
    (mode : AllowPartial) : parent.stateOf D desc mode ≤ child.stateOf D desc mode := by
  rcases stateOf_of_not_granted hg mode with h | h
  · rw [h]
    exact le_denied _
  · rw [h]
    exact hsame.stateOf_le_prompt h

include hD hsame hglobal hacc in
lemma queryDesc_le_of_granted (hg : child.isGranted D (some d) = true) (mode : AllowPartial) :
    parent.queryDesc D (some d) mode ≤ child.queryDesc D (some d) mode := by
  obtain ⟨v, hv, hvd⟩ := isGranted_of_list hglobal hg
  rcases hacc v hv with hpg | ⟨a, hal, hga, hnv, hna⟩
  · -- the grant of `v` in the parent covers `d` by transitivity, and decides both queries
    have hpd : parent.isGranted D (some d) = true := by
      rcases listContains_some.mp hpg with h | ⟨w, hw, hwv⟩
      · exact listContains_some.mpr (Or.inl h)
      · exact listContains_some.mpr (Or.inr ⟨w, hw, hD.trans hwv hvd⟩)
    have hstate := hsame.stateOf_eq mode (hg.trans hpd.symm)
    have hne : parent.stateOf D (some d) mode ≠ .prompt := by
      intro h
      rw [(stateOf_eq_prompt.mp h).2.2.1] at hpd
      cases hpd
    rw [UnaryPermission.queryDesc_eq, UnaryPermission.queryDesc_eq, hstate, if_neg hne, if_neg hne]
    exact le_refl _
  · have hmem : a ∈ D.aliases v := by simp [hal]
    obtain rfl := hD.eq_of_alias hmem hvd
    rw [queryDesc_of_alias_granted hD hal hga hnv hna]
    exact granted_le _

include hD hsame hglobal hacc in
/-- An alias has no alias of its own, so the states of the alias decide. -/
lemma stateOf_alias_le {d a : T} (ha : a ∈ D.aliases d) (mode : AllowPartial) :
    parent.stateOf D (some a) mode ≤ child.stateOf D (some a) mode := by
  cases hg : child.isGranted D (some a) with
  | false => exact stateOf_le_of_not_granted hsame hg mode
  | true =>
    have h := queryDesc_le_of_granted hD hsame hglobal hacc hg mode
    simpa [queryDesc, hD.aliases_alias ha, firstDecided_singleton] using h

include hD hsame hglobal hacc in
lemma queryDesc_le (desc : Option T) (mode : AllowPartial) :
    parent.queryDesc D desc mode ≤ child.queryDesc D desc mode := by
  cases desc with
  | none =>
    rw [queryDesc_none, queryDesc_none]
    have hg : child.isGranted D none = false := hglobal
    exact stateOf_le_of_not_granted hsame hg mode
  | some d =>
    cases hg : child.isGranted D (some d) with
    | true => exact queryDesc_le_of_granted hD hsame hglobal hacc hg mode
    | false =>
      have hle := stateOf_le_of_not_granted hsame hg mode
      rcases stateOf_of_not_granted hg mode with hc | hc
      · rw [child.queryDesc_eq, hc]
        exact le_denied _
      · rw [hc] at hle
        rw [child.queryDesc_eq, if_pos hc, parent.queryDesc_eq]
        rcases hD.aliases_cases d with hal | ⟨a, hal⟩
        · simp only [Option.elim_some, hal, List.map_nil, firstDecided]
          split_ifs
          · exact le_refl _
          · exact hle
        · simp only [Option.elim_some, hal, List.map_cons, List.map_nil, firstDecided_singleton]
          obtain ⟨hf, hp, _, _⟩ := stateOf_eq_prompt.mp hc
          have hnd : NotDenied D parent d :=
            ⟨(hsame.isFlagDenied _).symm.trans hf, (hsame.isPromptDenied _).symm.trans hp⟩
          have hmem : a ∈ D.aliases d := by simp [hal]
          rw [stateOf_of_not_partially_denied hnd.1 hnd.2 (hnd.not_partially_denied hD hmem)]
          cases parent.isGranted D (some d) with
          | true => exact granted_le _
          | false => exact stateOf_alias_le hD hsame hglobal hacc hmem mode

end

/-! ### Every way to create a child -/

variable [DecidableEq T]

lemma ChildRule.noEscalation (hD : D.Lawful) {self parent child : UnaryPermission T}
    {ord : IterOrder T} {flag : ChildUnaryPermissionArg}
    (h : ChildRule D self ord pr flag parent child) : NoEscalation D parent child := by
  have hden := h.denials
  have hsame : SameDenials parent child := ⟨hden.1, hden.2.1, hden.2.2.1, hden.2.2.2⟩
  refine ⟨fun desc mode => ?_, fun hall => ?_, ⟨hden.1, hden.2.1⟩, hden.2.2⟩
  · cases h with
    | inherit => exact le_refl _
    | granted _ hperm hok =>
      subst hperm
      have hg := (CheckRule.of_checkDesc self none false none none pr).grantedGlobal hok
      rw [hsame.queryDesc_eq fun d => by rw [isGranted_of_global hg, isGranted_of_global rfl]]
      exact le_refl _
    | notGranted =>
      exact queryDesc_le hD hsame rfl (fun v hv => absurd hv (HashSet.not_mem_empty v)) desc mode
    | grantedList _ set _ _ hperm hok =>
      subst hperm
      have hacc := (checkEach_accepts hD hok).2
      exact queryDesc_le hD hsame rfl (fun v hv => hacc v (HashSet.mem_iter.mpr hv)) desc mode
  · obtain ⟨hg, hf, hp⟩ := isAllowAll_iff.mp hall
    rw [hden.2.1] at hf
    rw [hden.2.2.2] at hp
    exact isAllowAll_iff.mpr ⟨h.grantedGlobal hg, hf, hp⟩

end UnaryPermission

/-- Only a state that is granted, or becomes so at a prompt, passes a check. -/
lemma UnitPermission.check_ok {self : UnitPermission}
    (h : (self.check pr).result = .ok ()) : (self.check pr).perm.state = .granted := by
  obtain ⟨name, description, state, prompt⟩ := self
  cases state with
  | granted => rfl
  | grantedPartial | denied => cases h
  | prompt =>
    cases prompt with
    | false => cases h
    | true =>
      simp only [check, check2, if_true, permissionPrompt] at h ⊢
      cases hn : pr.next with
      | allow | allowAll => rfl
      | deny => simp [hn] at h

/-- A unit permission is at most as open in the child as in the parent. -/
lemma UnitPermission.query_le_child {self child : UnitPermission} {flag : ChildUnitPermissionArg}
    (h : (self.createChildPermissions flag pr).result = .ok child) :
    (self.createChildPermissions flag pr).perm.query ≤ child.query := by
  cases flag with
  | inherit =>
    cases h
    simp only [createChildPermissions, query]
    split_ifs
    · exact le_denied _
    · exact le_refl _
  | notGranted =>
    cases h
    simp only [createChildPermissions, query]
    split_ifs with hs
    · exact le_denied _
    · exact le_prompt hs
  | granted =>
    simp only [createChildPermissions] at h ⊢
    cases hc : (self.check pr).result with
    | error e => simp [hc] at h
    | ok u =>
      rw [query, UnitPermission.check_ok hc]
      exact granted_le _

variable {c c' : Permissions × Prompter}

section

variable {T : Type} {D : Descriptor T} [DecidableEq T]

lemma childUnary_ok (hD : D.Lawful) {get : Permissions → UnaryPermission T}
    {set : Permissions → UnaryPermission T → Permissions} {flag : ChildUnaryPermissionArg}
    {ord : IterOrder T} {child : UnaryPermission T}
    (h : childUnary D get set flag ord c = (.ok child, c')) :
    ∃ parent, UnaryPermission.NoEscalation D parent child ∧ c'.1 = set c.1 parent := by
  obtain ⟨hres, hc⟩ := Prod.mk.inj h
  exact ⟨_, (UnaryPermission.ChildRule.of_ok hres).noEscalation hD, by rw [← hc]⟩

lemma childUnit_ok {get : Permissions → UnitPermission}
    {set : Permissions → UnitPermission → Permissions} {flag : ChildUnitPermissionArg}
    {child : UnitPermission} (h : childUnit get set flag c = (.ok child, c')) :
    ∃ parent : UnitPermission, parent.query ≤ child.query ∧ c'.1 = set c.1 parent := by
  obtain ⟨hres, hc⟩ := Prod.mk.inj h
  exact ⟨_, UnitPermission.query_le_child hres, by rw [← hc]⟩

end

/-- The permissions of a worker are field by field within those the parent is left with. -/
lemma Permissions.createChildPermissions_ok {host : Host} {arg : ChildPermissionsArg}
    {ord : (k : UnaryName) → IterOrder k.Desc} {child : Permissions}
    (h : createChildPermissions host arg ord c = (.ok child, c')) : (∀ k : UnaryName,
      UnaryPermission.NoEscalation (k.descriptor host) (c'.1.unary k) (child.unary k)) ∧
      c'.1.hrtime.query ≤ child.hrtime.query ∧ c'.1.all.query ≤ child.all.query := by
  obtain ⟨read, c1, h1, h⟩ := PermissionsM.bind_eq_ok h
  obtain ⟨write, c2, h2, h⟩ := PermissionsM.bind_eq_ok h
  obtain ⟨net, c3, h3, h⟩ := PermissionsM.bind_eq_ok h
  obtain ⟨env, c4, h4, h⟩ := PermissionsM.bind_eq_ok h
  obtain ⟨sys, c5, h5, h⟩ := PermissionsM.bind_eq_ok h
  obtain ⟨run, c6, h6, h⟩ := PermissionsM.bind_eq_ok h
  obtain ⟨ffi, c7, h7, h⟩ := PermissionsM.bind_eq_ok h
  obtain ⟨hrtime, c8, h8, h⟩ := PermissionsM.bind_eq_ok h
  obtain ⟨all, c9, h9, h⟩ := PermissionsM.bind_eq_ok h
  cases h
  obtain ⟨_, hread, e1⟩ := childUnary_ok (UnaryName.read.descriptor_lawful host) h1
  obtain ⟨_, hwrite, e2⟩ := childUnary_ok (UnaryName.write.descriptor_lawful host) h2
  obtain ⟨_, hnet, e3⟩ := childUnary_ok (UnaryName.net.descriptor_lawful host) h3
  obtain ⟨_, henv, e4⟩ := childUnary_ok (UnaryName.env.descriptor_lawful host) h4
  obtain ⟨_, hsys, e5⟩ := childUnary_ok (UnaryName.sys.descriptor_lawful host) h5
  obtain ⟨_, hrun, e6⟩ := childUnary_ok (UnaryName.run.descriptor_lawful host) h6
  obtain ⟨_, hffi, e7⟩ := childUnary_ok (UnaryName.ffi.descriptor_lawful host) h7
  obtain ⟨_, hhrtime, e8⟩ := childUnit_ok h8
  obtain ⟨_, hall, e9⟩ := childUnit_ok h9
  -- every later field leaves the earlier ones as they are
  simp only [e9, e8, e7, e6, e5, e4, e3, e2, e1]
  refine ⟨fun k => ?_, hhrtime, hall⟩
  cases k <;> assumption

/-- A child never has more permissions than its parent is left with, neither in one unary
permission nor in the permissions of a worker as a whole. -/
theorem children_never_escalate (host : Host) :
    (∀ (k : UnaryName) (parent child : UnaryPermission k.Desc) (flag : ChildUnaryPermissionArg)
        (ord : IterOrder k.Desc) (pr : Prompter),
      (parent.createChildPermissions (k.descriptor host) flag ord pr).result = .ok child →
        UnaryPermission.NoEscalation (k.descriptor host)
          (parent.createChildPermissions (k.descriptor host) flag ord pr).perm child) ∧
    ∀ (arg : ChildPermissionsArg) (ord : (k : UnaryName) → IterOrder k.Desc)
        (parent parent' child : Permissions) (pr pr' : Prompter),
      createChildPermissions host arg ord (parent, pr) = (.ok child, (parent', pr')) →
        (∀ k : UnaryName,
          UnaryPermission.NoEscalation (k.descriptor host) (parent'.unary k) (child.unary k)) ∧
          parent'.hrtime.query ≤ child.hrtime.query ∧ parent'.all.query ≤ child.all.query := by
  constructor
  · intro k parent child flag ord pr h
    exact (UnaryPermission.ChildRule.of_ok h).noEscalation (k.descriptor_lawful host)
  · intro arg ord parent parent' child pr pr' h
    exact createChildPermissions_ok h

/-- A parent that grants nothing but the time, and asks for the rest. -/
def Permissions.prompting : Permissions where
  read := { UnaryPermission.default with prompt := true }
  write := { UnaryPermission.default with prompt := true }
  net := { UnaryPermission.default with prompt := true }
  env := { UnaryPermission.default with prompt := true }
  sys := { UnaryPermission.default with prompt := true }
  run := { UnaryPermission.default with prompt := true }
  ffi := { UnaryPermission.default with prompt := true }
  all := ⟨"all", "all", .prompt, true⟩
  hrtime := ⟨"hrtime", "high precision time", .granted, false⟩

/-- A worker that asks for one variable, which is allowed at a prompt, and for the time. -/
theorem children_never_escalate_prompted_env : (∃ child : UnaryPermission EnvDescriptor,
      (prompting.env.createChildPermissions (UnaryName.env.descriptor Host.bare)
        (.grantedList ["FOO"]) (.insertion _) (.fresh [.allow])).result = .ok child ∧
      UnaryPermission.NoEscalation (UnaryName.env.descriptor Host.bare)
        (prompting.env.createChildPermissions (UnaryName.env.descriptor Host.bare)
          (.grantedList ["FOO"]) (.insertion _) (.fresh [.allow])).perm child) ∧
    ∃ child parent' pr', createChildPermissions Host.bare
        ⟨.grantedList ["FOO"], .granted, .notGranted, .inherit, .inherit, .notGranted, .inherit,
          .inherit⟩
        (fun _ => .insertion _) (prompting, .fresh [.allow]) = (.ok child, (parent', pr')) ∧
      (∀ k : UnaryName, UnaryPermission.NoEscalation (k.descriptor Host.bare) (parent'.unary k)
        (child.unary k)) ∧
      parent'.hrtime.query ≤ child.hrtime.query ∧ parent'.all.query ≤ child.all.query := by
  obtain ⟨hunary, hall⟩ := children_never_escalate Host.bare
  constructor
  · exact ⟨_, rfl, hunary .env _ _ _ _ _ rfl⟩
  · obtain ⟨child, parent', pr', hok⟩ : ∃ child parent' pr', createChildPermissions Host.bare
          ⟨.grantedList ["FOO"], .granted, .notGranted, .inherit, .inherit, .notGranted, .inherit,
            .inherit⟩
          (fun _ => .insertion _) (prompting, .fresh [.allow]) =
            (.ok child, (parent', pr')) := ⟨_, _, _, rfl⟩
    exact ⟨child, parent', pr', hok, hall _ _ _ _ _ _ _ hok⟩

end Deno
