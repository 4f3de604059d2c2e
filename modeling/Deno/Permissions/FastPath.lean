import Deno.Permissions.Unary.Machine

/-!
# The fast path of a check

A check returns early when `isAllowAll` holds. That test reads three of the six fields a query
reads: the two global denials are left out. They make no difference as long as `Settled` holds,
and `Settled` is lost in two ways only. The command line can grant and deny everything at once,
and a prompt can be answered by allowing everything after the whole permission was denied.
-/

namespace Deno

open Core

variable {T : Type} {D : Descriptor T} {s : UnaryPermission T}

namespace UnaryPermission

/-- No global denial stands behind a global grant: neither one of the command line nor, when
nothing else is denied, one of a prompt. -/
structure Settled (s : UnaryPermission T) : Prop where
  flag : s.grantedGlobal = true → s.flagDeniedGlobal = false
  prompt : s.isAllowAll = true → s.promptDeniedGlobal = false

variable {self : UnaryPermission T}

lemma stateOf_of_no_denial (hall : self.isAllowAll = true)
    (hf : self.flagDeniedGlobal = false) (hp : self.promptDeniedGlobal = false)
    (desc : Option T) (mode : AllowPartial) : self.stateOf D desc mode = .granted := by
  obtain ⟨hg, hfl, hpl⟩ := isAllowAll_iff.mp hall
  have hflag : self.isFlagDenied D desc = false := by
    cases desc with
    | none => exact hf
    | some d => simp [isFlagDenied, listContains, hf, HashSet.any_of_isEmpty hfl]
  have hprompt : self.isPromptDenied D desc = false := by
    cases desc with
    | none => simp [isPromptDenied, hp, hpl]
    | some d => exact HashSet.any_of_isEmpty hpl _
  rw [stateOf_of_not_partially_denied hflag hprompt (isPartialFlagDenied_of_isEmpty hfl desc)]
  simp [isGranted_of_global hg desc]

/-- In a settled state the early return agrees with every query. -/
lemma Settled.queryDesc_eq_granted (h : self.Settled)
    (hall : self.isAllowAll = true) (desc : Option T) (mode : AllowPartial) :
    self.queryDesc D desc mode = .granted := by
  have hg := (isAllowAll_iff.mp hall).1
  have hstate := stateOf_of_no_denial (D := D) hall (h.flag hg) (h.prompt hall) desc mode
  rw [queryDesc_eq, hstate]
  simp

lemma grantedGlobal_of_queryDesc_none {mode : AllowPartial}
    (h : s.queryDesc D none mode = .prompt) : s.grantedGlobal = false := by
  rw [queryDesc_none, stateOf_eq_prompt] at h
  exact h.2.2.1

end UnaryPermission

open UnaryPermission

/-- A new permission is settled unless both flags stand without values. -/
lemma newUnary_settled {allow deny : Option (List D.Arg)} {prompt : Bool}
    (h : newUnary D allow deny prompt = .ok s)
    (hflags : ¬ (allow = some [] ∧ deny = some [])) : s.Settled := by
  obtain ⟨granted, denied, _, _, rfl⟩ := newUnary_eq_ok h
  refine ⟨fun hg => ?_, fun _ => rfl⟩
  rw [Bool.eq_false_iff]
  intro hf
  exact hflags ⟨globalFromOption_eq_true hg, globalFromOption_eq_true hf⟩

/-- A global grant never comes to stand beside a global denial of the command line. -/
lemma UnaryPermission.Evolves.flag {c c' : UnaryConfig T} (h : Evolves c c')
    (hc : c.1.grantedGlobal = true → c.1.flagDeniedGlobal = false)
    (hg : c'.1.grantedGlobal = true) : c'.1.flagDeniedGlobal = false := by
  rw [h.flagGlobal]
  rcases h.granted hg with hg' | ⟨hf, _⟩
  · exact hc hg'
  · exact hf

variable [DecidableEq T]

/-- The step answers a prompt by allowing everything although the whole permission was denied by
a prompt before, and no narrower denial is left to keep the fast path away. -/
def AllowsAllOverDenial (D : Descriptor T) (c : UnaryConfig T) (op : UnaryOp T) : Prop :=
  c.1.promptDeniedGlobal = true ∧ c.1.flagDeniedList.isEmpty = true ∧
    c.1.promptDeniedList.isEmpty = true ∧ AnsweredAllowAll c.2 (unaryStep D c op).2

variable {pr : Prompter}

lemma UnaryPermission.CheckRule.promptDeniedGlobal {desc : Option T} {mode : AllowPartial}
    {o : Outcome (UnaryPermission T) (Except AnyError Unit)} (h : CheckRule D s desc mode pr o)
    (hp : o.perm.promptDeniedGlobal = true) :
    s.promptDeniedGlobal = true ∨ o.perm.grantedGlobal = false := by
  cases h with
  | fast _ | granted _ _ | rejected _ _ _ _ => exact Or.inl hp
  | allow _ _ _ _ _ | allowAll _ _ _ _ _ => exact Or.inl hp
  | deny _ _ _ hq _ _ =>
    cases desc with
    | some d => exact Or.inl hp
    | none =>
      have hng : s.grantedGlobal = false := grantedGlobal_of_queryDesc_none hq
      exact Or.inr hng

lemma UnaryPermission.RequestRule.promptDeniedGlobal {desc : Option T}
    {o : Outcome (UnaryPermission T) PermissionState} (h : RequestRule D s desc pr o)
    (hp : o.perm.promptDeniedGlobal = true) :
    s.promptDeniedGlobal = true ∨ o.perm.grantedGlobal = false := by
  cases h with
  | granted _ | decided _ _ _ _ | allow _ _ _ | allowAll _ _ _ => exact Or.inl hp
  | deny _ hq _ =>
    cases desc with
    | some d => exact Or.inl hp
    | none =>
      have hng : s.grantedGlobal = false := grantedGlobal_of_queryDesc_none hq
      exact Or.inr hng

/-- Checks of single descriptors do not touch the denial of the whole. -/
lemma checkEach_promptDeniedGlobal (s : UnaryPermission T) (pr : Prompter) (descs : List T) :
    (s.checkEach D pr descs).perm.promptDeniedGlobal = s.promptDeniedGlobal := by
  induction descs generalizing s pr with
  | nil => rfl
  | cons d descs ih =>
    have hd : (s.checkDesc D (some d) D.assertNonPartial none none pr).perm.promptDeniedGlobal =
        s.promptDeniedGlobal := by
      generalize ho : s.checkDesc D (some d) D.assertNonPartial none none pr = o
      have hrule := CheckRule.of_checkDesc (D := D) s (some d) D.assertNonPartial none none pr
      rw [ho] at hrule
      cases hrule <;> rfl
    simp only [checkEach, checkInPermission_eq]
    split_ifs with hok
    · rw [ih, hd]
    · exact hd

lemma createChildPermissions_promptDeniedGlobal {flag : ChildUnaryPermissionArg} {ord : IterOrder T}
    (hp : (s.createChildPermissions D flag ord pr).perm.promptDeniedGlobal = true) :
    s.promptDeniedGlobal = true ∨
      (s.createChildPermissions D flag ord pr).perm.grantedGlobal = false := by
  cases flag with
  | inherit | notGranted => exact Or.inl hp
  | granted =>
    have hrule := CheckRule.of_checkDesc (D := D) s none false none none pr
    simp only [createChildPermissions, checkAllApi_eq] at hp ⊢
    split_ifs at hp ⊢ <;> exact hrule.promptDeniedGlobal hp
  | grantedList strings =>
    left
    simp only [createChildPermissions] at hp
    split at hp
    · exact hp
    · split_ifs at hp <;> rwa [checkEach_promptDeniedGlobal] at hp

/-- A step denies the whole permission only while it is not granted. -/
lemma unaryStep_promptDeniedGlobal {c : UnaryConfig T} {op : UnaryOp T}
    (h : (unaryStep D c op).1.promptDeniedGlobal = true) :
    c.1.promptDeniedGlobal = true ∨ (unaryStep D c op).1.grantedGlobal = false := by
  cases op with
  | check desc assertNonPartial apiName displayName =>
    exact (CheckRule.of_checkDesc ..).promptDeniedGlobal h
  | checkAll apiName =>
    simp only [unaryStep, checkAllApi_eq] at h ⊢
    exact (CheckRule.of_checkDesc ..).promptDeniedGlobal h
  | request desc displayName => exact (RequestRule.of_requestDesc ..).promptDeniedGlobal h
  | revoke desc =>
    left
    cases desc <;> exact h
  | createChild flag ord => exact createChildPermissions_promptDeniedGlobal h
  | enterChild flag ord =>
    simp only [unaryStep] at h ⊢
    cases hres : (c.1.createChildPermissions D flag ord c.2).result with
    | error e =>
      simp only [hres] at h ⊢
      exact createChildPermissions_promptDeniedGlobal h
    | ok child =>
      -- the child denies what its parent denies and is granted only if its parent is
      simp only [hres] at h ⊢
      have hrule := ChildRule.of_ok hres
      rw [hrule.denials.2.2.1] at h
      rcases createChildPermissions_promptDeniedGlobal h with hp | hg
      · exact Or.inl hp
      · right
        rw [Bool.eq_false_iff]
        intro hc
        rw [hrule.grantedGlobal hc] at hg
        cases hg

/-- A step that does not allow everything over a denial keeps the permission settled. -/
lemma unaryStep_settled (c : UnaryConfig T) (op : UnaryOp T)
    (hG : ¬ AllowsAllOverDenial D c op) (hs : c.1.Settled) :
    (unaryStep D c op).1.Settled := by
  have hev := unaryStep_evolves (D := D) c op
  constructor
  · exact hev.flag hs.flag
  · intro hall
    obtain ⟨hg, hfl, hpl⟩ := isAllowAll_iff.mp hall
    rw [Bool.eq_false_iff]
    intro hpg
    rcases unaryStep_promptDeniedGlobal hpg with hpg' | hng
    · -- the denial is an old one, so the grant would have to be old as well, or be guarded
      have hfl' : c.1.flagDeniedList.isEmpty = true := hev.flagList ▸ hfl
      have hpl' : c.1.promptDeniedList.isEmpty = true :=
        HashSet.isEmpty_of_subset hev.promptList hpl
      rcases hev.granted hg with hg' | ⟨_, hans⟩
      · have := hs.prompt (isAllowAll_iff.mpr ⟨hg', hfl', hpl'⟩)
        rw [hpg'] at this
        cases this
      · exact hG ⟨hpg', hfl', hpl', hans hpg'⟩
    · rw [hng] at hg
      cases hg

/-- **The fast path agrees with the slow path.** Start from any flags that do not both grant and
deny everything, and run any operations of which none allows everything over a denial of the
whole permission: whenever the early return of a check would be taken, every query is granted. -/
theorem fastPath_agrees (host : Host) (k : UnaryName)
    (allow deny : Option (List (k.descriptor host).Arg)) (prompt : Bool)
    (s : UnaryPermission k.Desc) (hnew : newUnary (k.descriptor host) allow deny prompt = .ok s)
    (hflags : ¬ (allow = some [] ∧ deny = some [])) (pr : Prompter) (ops : List (UnaryOp k.Desc))
    (hsteps : (unaryMachine (k.descriptor host)).Along
      (fun c op => ¬ AllowsAllOverDenial (k.descriptor host) c op) (s, pr) ops)
    (hall : ((unaryMachine (k.descriptor host)).run (s, pr) ops).1.isAllowAll = true)
    (desc : Option k.Desc) (mode : AllowPartial) :
    ((unaryMachine (k.descriptor host)).run (s, pr) ops).1.queryDesc (k.descriptor host) desc mode
      = .granted := by
  have hsettled := Machine.run_invariant_of_along
    (fun c op hG hs => unaryStep_settled c op hG hs) (newUnary_settled hnew hflags) ops hsteps
  exact hsettled.queryDesc_eq_granted hall desc mode

/-- Nothing is granted at first; the only prompt is answered by allowing everything. -/
theorem fastPath_agrees_prompted_env :
    ∃ s, newUnary (UnaryName.env.descriptor Host.bare) none none true = .ok s ∧
      ((unaryMachine (UnaryName.env.descriptor Host.bare)).run (s, .fresh [.allowAll])
        [.check (some (⟨"HOME"⟩ : EnvDescriptor)) false none none]).1.queryDesc
          (UnaryName.env.descriptor Host.bare) none .treatAsDenied = .granted :=
  ⟨_, rfl, fastPath_agrees Host.bare .env none none true _ rfl (by simp) (.fresh [.allowAll])
    [.check (some (⟨"HOME"⟩ : EnvDescriptor)) false none none]
    ⟨fun h => Bool.noConfusion h.1, trivial⟩ (by decide) none .treatAsDenied⟩

/-- With both flags given without values the early return grants what every query denies. -/
theorem fastPath_disagrees_allow_deny_env :
    ∃ s, newUnary EnvDescriptor.descriptor (some []) (some []) false = .ok s ∧ s.isAllowAll = true ∧
      s.queryDesc EnvDescriptor.descriptor (some ⟨"HOME"⟩) .treatAsGranted = .denied ∧
      (s.checkDesc EnvDescriptor.descriptor (some ⟨"HOME"⟩) false none none (.fresh [])).result
        = .ok () :=
  ⟨_, rfl, by decide, by decide, rfl⟩

end Deno
