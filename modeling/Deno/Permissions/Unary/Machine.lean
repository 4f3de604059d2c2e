import Deno.Core.Machine
import Deno.Permissions.Unary.Properties

/-!
# A unary permission as a machine

The inputs are the operations a program can perform on a permission, creating a child and going
on as that child included. `Evolves` collects what every one of them respects: the denials of the
command line stay as they are, denied prompts stay denied, and the whole permission becomes
granted only where the command line did not deny it.
-/

namespace Deno

open Core List

inductive UnaryOp (T : Type) where
  | check (desc : Option T) (assertNonPartial : Bool) (apiName displayName : Option String)
  | checkAll (apiName : Option String)
  | request (desc : Option T) (displayName : Option String)
  | revoke (desc : Option T)
  /-- Create a child and stay in the parent. -/
  | createChild (flag : ChildUnaryPermissionArg) (ord : IterOrder T)
  /-- Create a child and go on as the child, if there is one. -/
  | enterChild (flag : ChildUnaryPermissionArg) (ord : IterOrder T)

/-- A permission and the person who answers its prompts. -/
abbrev UnaryConfig (T : Type) := UnaryPermission T × Prompter

variable {T : Type}

/-- Between the two prompters a question was answered by allowing everything. -/
def AnsweredAllowAll (pr pr' : Prompter) : Prop :=
  ∃ new, pr'.log = pr.log ++ new ∧ PromptResponse.allowAll ∈ new.map Prod.snd

variable {pr : Prompter}

namespace UnaryPermission

/-- What every operation respects. -/
structure Evolves (s s' : UnaryConfig T) : Prop where
  log : s.2.log <+: s'.2.log
  flagGlobal : s'.1.flagDeniedGlobal = s.1.flagDeniedGlobal
  flagList : s'.1.flagDeniedList = s.1.flagDeniedList
  promptGlobal : s.1.promptDeniedGlobal = true → s'.1.promptDeniedGlobal = true
  promptList : ∀ v ∈ s.1.promptDeniedList, v ∈ s'.1.promptDeniedList
  granted : s'.1.grantedGlobal = true → s.1.grantedGlobal = true ∨ (s.1.flagDeniedGlobal = false ∧
      (s.1.promptDeniedGlobal = true → AnsweredAllowAll s.2 s'.2))

lemma Evolves.refl (s : UnaryConfig T) : Evolves s s :=
  ⟨prefix_refl _, rfl, rfl, id, fun _ => id, Or.inl⟩

lemma Evolves.trans {s s' s'' : UnaryConfig T} (h : Evolves s s') (h' : Evolves s' s'') :
    Evolves s s'' where
  log := h.log.trans h'.log
  flagGlobal := h'.flagGlobal.trans h.flagGlobal
  flagList := h'.flagList.trans h.flagList
  promptGlobal := h'.promptGlobal ∘ h.promptGlobal
  promptList v hv := h'.promptList v (h.promptList v hv)
  granted := by
    intro hg
    obtain ⟨l, hl⟩ := h.log
    obtain ⟨l', hl'⟩ := h'.log
    rcases h'.granted hg with hg' | ⟨hf, hp⟩
    · rcases h.granted hg' with hs | ⟨hf, hp⟩
      · exact Or.inl hs
      · refine Or.inr ⟨hf, fun hpg => ?_⟩
        obtain ⟨new, hnew, hmem⟩ := hp hpg
        refine ⟨new ++ l', ?_, ?_⟩
        · rw [← hl', hnew, append_assoc]
        · rw [map_append]
          exact mem_append_left _ hmem
    · refine Or.inr ⟨h.flagGlobal ▸ hf, fun hpg => ?_⟩
      obtain ⟨new, hnew, hmem⟩ := hp (h.promptGlobal hpg)
      refine ⟨l ++ new, ?_, ?_⟩
      · rw [hnew, ← hl, append_assoc]
      · rw [map_append]
        exact mem_append_right _ hmem

/-! ### The operations evolve the permission -/

variable {D : Descriptor T}

lemma revokeDesc_evolves (self : UnaryPermission T) (desc : Option T) (pr : Prompter) :
    Evolves (self, pr) ((self.revokeDesc D desc).2, pr) := by
  cases desc with
  | some d => exact ⟨prefix_refl _, rfl, rfl, id, fun _ => id, Or.inl⟩
  | none =>
    refine ⟨prefix_refl _, rfl, rfl, id, fun _ => id, fun hg => ?_⟩
    simp [revokeDesc] at hg

variable [DecidableEq T] {self : UnaryPermission T} {desc : Option T} {mode : AllowPartial}
  (request : PromptRequest)

lemma evolves_insertGranted (hq : self.queryDesc D desc mode = .prompt) :
    Evolves (self, pr) (self.insertGranted D desc, pr.asked request) where
  log := ⟨_, rfl⟩
  flagGlobal := rfl
  flagList := rfl
  promptGlobal := id
  promptList _ := id
  granted := by
    intro hg
    cases desc with
    | some d => exact Or.inl hg
    | none =>
      -- everything was undecided, so it was not denied by a prompt before
      refine Or.inr ⟨flagDeniedGlobal_of_queryDesc_eq_prompt hq, fun hp => ?_⟩
      rw [queryDesc_none, stateOf_eq_prompt] at hq
      simp [isPromptDenied, show self.promptDeniedGlobal = true from hp] at hq

lemma evolves_insertGranted_all
    (hq : self.queryDesc D desc mode = .prompt) (hn : pr.next = .allowAll) :
    Evolves (self, pr) (self.insertGranted D none, pr.asked request) where
  log := ⟨_, rfl⟩
  flagGlobal := rfl
  flagList := rfl
  promptGlobal := id
  promptList _ := id
  granted _ := Or.inr
    ⟨flagDeniedGlobal_of_queryDesc_eq_prompt hq, fun _ => ⟨[(request, pr.next)], rfl, by simp [hn]⟩⟩

lemma evolves_insertPromptDenied (self : UnaryPermission T) (pr : Prompter) (desc : Option T)
    (request : PromptRequest) :
    Evolves (self, pr) (self.insertPromptDenied D desc, pr.asked request) where
  log := ⟨_, rfl⟩
  flagGlobal := rfl
  flagList := rfl
  promptGlobal := by
    intro h
    cases desc with
    | none => rfl
    | some d => exact h
  promptList := by
    intro v hv
    cases desc with
    | none => exact hv
    | some d => exact mem_insertPromptDenied_some.mpr (Or.inl hv)
  granted := Or.inl

lemma CheckRule.evolves {o : Outcome (UnaryPermission T) (Except AnyError Unit)}
    (h : CheckRule D self desc mode pr o) : Evolves (self, pr) (o.perm, o.prompter) := by
  cases h with
  | fast _ | granted _ _ | rejected _ _ _ _ => exact Evolves.refl _
  | allow request _ hq _ _ => exact evolves_insertGranted request hq
  | allowAll request _ hq _ hn => exact evolves_insertGranted_all request hq hn
  | deny e request _ _ _ _ => exact evolves_insertPromptDenied self pr desc request

lemma checkDesc_evolves (self : UnaryPermission T) (desc : Option T) (assertNonPartial : Bool)
    (apiName displayName : Option String) (pr : Prompter) :
    Evolves (self, pr) ((self.checkDesc D desc assertNonPartial apiName displayName pr).perm,
        (self.checkDesc D desc assertNonPartial apiName displayName pr).prompter) :=
  (CheckRule.of_checkDesc self desc assertNonPartial apiName displayName pr).evolves

lemma RequestRule.evolves
    {o : Outcome (UnaryPermission T) PermissionState} (h : RequestRule D self desc pr o) :
    Evolves (self, pr) (o.perm, o.prompter) := by
  cases h with
  | granted hq =>
    refine ⟨prefix_refl _, rfl, rfl, id, fun _ => id, fun hg => ?_⟩
    cases desc with
    | some d => exact Or.inl hg
    | none =>
      rw [queryDesc_none] at hq
      exact Or.inl (stateOf_eq_granted hq).2.2
  | decided state _ _ _ => exact Evolves.refl _
  | allow request hq _ => exact evolves_insertGranted request hq
  | allowAll request hq hn => exact evolves_insertGranted_all request hq hn
  | deny request _ _ => exact evolves_insertPromptDenied self pr desc request

section

variable (self : UnaryPermission T)

lemma checkEach_evolves (pr : Prompter) (descs : List T) : Evolves (self, pr)
      ((self.checkEach D pr descs).perm, (self.checkEach D pr descs).prompter) := by
  induction descs generalizing self pr with
  | nil => exact Evolves.refl _
  | cons d descs ih =>
    simp only [checkEach, checkInPermission_eq]
    have hd := checkDesc_evolves (D := D) self (some d) D.assertNonPartial none none pr
    split_ifs with hok
    · exact hd.trans (ih _ _)
    · exact hd

lemma createChildPermissions_evolves (flag : ChildUnaryPermissionArg)
    (ord : IterOrder T) (pr : Prompter) :
    Evolves (self, pr) ((self.createChildPermissions D flag ord pr).perm,
        (self.createChildPermissions D flag ord pr).prompter) := by
  cases flag with
  | inherit | notGranted => exact Evolves.refl _
  | granted =>
    have h := checkDesc_evolves (D := D) self none false none none pr
    simp only [createChildPermissions, checkAllApi_eq]
    split_ifs <;> exact h
  | grantedList granted =>
    simp only [createChildPermissions]
    split
    · exact Evolves.refl _
    · rename_i set _
      have h := checkEach_evolves (D := D) self pr (set.iter ord)
      split_ifs <;> exact h

end

lemma child_evolves {self child : UnaryPermission T} {flag : ChildUnaryPermissionArg}
    {ord : IterOrder T}
    (h : (self.createChildPermissions D flag ord pr).result = .ok child) (pr' : Prompter) :
    Evolves ((self.createChildPermissions D flag ord pr).perm, pr') (child, pr') := by
  have hrule := ChildRule.of_ok h
  obtain ⟨hfg, hfl, hpg, hpl⟩ := hrule.denials
  refine ⟨prefix_refl _, hfg, hfl, fun hp => hpg.trans hp, fun v hv => ?_,
    fun hg => Or.inl (hrule.grantedGlobal hg)⟩
  exact hpl ▸ hv

end UnaryPermission

/-! ### The machine -/

variable [DecidableEq T] (D : Descriptor T)

def unaryStep (c : UnaryConfig T) : UnaryOp T → UnaryConfig T
  | .check desc assertNonPartial apiName displayName =>
    let o := c.1.checkDesc D desc assertNonPartial apiName displayName c.2
    (o.perm, o.prompter)
  | .checkAll apiName =>
    let o := c.1.checkAllApi D apiName c.2
    (o.perm, o.prompter)
  | .request desc displayName =>
    let o := c.1.requestDesc D desc displayName c.2
    (o.perm, o.prompter)
  | .revoke desc => ((c.1.revokeDesc D desc).2, c.2)
  | .createChild flag ord =>
    let o := c.1.createChildPermissions D flag ord c.2
    (o.perm, o.prompter)
  | .enterChild flag ord =>
    let o := c.1.createChildPermissions D flag ord c.2
    match o.result with
    | .ok child => (child, o.prompter)
    | .error _ => (o.perm, o.prompter)

def unaryMachine : Machine (UnaryConfig T) (UnaryOp T) := ⟨unaryStep D⟩

variable {D}

open UnaryPermission in
/-- One step evolves the permission, going on as a child included. -/
theorem unaryStep_evolves (c : UnaryConfig T) (op : UnaryOp T) : Evolves c (unaryStep D c op) := by
  cases op with
  | check desc assertNonPartial apiName displayName => exact checkDesc_evolves ..
  | checkAll apiName =>
    simp only [unaryStep, checkAllApi_eq]
    exact checkDesc_evolves ..
  | request desc displayName => exact (RequestRule.of_requestDesc ..).evolves
  | revoke desc => exact revokeDesc_evolves ..
  | createChild flag ord => exact createChildPermissions_evolves ..
  | enterChild flag ord =>
    have h := createChildPermissions_evolves (D := D) c.1 flag ord c.2
    simp only [unaryStep]
    split
    · rename_i child hchild
      exact h.trans (child_evolves hchild _)
    · exact h

lemma run_flagDenied (c : UnaryConfig T) (ops : List (UnaryOp T)) :
    ((unaryMachine D).run c ops).1.flagDeniedGlobal = c.1.flagDeniedGlobal ∧
      ((unaryMachine D).run c ops).1.flagDeniedList = c.1.flagDeniedList :=
  Machine.run_invariant (P := fun c' => c'.1.flagDeniedGlobal = c.1.flagDeniedGlobal ∧
      c'.1.flagDeniedList = c.1.flagDeniedList)
    (fun s op h => ⟨(unaryStep_evolves s op).flagGlobal.trans h.1,
      (unaryStep_evolves s op).flagList.trans h.2⟩) ⟨rfl, rfl⟩ ops

end Deno
