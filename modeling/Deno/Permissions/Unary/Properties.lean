import Deno.Permissions.Unary.Basic

/-!
# What the operations of a unary permission can do

Each operation is inverted once, into the list of things it can do (`CheckRule`, `RequestRule`,
`ChildRule`). The lemmas on queries say how a state is decided; those on `Evolves` say which
fields an operation can touch at all.
-/

namespace Deno

open Core

variable {T : Type} {D : Descriptor T}

namespace UnaryPermission

/-! ### Membership tests -/

variable {self : UnaryPermission T}

@[simp] lemma isAllowAll_iff :
    self.isAllowAll = true ↔ self.grantedGlobal = true ∧ self.flagDeniedList.isEmpty = true ∧
      self.promptDeniedList.isEmpty = true := by
  simp [isAllowAll, and_assoc]

lemma isAllowAll_eq_false_of_mem_flagDenied {v : T}
    (h : v ∈ self.flagDeniedList) : self.isAllowAll = false := by
  rw [Bool.eq_false_iff]
  intro hall
  exact HashSet.not_mem_of_isEmpty (isAllowAll_iff.mp hall).2.1 v h

lemma isAllowAll_eq_false_of_mem_promptDenied {v : T}
    (h : v ∈ self.promptDeniedList) : self.isAllowAll = false := by
  rw [Bool.eq_false_iff]
  intro hall
  exact HashSet.not_mem_of_isEmpty (isAllowAll_iff.mp hall).2.2 v h

variable {d : T}

lemma listContains_some {g : Bool} {l : HashSet T} :
    listContains D (some d) g l = true ↔ g = true ∨ ∃ v ∈ l, D.strongerThan v d = true := by
  simp [listContains, HashSet.any_eq_true]

variable {desc : Option T}

lemma listContains_of_global {l : HashSet T} : listContains D desc true l = true := by
  cases desc <;> simp [listContains]

lemma isFlagDenied_of_global (h : self.flagDeniedGlobal = true)
    (desc : Option T) : self.isFlagDenied D desc = true := by
  unfold isFlagDenied
  rw [h]
  exact listContains_of_global

lemma isGranted_of_global (h : self.grantedGlobal = true)
    (desc : Option T) : self.isGranted D desc = true := by
  unfold isGranted
  rw [h]
  exact listContains_of_global

lemma isFlagDenied_of_mem {v d : T} (hv : v ∈ self.flagDeniedList)
    (hvd : D.strongerThan v d = true) : self.isFlagDenied D (some d) = true :=
  listContains_some.mpr (Or.inr ⟨v, hv, hvd⟩)

lemma isPromptDenied_some : self.isPromptDenied D (some d) = true ↔
      ∃ v ∈ self.promptDeniedList, D.strongerThan d v = true :=
  HashSet.any_eq_true

lemma isPartialFlagDenied_some : self.isPartialFlagDenied D (some d) = true ↔
      ∃ v ∈ self.flagDeniedList, D.strongerThan d v = true :=
  HashSet.any_eq_true

lemma isPartialFlagDenied_of_isEmpty (h : self.flagDeniedList.isEmpty = true) (desc : Option T) :
    self.isPartialFlagDenied D desc = false := by
  cases desc with
  | none => simp [isPartialFlagDenied, h]
  | some d => exact HashSet.any_of_isEmpty h _

/-! ### The state of one descriptor -/

variable {mode : AllowPartial}

lemma stateOf_denied (h : self.isFlagDenied D desc = true ∨ self.isPromptDenied D desc = true) :
    self.stateOf D desc mode = .denied := by
  simp [stateOf, h]

lemma stateOf_of_not_partially_denied (hf : self.isFlagDenied D desc = false)
    (hp : self.isPromptDenied D desc = false) (hpart : self.isPartialFlagDenied D desc = false) :
    self.stateOf D desc mode = if self.isGranted D desc then .granted else .prompt := by
  cases mode <;> simp [stateOf, hf, hp, hpart]

lemma stateOf_eq_prompt : self.stateOf D desc mode = .prompt ↔
      self.isFlagDenied D desc = false ∧ self.isPromptDenied D desc = false ∧
        self.isGranted D desc = false ∧
        ¬ (mode = .treatAsDenied ∧ self.isPartialFlagDenied D desc = true) := by
  unfold stateOf
  split_ifs <;> grind

lemma stateOf_eq_granted (h : self.stateOf D desc mode = .granted) :
    self.isFlagDenied D desc = false ∧ self.isPromptDenied D desc = false ∧
      self.isGranted D desc = true := by
  unfold stateOf at h
  split_ifs at h <;> grind

/-! ### Queries -/

section

variable (self : UnaryPermission T)

section

variable (mode : AllowPartial)

lemma firstDecided_cons (desc : Option T) (descs : List (Option T)) :
    self.firstDecided D mode (desc :: descs) =
      if self.stateOf D desc mode = .prompt then self.firstDecided D mode descs
      else self.stateOf D desc mode := by
  simp [firstDecided]

lemma firstDecided_singleton (desc : Option T) :
    self.firstDecided D mode [desc] = self.stateOf D desc mode := by
  rw [firstDecided_cons]
  split_ifs with h
  · exact h.symm
  · rfl

lemma queryDesc_eq (desc : Option T) (mode : AllowPartial) : self.queryDesc D desc mode =
      if self.stateOf D desc mode = .prompt then
        self.firstDecided D mode ((desc.elim [] D.aliases).map some)
      else self.stateOf D desc mode := by
  rw [queryDesc, firstDecided_cons]

lemma queryDesc_none :
    self.queryDesc D none mode = self.stateOf D none mode := firstDecided_singleton ..

end

end

lemma queryDesc_denied (h : self.isFlagDenied D desc = true ∨ self.isPromptDenied D desc = true) :
    self.queryDesc D desc mode = .denied := by
  rw [queryDesc_eq, stateOf_denied h]
  simp

/-- A partial denial settles the query where partial denials count as denials. -/
lemma queryDesc_treatAsDenied (h : self.isPartialFlagDenied D desc = true) :
    self.queryDesc D desc .treatAsDenied = .denied := by
  have hs : self.stateOf D desc .treatAsDenied = .denied := by
    unfold stateOf
    split_ifs <;> simp_all
  rw [queryDesc_eq, hs]
  simp

lemma stateOf_of_queryDesc_eq_prompt (h : self.queryDesc D desc mode = .prompt) :
    self.stateOf D desc mode = .prompt := by
  rw [queryDesc_eq] at h
  split_ifs at h with hs
  · exact hs
  · exact absurd h hs

/-- Nothing is undecided about a permission that the command line denied as a whole. -/
lemma flagDeniedGlobal_of_queryDesc_eq_prompt (h : self.queryDesc D desc mode = .prompt) :
    self.flagDeniedGlobal = false := by
  have hs := stateOf_eq_prompt.mp (stateOf_of_queryDesc_eq_prompt h)
  rw [Bool.eq_false_iff]
  intro hg
  rw [isFlagDenied_of_global hg desc] at hs
  exact Bool.noConfusion hs.1

/-! ### Insertion -/

section

variable [DecidableEq T]

@[simp] lemma mem_insertGranted_some {d v : T} : v ∈ (self.insertGranted D (some d)).grantedList ↔
      v ∈ self.grantedList ∨ v = d ∨ v ∈ D.aliases d := by
  simp [insertGranted, listInsert, or_assoc]

@[simp] lemma mem_insertPromptDenied_some {d v : T} :
    v ∈ (self.insertPromptDenied D (some d)).promptDeniedList ↔
      v ∈ self.promptDeniedList ∨ v = d ∨ v ∈ D.aliases d := by
  simp [insertPromptDenied, listInsert, or_assoc]

lemma isGranted_insertGranted (hD : D.Lawful) (self : UnaryPermission T) (desc : Option T) :
    (self.insertGranted D desc).isGranted D desc = true := by
  cases desc with
  | none => exact isGranted_of_global rfl none
  | some d =>
    refine listContains_some.mpr (Or.inr ⟨d, ?_, hD.refl d⟩)
    simp

end

/-! ### Inversion of the operations -/

section

variable [DecidableEq T]

inductive CheckRule (D : Descriptor T) (self : UnaryPermission T) (desc : Option T)
    (mode : AllowPartial) (pr : Prompter) :
    Outcome (UnaryPermission T) (Except AnyError Unit) → Prop where
  | fast : self.isAllowAll = true → CheckRule D self desc mode pr ⟨.ok (), self, pr⟩
  | granted : self.isAllowAll = false → self.queryDesc D desc mode = .granted →
      CheckRule D self desc mode pr ⟨.ok (), self, pr⟩
  | rejected (e : AnyError) : self.isAllowAll = false → self.queryDesc D desc mode ≠ .granted →
      (self.queryDesc D desc mode = .prompt → self.prompt = false) →
      CheckRule D self desc mode pr ⟨.error e, self, pr⟩
  | allow (request : PromptRequest) : self.isAllowAll = false →
      self.queryDesc D desc mode = .prompt → self.prompt = true → pr.next = .allow →
      CheckRule D self desc mode pr ⟨.ok (), self.insertGranted D desc, pr.asked request⟩
  | allowAll (request : PromptRequest) : self.isAllowAll = false →
      self.queryDesc D desc mode = .prompt → self.prompt = true → pr.next = .allowAll →
      CheckRule D self desc mode pr ⟨.ok (), self.insertGranted D none, pr.asked request⟩
  | deny (e : AnyError) (request : PromptRequest) : self.isAllowAll = false →
      self.queryDesc D desc mode = .prompt → self.prompt = true → pr.next = .deny →
      CheckRule D self desc mode pr ⟨.error e, self.insertPromptDenied D desc, pr.asked request⟩

section

variable (self : UnaryPermission T)

theorem CheckRule.of_checkDesc (desc : Option T)
    (assertNonPartial : Bool) (apiName displayName : Option String) (pr : Prompter) :
    CheckRule D self desc (.ofBool !assertNonPartial) pr
      (self.checkDesc D desc assertNonPartial apiName displayName pr) := by
  unfold checkDesc
  cases hall : self.isAllowAll with
  | true => exact .fast hall
  | false =>
    cases hq : self.queryDesc D desc (.ofBool !assertNonPartial) with
    | granted => exact .granted hall hq
    | grantedPartial | denied => exact .rejected _ hall (by simp [hq]) (by simp [hq])
    | prompt =>
      cases hp : self.prompt with
      | false => exact .rejected _ hall (by simp [hq]) (fun _ => hp)
      | true =>
        simp only [PermissionState.check2, if_true, permissionPrompt]
        cases hn : pr.next with
        | allow => exact .allow _ hall hq hp hn
        | allowAll => exact .allowAll _ hall hq hp hn
        | deny => exact .deny _ _ hall hq hp hn

lemma checkAllApi_eq (apiName : Option String) (pr : Prompter) :
    self.checkAllApi D apiName pr = self.checkDesc D none false apiName none pr := by
  unfold checkAllApi
  split_ifs with h
  · simp [checkDesc, h]
  · rfl

lemma checkInPermission_eq (desc : T) (self : UnaryPermission T) (apiName : Option String)
    (pr : Prompter) :
    checkInPermission D desc self apiName pr =
      self.checkDesc D (some desc) D.assertNonPartial apiName none pr := by
  unfold checkInPermission
  split_ifs with h
  · simp [checkDesc, h]
  · rfl

inductive RequestRule (D : Descriptor T) (self : UnaryPermission T) (desc : Option T)
    (pr : Prompter) : Outcome (UnaryPermission T) PermissionState → Prop where
  | granted : self.queryDesc D desc .treatAsPartialGranted = .granted →
      RequestRule D self desc pr ⟨.granted, self.insertGranted D desc, pr⟩
  | decided (state : PermissionState) : self.queryDesc D desc .treatAsPartialGranted = state →
      state ≠ .granted → state ≠ .prompt → RequestRule D self desc pr ⟨state, self, pr⟩
  | allow (request : PromptRequest) :
      self.queryDesc D desc .treatAsPartialGranted = .prompt → pr.next = .allow →
      RequestRule D self desc pr ⟨.granted, self.insertGranted D desc, pr.asked request⟩
  | allowAll (request : PromptRequest) :
      self.queryDesc D desc .treatAsPartialGranted = .prompt → pr.next = .allowAll →
      RequestRule D self desc pr ⟨.granted, self.insertGranted D none, pr.asked request⟩
  | deny (request : PromptRequest) :
      self.queryDesc D desc .treatAsPartialGranted = .prompt → pr.next = .deny →
      RequestRule D self desc pr ⟨.denied, self.insertPromptDenied D desc, pr.asked request⟩

theorem RequestRule.of_requestDesc (desc : Option T) (displayName : Option String) (pr : Prompter) :
    RequestRule D self desc pr (self.requestDesc D desc displayName pr) := by
  unfold requestDesc
  cases hq : self.queryDesc D desc .treatAsPartialGranted with
  | granted => exact .granted hq
  | grantedPartial | denied => exact .decided _ hq (by simp) (by simp)
  | prompt =>
    simp only [reduceCtorEq, if_false, ne_eq, not_true_eq_false, permissionPrompt]
    cases hn : pr.next with
    | allow => exact .allow _ hq hn
    | allowAll => exact .allowAll _ hq hn
    | deny => exact .deny _ hq hn

end

variable {pr : Prompter}

lemma CheckRule.grantedGlobal {o : Outcome (UnaryPermission T) (Except AnyError Unit)}
    (h : CheckRule D self none mode pr o) (hok : o.result = .ok ()) :
    o.perm.grantedGlobal = true := by
  cases h with
  | fast hall => exact (isAllowAll_iff.mp hall).1
  | granted _ hq =>
    rw [queryDesc_none] at hq
    exact (stateOf_eq_granted hq).2.2
  | rejected _ _ _ _ => cases hok
  | allow _ _ _ _ _ | allowAll _ _ _ _ _ => rfl
  | deny _ _ _ _ _ _ => cases hok

/-- The ways to create a child, each with the parent it leaves behind. -/
inductive ChildRule (D : Descriptor T) (self : UnaryPermission T) (ord : IterOrder T)
    (pr : Prompter) : ChildUnaryPermissionArg → UnaryPermission T → UnaryPermission T → Prop where
  | inherit : ChildRule D self ord pr .inherit self self
  | granted (parent : UnaryPermission T) :
      (self.checkDesc D none false none none pr).perm = parent →
      (self.checkDesc D none false none none pr).result = .ok () →
      ChildRule D self ord pr .granted parent
        (inheritDenials { UnaryPermission.default with grantedGlobal := true } parent)
  | notGranted : ChildRule D self ord pr .notGranted self
      (inheritDenials UnaryPermission.default self)
  | grantedList (strings : List String) (set : HashSet T) (parent : UnaryPermission T) :
      D.parse (some (strings.map D.argOfString)) = .ok set →
      (self.checkEach D pr (set.iter ord)).perm = parent →
      (self.checkEach D pr (set.iter ord)).result = true →
      ChildRule D self ord pr (.grantedList strings) parent
        (inheritDenials { UnaryPermission.default with grantedList := set } parent)

lemma eq_ok_of_isOk {e : Except AnyError Unit} (h : e.isOk = true) : e = .ok () := by
  cases e with
  | ok a => rfl
  | error e => cases h

variable {flag : ChildUnaryPermissionArg} {ord : IterOrder T}

theorem ChildRule.of_ok {self child : UnaryPermission T}
        (h : (self.createChildPermissions D flag ord pr).result = .ok child) :
    ChildRule D self ord pr flag (self.createChildPermissions D flag ord pr).perm child := by
  cases flag with
  | inherit =>
    cases h
    exact .inherit
  | notGranted =>
    cases h
    exact .notGranted
  | granted =>
    simp only [createChildPermissions, checkAllApi_eq] at h ⊢
    split_ifs at h ⊢ with hok
    cases h
    exact .granted _ rfl (eq_ok_of_isOk hok)
  | grantedList strings =>
    simp only [createChildPermissions] at h ⊢
    cases hparse : D.parse (some (strings.map D.argOfString)) with
    | error e => simp [hparse] at h
    | ok set =>
      simp only [hparse] at h ⊢
      split_ifs at h ⊢ with hok
      cases h
      exact .grantedList strings set _ hparse rfl hok

variable {self parent child : UnaryPermission T}

lemma ChildRule.denials (h : ChildRule D self ord pr flag parent child) :
    child.flagDeniedGlobal = parent.flagDeniedGlobal ∧
      child.flagDeniedList = parent.flagDeniedList ∧
      child.promptDeniedGlobal = parent.promptDeniedGlobal ∧
      child.promptDeniedList = parent.promptDeniedList := by
  cases h <;> exact ⟨rfl, rfl, rfl, rfl⟩

/-- Only a parent that is granted as a whole has children that are. -/
lemma ChildRule.grantedGlobal
        (h : ChildRule D self ord pr flag parent child) (hg : child.grantedGlobal = true) :
    parent.grantedGlobal = true := by
  cases h with
  | inherit => exact hg
  | granted _ hperm hok =>
    subst hperm
    exact (CheckRule.of_checkDesc self none false none none pr).grantedGlobal hok
  | notGranted | grantedList _ _ _ _ _ _ => cases hg

end

end UnaryPermission

/-- A new permission holds the parsed lists and no answered prompt. -/
lemma newUnary_eq_ok {allow deny : Option (List D.Arg)} {prompt : Bool}
    {s : UnaryPermission T} (h : newUnary D allow deny prompt = .ok s) :
    ∃ granted denied, D.parse allow = .ok granted ∧ D.parse deny = .ok denied ∧
      s = ⟨globalFromOption allow, granted, globalFromOption deny, denied, false, .empty,
        prompt⟩ := by
  unfold newUnary at h
  cases ha : D.parse allow with
  | error e => simp [ha, bind, Except.bind] at h
  | ok granted =>
    cases hd : D.parse deny with
    | error e => simp [ha, hd, bind, Except.bind] at h
    | ok denied =>
      simp only [ha, hd, bind, Except.bind, pure, Except.pure, Except.ok.injEq] at h
      exact ⟨granted, denied, rfl, rfl, h.symm⟩

lemma globalFromOption_eq_true {A : Type} {o : Option (List A)} (h : globalFromOption o = true) :
    o = some [] := by
  cases o with
  | none => cases h
  | some v =>
    cases v with
    | nil => rfl
    | cons a v => cases h

end Deno
