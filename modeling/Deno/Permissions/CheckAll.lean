import Deno.Permissions.FastPath

/-!
# Checking the whole permission

A successful check of everything says that everything is granted and that nothing was denied by a
prompt. The entries of a deny list stay denied: the check treats a permission that is denied in
part as granted.
-/

namespace Deno

open Core UnaryPermission

variable {T : Type} {D : Descriptor T}

namespace UnaryPermission

variable {self : UnaryPermission T} {mode : AllowPartial}

lemma exists_of_firstDecided_denied
    {descs : List (Option T)} (h : self.firstDecided D mode descs = .denied) :
    ∃ desc ∈ descs, self.stateOf D desc mode = .denied := by
  induction descs with
  | nil => cases h
  | cons desc descs ih =>
    rw [firstDecided_cons] at h
    split_ifs at h with hs
    · obtain ⟨e, he, hd⟩ := ih h
      exact ⟨e, List.mem_cons_of_mem _ he, hd⟩
    · exact ⟨desc, List.mem_cons_self, h⟩

lemma stateOf_eq_denied {desc : Option T} (h : self.stateOf D desc mode = .denied) :
    self.isFlagDenied D desc = true ∨ self.isPromptDenied D desc = true ∨
      (mode = .treatAsDenied ∧ self.isPartialFlagDenied D desc = true) := by
  unfold stateOf at h
  split_ifs at h <;> grind

/-- `e` is denied by an entry of `list`: it lies below one or, where partial denials count, above
one. -/
def ListDenies (D : Descriptor T) (list : HashSet T) (mode : AllowPartial) (e : T) : Prop :=
  ∃ v ∈ list, D.strongerThan v e = true ∨ (mode = .treatAsDenied ∧ D.strongerThan e v = true)

/-- Where nothing is denied globally or by a prompt, a denial is one of the deny list. -/
lemma listDenies_of_queryDesc {d : T}
    (hf : self.flagDeniedGlobal = false) (hp : self.promptDeniedList.isEmpty = true)
    (h : self.queryDesc D (some d) mode = .denied) :
    ∃ e ∈ d :: D.aliases d, ListDenies D self.flagDeniedList mode e := by
  obtain ⟨desc, hdesc, hs⟩ := exists_of_firstDecided_denied h
  obtain ⟨e, he, rfl⟩ : ∃ e ∈ d :: D.aliases d, some e = desc := by
    simpa [eq_comm] using hdesc
  refine ⟨e, he, ?_⟩
  rcases stateOf_eq_denied hs with hflag | hprompt | ⟨hmode, hpart⟩
  · rcases listContains_some.mp hflag with hg | ⟨v, hv, hve⟩
    · rw [hf] at hg
      cases hg
    · exact ⟨v, hv, Or.inl hve⟩
  · rw [isPromptDenied_some] at hprompt
    obtain ⟨v, hv, _⟩ := hprompt
    exact absurd hv (HashSet.not_mem_of_isEmpty hp v)
  · obtain ⟨v, hv, hev⟩ := isPartialFlagDenied_some.mp hpart
    exact ⟨v, hv, Or.inr ⟨hmode, hev⟩⟩

variable [DecidableEq T]

lemma CheckRule.promptDeniedList_isEmpty
    {pr : Prompter} {o : Outcome (UnaryPermission T) (Except AnyError Unit)}
    (h : CheckRule D self none mode pr o) (hok : o.result = .ok ()) :
    o.perm.promptDeniedList.isEmpty = true := by
  have key : self.isPromptDenied D none = false → self.promptDeniedList.isEmpty = true := by
    intro hp
    simp only [isPromptDenied, Bool.or_eq_false_iff, Bool.not_eq_false'] at hp
    exact hp.2
  cases h with
  | fast hall => exact (isAllowAll_iff.mp hall).2.2
  | granted _ hq =>
    rw [queryDesc_none] at hq
    exact key (stateOf_eq_granted hq).2.1
  | rejected _ _ _ _ | deny _ _ _ _ _ _ => cases hok
  | allow _ _ hq _ _ | allowAll _ _ hq _ _ =>
    rw [queryDesc_none] at hq
    exact key (stateOf_eq_prompt.mp hq).2.1

end UnaryPermission

variable [DecidableEq T]

/-- Along any run, a global grant stands beside no global denial of the command line, unless it
did at the start. -/
lemma run_flag {s : UnaryPermission T} (hs : s.grantedGlobal = true → s.flagDeniedGlobal = false)
    (pr : Prompter) (ops : List (UnaryOp T)) :
    ((unaryMachine D).run (s, pr) ops).1.grantedGlobal = true →
      ((unaryMachine D).run (s, pr) ops).1.flagDeniedGlobal = false :=
  Machine.run_invariant (fun c op hc => (unaryStep_evolves c op).flag hc) hs ops

/-- **What a successful check of everything leaves denied.** After any run, if the check of the
whole permission succeeds then no descriptor is denied by a prompt and, unless the command line
both granted and denied everything, a descriptor is denied only if it or one of its aliases is
denied by an entry of the deny list. -/
theorem checkAll_leaves_listed_denials (host : Host) (k : UnaryName)
    (allow deny : Option (List (k.descriptor host).Arg)) (prompt : Bool)
    (s : UnaryPermission k.Desc) (hnew : newUnary (k.descriptor host) allow deny prompt = .ok s)
    (pr : Prompter) (ops : List (UnaryOp k.Desc)) (apiName : Option String)
    (hok : (((unaryMachine (k.descriptor host)).run (s, pr) ops).1.checkAllApi
      (k.descriptor host) apiName ((unaryMachine (k.descriptor host)).run (s, pr) ops).2).result
        = .ok ()) :
    let s' := (((unaryMachine (k.descriptor host)).run (s, pr) ops).1.checkAllApi
      (k.descriptor host) apiName ((unaryMachine (k.descriptor host)).run (s, pr) ops).2).perm
    (∀ d, s'.isPromptDenied (k.descriptor host) (some d) = false) ∧
    (¬ (allow = some [] ∧ deny = some []) → ∃ denied, (k.descriptor host).parse deny = .ok denied ∧
        ∀ d mode, s'.queryDesc (k.descriptor host) (some d) mode = .denied →
          ∃ e ∈ d :: (k.descriptor host).aliases d,
            ListDenies (k.descriptor host) denied mode e) := by
  intro s'
  generalize hc : (unaryMachine (k.descriptor host)).run (s, pr) ops = c at hok
  have hs' : s' = (c.1.checkDesc (k.descriptor host) none false apiName none c.2).perm := by
    rw [← checkAllApi_eq, ← hc]
  rw [checkAllApi_eq] at hok
  have hrule := CheckRule.of_checkDesc (D := k.descriptor host) c.1 none false apiName none c.2
  have hprompt : s'.promptDeniedList.isEmpty = true := by
    rw [hs']
    exact hrule.promptDeniedList_isEmpty hok
  refine ⟨fun d => HashSet.any_of_isEmpty hprompt _, fun hflags => ?_⟩
  obtain ⟨granted, denied, _, hparse, hs⟩ := newUnary_eq_ok hnew
  have hev := checkDesc_evolves (D := k.descriptor host) c.1 none false apiName none c.2
  have hlist : s'.flagDeniedList = denied := by
    rw [hs', hev.flagList, ← hc, (run_flagDenied (s, pr) ops).2, hs]
  have hflag : s'.flagDeniedGlobal = false := by
    have hstart := (newUnary_settled hnew hflags).flag
    have hrun := run_flag (D := k.descriptor host) hstart pr ops
    rw [hc] at hrun
    rw [hs']
    exact hev.flag hrun (hrule.grantedGlobal hok)
  refine ⟨denied, hparse, fun d mode hq => ?_⟩
  rw [← hlist]
  exact listDenies_of_queryDesc hflag hprompt hq

/-- All of the environment but one variable is allowed. -/
theorem checkAll_leaves_listed_denials_env :
    ∃ s, newUnary (UnaryName.env.descriptor Host.bare) (some []) (some ["FOO"]) false = .ok s ∧
      ¬ s.queryDesc (UnaryName.env.descriptor Host.bare) (some (⟨"BAR"⟩ : EnvDescriptor))
        .treatAsGranted = .denied := by
  refine ⟨_, rfl, fun hq => ?_⟩
  have h := checkAll_leaves_listed_denials Host.bare .env (some []) (some ["FOO"]) false _ rfl
    (.fresh []) [] none rfl
  obtain ⟨denied, hparse, hdenied⟩ := h.2 (by simp)
  cases hparse
  obtain ⟨e, he, v, hv, hve⟩ := hdenied ⟨"BAR"⟩ .treatAsGranted hq
  have hv' : v = (⟨"FOO"⟩ : EnvDescriptor) := List.mem_singleton.mp (HashSet.mem_ofList.mp hv)
  have he' : e = (⟨"BAR"⟩ : EnvDescriptor) := List.mem_singleton.mp he
  subst hv' he'
  revert hve
  decide

/-- The check of everything succeeds although a variable is denied by name. -/
theorem checkAll_leaves_denied_env :
    ∃ s, newUnary EnvDescriptor.descriptor (some []) (some ["FOO"]) false = .ok s ∧
      (s.checkAllApi EnvDescriptor.descriptor none (.fresh [])).result = .ok () ∧
      (s.checkAllApi EnvDescriptor.descriptor none (.fresh [])).perm.queryDesc
        EnvDescriptor.descriptor (some ⟨"FOO"⟩) .treatAsGranted = .denied :=
  ⟨_, rfl, rfl, by decide⟩

end Deno
