import Deno.Permissions.Api
import Deno.Permissions.FastPath

/-!
# Denials are final

A denied descriptor is rejected without a question, whatever was granted before or is granted
later. The denials of the command line are never touched by a run, and those of a prompt only
grow, so a denial found in one state is found in every later one, in the parent and in every
child.
-/

namespace Deno

open Core UnaryPermission UnaryName

variable {T : Type} [DecidableEq T] {D : Descriptor T}

namespace UnaryPermission

def Refused (self : UnaryPermission T) (pr : Prompter)
    (o : Outcome (UnaryPermission T) (Except AnyError Unit)) : Prop :=
  (∃ e, o.result = .error e) ∧ o.perm = self ∧ o.prompter = pr

variable {self : UnaryPermission T}

lemma checkDesc_refused {desc : Option T} {assertNonPartial : Bool} (hall : self.isAllowAll = false)
    (hq : self.queryDesc D desc (.ofBool !assertNonPartial) = .denied)
    (apiName displayName : Option String) (pr : Prompter) :
    Refused self pr (self.checkDesc D desc assertNonPartial apiName displayName pr) := by
  generalize ho : self.checkDesc D desc assertNonPartial apiName displayName pr = o
  have hrule := CheckRule.of_checkDesc (D := D) self desc assertNonPartial apiName displayName pr
  rw [ho] at hrule
  cases hrule with
  | fast h => rw [hall] at h; cases h
  | granted _ h => rw [hq] at h; cases h
  | rejected e _ _ _ => exact ⟨⟨e, rfl⟩, rfl, rfl⟩
  | allow _ _ h _ _ | allowAll _ _ h _ _ | deny _ _ _ h _ _ => rw [hq] at h; cases h

lemma requestDesc_denied {desc : Option T}
    (hq : self.queryDesc D desc .treatAsPartialGranted = .denied)
    (displayName : Option String) (pr : Prompter) :
    self.requestDesc D desc displayName pr = ⟨.denied, self, pr⟩ := by
  simp [requestDesc, hq]

end UnaryPermission

/-- The descriptors of the permissions about paths. -/
def UnaryName.ofPath : (k : UnaryName) → Option (Path → k.Desc)
  | .read => some ReadDescriptor.mk
  | .write => some WriteDescriptor.mk
  | .ffi => some FfiDescriptor.mk
  | _ => none

/-- **The entries of a deny list are final.** Whatever was allowed and whatever happens, in the
permission itself and in every descendant: a descriptor below an entry of the parsed deny list is
denied by queries and requests and refused by every check, without a question. A check of a path
is also refused above an entry. -/
theorem denyList_final (host : Host) (k : UnaryName)
    (allow : Option (List (k.descriptor host).Arg)) (denyArgs : List (k.descriptor host).Arg)
    (prompt : Bool) (s : UnaryPermission k.Desc)
    (hnew : newUnary (k.descriptor host) allow (some denyArgs) prompt = .ok s)
    (denied : HashSet k.Desc) (hparse : (k.descriptor host).parse (some denyArgs) = .ok denied)
    (pr₀ : Prompter) (ops : List (UnaryOp k.Desc)) (v : k.Desc) (hv : v ∈ denied) :
    let c := (unaryMachine (k.descriptor host)).run (s, pr₀) ops
    (∀ d, (k.descriptor host).strongerThan v d = true →
      (∀ assertNonPartial apiName displayName pr, Refused c.1 pr
        (c.1.checkDesc (k.descriptor host) (some d) assertNonPartial apiName displayName pr)) ∧
      (∀ displayName pr,
        (c.1.requestDesc (k.descriptor host) (some d) displayName pr).result = .denied) ∧
      ∀ mode, c.1.queryDesc (k.descriptor host) (some d) mode = .denied) ∧
    ∀ wrap, k.ofPath = some wrap → ∀ path, (∀ p, resolveFromCwd host path = .ok p →
        (k.descriptor host).strongerThan (wrap p) v = true) →
      ∀ apiName pr, Refused c.1 pr
        (checkPath host (k.descriptor host) wrap c.1 path apiName pr) := by
  intro c
  -- the parsed list is the one the permission still holds
  have hlist : c.1.flagDeniedList = denied := by
    obtain ⟨_, denied', _, hd, rfl⟩ := newUnary_eq_ok hnew
    rw [(run_flagDenied _ ops).2]
    rw [hparse] at hd
    exact (Except.ok.inj hd).symm
  have hvc : v ∈ c.1.flagDeniedList := hlist ▸ hv
  have hall : c.1.isAllowAll = false := isAllowAll_eq_false_of_mem_flagDenied hvc
  refine ⟨fun d hvd => ?_, fun wrap _ path hpath apiName pr => ?_⟩
  · have hquery : ∀ mode, c.1.queryDesc (k.descriptor host) (some d) mode = .denied := fun mode =>
      queryDesc_denied (Or.inl (isFlagDenied_of_mem hvc hvd))
    exact ⟨fun _ _ _ _ => checkDesc_refused hall (hquery _) _ _ _,
      fun _ _ => by rw [requestDesc_denied (hquery _)], hquery⟩
  · simp only [checkPath, hall, Bool.false_eq_true, if_false]
    cases hres : resolveFromCwd host path with
    | error e => exact ⟨⟨e, rfl⟩, rfl, rfl⟩
    | ok p =>
      refine checkDesc_refused hall ?_ _ _ _
      exact queryDesc_treatAsDenied (isPartialFlagDenied_some.mpr ⟨v, hvc, hpath p hres⟩)

/-- Everything may be read but `/foo/bar`: a file below it is denied after the grants are asked
for again, and `/foo` above it cannot be checked. -/
theorem denyList_final_read : ∃ s, newUnary (read.descriptor Host.bare) (some [])
        (some [Path.ofSegments ["", "foo", "bar"]]) true = .ok s ∧
      ((unaryMachine (read.descriptor Host.bare)).run (s, .fresh [])
        [.request none none]).1.queryDesc (read.descriptor Host.bare)
          (some (⟨Path.ofSegments ["", "foo", "bar", "baz"]⟩ : ReadDescriptor)) .treatAsGranted
        = .denied ∧
      ∃ e, (ReadDescriptor.check Host.bare
        ((unaryMachine (read.descriptor Host.bare)).run (s, .fresh [])
          [.request none none]).1 (Path.ofSegments ["", "foo"]) none (.fresh [])).result
        = .error e := by
  refine ⟨_, rfl, ?_⟩
  have h := denyList_final Host.bare .read (some []) [Path.ofSegments ["", "foo", "bar"]] true _
    rfl _ rfl (.fresh []) [.request none none] ⟨Path.ofSegments ["", "foo", "bar"]⟩
    (HashSet.mem_ofList.mpr (List.mem_singleton.mpr rfl))
  refine ⟨(h.1 ⟨Path.ofSegments ["", "foo", "bar", "baz"]⟩ (by decide)).2.2 .treatAsGranted, ?_⟩
  refine (h.2 ReadDescriptor.mk rfl (Path.ofSegments ["", "foo"]) ?_ none (.fresh [])).1
  intro p hp
  cases hp
  decide

/-! ### Denials of a prompt -/

/-- A prompt for the descriptor `d` is issued and denied, by a check or by a request; what is left
is the permission and the prompter of the second pair. -/
def PromptDenies (D : Descriptor T) (c : UnaryConfig T) (d : T) (c' : UnaryConfig T) : Prop :=
  ∃ request, c'.2.log = c.2.log ++ [(request, .deny)] ∧ ((∃ assertNonPartial apiName displayName,
        c' = ((c.1.checkDesc D (some d) assertNonPartial apiName displayName c.2).perm,
          (c.1.checkDesc D (some d) assertNonPartial apiName displayName c.2).prompter)) ∨
      ∃ displayName, c' = ((c.1.requestDesc D (some d) displayName c.2).perm,
          (c.1.requestDesc D (some d) displayName c.2).prompter))

/-- An answer that is not a denial is logged as it is. -/
lemma next_eq_deny_of_log {pr : Prompter} {request request' : PromptRequest}
    (h : (pr.asked request').log = pr.log ++ [(request, .deny)]) : pr.next = .deny := by
  simp only [Prompter.log_asked, List.append_cancel_left_eq, List.cons.injEq, Prod.mk.injEq,
    and_true] at h
  exact h.2

lemma PromptDenies.mem {c c' : UnaryConfig T} {d : T} (h : PromptDenies D c d c') :
    d ∈ c'.1.promptDeniedList := by
  obtain ⟨request, hlog, ⟨assertNonPartial, apiName, displayName, rfl⟩ | ⟨displayName, rfl⟩⟩ := h
  · generalize ho : c.1.checkDesc D (some d) assertNonPartial apiName displayName c.2 = o at hlog ⊢
    have hrule :=
      CheckRule.of_checkDesc (D := D) c.1 (some d) assertNonPartial apiName displayName c.2
    rw [ho] at hrule
    cases hrule with
    | fast _ | granted _ _ | rejected _ _ _ _ => simp at hlog
    | allow request' _ _ _ hn | allowAll request' _ _ _ hn =>
      rw [next_eq_deny_of_log hlog] at hn
      cases hn
    | deny _ _ _ _ _ _ => exact mem_insertPromptDenied_some.mpr (Or.inr (Or.inl rfl))
  · generalize ho : c.1.requestDesc D (some d) displayName c.2 = o at hlog ⊢
    have hrule := RequestRule.of_requestDesc (D := D) c.1 (some d) displayName c.2
    rw [ho] at hrule
    cases hrule with
    | granted _ | decided _ _ _ _ => simp at hlog
    | allow request' _ hn | allowAll request' _ hn =>
      rw [next_eq_deny_of_log hlog] at hn
      cases hn
    | deny _ _ _ => exact mem_insertPromptDenied_some.mpr (Or.inr (Or.inl rfl))

/-- **A denied prompt stays denied.** Once a prompt for `d` has been denied, in any state, every
descriptor at least as strong as `d` is refused by checks without a question and denied by
requests, in every later state of the permission and of its descendants. -/
theorem promptDenial_final (host : Host) (k : UnaryName) (c c' : UnaryConfig k.Desc) (d : k.Desc)
    (h : PromptDenies (k.descriptor host) c d c') (ops : List (UnaryOp k.Desc)) (d' : k.Desc)
    (hd : (k.descriptor host).strongerThan d' d = true) :
    let c'' := (unaryMachine (k.descriptor host)).run c' ops
    (∀ assertNonPartial apiName displayName pr, Refused c''.1 pr
      (c''.1.checkDesc (k.descriptor host) (some d') assertNonPartial apiName displayName pr)) ∧
    ∀ displayName pr,
      (c''.1.requestDesc (k.descriptor host) (some d') displayName pr).result = .denied := by
  intro c''
  have hmem : d ∈ c''.1.promptDeniedList :=
    Machine.run_invariant (P := fun c => d ∈ c.1.promptDeniedList)
      (fun s op h => (unaryStep_evolves s op).promptList d h) h.mem ops
  have hquery : ∀ mode, c''.1.queryDesc (k.descriptor host) (some d') mode = .denied := fun mode =>
    queryDesc_denied (Or.inr (isPromptDenied_some.mpr ⟨d, hmem, hd⟩))
  exact ⟨fun _ _ _ _ => checkDesc_refused (isAllowAll_eq_false_of_mem_promptDenied hmem)
      (hquery _) _ _ _,
    fun _ _ => by rw [requestDesc_denied (hquery _)]⟩

/-- A prompt for one host and port is denied; a later prompt for another host is answered by
allowing everything, and the whole host stays denied. -/
theorem promptDenial_final_net : ((((unaryMachine (net.descriptor Host.bare)).run
        (((UnaryPermission.default : UnaryPermission NetDescriptor).requestDesc
            (NetDescriptor.descriptor Host.bare) (some ⟨⟨"deno.land"⟩, some 443⟩) none
            (.fresh [.deny, .allowAll])).perm,
          ((UnaryPermission.default : UnaryPermission NetDescriptor).requestDesc
            (NetDescriptor.descriptor Host.bare) (some ⟨⟨"deno.land"⟩, some 443⟩) none
            (.fresh [.deny, .allowAll])).prompter)
        [.request (some (⟨⟨"jsr.io"⟩, none⟩ : NetDescriptor)) none]).1).requestDesc
      (net.descriptor Host.bare) (some (⟨⟨"deno.land"⟩, none⟩ : NetDescriptor)) none
        (.fresh [.allow])).result = .denied :=
  (promptDenial_final Host.bare .net (.default, .fresh [.deny, .allowAll]) _
    ⟨⟨"deno.land"⟩, some 443⟩ ⟨_, rfl, Or.inr ⟨none, rfl⟩⟩
    [.request (some (⟨⟨"jsr.io"⟩, none⟩ : NetDescriptor)) none] ⟨⟨"deno.land"⟩, none⟩
    (by decide)).2 none (.fresh [.allow])

end Deno
