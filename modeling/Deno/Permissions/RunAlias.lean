import Deno.Permissions.Denial

/-!
# Executables behind their names

The descriptor of a command name has the path of the executable as an alias. A query walks over
the name first and over the path second, and stops at the first of them that is decided. A denial
of the path is therefore met only if the name is itself denied or not granted.
-/

namespace Deno

open Core UnaryPermission RunDescriptor

/-- Nothing that goes through the command `n` succeeds: a check fails, a query is denied, and a
request is denied and changes nothing. -/
def CommandBlocked (host : Host) (s : UnaryPermission RunDescriptor) (n : String) : Prop :=
  (∀ apiName pr, ∃ e, (check host s n apiName pr).result = .error e) ∧
    query host s n = .ok .denied ∧
    ∀ pr, (request host s n pr).result = .ok .denied ∧ (request host s n pr).perm = s

section

variable {host : Host} {s : UnaryPermission RunDescriptor} {n : String} {p : Path}

section

variable (h : path p ∈ s.flagDeniedList ∨ path p ∈ s.promptDeniedList)

include h

lemma path_denied : s.isFlagDenied (descriptor host) (some (.path p)) = true ∨
      s.isPromptDenied (descriptor host) (some (.path p)) = true := by
  have hrefl := (descriptor_lawful host).refl (.path p)
  rcases h with h | h
  · exact Or.inl (isFlagDenied_of_mem h hrefl)
  · exact Or.inr (isPromptDenied_some.mpr ⟨_, h, hrefl⟩)

lemma isAllowAll_eq_false_of_listed : s.isAllowAll = false := by
  rcases h with h | h
  · exact isAllowAll_eq_false_of_mem_flagDenied h
  · exact isAllowAll_eq_false_of_mem_promptDenied h

end

/-- Executables are compared by equality, so they are never denied in part only. -/
lemma isPartialFlagDenied_run {d : RunDescriptor}
    (h : s.isFlagDenied (descriptor host) (some d) = false) :
    s.isPartialFlagDenied (descriptor host) (some d) = false := by
  rw [Bool.eq_false_iff]
  intro hpart
  obtain ⟨v, hv, hdv⟩ := isPartialFlagDenied_some.mp hpart
  have hvd : d = v := by simpa [descriptor] using hdv
  subst hvd
  rw [isFlagDenied_of_mem hv ((descriptor_lawful host).refl d)] at h
  cases h

variable (mode : AllowPartial)

/-- A name that is granted and not denied settles the query before the path is looked at. -/
lemma queryDesc_name_granted (hg : s.isGranted (descriptor host) (some (.name n)) = true)
    (hf : s.isFlagDenied (descriptor host) (some (.name n)) = false)
    (hp : s.isPromptDenied (descriptor host) (some (.name n)) = false) :
    s.queryDesc (descriptor host) (some (.name n)) mode = .granted := by
  have hs : s.stateOf (descriptor host) (some (.name n)) mode = .granted := by
    rw [stateOf_of_not_partially_denied hf hp (isPartialFlagDenied_run hf), hg]
    rfl
  rw [queryDesc_eq, hs]
  simp

/-- A name that is denied or not granted lets the denial of its path through. -/
lemma queryDesc_name_denied (hw : host.which n = some p)
    (hpath : s.isFlagDenied (descriptor host) (some (.path p)) = true ∨
      s.isPromptDenied (descriptor host) (some (.path p)) = true)
    (hname : s.isGranted (descriptor host) (some (.name n)) = false ∨
      s.isFlagDenied (descriptor host) (some (.name n)) = true ∨
      s.isPromptDenied (descriptor host) (some (.name n)) = true) :
    s.queryDesc (descriptor host) (some (.name n)) mode = .denied := by
  have halias : (descriptor host).aliases (.name n) = [.path p] := by
    simp [descriptor, aliases, hw]
  by_cases hden : s.isFlagDenied (descriptor host) (some (.name n)) = true ∨
      s.isPromptDenied (descriptor host) (some (.name n)) = true
  · exact queryDesc_denied hden
  · have hg : s.isGranted (descriptor host) (some (.name n)) = false := by
      rcases hname with hg | hden'
      · exact hg
      · exact absurd hden' hden
    rw [not_or, Bool.not_eq_true, Bool.not_eq_true] at hden
    have hs : s.stateOf (descriptor host) (some (.name n)) mode = .prompt := by
      rw [stateOf_of_not_partially_denied hden.1 hden.2 (isPartialFlagDenied_run hden.1), hg]
      rfl
    rw [queryDesc_eq, if_pos hs]
    simp only [Option.elim_some, halias, List.map_cons, List.map_nil]
    rw [firstDecided_cons, stateOf_denied hpath]
    rfl

end

/-- **When a denied executable is out of reach through its name.** In every state of every run,
whatever the flags it started from, and for every command name whose path is on a deny list: the
command is blocked exactly if the name is itself denied or is not granted. -/
theorem commandBlocked_iff (host : Host) (c : UnaryConfig RunDescriptor)
    (ops : List (UnaryOp RunDescriptor)) (n : String) (hn : ¬ '/' ∈ n.toList) (p : Path)
    (hw : host.which n = some p) (hden : path p ∈
        ((unaryMachine (descriptor host)).run c ops).1.flagDeniedList ∨
      path p ∈ ((unaryMachine (descriptor host)).run c ops).1.promptDeniedList) :
    let s := ((unaryMachine (descriptor host)).run c ops).1
    CommandBlocked host s n ↔ (s.isGranted (descriptor host) (some (.name n)) = false ∨
        s.isFlagDenied (descriptor host) (some (.name n)) = true ∨
        s.isPromptDenied (descriptor host) (some (.name n)) = true) := by
  intro s
  have hname : ofString host n = .ok (.name n) := by simp [ofString, hn]
  constructor
  · rintro ⟨_, hquery, _⟩
    by_contra hno
    rw [not_or, not_or, Bool.not_eq_false, Bool.not_eq_true, Bool.not_eq_true] at hno
    obtain ⟨hg, hf, hp⟩ := hno
    simp only [query, hname, Except.map, queryDesc_name_granted _ hg hf hp] at hquery
    cases hquery
  · intro hcond
    have hall : s.isAllowAll = false := isAllowAll_eq_false_of_listed hden
    have hq : ∀ mode, s.queryDesc (descriptor host) (some (.name n)) mode = .denied :=
      fun mode => queryDesc_name_denied mode hw (path_denied hden) hcond
    refine ⟨fun apiName pr => ?_, ?_, fun pr => ?_⟩
    · simp only [check, hall, Bool.false_eq_true, if_false, hname]
      exact (checkDesc_refused hall (hq _) _ _ _).1
    · simp [query, hname, Except.map, hq]
    · simp only [request, hname]
      rw [requestDesc_denied (hq _)]
      exact ⟨rfl, rfl⟩

def Host.withLs : Host :=
  { Host.bare with
    which := fun n => if n = "ls" then some (Path.ofSegments ["", "bin", "ls"]) else none }

/-- The name is denied, and its path with it. -/
theorem commandBlocked_iff_denied_name :
    ∃ s, newUnary (descriptor Host.withLs) (some []) (some ["ls"]) false = .ok s ∧
      CommandBlocked Host.withLs s "ls" :=
  ⟨_, rfl, (commandBlocked_iff Host.withLs (_, .fresh []) [] "ls" (by decide)
    (Path.ofSegments ["", "bin", "ls"]) rfl (by decide)).mpr (by decide)⟩

/-- Every executable is granted and `/bin/ls` denied, and the command `ls` is not blocked. -/
theorem command_not_blocked_denied_path :
    ∃ s, newUnary (descriptor Host.withLs) (some []) (some ["/bin/ls"]) false = .ok s ∧
      Host.withLs.which "ls" = some (Path.ofSegments ["", "bin", "ls"]) ∧
      path (Path.ofSegments ["", "bin", "ls"]) ∈ s.flagDeniedList ∧
      (check Host.withLs s "ls" none (.fresh [])).result = .ok () ∧
      query Host.withLs s "ls" = .ok .granted :=
  ⟨_, rfl, rfl, by decide, rfl, rfl⟩

end Deno
