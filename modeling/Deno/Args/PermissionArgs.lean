import Deno.Args.PermissionFlags
import Deno.Core.ExceptLoop

/-!
# Printed permission arguments

The values that were read are read again as they are, so the arguments that are printed for them
give the same fields.
-/

namespace Deno.Args

open Core List

variable {platform : Platform} {flag : ListFlag} {value : List Char} {values : List (List Char)}

/-! ### Values that are read as they are -/

/-- Values that are kept by the flag's parser, one by one and as a list. -/
def Stable (platform : Platform) (flag : ListFlag) (values : List (List Char)) : Prop :=
  (∀ value ∈ values, IsRead platform flag value) ∧ collect platform flag values = .ok values

variable {key : List Char}

lemma notMem_toUppercase {c : Char} (hc : c = ',' ∨ c = '=' ∨ c = '\x00')
    (h : c ∉ key) : c ∉ key.flatMap platform.toUppercase := by
  rw [mem_flatMap]
  rintro ⟨d, hd, hupper⟩
  rw [platform.toUppercase_reserved d c hupper hc] at h
  exact h hd

lemma toUppercase_toUppercase (key : List Char) :
    (key.flatMap platform.toUppercase).flatMap platform.toUppercase =
      key.flatMap platform.toUppercase := by
  rw [flatMap_assoc]
  refine flatMap_congr fun c _ => ?_
  rw [flatMap_congr (platform.toUppercase_fixed c), flatMap_singleton']

lemma parseEnvKey_eq_ok : parseEnvKey platform key = .ok value ↔
    (key ≠ [] ∧ '=' ∉ key ∧ '\x00' ∉ key) ∧
      value = if platform.windows then key.flatMap platform.toUppercase else key := by
  have hbad : (key.isEmpty || key.contains '=' || key.contains '\x00') = true ↔
      ¬ (key ≠ [] ∧ '=' ∉ key ∧ '\x00' ∉ key) := by
    simp only [Bool.or_eq_true, List.isEmpty_iff, contains_iff_mem]
    tauto
  unfold parseEnvKey
  split
  · next h => simp [hbad.mp h]
  · next h => rw [and_iff_right (not_not.mp (mt hbad.mpr h)), Except.ok.injEq, eq_comm]

lemma parseEnvKey_isRead (hcomma : ',' ∉ key) (h : parseEnvKey platform key = .ok value) :
    ',' ∉ value ∧ parseEnvKey platform value = .ok value := by
  obtain ⟨⟨hne, hequals, hnull⟩, rfl⟩ := parseEnvKey_eq_ok.mp h
  by_cases hwindows : platform.windows
  · rw [if_pos hwindows]
    refine ⟨notMem_toUppercase (.inl rfl) hcomma, parseEnvKey_eq_ok.mpr ⟨⟨?_, ?_, ?_⟩, ?_⟩⟩
    · rw [ne_eq, flatMap_eq_nil_iff]
      obtain ⟨c, hc⟩ := exists_mem_of_ne_nil key hne
      exact fun hnil => platform.toUppercase_ne_nil c (hnil c hc)
    · exact notMem_toUppercase (.inr (.inl rfl)) hequals
    · exact notMem_toUppercase (.inr (.inr rfl)) hnull
    · rw [if_pos hwindows, toUppercase_toUppercase]
  · rw [if_neg hwindows]
    exact ⟨hcomma, parseEnvKey_eq_ok.mpr ⟨⟨hne, hequals, hnull⟩, (if_neg hwindows).symm⟩⟩

variable {text : List Char}

lemma eq_of_validator (h : validator platform text = .ok value) : value = text := by
  unfold validator at h
  split at h
  · exact (Except.ok.inj h).symm
  · cases h

lemma eq_of_parseSysKind (h : parseSysKind text = .ok value) : value = text := by
  unfold parseSysKind at h
  split at h
  · exact (Except.ok.inj h).symm
  · cases h

/-- What a parser has made of a value is read as it is. -/
lemma isRead_of_valueParser (hcomma : ',' ∉ text)
    (h : valueParser platform flag text = .ok value) : IsRead platform flag value := by
  cases flag with
  | allowNet | denyNet | unsafelyIgnoreCertificateErrors =>
    obtain rfl := eq_of_validator h
    exact ⟨hcomma, h⟩
  | allowEnv | denyEnv => exact parseEnvKey_isRead hcomma h
  | allowSys | denySys =>
    obtain rfl := eq_of_parseSysKind h
    exact ⟨hcomma, h⟩
  | allowRead | denyRead | allowWrite | denyWrite | allowRun | denyRun | allowFfi | denyFfi =>
    cases h
    exact ⟨hcomma, rfl⟩

/-! ### Hosts -/

lemma comma_notMem_withPort {host : List Char} (h : ',' ∉ host) (port : ℕ) :
    ',' ∉ withPort host port := by
  simp only [withPort, mem_append, mem_cons, not_or]
  refine ⟨h, by decide, fun hdigit => ?_⟩
  have := Nat.isDigit_of_mem_toDigits (by decide) (by decide) hdigit
  revert this
  decide

lemma parseU16_lt {port : ℕ} (h : parseU16 text = some port) : port < 65536 := by
  simp only [parseU16, Option.ite_none_left_eq_some, Bool.or_eq_true, not_or, decide_eq_true_eq,
    not_le, Option.some.injEq] at h
  obtain ⟨⟨-, hlt⟩, rfl⟩ := h
  exact hlt

lemma comma_notMem_defaultHosts : ∀ host ∈ defaultHosts, ',' ∉ host := by
  decide

lemma barePort_lt {port : ℕ} (h : barePort value = some port) : port < 65536 := by
  unfold barePort at h
  split at h
  · exact parseU16_lt h
  · cases h

/-- What a host or a bare port stands for are hosts. -/
lemma isHost_of_expandHost (hcomma : ',' ∉ value) (h : expandHost platform value = .ok values) :
    ∀ host ∈ values, ',' ∉ host ∧ isHost platform host := by
  unfold expandHost at h
  split at h
  · next hhost =>
    cases h
    simpa using ⟨hcomma, hhost⟩
  · split at h
    · next port hport =>
      cases h
      intro host hhost
      obtain ⟨default, hdefault, rfl⟩ := List.mem_map.mp hhost
      refine ⟨comma_notMem_withPort (comma_notMem_defaultHosts default hdefault) port, ?_⟩
      rw [isHost, platform.urlParse_withPort default hdefault port (barePort_lt hport),
        Bool.true_or]
    · cases h

lemma netParse_of_isHost (h : ∀ host ∈ values, isHost platform host) :
    netParse platform values = .ok values := by
  have hmap : values.mapM (expandHost platform) = .ok (values.map fun host => [host]) := by
    refine mapM_eq_ok_map fun host hhost => ?_
    rw [expandHost, if_pos (h host hhost)]
  rw [netParse, hmap]
  simp [Except.map, ← flatMap_def]

variable {hosts : List (List Char)}

lemma isHost_of_netParse (hcomma : ∀ value ∈ values, ',' ∉ value)
    (h : netParse platform values = .ok hosts) :
    ∀ host ∈ hosts, ',' ∉ host ∧ isHost platform host := by
  obtain ⟨lists, hmap, rfl⟩ := map_eq_ok.mp h
  rw [forall_mem_flatten]
  refine forall_mem_of_mapM hmap fun value hvalue hosts hhosts => ?_
  exact isHost_of_expandHost (hcomma value hvalue) hhosts

lemma stable_of_netParse (hcomma : ∀ value ∈ values, ',' ∉ value)
    (h : netParse platform values = .ok hosts) :
    (∀ host ∈ hosts, ',' ∉ host ∧ validator platform host = .ok host) ∧
      netParse platform hosts = .ok hosts := by
  have hhosts := isHost_of_netParse hcomma h
  refine ⟨fun host hhost => ?_, netParse_of_isHost fun host hhost => (hhosts host hhost).2⟩
  simp [validator, hhosts host hhost]

lemma stable_of_collect {kept : List (List Char)}
    (hread : ∀ value ∈ values, IsRead platform flag value)
    (h : collect platform flag values = .ok kept) : Stable platform flag kept := by
  cases flag with
  | allowNet | denyNet | unsafelyIgnoreCertificateErrors =>
    simp only [collect] at h
    split at h
    · next hosts hhosts =>
      cases h
      obtain ⟨hvalidator, hnet⟩ :=
        stable_of_netParse (fun value hvalue => (hread value hvalue).1) hhosts
      refine ⟨hvalidator, ?_⟩
      simp [collect, hnet]
    · cases h
  | allowRead | denyRead | allowWrite | denyWrite | allowEnv | denyEnv | allowRun | denyRun
  | allowSys | denySys | allowFfi | denyFfi =>
    cases h
    exact ⟨hread, rfl⟩

/-! ### What is read -/

/-- Every list that is kept is read as it is. -/
def AllStable (platform : Platform) (flags : Flags) : Prop :=
  ∀ flag values, flags.lists flag = some values → Stable platform flag values

variable {clap : Clap platform} {found found' : ArgMatches} {flags flags' : Flags}

lemma AllStable.collectList (hfound : AllRead platform found) (hflags : AllStable platform flags)
    (h : collectList platform found flags flag = .ok flags') :
    AllStable platform flags' ∧ flags'.allowAll = flags.allowAll := by
  unfold Args.collectList at h
  split at h
  · cases h
    exact ⟨hflags, rfl⟩
  · next values hvalues =>
    obtain ⟨kept, hkept, rfl⟩ := map_eq_ok.mp h
    refine ⟨fun other values' hvalues' => ?_, rfl⟩
    simp only [Flags.setList] at hvalues'
    split_ifs at hvalues' with hother
    · cases hvalues'
      exact hother ▸ stable_of_collect (hfound flag values hvalues) hkept
    · exact hflags other values' hvalues'

lemma AllStable.setAllowAll (hflags : AllStable platform flags) :
    AllStable platform flags.setAllowAll := by
  intro flag values hvalues
  simp only [Flags.setAllowAll] at hvalues
  split_ifs at hvalues
  · cases hvalues
    exact ⟨by simp, by cases flag <;> rfl⟩
  · exact hflags flag values hvalues

def AllAllowed (flags : Flags) : Prop :=
  flags.allowHrtime = true ∧ ∀ flag : ListFlag, flag.isAllow → flags.lists flag = some []

/-- What is read of a command line is read again as it is, and all that `--allow-all` stands for is
allowed with it. -/
lemma allStable_of_parseFlags {args : List (List Char)} (h : parseFlags clap args = .ok flags) :
    AllStable platform flags ∧ (flags.allowAll → AllAllowed flags) := by
  obtain ⟨found, hfound, h⟩ := bind_eq_ok.mp h
  have hread : AllRead platform found := by
    intro flag values hvalues value hvalue
    obtain ⟨text, hcomma, htext⟩ := clap.parsed args found hfound flag values hvalues value hvalue
    exact isRead_of_valueParser hcomma htext
  obtain ⟨lists, hlists, h⟩ := bind_eq_ok.mp h
  obtain ⟨hstable, hall⟩ : AllStable platform lists ∧ lists.allowAll = false := by
    refine foldlM_invariant (P := fun flags => AllStable platform flags ∧ flags.allowAll = false)
      (fun _ _ _ _ hs hstep => ?_) ⟨?_, rfl⟩ hlists
    · have hnext := hs.1.collectList hread hstep
      exact ⟨hnext.1, hnext.2.trans hs.2⟩
    · intro flag values h
      cases h
  cases h
  split_ifs with hgiven
  · refine ⟨hstable.setAllowAll, fun _ => ⟨rfl, fun flag hflag => ?_⟩⟩
    simp [Flags.setAllowAll, hflag]
  · refine ⟨hstable, fun habsurd => ?_⟩
    simp [hall] at habsurd

/-! ### What is printed -/

/-- The matches of the arguments that are printed without `--allow-all`. -/
def Flags.matches (flags : Flags) : ArgMatches where
  values := flags.lists
  given
    | .allowHrtime => flags.allowHrtime
    | .denyHrtime => flags.denyHrtime
    | .allowAll | .noPrompt => false

lemma ListFlag.mem_parsed (flag : ListFlag) : flag ∈ ListFlag.parsed := by
  cases flag <;> decide

lemma foldlM_collectList {parsed : List ListFlag}
    (hcollect : ∀ flag values, found.values flag = some values →
      collect platform flag values = .ok values) :
    parsed.foldlM (collectList platform found) flags =
      .ok { flags with lists := fun flag =>
        if flag ∈ parsed ∧ (found.values flag).isSome then found.values flag
        else flags.lists flag } := by
  induction parsed generalizing flags with
  | nil => rfl
  | cons flag parsed ih =>
    have hstep : collectList platform found flags flag =
        .ok { flags with lists := fun other =>
          if other = flag ∧ (found.values flag).isSome then found.values flag
          else flags.lists other } := by
      cases hvalues : found.values flag with
      | none => simp [collectList, hvalues]
      | some values =>
        simp [collectList, hvalues, hcollect flag values hvalues, Flags.setList, Except.map]
    rw [foldlM_cons, hstep]
    refine ih.trans ?_
    congr 2
    funext other
    by_cases hother : other = flag
    · subst hother
      by_cases hsome : (found.values other).isSome <;> simp [hsome]
    · simp [hother]

/-- Without `--allow-all`, the arguments that are printed give the same fields. -/
lemma parseFlags_toPermissionArgs (hstable : AllStable platform flags)
    (hall : flags.allowAll = false) :
    parseFlags clap flags.toPermissionArgs = .ok { flags with noPrompt := false } := by
  have hargs : flags.toPermissionArgs = flags.matches.args := by
    rw [Flags.toPermissionArgs, if_neg (by simp [hall]), append_assoc, ArgMatches.args]
    change _ = _ ++ (_ ++ (_ ++ []))
    rw [append_nil]
    rfl
  rw [parseFlags, hargs, clap.printed _ fun flag values hvalues => (hstable flag values hvalues).1]
  have hlists : ListFlag.parsed.foldlM (collectList platform flags.matches) .default =
      .ok { Flags.default with lists := flags.lists } := by
    rw [foldlM_collectList fun flag values hvalues => (hstable flag values hvalues).2]
    congr 2
    funext flag
    simp only [ListFlag.mem_parsed, true_and]
    cases hvalues : flags.lists flag <;> simp [Flags.matches, Flags.default, hvalues]
  simp only [bind, Except.bind, permissionArgsParse, hlists]
  simp [Flags.matches, Flags.default, hall, pure, Except.pure]

lemma parseFlags_allowAll (hall : flags.allowAll = true) :
    parseFlags clap flags.toPermissionArgs = .ok Flags.default.setAllowAll := by
  have hargs : flags.toPermissionArgs =
      ArgMatches.args ⟨fun _ => none, fun switch => switch = .allowAll⟩ := by
    rw [Flags.toPermissionArgs, if_pos hall]
    rfl
  rw [parseFlags, hargs, clap.printed _ (by intro _ _ h; cases h)]
  rfl

def Flags.SamePermissions (flags other : Flags) : Prop :=
  flags.allowAll = other.allowAll ∧ flags.allowHrtime = other.allowHrtime ∧
    flags.denyHrtime = other.denyHrtime ∧
    ∀ flag, flag ≠ .unsafelyIgnoreCertificateErrors → flags.lists flag = other.lists flag

def Flags.NothingDenied (flags : Flags) : Prop :=
  flags.denyHrtime = false ∧ ∀ flag : ListFlag, flag.isDeny → flags.lists flag = none

lemma ListFlag.isAllow_or_isDeny {flag : ListFlag}
    (h : flag ≠ .unsafelyIgnoreCertificateErrors) : flag.isAllow ∨ flag.isDeny := by
  revert h
  cases flag <;> decide

lemma samePermissions_setAllowAll_iff (hall : flags.allowAll = true) (hallowed : AllAllowed flags) :
    Flags.default.setAllowAll.SamePermissions flags ↔ flags.NothingDenied := by
  constructor
  · rintro ⟨-, -, hhrtime, hlists⟩
    refine ⟨hhrtime.symm, fun flag hdeny => ?_⟩
    cases flag <;> first | exact (hlists _ (by decide)).symm | cases hdeny
  · rintro ⟨hhrtime, hlists⟩
    refine ⟨hall.symm, hallowed.1.symm, hhrtime.symm, fun flag hflag => ?_⟩
    rcases ListFlag.isAllow_or_isDeny hflag with hallow | hdeny
    · rw [hallowed.2 flag hallow]
      exact if_pos hallow
    · rw [hlists flag hdeny]
      cases flag <;> first | rfl | cases hdeny

/-- The arguments that are printed for the flags of a command line give the same permissions
exactly when `--allow-all` was not given with a denial. -/
theorem parseFlags_toPermissionArgs_iff (clap : Clap platform) {args : List (List Char)}
    {flags : Flags} (h : parseFlags clap args = .ok flags) :
    (∃ again, parseFlags clap flags.toPermissionArgs = .ok again ∧
      again.SamePermissions flags) ↔ (flags.allowAll → flags.NothingDenied) := by
  obtain ⟨hstable, hallowed⟩ := allStable_of_parseFlags h
  cases hall : flags.allowAll with
  | false =>
    rw [parseFlags_toPermissionArgs hstable hall]
    simp [Flags.SamePermissions]
  | true =>
    rw [parseFlags_allowAll hall, ← samePermissions_setAllowAll_iff hall (hallowed hall)]
    simp

/-! ### A matcher -/

variable (platform) (found)

def ListFlag.ofLong (name : List Char) : Option ListFlag :=
  printed.find? fun flag => flag.long.toList == name

def Switch.ofLong (name : List Char) : Option Switch :=
  all.find? fun switch => switch.long.toList == name

def ArgMatches.empty : ArgMatches where
  values _ := none
  given _ := false

def ArgMatches.setValues (flag : ListFlag) (values : List (List Char)) : ArgMatches where
  values other := if other = flag then some values else found.values other
  given := found.given

def ArgMatches.setGiven (switch : Switch) : ArgMatches where
  values := found.values
  given other := other = switch || found.given other

/-- The name of a flag and the text behind the first equals sign. -/
def splitArg : List Char → Option (List Char × Option (List Char))
  | '-' :: '-' :: text =>
    some (text.takeWhile (· ≠ '='), (text.dropWhile (· ≠ '=')).tail?)
  | _ => none

def parseValues (flag : ListFlag) : Option (List Char) → Except ArgError (List (List Char))
  | none => .ok []
  | some text => (text.splitOn ',').mapM (valueParser platform flag)

/-- One argument is matched. No flag is given twice. -/
def addArg (arg : List Char) : Except ArgError ArgMatches :=
  match splitArg arg with
  | none => .error .unexpectedArgument
  | some (name, text) =>
    match ListFlag.ofLong name with
    | some flag =>
      if (found.values flag).isSome then .error .repeatedArgument
      else (parseValues platform flag text).map (found.setValues flag)
    | none =>
      match Switch.ofLong name with
      | some switch =>
        if text.isSome then .error .unexpectedValue
        else if found.given switch then .error .repeatedArgument
        else .ok (found.setGiven switch)
      | none => .error .unexpectedArgument

variable {platform found} {arg : List Char}

lemma isRead_of_parseValues {text : Option (List Char)}
    (h : parseValues platform flag text = .ok values) :
    ∀ value ∈ values, IsRead platform flag value := by
  cases text with
  | none =>
    cases h
    simp
  | some text =>
    refine forall_mem_of_mapM h fun part hpart value hvalue => ?_
    exact isRead_of_valueParser (notMem_of_mem_splitOn hpart) hvalue

/-- An argument that is matched adds the values of one flag, or one switch. -/
lemma eq_set_of_addArg (h : addArg platform found arg = .ok found') :
    (∃ flag text values, parseValues platform flag text = .ok values ∧
      found' = found.setValues flag values) ∨ ∃ switch, found' = found.setGiven switch := by
  unfold addArg at h
  split at h
  · cases h
  · next name text _ =>
    split at h
    · next flag _ =>
      split at h
      · cases h
      · obtain ⟨values, hvalues, rfl⟩ := map_eq_ok.mp h
        exact .inl ⟨flag, text, values, hvalues, rfl⟩
    · split at h
      · next switch _ =>
        split_ifs at h
        cases h
        exact .inr ⟨switch, rfl⟩
      · cases h

lemma AllRead.addArg (hfound : AllRead platform found)
    (h : addArg platform found arg = .ok found') : AllRead platform found' := by
  obtain ⟨flag, text, values, hvalues, rfl⟩ | ⟨switch, rfl⟩ := eq_set_of_addArg h
  · intro other values' hvalues'
    simp only [ArgMatches.setValues] at hvalues'
    split_ifs at hvalues' with hother
    · cases hvalues'
      exact hother ▸ isRead_of_parseValues hvalues
    · exact hfound other values' hvalues'
  · exact hfound

lemma ListFlag.ofLong_long (flag : ListFlag) : ListFlag.ofLong flag.long.toList = some flag := by
  cases flag <;> rfl

lemma Switch.ofLong_long (switch : Switch) : ListFlag.ofLong switch.long.toList = none ∧
    Switch.ofLong switch.long.toList = some switch := by
  cases switch <;> exact ⟨rfl, rfl⟩

lemma ListFlag.equals_notMem_long (flag : ListFlag) : '=' ∉ flag.long.toList := by
  cases flag <;> decide

lemma Switch.equals_notMem_long (switch : Switch) : '=' ∉ switch.long.toList := by
  cases switch <;> decide

lemma splitArg_dashed {name : String} (h : '=' ∉ name.toList) :
    splitArg (dashed name) = some (name.toList, none) := by
  simp only [splitArg, dashed, takeWhile_ne_of_notMem h, dropWhile_ne_of_notMem h, List.tail?]

lemma splitArg_dashed_append {name : String} (h : '=' ∉ name.toList) (text : List Char) :
    splitArg (dashed name ++ '=' :: text) = some (name.toList, some text) := by
  simp only [splitArg, dashed, cons_append, takeWhile_ne_append h, dropWhile_ne_append h,
    List.tail?]

lemma addArg_list {text : Option (List Char)}
    (hsplit : splitArg arg = some (flag.long.toList, text)) (hnone : found.values flag = none)
    (hvalues : parseValues platform flag text = .ok values) :
    addArg platform found arg = .ok (found.setValues flag values) := by
  simp only [addArg, hsplit, ListFlag.ofLong_long, hnone, hvalues]
  rfl

lemma addArg_dashed {switch : Switch} (hnone : found.given switch = false) :
    addArg platform found (dashed switch.long) = .ok (found.setGiven switch) := by
  simp [addArg, splitArg_dashed switch.equals_notMem_long, switch.ofLong_long.1,
    switch.ofLong_long.2, hnone]

/-- The values of a flag, printed, are matched as they were. -/
lemma parseValues_intercalate (h : ∀ value ∈ values, IsRead platform flag value)
    (hne : values ≠ []) :
    parseValues platform flag (some ([','].intercalate values)) = .ok values := by
  rw [parseValues, splitOn_intercalate _ (fun value hvalue => (h value hvalue).1) hne,
    mapM_eq_ok_map fun value hvalue => (h value hvalue).2, map_id']

def ArgMatches.withList (found : ArgMatches) (flag : ListFlag)
    (list : Option (List (List Char))) : ArgMatches where
  values other := if other = flag then list else found.values other
  given := found.given

lemma ArgMatches.withList_none (h : found.values flag = none) :
    found.withList flag none = found := by
  rw [ArgMatches.withList, ← h]
  congr 1
  funext other
  split_ifs with hother
  · rw [hother]
  · rfl

lemma foldlM_printList {list : Option (List (List Char))} (hnone : found.values flag = none)
    (hread : ∀ values, list = some values → ∀ value ∈ values, IsRead platform flag value) :
    (printList flag list).foldlM (addArg platform) found = .ok (found.withList flag list) := by
  match list with
  | none =>
    rw [ArgMatches.withList_none hnone]
    rfl
  | some [] =>
    rw [printList, foldlM_cons_eq_ok]
    exact ⟨_, addArg_list (splitArg_dashed flag.equals_notMem_long) hnone rfl, rfl⟩
  | some (value :: values) =>
    rw [printList, foldlM_cons_eq_ok]
    refine ⟨_, addArg_list (splitArg_dashed_append flag.equals_notMem_long _) hnone ?_, rfl⟩
    exact parseValues_intercalate (hread _ rfl) (cons_ne_nil _ _)

/-- The lists of flags, printed one after the other, are matched as they were. -/
lemma foldlM_printLists {lists : ListFlag → Option (List (List Char))} {printed : List ListFlag}
    (hnodup : printed.Nodup) (hnone : ∀ flag ∈ printed, found.values flag = none)
    (hread : ∀ flag values, lists flag = some values → ∀ value ∈ values,
      IsRead platform flag value) :
    (printed.flatMap fun flag => printList flag (lists flag)).foldlM (addArg platform) found =
      .ok ⟨fun flag => if flag ∈ printed then lists flag else found.values flag, found.given⟩ := by
  induction printed generalizing found with
  | nil => rfl
  | cons flag printed ih =>
    obtain ⟨hnotMem, hnodup⟩ := List.nodup_cons.mp hnodup
    rw [flatMap_cons, foldlM_append, foldlM_printList (hnone flag mem_cons_self) (hread flag)]
    refine (ih hnodup fun other hother => ?_).trans ?_
    · have hne : other ≠ flag := by
        rintro rfl
        exact hnotMem hother
      simp only [ArgMatches.withList, if_neg hne]
      exact hnone other (mem_cons_of_mem _ hother)
    · congr 2
      funext other
      simp only [ArgMatches.withList, mem_cons]
      by_cases hother : other = flag
      · subst hother
        simp [hnotMem]
      · simp [hother]

lemma foldlM_printSwitch {switch : Switch} (hnone : found.given switch = false) (given : Bool) :
    (printSwitch switch given).foldlM (addArg platform) found =
      .ok (if given then found.setGiven switch else found) := by
  cases given with
  | false => rfl
  | true =>
    rw [printSwitch, if_pos rfl, foldlM_cons_eq_ok]
    exact ⟨_, addArg_dashed hnone, rfl⟩

lemma foldlM_printSwitches {given : Switch → Bool} {switches : List Switch}
    (hnodup : switches.Nodup) (hnone : ∀ switch ∈ switches, found.given switch = false) :
    (switches.flatMap fun switch => printSwitch switch (given switch)).foldlM (addArg platform)
        found = .ok ⟨found.values, fun switch =>
          if switch ∈ switches then given switch else found.given switch⟩ := by
  induction switches generalizing found with
  | nil => rfl
  | cons switch switches ih =>
    obtain ⟨hnotMem, hnodup⟩ := List.nodup_cons.mp hnodup
    rw [flatMap_cons, foldlM_append, foldlM_printSwitch (hnone switch mem_cons_self)]
    refine (ih hnodup fun other hother => ?_).trans ?_
    · have hne : other ≠ switch := by
        rintro rfl
        exact hnotMem hother
      cases given switch <;> simp [ArgMatches.setGiven, hne, hnone other (mem_cons_of_mem _ hother)]
    · congr 2
      · cases given switch <;> rfl
      · funext other
        by_cases hother : other = switch
        · subst hother
          have hgiven := hnone other mem_cons_self
          cases given other <;> simp [hnotMem, ArgMatches.setGiven, hgiven]
        · cases given switch <;> simp [hother, ArgMatches.setGiven]

lemma ListFlag.mem_printed (flag : ListFlag) : flag ∈ ListFlag.printed := by
  cases flag <;> decide

lemma foldlM_args (h : AllRead platform found) :
    found.args.foldlM (addArg platform) .empty = .ok found := by
  rw [ArgMatches.args, foldlM_append, foldlM_printLists (by decide) (fun _ _ => rfl) h]
  refine (foldlM_printSwitches (by decide) fun _ _ => rfl).trans ?_
  have hall (switch : Switch) : switch ∈ Switch.all := by cases switch <;> decide
  simp only [ListFlag.mem_printed, hall, if_true]

def foldClap (platform : Platform) : Clap platform where
  getMatches args := args.foldlM (addArg platform) .empty
  parsed args found hfound flag values hvalues value hvalue :=
    have hread : AllRead platform found :=
      foldlM_invariant (fun _ _ _ _ hs => hs.addArg) (by intro _ _ h; cases h) hfound
    ⟨value, hread flag values hvalues value hvalue⟩
  printed _ := foldlM_args

/-- A platform on which every host is a URL and the case of a variable's name counts. -/
def plainPlatform : Platform where
  urlParse _ := true
  ipAddrParse _ := false
  windows := false
  toUppercase c := [c]
  urlParse_withPort _ _ _ _ := rfl
  toUppercase_fixed _ _ _ := rfl
  toUppercase_ne_nil _ := cons_ne_nil _ _
  toUppercase_reserved _ _ h _ := List.mem_singleton.mp h

def plainClap : Clap plainPlatform := foldClap plainPlatform

def sampleFlags : Flags :=
  (Flags.default.setList .allowRead []).setList .denyNet ["deno.land".toList, "localhost:80".toList]

theorem parseFlags_toPermissionArgs_iff_lists : parseFlags plainClap
        ["--deny-net=deno.land,localhost:80".toList, "--allow-read".toList] = .ok sampleFlags ∧
      ((∃ again, parseFlags plainClap sampleFlags.toPermissionArgs = .ok again ∧
        again.SamePermissions sampleFlags) ↔
          (sampleFlags.allowAll → sampleFlags.NothingDenied)) := by
  have h : parseFlags plainClap
      ["--deny-net=deno.land,localhost:80".toList, "--allow-read".toList] = .ok sampleFlags := rfl
  exact ⟨h, parseFlags_toPermissionArgs_iff _ h⟩

/-- With `--allow-all`, a denial is not printed, and what was denied is allowed. -/
theorem toPermissionArgs_drops_denial :
    ∃ flags again, parseFlags plainClap ["--allow-all".toList, "--deny-net".toList] = .ok flags ∧
      flags.lists .denyNet = some [] ∧ flags.toPermissionArgs = ["--allow-all".toList] ∧
      parseFlags plainClap flags.toPermissionArgs = .ok again ∧
      again.lists .allowNet = some [] ∧ again.lists .denyNet = none :=
  ⟨_, _, rfl, rfl, rfl, rfl, rfl, rfl⟩

end Deno.Args
