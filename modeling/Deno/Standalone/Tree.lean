import Deno.Standalone.VirtualFs

/-!
# The tree of entries

A directory is looked at as a function from places to what stands there. The builder only adds to
that function, and keeps the entries of every directory sorted by name.
-/

namespace Deno

open Core List

/-- What stands at a place of the tree, without what lies below. -/
inductive Shape where
  | dir
  | file (file : VirtualFile)
  | symlink (symlink : VirtualSymlink)
  deriving DecidableEq

def VfsEntry.shape : VfsEntry → Shape
  | .dir _ _ => .dir
  | .file f => .file f
  | .symlink s => .symlink s

def child (entries : List VfsEntry) (name : String) : Option VfsEntry :=
  entries.find? (·.name = name)

def subdir : List VfsEntry → List String → Option (List VfsEntry)
  | entries, [] => some entries
  | entries, name :: names =>
    match child entries name with
    | some (.dir _ sub) => subdir sub names
    | _ => none

def shapeAt : List VfsEntry → List String → Option Shape
  | _, [] => some .dir
  | entries, name :: names =>
    match child entries name with
    | none => none
    | some (.dir _ sub) => shapeAt sub names
    | some entry => if names = [] then some entry.shape else none

/-- The names are strictly increasing in every directory. -/
def Ordered (entries : List VfsEntry) : Prop :=
  ∀ names sub, subdir entries names = some sub → sub.Pairwise (·.name < ·.name)

variable {entries entries' before after : List VfsEntry} {entry : VfsEntry}
variable {name : String} {names : List String}

/-! ### Children -/

lemma child_nil (name : String) : child [] name = none := rfl

/-- An entry in the middle hides nothing but itself. -/
lemma child_append_cons (hbefore : ∀ b ∈ before, b.name ≠ entry.name) (name : String) :
    child (before ++ entry :: after) name =
      if name = entry.name then some entry else child (before ++ after) name := by
  induction before with
  | nil =>
    rw [child]
    by_cases h : name = entry.name
    · simp [h]
    · simp [h, Ne.symm h, child]
  | cons b bs ih =>
    have hb : b.name ≠ entry.name := hbefore b mem_cons_self
    have := ih fun c hc => hbefore c (mem_cons_of_mem b hc)
    unfold child at this ⊢
    rw [cons_append, find?_cons, this]
    by_cases hname : b.name = name
    · have : name ≠ entry.name := hname ▸ hb
      simp [hname, this]
    · simp [hname]

lemma child_eq_none (h : ∀ b ∈ entries, b.name ≠ name) : child entries name = none :=
  List.find?_eq_none.mpr fun b hb => by simpa using h b hb

lemma name_of_child (h : child entries name = some entry) : entry.name = name := by
  simpa using find?_some h

lemma mem_of_child (h : child entries name = some entry) : entry ∈ entries := mem_of_find?_eq_some h

/-! ### Order -/

lemma Ordered.pairwise (h : Ordered entries) : entries.Pairwise (·.name < ·.name) :=
  h [] entries rfl

variable {sub : List VfsEntry}

lemma Ordered.child {dirName : String} (h : Ordered entries)
    (hchild : Deno.child entries name = some (.dir dirName sub)) : Ordered sub := by
  intro names sub' hsub
  refine h (name :: names) sub' ?_
  rw [subdir, hchild]
  exact hsub

lemma ordered_nil : Ordered [] := by
  intro names sub h
  cases names with
  | nil =>
    cases h
    exact .nil
  | cons name names =>
    cases h

lemma ordered_of_children (hsorted : entries.Pairwise (·.name < ·.name))
    (h : ∀ name dirName sub, Deno.child entries name = some (.dir dirName sub) → Ordered sub) :
    Ordered entries := by
  intro names sub hsub
  cases names with
  | nil =>
    cases hsub
    exact hsorted
  | cons name names =>
    rw [subdir] at hsub
    split at hsub
    · rename_i dirName sub' hchild
      exact h name dirName sub' hchild names sub hsub
    · cases hsub

lemma SearchRule.of_searchByName (h : Ordered entries) (name : String) :
    SearchRule VfsEntry.name name entries (searchByName entries name) :=
  Core.SearchRule.of_binarySearchBy h.pairwise name

/-! ### Adding -/

/-- What an update puts at the places below it, on top of what is there. -/
structure UpdateSpec (old new : List VfsEntry) (added : List String → Option Shape) : Prop where
  ordered : Ordered new
  shapeAt : ∀ p, shapeAt new p = (added p).or (shapeAt old p)
  keeps : ∀ p s, Deno.shapeAt old p = some s → Deno.shapeAt new p = some s

/-- The same below a directory; the directories on the way are added. -/
def under (added : List String → Option Shape) : List String → List String → Option Shape
  | [], p => added p
  | _ :: _, [] => some .dir
  | name :: names, x :: p => if x = name then under added names p else none

def onlyDir : List String → Option Shape
  | [] => some .dir
  | _ :: _ => none

def leafAt (name : String) (shape : Shape) : List String → Option Shape
  | [] => some .dir
  | [x] => if x = name then some shape else none
  | _ => none

lemma UpdateSpec.refl (h : Ordered entries) : UpdateSpec entries entries onlyDir where
  ordered := h
  shapeAt p := by cases p <;> rfl
  keeps _ _ hs := hs

/-- An entry put between two parts of a directory, in the order of the names. -/
structure Put (before : List VfsEntry) (entry : VfsEntry) (after : List VfsEntry) : Prop where
  sorted : (before ++ after).Pairwise (·.name < ·.name)
  hbefore : ∀ b ∈ before, b.name < entry.name
  hafter : ∀ b ∈ after, entry.name < b.name

namespace Put

variable (h : Put before entry after)

include h

lemma child (name : String) : Deno.child (before ++ entry :: after) name =
      if name = entry.name then some entry else Deno.child (before ++ after) name :=
  child_append_cons (fun b hb => ne_of_lt (h.hbefore b hb)) name

lemma child_self : Deno.child (before ++ entry :: after) entry.name = some entry := by
  rw [h.child, if_pos rfl]

lemma child_of_ne {x : String} (hx : x ≠ entry.name) :
    Deno.child (before ++ entry :: after) x = Deno.child (before ++ after) x := by
  rw [h.child, if_neg hx]

lemma child_rest : Deno.child (before ++ after) entry.name = none := by
  refine child_eq_none fun b hb => ?_
  rcases List.mem_append.mp hb with hb | hb
  · exact ne_of_lt (h.hbefore b hb)
  · exact ne_of_gt (h.hafter b hb)

lemma pairwise : (before ++ entry :: after).Pairwise (·.name < ·.name) := by
  obtain ⟨hbs, has, hcross⟩ := List.pairwise_append.mp h.sorted
  refine List.pairwise_append.mpr ⟨hbs, List.pairwise_cons.mpr ⟨h.hafter, has⟩, fun b hb => ?_⟩
  exact List.forall_mem_cons.mpr ⟨h.hbefore b hb, hcross b hb⟩

/-- The directory is ordered if what is put there is and the other entries were. -/
lemma ordered (hentry : ∀ dirName sub, entry = .dir dirName sub → Ordered sub)
    (hold : Ordered entries)
    (hrest : ∀ x ≠ entry.name, Deno.child entries x = Deno.child (before ++ after) x) :
    Ordered (before ++ entry :: after) := by
  refine ordered_of_children h.pairwise fun x dirName sub hchild => ?_
  rw [h.child] at hchild
  split_ifs at hchild with hx
  · exact hentry dirName sub (Option.some.inj hchild)
  · rw [← hrest x hx] at hchild
    exact hold.child hchild

end Put

lemma shapeAt_congr {x : String} {p : List String} (h : child entries x = child entries' x) :
    shapeAt entries (x :: p) = shapeAt entries' (x :: p) := by
  rw [shapeAt, shapeAt, h]

lemma UpdateSpec.put_leaf (h : Put before entry after) (hleaf : entry.shape ≠ .dir)
    (hold : Ordered (before ++ after)) :
    UpdateSpec (before ++ after) (before ++ entry :: after) (leafAt entry.name entry.shape) := by
  have hat : ∀ p, Deno.shapeAt (before ++ entry :: after) (entry.name :: p) =
      if p = [] then some entry.shape else none := by
    intro p
    rw [Deno.shapeAt, h.child_self]
    cases entry with
    | dir _ _ => exact absurd rfl hleaf
    | file f | symlink s => rfl
  have hold_at : ∀ p, Deno.shapeAt (before ++ after) (entry.name :: p) = none := by
    intro p
    rw [Deno.shapeAt, h.child_rest]
  have hother : ∀ x ≠ entry.name, ∀ p, Deno.shapeAt (before ++ entry :: after) (x :: p) =
      Deno.shapeAt (before ++ after) (x :: p) :=
    fun x hx p => shapeAt_congr (h.child_of_ne hx)
  refine ⟨h.ordered ?_ hold fun _ _ => rfl, fun p => ?_, fun p s hs => ?_⟩
  · rintro dirName sub rfl
    exact absurd rfl hleaf
  · cases p with
    | nil => rfl
    | cons x p =>
      by_cases hx : x = entry.name
      · subst hx
        rw [hat, hold_at]
        cases p with
        | nil | cons y q => simp [leafAt]
      · rw [hother x hx]
        cases p with
        | nil => simp [leafAt, hx]
        | cons y q => simp [leafAt]
  · cases p with
    | nil => exact hs
    | cons x p =>
      by_cases hx : x = entry.name
      · subst hx
        rw [hold_at] at hs
        cases hs
      · rw [hother x hx]
        exact hs

variable {added : List String → Option Shape}

/-- An update in a directory that was there, or is new and was empty before. -/
lemma UpdateSpec.put_dir {sub sub' : List VfsEntry}
    (h : Put before (.dir name sub') after) (hold : Ordered entries)
    (hrest : ∀ x ≠ name, child entries x = child (before ++ after) x)
    (hsub : child entries name = some (.dir name sub) ∨ child entries name = none ∧ sub = [])
    (hdir : added [] = some .dir) (hspec : UpdateSpec sub sub' added) :
    UpdateSpec entries (before ++ .dir name sub' :: after) (under added [name]) := by
  have hself : child (before ++ .dir name sub' :: after) name = some (.dir name sub') :=
    h.child_self
  have hat : ∀ p, Deno.shapeAt (before ++ .dir name sub' :: after) (name :: p) =
      Deno.shapeAt sub' p := by
    intro p
    rw [Deno.shapeAt, hself]
  have hother : ∀ x ≠ name, ∀ p, Deno.shapeAt (before ++ .dir name sub' :: after) (x :: p) =
      Deno.shapeAt entries (x :: p) := by
    intro x hx p
    refine shapeAt_congr ((h.child_of_ne hx).trans ?_)
    rw [hrest x hx]
  refine ⟨h.ordered ?_ hold hrest, fun p => ?_, fun p s hs => ?_⟩
  · rintro _ _ ⟨⟩
    exact hspec.ordered
  · cases p with
    | nil => rfl
    | cons x p =>
      by_cases hx : x = name
      · subst hx
        rw [hat, hspec.shapeAt, under, if_pos rfl, under]
        rcases hsub with hchild | ⟨hchild, rfl⟩
        · rw [Deno.shapeAt, hchild]
        · rw [Deno.shapeAt, hchild]
          cases p with
          | nil => rw [hdir, Option.some_or, Option.some_or]
          | cons y q => rfl
      · rw [hother x hx, under, if_neg hx, Option.none_or]
  · cases p with
    | nil => exact hs
    | cons x p =>
      by_cases hx : x = name
      · subst hx
        rw [hat]
        rcases hsub with hchild | ⟨hchild, -⟩
        · rw [Deno.shapeAt, hchild] at hs
          exact hspec.keeps p s hs
        · rw [Deno.shapeAt, hchild] at hs
          cases hs
      · rw [hother x hx]
        exact hs

lemma under_cons (added : List String → Option Shape) (name : String) (names : List String) :
    under added (name :: names) = under (under added names) [name] := by
  funext p
  cases p <;> rfl

lemma under_dir (hdir : added [] = some .dir)
    (names : List String) : under added names [] = some .dir := by
  cases names with
  | nil => exact hdir
  | cons name names => rfl

/-- Updating a directory changes the tree below it, and the directories on the way to it. -/
theorem updateDir_spec {update : List VfsEntry → Except AnyError (List VfsEntry)}
    (hdir : added [] = some .dir)
    (hupdate : ∀ sub sub', Ordered sub → update sub = .ok sub' → UpdateSpec sub sub' added)
    (hold : Ordered entries) (h : updateDir update names entries = .ok entries') :
    UpdateSpec entries entries' (under added names) := by
  induction names generalizing entries entries' with
  | nil => exact hupdate entries entries' hold h
  | cons name names ih =>
    rw [under_cons]
    have hsorted := hold.pairwise
    have hrule := SearchRule.of_searchByName hold name
    rw [updateDir] at h
    generalize searchByName entries name = r at hrule h
    cases hrule with
    | found before a after hl hkey hbefore hafter =>
      subst hl
      have ha : (before ++ a :: after)[before.length]? = some a := by simp
      simp only [ha] at h
      cases a with
      | file _ | symlink _ => cases h
      | dir dirName sub =>
        obtain ⟨sub', hsub', h⟩ := bind_eq_ok.mp h
        cases h
        obtain rfl : dirName = name := hkey
        have hput : ∀ s, Put before (.dir dirName s) after := fun s =>
          ⟨hsorted.sublist (List.Sublist.append_left (sublist_cons_self _ _) before),
            hbefore, hafter⟩
        have hchild : child (before ++ .dir dirName sub :: after) dirName =
            some (.dir dirName sub) := (hput sub).child_self
        rw [set_append_right _ _ (Nat.le_refl _), Nat.sub_self]
        exact .put_dir (hput sub') hold (fun x hx => (hput sub).child_of_ne hx) (.inl hchild)
          (under_dir hdir names) (ih (hold.child hchild) hsub')
    | absent before after hl hbefore hafter =>
      subst hl
      obtain ⟨sub', hsub', h⟩ := bind_eq_ok.mp h
      cases h
      have hput : Put before (.dir name sub') after := ⟨hsorted, hbefore, hafter⟩
      rw [insertIdx_length_append]
      exact .put_dir hput hold (fun _ _ => rfl) (.inr ⟨hput.child_rest, rfl⟩)
        (under_dir hdir names) (ih ordered_nil hsub')

lemma insertEntry_spec (hleaf : entry.shape ≠ .dir) (hold : Ordered entries)
    (h : insertEntry entry entries = .ok entries') :
    UpdateSpec entries entries' (leafAt entry.name entry.shape) := by
  have hsorted := hold.pairwise
  have hrule := SearchRule.of_searchByName hold entry.name
  rw [insertEntry] at h
  generalize searchByName entries entry.name = r at hrule h
  cases hrule with
  | found before a after hl hkey hbefore hafter => cases h
  | absent before after hl hbefore hafter =>
    subst hl
    cases h
    rw [insertIdx_length_append]
    exact .put_leaf ⟨hsorted, hbefore, hafter⟩ hleaf hold

/-! ### What is there afterwards -/

lemma under_append_self (added : List String → Option Shape) (names p : List String) :
    under added names (names ++ p) = added p := by
  induction names with
  | nil => rfl
  | cons name names ih => rw [cons_append, under, if_pos rfl, ih]

lemma isSome_under_onlyDir (names p : List String) :
    (under onlyDir names p).isSome ↔ p <+: names := by
  induction names generalizing p with
  | nil => cases p <;> simp [under, onlyDir]
  | cons name names ih =>
    cases p with
    | nil => simp [under]
    | cons x p =>
      rw [under, cons_prefix_cons, ← ih]
      split_ifs with hx <;> simp [hx]

lemma isSome_under_leafAt (shape : Shape) (names p : List String) :
    (under (leafAt name shape) names p).isSome ↔ p <+: names ++ [name] := by
  induction names generalizing p with
  | nil =>
    rcases p with _ | ⟨x, _ | ⟨y, q⟩⟩
    · simp [under, leafAt]
    · rw [under, leafAt]
      split_ifs with hx <;> simp [hx]
    · simp [under, leafAt, cons_prefix_cons]
  | cons n names ih =>
    cases p with
    | nil => simp [under]
    | cons x p =>
      rw [under, cons_append, cons_prefix_cons, ← ih]
      split_ifs with hx <;> simp [hx]

lemma isSome_shapeAt_append (h : subdir entries names = some sub)
    (x : String) : (shapeAt entries (names ++ [x])).isSome ↔ ∃ e ∈ sub, e.name = x := by
  induction names generalizing entries with
  | nil =>
    obtain rfl := Option.some.inj h
    rw [nil_append, shapeAt]
    cases hchild : child entries x with
    | none =>
      refine iff_of_false (by simp) ?_
      rintro ⟨e, he, rfl⟩
      simpa using List.find?_eq_none.mp hchild e he
    | some e =>
      refine iff_of_true ?_ ⟨e, mem_of_child hchild, name_of_child hchild⟩
      cases e <;> simp [shapeAt]
  | cons name names ih =>
    rw [subdir] at h
    split at h
    · rename_i dirName sub' hchild
      rw [cons_append, shapeAt, hchild]
      exact ih h
    · cases h

/-! ### Looking up -/

lemma searchByName_of_child (hold : Ordered entries) (h : child entries name = some entry) :
    ∃ i, searchByName entries name = .ok i ∧ entries[i]? = some entry := by
  have hrule := SearchRule.of_searchByName hold name
  have hname := name_of_child h
  have hmem := mem_of_child h
  generalize searchByName entries name = r at hrule
  cases hrule with
  | found before a after hl hkey hbefore hafter =>
    refine ⟨before.length, rfl, ?_⟩
    subst hl
    rw [child_append_cons (fun b hb => hkey ▸ ne_of_lt (hbefore b hb)), if_pos hkey.symm] at h
    rw [getElem?_append_right (Nat.le_refl _), Nat.sub_self, getElem?_cons_zero, h]
  | absent before after hl hbefore hafter =>
    rw [hl, mem_append] at hmem
    rcases hmem with hmem | hmem
    · exact absurd hname (ne_of_lt (hbefore entry hmem))
    · exact absurd hname (ne_of_gt (hafter entry hmem))

/-- The loop over the components goes on below an entry of a directory. -/
lemma VfsRoot.walk_of_child (root : VfsRoot)
    (findEntry : Path → List Path → Except AnyError FoundEntry) (hold : Ordered entries)
    (h : child entries name = some entry) (path : Path) (dirName : String) (seen : List Path) :
    root.walk findEntry (name :: names) ⟨path, .dir dirName entries, seen⟩ =
      root.walk findEntry names ⟨path.join (.ofString name), entry, seen⟩ := by
  obtain ⟨i, hsearch, hentry⟩ := searchByName_of_child hold h
  rw [walk, dirOf]
  simp [bind, Except.bind, hsearch, hentry]

/-- The loop over the components finds what stands there, through directories only. -/
lemma VfsRoot.walk_of_shapeAt (root : VfsRoot)
    (findEntry : Path → List Path → Except AnyError FoundEntry) {shape : Shape}
    (hold : Ordered entries) (h : shapeAt entries names = some shape) (path : Path)
    (dirName : String) (seen : List Path) :
    ∃ path' entry, root.walk findEntry names ⟨path, .dir dirName entries, seen⟩ =
      .ok ⟨path', entry, seen⟩ ∧ entry.shape = shape := by
  induction names generalizing entries path dirName with
  | nil =>
    cases h
    exact ⟨path, .dir dirName entries, rfl, rfl⟩
  | cons name names ih =>
    rw [shapeAt] at h
    split at h
    · cases h
    · rename_i dirName' sub hchild
      rw [walk_of_child root findEntry hold hchild]
      exact ih (hold.child hchild) h _ _
    · rename_i entry hentry hchild
      split_ifs at h with hnames
      cases h
      subst hnames
      rw [walk_of_child root findEntry hold hchild]
      exact ⟨_, entry, rfl, rfl⟩

end Deno
