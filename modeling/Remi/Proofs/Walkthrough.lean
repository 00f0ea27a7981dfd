import Remi.Fileset
import Remi.Proofs.Tree

/-!
# `Remi.Proofs.Walkthrough`: what a walkthrough calls its callback on

`listFiles` opens `root + "/" + path` and puts the names of the entries behind `path`. This is
the name of the entry when `path` is empty or ends with a slash, as the recursion sees to below
the directory it starts with (`mem_listFiles`). A registered directory name that does not end
with a slash is put directly in front of the names, so what is called is not the name of
anything in the directory. Names that begin with a dot are skipped, and so is an entry whose
type `readdir` does not report.

`walkthroughExact_iff` says when the callback is called on the registered files and on the
files below the registered directories, and on nothing else.
-/

set_option autoImplicit false

namespace Remi

open Remi.Lib

/-! ### The specification -/

/-- The path string of a list of names. -/
def relative : Path → Str
  | [] => []
  | [c] => c
  | c :: rest => c ++ '/' :: relative rest

/-- The name of a directory ends with a slash, or names the root of the fileset. -/
def Slashed (d : Str) : Prop := d = [] ∨ d.getLast? = some '/'

instance (d : Str) : Decidable (Slashed d) := by unfold Slashed; infer_instance

/-- The name of a directory, as it stands before the names of its entries. -/
def dirPart (d : Str) : Str := if Slashed d then d else d ++ ['/']

namespace SourceTree

/-- There is a regular file at `p`. -/
def HasFile (T : SourceTree) (p : Path) : Prop := ∃ b, T.node? p = some (.file b)

/-- The path string names the directory at `D`. -/
def Leads (T : SourceTree) (s : Str) (D : Path) : Prop :=
  T.directory (T.start s) (components s) = some D

/-- `n` is the name of a regular file at some depth below the directory `d`. -/
def Below (T : SourceTree) (root d n : Str) : Prop :=
  ∃ D cs, T.Leads (root ++ d) D ∧ cs ≠ [] ∧ T.HasFile (D ++ cs) ∧ n = dirPart d ++ relative cs

/-- No name on the way `cs` from `D` begins with a dot, and `readdir` reports all types. -/
def Shown (T : SourceTree) : Path → Path → Prop
  | _, [] => True
  | D, c :: cs => c.head? ≠ some '.' ∧
      (∃ e ∈ T.entries, e.path = D ++ [c] ∧ e.typeKnown = true) ∧ Shown T (D ++ [c]) cs

end SourceTree

/-- The walkthrough ends, and calls its callback in increasing order, once on each registered
file and on each regular file below a registered directory, and on nothing else. What is found
through a directory is a file below it. -/
structure WalkthroughExact (T : SourceTree) (fs : Fileset) : Prop where
  ends : ∀ d extra, listFiles T fs.root (T.fuel + extra) d = listFiles T fs.root T.fuel d
  increasing : (remiFilesetWalkthrough T fs).toList.Pairwise (· < ·)
  names : ∀ n, n ∈ remiFilesetWalkthrough T fs ↔
    n ∈ fs.files ∨ ∃ d ∈ fs.directories, T.Below fs.root d n
  found : ∀ d ∈ fs.directories, ∀ n ∈ listFiles T fs.root T.fuel d, T.Below fs.root d n

/-- The condition on a tree and a fileset. A file below a registered directory is registered
itself, or a registered name that ends with a slash leads to it, through entries that are shown.
A registered name that does not end with a slash leads to nothing that would be called. -/
structure Listable (T : SourceTree) (fs : Fileset) : Prop where
  reached : ∀ d ∈ fs.directories, ∀ n, T.Below fs.root d n → n ∈ fs.files ∨
    ∃ d' ∈ fs.directories, Slashed d' ∧ ∃ D cs, T.Leads (fs.root ++ d') D ∧ cs ≠ [] ∧
      T.HasFile (D ++ cs) ∧ T.Shown D cs ∧ n = d' ++ relative cs
  unslashed : ∀ d ∈ fs.directories, ¬ Slashed d → ∀ D, T.Leads (fs.root ++ d) D → ∀ c,
    T.Shown D [c] → ¬ T.HasFile (D ++ [c]) ∧ (T.IsDir (D ++ [c]) →
      ∀ D' cs, T.Leads (fs.root ++ (d ++ c ++ ['/'])) D' → cs ≠ [] → T.HasFile (D' ++ cs) →
        ¬ T.Shown D' cs)

/-! ### Strings -/

theorem componentsFrom_of_not_mem {s : Str} (h : '/' ∉ s) (cur : Str) :
    componentsFrom cur s = keepComponent (cur ++ s) [] := by
  induction s generalizing cur with
  | nil => rw [List.append_nil]; rfl
  | cons c s ih =>
      obtain ⟨hc, hs⟩ : '/' ≠ c ∧ '/' ∉ s := by simpa using h
      rw [componentsFrom, if_neg (Ne.symm hc), ih hs, List.append_assoc, List.singleton_append]

/-- A proper name is its own component. -/
theorem components_proper {c : Str} (h : ProperName c) : components c = [c] := by
  obtain ⟨hnil, hdot, -, hslash⟩ := h
  rw [components, componentsFrom_of_not_mem hslash, List.nil_append, keepComponent,
    if_neg (by simp [hnil, hdot])]

theorem relative_cons {c : Str} {cs : Path} (h : cs ≠ []) :
    relative (c :: cs) = c ++ '/' :: relative cs := by
  cases cs with
  | nil => exact absurd rfl h
  | cons d rest => rfl

theorem slashed_append (s : Str) : Slashed (s ++ ['/']) := Or.inr List.getLast?_concat

section Paths
variable {T : SourceTree} {root : Str} {D : Path}

/-- A root that ends with a slash, with a slash and a path behind it. -/
theorem components_root (hroot : root.getLast? = some '/') (path : Str) :
    components (root ++ ['/'] ++ path) = components (root ++ path) := by
  obtain ⟨r, rfl⟩ := List.getLast?_eq_some_iff.mp hroot
  rw [List.append_assoc (r ++ ['/']), List.singleton_append, components_append_slash,
    components_append_singleton, List.append_assoc, List.singleton_append,
    components_append_slash]

theorem start_root (hroot : root.getLast? = some '/') (path : Str) :
    T.start (root ++ path) = T.start root := by
  obtain ⟨r, rfl⟩ := List.getLast?_eq_some_iff.mp hroot
  unfold SourceTree.start
  cases r <;> rfl

/-- What `listFiles` sees in a directory. -/
theorem opendir_root (hroot : root.getLast? = some '/') (path : Str) :
    T.opendir (root ++ ['/'] ++ path) =
      (T.directory (T.start (root ++ path)) (components (root ++ path))).map T.children := by
  rw [SourceTree.opendir, if_neg (by simp), components_root hroot, List.append_assoc,
    start_root hroot, start_root hroot]

theorem getLast?_slashed (hroot : root.getLast? = some '/') {path : Str} (hpath : Slashed path) :
    (root ++ path).getLast? = some '/' := by
  rcases hpath with rfl | hpath
  · rwa [List.append_nil]
  · rw [List.getLast?_append, hpath]
    rfl

/-- A name behind a path that ends with a slash is a component of its own. -/
theorem components_name (hroot : root.getLast? = some '/') {path c : Str} (hpath : Slashed path)
    (hc : ProperName c) : components (root ++ (path ++ c)) = components (root ++ path) ++ [c] := by
  obtain ⟨s, hs⟩ := List.getLast?_eq_some_iff.mp (getLast?_slashed hroot hpath)
  have hassoc : root ++ (path ++ c) = s ++ '/' :: c := by
    rw [← List.append_assoc, hs]
    simp
  rw [hassoc, components_append_slash, components_proper hc, hs, components_append_singleton]

/-- The recursion goes to the directory of an entry. -/
theorem leads_child (hroot : root.getLast? = some '/') {path c : Str} (hpath : Slashed path)
    (h : T.Leads (root ++ path) D) (hdir : T.IsDir (D ++ [c])) :
    T.Leads (root ++ (path ++ c ++ ['/'])) (D ++ [c]) := by
  obtain ⟨size, hsize⟩ := hdir
  have hproper := SourceTree.proper_of_node hsize c (by simp)
  have hcomponents : components (root ++ (path ++ c ++ ['/'])) =
      components (root ++ path) ++ [c] := by
    rw [← List.append_assoc, components_append_singleton, components_name hroot hpath hproper]
  unfold SourceTree.Leads at h ⊢
  rw [hcomponents, start_root hroot, ← start_root hroot path]
  exact SourceTree.directory_append h ⟨size, hsize⟩

/-! ### What `listFiles` finds -/

/-- The entry of a name that is shown. -/
theorem shown_entry {c : Str} {n : SourceNode} (h : T.Shown D [c])
    (hn : T.node? (D ++ [c]) = some n) : ⟨c, n.dType⟩ ∈ T.children D := by
  obtain ⟨-, ⟨e, he, hpath, hknown⟩, -⟩ := h
  refine SourceTree.mem_children.mpr ⟨e, he, hpath, ?_⟩
  have hnode := SourceTree.node_entry he
  rw [hpath, hn] at hnode
  rw [if_pos hknown, Option.some.inj hnode]

/-- An entry whose type is reported is shown, unless its name begins with a dot. -/
theorem shown_of_entry {f : Dirent} (h : f ∈ T.children D) (hhidden : f.hidden = false)
    (hknown : f.type ≠ .unknown) :
    ∃ n, T.node? (D ++ [f.name]) = some n ∧ f.type = n.dType ∧ T.Shown D [f.name] := by
  obtain ⟨e, he, hpath, htype⟩ := SourceTree.mem_children.mp h
  cases hunknown : e.typeKnown with
  | false => simp [htype, hunknown] at hknown
  | true =>
      refine ⟨e.node, by rw [← hpath, SourceTree.node_entry he], by simp [htype, hunknown], ?_⟩
      exact ⟨of_decide_eq_false hhidden, ⟨e, he, hpath, hunknown⟩, trivial⟩

/-- One round of `listFiles`. -/
theorem mem_listFiles_succ (hroot : root.getLast? = some '/') {path n : Str} {fuel : Nat}
    (h : T.Leads (root ++ path) D) :
    n ∈ listFiles T root (fuel + 1) path ↔ ∃ c, T.Shown D [c] ∧
      (T.HasFile (D ++ [c]) ∧ n = path ++ c ∨
        T.IsDir (D ++ [c]) ∧ n ∈ listFiles T root fuel (path ++ c ++ ['/'])) := by
  have hopen : T.opendir (root ++ ['/'] ++ path) = some (T.children D) := by
    rw [opendir_root hroot, show T.directory _ _ = some D from h]
    rfl
  simp only [listFiles, hopen, List.mem_flatMap]
  constructor
  · rintro ⟨f, hf, hn⟩
    split at hn
    · -- The name begins with a dot.
      cases hn
    · rename_i hhidden
      have hhidden' : f.hidden = false := by simpa using hhidden
      split at hn
      · rename_i hdir
        obtain ⟨m, hm, htype, hshown⟩ := shown_of_entry hf hhidden' (by simp [hdir])
        refine ⟨f.name, hshown, Or.inr ⟨?_, hn⟩⟩
        rw [hdir] at htype
        cases m with
        | dir size => exact ⟨size, hm⟩
        | file | link | special => cases htype
      · split at hn
        · rename_i hreg
          obtain ⟨m, hm, htype, hshown⟩ := shown_of_entry hf hhidden' (by simp [hreg])
          refine ⟨f.name, hshown, Or.inl ⟨?_, List.mem_singleton.mp hn⟩⟩
          rw [hreg] at htype
          cases m with
          | file b => exact ⟨b, hm⟩
          | dir | link | special => cases htype
        · cases hn
  · rintro ⟨c, hshown, ⟨⟨b, hb⟩, rfl⟩ | ⟨⟨size, hsize⟩, hn⟩⟩
    · refine ⟨_, shown_entry hshown hb, ?_⟩
      have hhidden : ∀ type, Dirent.hidden ⟨c, type⟩ = false := fun _ =>
        decide_eq_false hshown.1
      simp [hhidden, SourceNode.dType]
    · refine ⟨_, shown_entry hshown hsize, ?_⟩
      have hhidden : ∀ type, Dirent.hidden ⟨c, type⟩ = false := fun _ =>
        decide_eq_false hshown.1
      simpa [hhidden, SourceNode.dType] using hn

theorem listFiles_of_not_leads (hroot : root.getLast? = some '/') {path : Str}
    (h : ∀ D, ¬ T.Leads (root ++ path) D) (fuel : Nat) : listFiles T root fuel path = [] := by
  cases fuel with
  | zero => rfl
  | succ fuel =>
      have hnone : T.directory (T.start (root ++ path)) (components (root ++ path)) = none :=
        Option.eq_none_iff_forall_ne_some.mpr h
      rw [listFiles, opendir_root hroot, hnone]
      rfl

/-- Behind a name that ends with a slash, `listFiles` finds the files that are shown. -/
theorem mem_listFiles (hroot : root.getLast? = some '/') {path n : Str} (hpath : Slashed path)
    (h : T.Leads (root ++ path) D) (fuel : Nat) :
    n ∈ listFiles T root fuel path ↔ ∃ cs, cs ≠ [] ∧ cs.length ≤ fuel ∧ T.HasFile (D ++ cs) ∧
      T.Shown D cs ∧ n = path ++ relative cs := by
  -- Each round of the recursion is one component of the way, so the path and the directory go
  -- with the fuel.
  induction fuel generalizing path D with
  | zero =>
      simp only [listFiles, List.not_mem_nil, Nat.le_zero, List.length_eq_zero_iff, false_iff]
      rintro ⟨cs, hne, rfl, -⟩
      exact hne rfl
  | succ fuel ih =>
      rw [mem_listFiles_succ hroot h]
      constructor
      · rintro ⟨c, hshown, ⟨hfile, rfl⟩ | ⟨hdir, hn⟩⟩
        · exact ⟨[c], by simp, by simp, hfile, hshown, rfl⟩
        · obtain ⟨cs, hne, hlen, hfile, hcs, rfl⟩ :=
            (ih (slashed_append _) (leads_child hroot hpath h hdir)).mp hn
          refine ⟨c :: cs, by simp, Nat.succ_le_succ hlen, ?_, ⟨hshown.1, hshown.2.1, hcs⟩, ?_⟩
          · rwa [List.append_assoc, List.singleton_append] at hfile
          · rw [relative_cons hne]
            simp
      · rintro ⟨cs, hne, hlen, hfile, hcs, rfl⟩
        cases cs with
        | nil => exact absurd rfl hne
        | cons c rest =>
            have hshown : T.Shown D [c] := ⟨hcs.1, hcs.2.1, trivial⟩
            by_cases hrest : rest = []
            · subst hrest
              exact ⟨c, hshown, Or.inl ⟨hfile, rfl⟩⟩
            · obtain ⟨b, hb⟩ := hfile
              have happend : D ++ c :: rest = D ++ [c] ++ rest := by simp
              rw [happend] at hb
              have hdir := SourceTree.isDir_of_append hrest hb
              refine ⟨c, hshown, Or.inr ⟨hdir, ?_⟩⟩
              refine (ih (slashed_append _) (leads_child hroot hpath h hdir)).mpr ?_
              refine ⟨rest, hrest, Nat.le_of_succ_le_succ hlen, ⟨b, hb⟩, hcs.2.2, ?_⟩
              rw [relative_cons hrest]
              simp

/-- One round with more fuel, when it makes no difference below. -/
theorem listFiles_succ_congr (hroot : root.getLast? = some '/') {path : Str} {fuel fuel' : Nat}
    (hbelow : ∀ D c, T.Leads (root ++ path) D → T.IsDir (D ++ [c]) →
      listFiles T root fuel (path ++ c ++ ['/']) = listFiles T root fuel' (path ++ c ++ ['/'])) :
    listFiles T root (fuel + 1) path = listFiles T root (fuel' + 1) path := by
  by_cases hleads : ∃ D, T.Leads (root ++ path) D
  · obtain ⟨D, h⟩ := hleads
    have hopen : T.opendir (root ++ ['/'] ++ path) = some (T.children D) := by
      rw [opendir_root hroot, show T.directory _ _ = some D from h]
      rfl
    simp only [listFiles, hopen]
    refine List.flatMap_congr fun f hf => ?_
    split
    · rfl
    · rename_i hhidden
      split
      · rename_i hdir
        obtain ⟨m, hm, htype, -⟩ := shown_of_entry hf (by simpa using hhidden) (by simp [hdir])
        rw [hdir] at htype
        cases m with
        | dir size => exact hbelow D f.name h ⟨size, hm⟩
        | file | link | special => cases htype
      · rfl
  · have hnone : ∀ D, ¬ T.Leads (root ++ path) D := fun D h => hleads ⟨D, h⟩
    rw [listFiles_of_not_leads hroot hnone, listFiles_of_not_leads hroot hnone]

/-- Fuel beyond the depth of the directories changes nothing. -/
theorem listFiles_fuel (hroot : root.getLast? = some '/') {path : Str} (hpath : Slashed path)
    {fuel : Nat} (extra : Nat) (h : T.Leads (root ++ path) D)
    (hdepth : ∀ cs, T.IsDir (D ++ cs) → cs.length < fuel) :
    listFiles T root (fuel + extra) path = listFiles T root fuel path := by
  induction fuel generalizing path D with
  | zero =>
      -- The directory itself is at depth 0, so there is fuel.
      have hD : T.IsDir (D ++ []) := by
        rw [List.append_nil]
        exact SourceTree.isDir_of_directory h
      exact absurd (hdepth [] hD) (Nat.lt_irrefl 0)
  | succ fuel ih =>
      rw [Nat.add_right_comm]
      refine listFiles_succ_congr hroot fun D' c hD' hdir => ?_
      obtain rfl : D = D' := Option.some.inj (h.symm.trans hD')
      refine ih (slashed_append _) (leads_child hroot hpath h hdir) fun cs hcs => ?_
      have hlen := hdepth (c :: cs) (by simpa using hcs)
      exact Nat.lt_of_succ_lt_succ hlen

/-- The walk from any registered directory ends within the fuel. -/
theorem listFiles_ends (hroot : root.getLast? = some '/') (d : Str) (extra : Nat) :
    listFiles T root (T.fuel + extra) d = listFiles T root T.fuel d := by
  unfold SourceTree.fuel
  rw [Nat.add_right_comm]
  refine listFiles_succ_congr hroot fun D c _ _ => ?_
  by_cases hleads : ∃ D', T.Leads (root ++ (d ++ c ++ ['/'])) D'
  · obtain ⟨D', h⟩ := hleads
    rw [Nat.add_right_comm]
    refine listFiles_fuel hroot (slashed_append _) extra h fun cs ⟨size, hcs⟩ => ?_
    exact Nat.lt_succ_of_le (SourceTree.length_le_entries hcs)
  · have hnone : ∀ D', ¬ T.Leads (root ++ (d ++ c ++ ['/'])) D' := fun D' h => hleads ⟨D', h⟩
    rw [listFiles_of_not_leads hroot hnone, listFiles_of_not_leads hroot hnone]

/-! ### The walkthrough -/

theorem mem_foldl_listFiles (T : SourceTree) (root : Str) (ds : List Str) (files : SortedSet Str)
    (n : Str) :
    n ∈ ds.foldl (fun files d => (listFiles T root T.fuel d).foldl SortedSet.insert files) files ↔
      n ∈ files ∨ ∃ d ∈ ds, n ∈ listFiles T root T.fuel d := by
  induction ds generalizing files with
  | nil => simp
  | cons d ds ih => rw [List.foldl_cons, ih, SortedSet.mem_foldl_insert]; simp [or_assoc]

/-- The names of a walkthrough: the registered files, and what is found in the directories. -/
theorem mem_walkthrough (T : SourceTree) (fs : Fileset) (n : Str) :
    n ∈ remiFilesetWalkthrough T fs ↔
      n ∈ fs.files ∨ ∃ d ∈ fs.directories, n ∈ listFiles T fs.root T.fuel d := by
  rw [remiFilesetWalkthrough, mem_foldl_listFiles, SortedSet.mem_foldl_insert]
  simp

/-- What is found behind a name that ends with a slash is below the directory. -/
theorem below_of_mem_listFiles (hroot : root.getLast? = some '/') {d n : Str} (hd : Slashed d)
    (hn : n ∈ listFiles T root T.fuel d) : T.Below root d n := by
  by_cases hleads : ∃ D, T.Leads (root ++ d) D
  · obtain ⟨D, h⟩ := hleads
    obtain ⟨cs, hne, -, hfile, -, rfl⟩ := (mem_listFiles hroot hd h _).mp hn
    exact ⟨D, cs, h, hne, hfile, by rw [dirPart, if_pos hd]⟩
  · rw [listFiles_of_not_leads hroot fun D h => hleads ⟨D, h⟩] at hn
    cases hn

/-- A file that is shown is found. -/
theorem mem_listFiles_of_shown (hroot : root.getLast? = some '/') {d : Str} (hd : Slashed d)
    {cs : Path} (h : T.Leads (root ++ d) D) (hne : cs ≠ []) (hfile : T.HasFile (D ++ cs))
    (hshown : T.Shown D cs) : d ++ relative cs ∈ listFiles T root T.fuel d := by
  obtain ⟨b, hb⟩ := hfile
  have hlen : cs.length ≤ T.fuel := (SourceTree.length_le_entries hb).trans (Nat.le_add_right _ 2)
  exact (mem_listFiles hroot hd h _).mpr ⟨cs, hne, hlen, ⟨b, hb⟩, hshown, rfl⟩

/-- A proper name directly behind the name of a directory is not below the directory. -/
theorem not_below_of_unslashed {d c s : Str} (hd : ¬ Slashed d) (hc : ProperName c) :
    ¬ T.Below root d (d ++ (c ++ s)) := by
  rintro ⟨D, cs, -, -, -, heq⟩
  rw [dirPart, if_neg hd, List.append_assoc, List.append_cancel_left_eq] at heq
  obtain ⟨hnil, -, -, hslash⟩ := hc
  cases c with
  | nil => exact hnil rfl
  | cons x rest =>
      obtain rfl : x = '/' := (List.cons.inj heq).1
      exact hslash List.mem_cons_self

/-- What is found behind a name without a slash at its end. -/
theorem mem_listFiles_unslashed (hroot : root.getLast? = some '/') {d n : Str} :
    n ∈ listFiles T root T.fuel d ↔ ∃ D c, T.Leads (root ++ d) D ∧ T.Shown D [c] ∧
      (T.HasFile (D ++ [c]) ∧ n = d ++ c ∨ T.IsDir (D ++ [c]) ∧ ∃ D' cs,
        T.Leads (root ++ (d ++ c ++ ['/'])) D' ∧ cs ≠ [] ∧ T.HasFile (D' ++ cs) ∧ T.Shown D' cs ∧
          n = d ++ c ++ ['/'] ++ relative cs) := by
  constructor
  · intro hn
    by_cases hleads : ∃ D, T.Leads (root ++ d) D
    · obtain ⟨D, h⟩ := hleads
      obtain ⟨c, hshown, hfile | ⟨hdir, hn'⟩⟩ := (mem_listFiles_succ hroot h).mp hn
      · exact ⟨D, c, h, hshown, Or.inl hfile⟩
      · by_cases hleads' : ∃ D', T.Leads (root ++ (d ++ c ++ ['/'])) D'
        · obtain ⟨D', h'⟩ := hleads'
          obtain ⟨cs, hne, -, hcs⟩ := (mem_listFiles hroot (slashed_append _) h' _).mp hn'
          exact ⟨D, c, h, hshown, Or.inr ⟨hdir, D', cs, h', hne, hcs⟩⟩
        · rw [listFiles_of_not_leads hroot fun D' h' => hleads' ⟨D', h'⟩] at hn'
          cases hn'
    · rw [listFiles_of_not_leads hroot fun D h => hleads ⟨D, h⟩] at hn
      cases hn
  · rintro ⟨D, c, h, hshown, hfile | ⟨hdir, D', cs, h', hne, ⟨b, hb⟩, hcs⟩⟩
    · exact (mem_listFiles_succ hroot h).mpr ⟨c, hshown, Or.inl hfile⟩
    · have hlen : cs.length ≤ T.entries.length + 1 :=
        (SourceTree.length_le_entries hb).trans (Nat.le_add_right _ 1)
      refine (mem_listFiles_succ hroot h).mpr ⟨c, hshown, Or.inr ⟨hdir, ?_⟩⟩
      exact (mem_listFiles hroot (slashed_append _) h' _).mpr ⟨cs, hne, hlen, ⟨b, hb⟩, hcs⟩

/-- Nothing that is found behind a name without a slash is below the directory. -/
theorem not_below_of_mem_unslashed (hroot : root.getLast? = some '/') {d n : Str}
    (hd : ¬ Slashed d) (hn : n ∈ listFiles T root T.fuel d) : ¬ T.Below root d n := by
  obtain ⟨D, c, -, -, ⟨⟨b, hb⟩, rfl⟩ | ⟨⟨size, hsize⟩, D', cs, -, -, -, -, rfl⟩⟩ :=
    (mem_listFiles_unslashed hroot).mp hn
  · have hproper := SourceTree.proper_of_node hb c (by simp)
    intro hbelow
    rw [← List.append_nil c] at hbelow
    exact not_below_of_unslashed hd hproper hbelow
  · have hproper := SourceTree.proper_of_node hsize c (by simp)
    simpa using not_below_of_unslashed hd hproper

end Paths

section Exact
variable {T : SourceTree} {fs : Fileset}

/-- When a name without a slash makes nothing up, nothing is found behind it. -/
theorem WalkthroughExact.unslashed (hroot : fs.root.getLast? = some '/')
    (h : WalkthroughExact T fs) {d : Str} (hd : d ∈ fs.directories) (hslash : ¬ Slashed d)
    (n : Str) : n ∉ listFiles T fs.root T.fuel d :=
  fun hn => not_below_of_mem_unslashed hroot hslash hn (h.found d hd n hn)

theorem Listable.empty (hroot : fs.root.getLast? = some '/') (h : Listable T fs) {d : Str}
    (hd : d ∈ fs.directories) (hslash : ¬ Slashed d) (n : Str) :
    n ∉ listFiles T fs.root T.fuel d := by
  intro hn
  obtain ⟨D, c, hD, hshown, hcase⟩ := (mem_listFiles_unslashed hroot).mp hn
  obtain ⟨hnofile, hnobelow⟩ := h.unslashed d hd hslash D hD c hshown
  rcases hcase with ⟨hfile, -⟩ | ⟨hdir, D', cs, hD', hne, hfile, hcs, -⟩
  · exact hnofile hfile
  · exact hnobelow hdir D' cs hD' hne hfile hcs

/-- The walkthrough is exact if and only if every file below a registered directory is reached,
and nothing is found behind a registered name that does not end with a slash. -/
theorem walkthroughExact_iff (T : SourceTree) {fs : Fileset} (hroot : fs.root.getLast? = some '/') :
    WalkthroughExact T fs ↔ Listable T fs := by
  constructor
  · intro h
    refine ⟨fun d hd n hn => ?_, fun d hd hslash D hD c hshown => ⟨fun hfile => ?_, ?_⟩⟩
    · rcases (mem_walkthrough T fs n).mp ((h.names n).mpr (Or.inr ⟨d, hd, hn⟩)) with
        hreg | ⟨d', hd', hn'⟩
      · exact Or.inl hreg
      · by_cases hslash : Slashed d'
        · by_cases hleads : ∃ D, T.Leads (fs.root ++ d') D
          · obtain ⟨D, hD⟩ := hleads
            obtain ⟨cs, hne, -, hcs⟩ := (mem_listFiles hroot hslash hD _).mp hn'
            exact Or.inr ⟨d', hd', hslash, D, cs, hD, hne, hcs⟩
          · rw [listFiles_of_not_leads hroot fun D hD => hleads ⟨D, hD⟩] at hn'
            cases hn'
        · exact absurd hn' (h.unslashed hroot hd' hslash n)
    · refine h.unslashed hroot hd hslash (d ++ c) ((mem_listFiles_unslashed hroot).mpr ?_)
      exact ⟨D, c, hD, hshown, Or.inl ⟨hfile, rfl⟩⟩
    · intro hdir D' cs hD' hne hfile hcs
      refine h.unslashed hroot hd hslash (d ++ c ++ ['/'] ++ relative cs)
        ((mem_listFiles_unslashed hroot).mpr ?_)
      exact ⟨D, c, hD, hshown, Or.inr ⟨hdir, D', cs, hD', hne, hfile, hcs, rfl⟩⟩
  · intro h
    have hfound : ∀ d ∈ fs.directories, ∀ n ∈ listFiles T fs.root T.fuel d,
        T.Below fs.root d n := by
      intro d hd n hn
      by_cases hslash : Slashed d
      · exact below_of_mem_listFiles hroot hslash hn
      · exact absurd hn (h.empty hroot hd hslash n)
    refine ⟨listFiles_ends hroot, (remiFilesetWalkthrough T fs).sorted, fun n => ?_, hfound⟩
    rw [mem_walkthrough]
    constructor
    · exact Or.imp_right fun ⟨d, hd, hn⟩ => ⟨d, hd, hfound d hd n hn⟩
    · rintro (hreg | ⟨d, hd, hn⟩)
      · exact Or.inl hreg
      · rcases h.reached d hd n hn with hreg | ⟨d', hd', hslash, D, cs, hD, hne, hfile, hcs, rfl⟩
        · exact Or.inl hreg
        · exact Or.inr ⟨d', hd', mem_listFiles_of_shown hroot hslash hD hne hfile hcs⟩

/-- In a tree without hidden names that reports all types, everything is shown. -/
theorem shown_of_node (hclean : ∀ e ∈ T.entries, e.typeKnown = true ∧ ∀ c ∈ e.path,
    c.head? ≠ some '.') {D cs : Path} {n : SourceNode} (h : T.node? (D ++ cs) = some n) :
    T.Shown D cs := by
  induction cs generalizing D with
  | nil => trivial
  | cons c rest ih =>
      have happend : D ++ c :: rest = D ++ [c] ++ rest := by simp
      rw [happend] at h
      obtain ⟨m, hm⟩ : ∃ m, T.node? (D ++ [c]) = some m := by
        by_cases hrest : rest = []
        · subst hrest
          exact ⟨n, by simpa using h⟩
        · obtain ⟨size, hdir⟩ := SourceTree.isDir_of_append hrest h
          exact ⟨_, hdir⟩
      obtain ⟨e, he, hpath, -⟩ := SourceTree.entry_of_node (by simp) hm
      obtain ⟨hknown, hnames⟩ := hclean e he
      exact ⟨hnames c (by simp [hpath]), ⟨e, he, hpath, hknown⟩, ih h⟩

/-- There a walkthrough is exact when all registered names end with a slash. -/
theorem listable_of_clean (hclean : ∀ e ∈ T.entries, e.typeKnown = true ∧ ∀ c ∈ e.path,
    c.head? ≠ some '.') (hslash : ∀ d ∈ fs.directories, Slashed d) : Listable T fs where
  reached d hd n hn := by
    obtain ⟨D, cs, hD, hne, ⟨b, hb⟩, rfl⟩ := hn
    refine Or.inr ⟨d, hd, hslash d hd, D, cs, hD, hne, ⟨b, hb⟩, shown_of_node hclean hb, ?_⟩
    rw [dirPart, if_pos (hslash d hd)]
  unslashed d hd hnot := absurd (hslash d hd) hnot

end Exact

/-! ### A small tree -/

/-- The directory `/a` with the directory `d`, which has the file `f` in it. -/
private def nestedTree : SourceTree where
  entries := [⟨[['a']], .dir 0, 0, true⟩, ⟨[['a'], ['d']], .dir 0, 0, true⟩,
    ⟨[['a'], ['d'], ['f']], .file ⟨[1], by decide⟩, 0, true⟩]
  names := by decide
  nodup := by decide
  parents := by decide

/-- The root `/a/` with one registered directory. -/
private def oneDirectory (d : Str) : Fileset :=
  ⟨['c'], 0, ['/', 'a', '/'], .empty, .empty, SortedSet.empty.insert d, defaultXferSize⟩

/-- With the name `d/`, the file is found. -/
theorem walkthroughExact_slash : WalkthroughExact nestedTree (oneDirectory ['d', '/']) :=
  (walkthroughExact_iff nestedTree (show (oneDirectory ['d', '/']).root.getLast? = some '/' by
    decide)).mpr (listable_of_clean (by decide) (by decide))

/-- With the name `d`, the callback is called on `df`. -/
theorem not_walkthroughExact_noSlash : ¬ WalkthroughExact nestedTree (oneDirectory ['d']) := by
  intro h
  have hcalled : ['d', 'f'] ∈ listFiles nestedTree ['/', 'a', '/'] nestedTree.fuel ['d'] := by
    decide
  have hroot : (oneDirectory ['d']).root.getLast? = some '/' := by decide
  exact h.unslashed hroot (show ['d'] ∈ (oneDirectory ['d']).directories by decide) (by decide) _
    hcalled

end Remi
