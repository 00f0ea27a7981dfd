import Remi.Proofs.Client
import Remi.Proofs.Remains
import Remi.Server.Sequential

/-!
# `Remi.Proofs.Removal`: what the client removes from the source

`removeCalls` lists the path strings that `removeRec` would remove if the tree stayed as it is.
It sees more than `listFiles` does: entries that are no directory are removed whatever they are,
and a registered name that does not end with a slash is removed as it is, and stands directly in
front of the names of the entries.

`SeesSame` says when this makes no difference. Then nothing is lost (`removeSources_noLoss`). On
straight ways to the registered directories everything that `removeRec` can see is gone at the end
(`removeSources_takes`), so there the condition is also necessary.
-/

set_option autoImplicit false

namespace Remi

open Remi.Lib

/-! ### The calls of `removeRec` -/

/-- The path strings that `removeRec` calls `remove` on, when the tree stays as it is. -/
def removeCalls (T : SourceTree) : Nat → Str → List Str
  | 0, _ => []
  | fuel + 1, path =>
    (match T.opendir path with
      | none => []
      | some dir => dir.flatMap fun (f : Dirent) =>
          if f.hidden then []
          else if f.type = DType.dir then removeCalls T fuel (path ++ f.name ++ ['/'])
          else [path ++ f.name]) ++ [path]

section Calls
variable {T : SourceTree} {I : RemoveState → Prop}

/-- What `removeRec` does with the entry `f` of the directory `path`. -/
def removeEntry (fuel : Nat) (path : Str) (st : RemoveState) (f : Dirent) : RemoveState :=
  if f.hidden then st
  else if f.type = DType.dir then removeRec fuel (path ++ f.name ++ ['/']) st
  else st.remove (path ++ f.name)

theorem removeRec_succ (fuel : Nat) (path : Str) (st : RemoveState) :
    removeRec (fuel + 1) path st = (match st.tree.opendir path with
      | none => st
      | some dir => dir.foldl (removeEntry fuel path) st).remove path := rfl

/-- `removeRec` keeps what the calls of `remove` keep. -/
theorem removeRec_keeps (hI : ∀ st, I st → st.tree.Remains T) {fuel : Nat} {path : Str}
    (h : ∀ s ∈ removeCalls T fuel path, ∀ st, I st → I (st.remove s)) {st : RemoveState}
    (hst : I st) : I (removeRec fuel path st) := by
  -- By induction on the fuel. The calls are made in a tree from which some entries have gone,
  -- which `Remains` bounds.
  induction fuel generalizing path st with
  | zero => exact hst
  | succ fuel ih =>
      rw [removeRec_succ]
      refine h path (List.mem_append_right _ (List.mem_singleton_self _)) _ ?_
      cases hopen : st.tree.opendir path with
      | none => exact hst
      | some dir =>
          -- What is listed now is in the directory at the beginning.
          obtain ⟨D, hD, rfl⟩ := SourceTree.opendir_some hopen
          have hpath : path ≠ [] := by
            rintro rfl
            cases hopen
          have hcalls : ∀ f ∈ st.tree.children D, ∀ s ∈ (if f.hidden then []
              else if f.type = DType.dir then removeCalls T fuel (path ++ f.name ++ ['/'])
              else [path ++ f.name]), s ∈ removeCalls T (fuel + 1) path := by
            intro f hf s hs
            rw [removeCalls, SourceTree.opendir_of_leads hpath ((hI st hst).leads hD)]
            exact List.mem_append_left _
              (List.mem_flatMap.mpr ⟨f, (hI st hst).children hf, hs⟩)
          refine List.foldlRecOn _ _ hst fun st' hst' f hf => ?_
          have hentry := hcalls f hf
          unfold removeEntry
          split
          · exact hst'
          · rename_i hhidden
            rw [if_neg hhidden] at hentry
            split
            · rename_i hdir
              rw [if_pos hdir] at hentry
              exact ih (fun s hs => h s (hentry s hs)) hst'
            · rename_i hdir
              rw [if_neg hdir] at hentry
              exact h _ (hentry _ (List.mem_singleton_self _)) st' hst'

end Calls

/-! ### Where the calls lead -/

section Places
variable {T : SourceTree} {root : Str} {D : Path}

/-- The entry that a path string names, when it is a directory, is where the string leads. -/
theorem leads_of_locate {s : Str} {p : Path} (h : T.locate s = some p) (hdir : T.IsDir p) :
    T.Leads s p := by
  unfold SourceTree.locate at h
  cases hlast : (components s).getLast? with
  | none =>
      rw [hlast] at h
      cases h
  | some name =>
      rw [hlast] at h
      obtain ⟨D, hD, rfl⟩ := Option.map_eq_some_iff.mp h
      have happend := SourceTree.directory_append hD hdir
      rwa [List.dropLast_append_getLast? name hlast] at happend

/-- The place of an entry behind a path that ends with a slash. -/
theorem locate_child (hroot : root.getLast? = some '/') {path c : Str} (hpath : Slashed path)
    (h : T.Leads (root ++ path) D) (hc : ProperName c) :
    T.locate (root ++ (path ++ c)) = some (D ++ [c]) := by
  unfold SourceTree.Leads at h
  rw [start_root hroot] at h
  simp only [SourceTree.locate, components_name hroot hpath hc, List.getLast?_concat,
    List.dropLast_concat, start_root hroot, h, Option.map_some]

/-- The place of what is found by a walkthrough. -/
theorem locate_relative (hroot : root.getLast? = some '/') {d : Str} {cs : Path} {n : SourceNode}
    (hd : Slashed d) (h : T.Leads (root ++ d) D) (hne : cs ≠ [])
    (hn : T.node? (D ++ cs) = some n) : T.locate (root ++ (d ++ relative cs)) = some (D ++ cs) := by
  induction cs generalizing d D with
  | nil => exact absurd rfl hne
  | cons c rest ih =>
      have hc := SourceTree.proper_of_node hn c (by simp)
      by_cases hrest : rest = []
      · subst hrest
        exact locate_child hroot hd h hc
      · have happend : D ++ c :: rest = D ++ [c] ++ rest := by simp
        rw [happend] at hn ⊢
        have hdir := SourceTree.isDir_of_append hrest hn
        have hplace := ih (slashed_append _) (leads_child hroot hd h hdir) hrest hn
        rw [relative_cons hrest]
        rwa [show d ++ (c ++ '/' :: relative rest) = d ++ c ++ ['/'] ++ relative rest by simp]

theorem shown_append {cs cs' : Path} (h : T.Shown D cs) (h' : T.Shown (D ++ cs) cs') :
    T.Shown D (cs ++ cs') := by
  induction cs generalizing D with
  | nil => rwa [List.append_nil] at h'
  | cons c rest ih =>
      obtain ⟨hc, hentry, hrest⟩ := h
      exact ⟨hc, hentry, ih hrest (by simpa using h')⟩

end Places

/-! ### The specification -/

/-- The entry at `p` is one of the migrated files. -/
def IsMigrated (T : SourceTree) (fs : Fileset) (p : Path) : Prop :=
  ∃ n ∈ remiFilesetWalkthrough T fs, T.locate (fs.root ++ n) = some p

/-- The place `p` is a registered directory, or below one. -/
def Within (T : SourceTree) (fs : Fileset) (p : Path) : Prop :=
  ∃ d ∈ fs.directories, ∃ D, T.Leads (fs.root ++ d) D ∧ D <+: p

/-- What the loop over the names of the walkthrough removes. -/
def removeNames (T : SourceTree) (fs : Fileset) : RemoveState :=
  (remiFilesetWalkthrough T fs).toList.foldl (fun st n => st.remove (fs.root ++ n)) ⟨T, []⟩

/-- The removal has lost nothing. An entry that is no directory has been migrated. A directory is
a registered one or below one, and was empty. `removeRec` has removed nothing outside the
registered directories. -/
structure NoLoss (T : SourceTree) (fs : Fileset) (st : RemoveState) : Prop where
  files : ∀ r ∈ st.removed, r.node.isDir = false → IsMigrated T fs r.place
  dirs : ∀ r ∈ st.removed, r.node.isDir = true → Within T fs r.place
  empty : ∀ before r after, st.removed = before ++ r :: after → ∀ e ∈ T.entries,
    r.place <+: e.path → e.path ≠ r.place → ∃ r' ∈ before, r'.place = e.path
  inside : ∀ r ∈ st.removed, r ∉ (removeNames T fs).removed → Within T fs r.place

/-- The path string names no entry, and leads to no directory. -/
def SourceTree.NamesNothing (T : SourceTree) (s : Str) : Prop :=
  (∀ e ∈ T.entries, T.locate s ≠ some e.path) ∧ ∀ D, ¬ T.Leads s D

/-- `removeRec` sees the same as `listFiles`. What it gets to through a registered name that ends
with a slash is a regular file that is reported as one, or has been migrated for another reason.
A name without a slash names no entry but a directory, and nothing when the name of an entry of
that directory is put behind it. A name of the walkthrough names no directory outside the
registered ones. -/
structure SeesSame (T : SourceTree) (fs : Fileset) : Prop where
  slashed : ∀ d ∈ fs.directories, Slashed d → ∀ D, T.Leads (fs.root ++ d) D → ∀ cs c,
    T.Shown D cs → c.head? ≠ some '.' → ∀ e ∈ T.entries, e.path = D ++ cs ++ [c] →
      e.node.isDir = false → e.typeKnown = true ∧ T.HasFile e.path ∨ IsMigrated T fs e.path
  unslashed : ∀ d ∈ fs.directories, ¬ Slashed d →
    (∀ e ∈ T.entries, T.locate (fs.root ++ d) = some e.path → e.node.isDir = true) ∧
      ∀ D, T.Leads (fs.root ++ d) D → ∀ f ∈ T.children D, f.hidden = false →
        T.NamesNothing (fs.root ++ (d ++ f.name))
  names : ∀ n ∈ remiFilesetWalkthrough T fs, ∀ e ∈ T.entries,
    T.locate (fs.root ++ n) = some e.path → e.node.isDir = true → Within T fs e.path

/-! ### No call takes what must stay -/

/-- What a call of `removeRec` on `s` may take. -/
def MayTake (T : SourceTree) (fs : Fileset) (s : Str) : Prop :=
  ∀ e ∈ T.entries, T.locate s = some e.path → (e.node.isDir = false → s.getLast? ≠ some '/') →
    Within T fs e.path ∧ (e.node.isDir = false → IsMigrated T fs e.path)

section SeesSame
variable {T : SourceTree} {fs : Fileset} {d : Str}

/-- A registered directory itself may be taken. -/
theorem mayTake_directory {s : Str} {D : Path} (hd : d ∈ fs.directories)
    (hD : T.Leads (fs.root ++ d) D) {cs : Path} (hs : T.Leads s (D ++ cs))
    (hdir : ∀ e ∈ T.entries, T.locate s = some e.path →
      (e.node.isDir = false → s.getLast? ≠ some '/') → e.node.isDir = true) :
    MayTake T fs s := by
  intro e he hlocate hslash
  have hnode := hdir e he hlocate hslash
  have hpath : D ++ cs = e.path := Option.some.inj
    (hs.symm.trans (leads_of_locate hlocate (SourceTree.isDir_entry he hnode)))
  refine ⟨⟨d, hd, D, hD, hpath ▸ List.prefix_append D cs⟩, fun hnot => ?_⟩
  rw [hnode] at hnot
  cases hnot

/-- Everything that `removeRec` gets to below a name that ends with a slash may be taken. -/
theorem mayTake_below (h : SeesSame T fs) (hroot : fs.root.getLast? = some '/')
    (hd : d ∈ fs.directories) (hslash : Slashed d) {D : Path} (hD : T.Leads (fs.root ++ d) D)
    {fuel : Nat} {path : Str} {cs : Path} (hpath : Slashed path)
    (hcs : T.Leads (fs.root ++ path) (D ++ cs)) (hshown : T.Shown D cs) :
    ∀ s ∈ removeCalls T fuel (fs.root ++ path), MayTake T fs s := by
  -- By induction on the fuel, along the names that are shown.
  induction fuel generalizing path cs with
  | zero => nofun
  | succ fuel ih =>
      have hlast := getLast?_slashed hroot hpath
      have hne : fs.root ++ path ≠ [] := by
        intro hnil
        rw [hnil] at hlast
        cases hlast
      intro s hs
      rw [removeCalls, SourceTree.opendir_of_leads hne hcs] at hs
      rcases List.mem_append.mp hs with hs | hs
      · obtain ⟨f, hf, hs⟩ := List.mem_flatMap.mp hs
        split at hs
        · cases hs
        · rename_i hhidden
          have hhidden' : f.hidden = false := by simpa using hhidden
          split at hs
          · -- The recursion goes to the directory of the entry.
            rename_i hdir
            obtain ⟨n, hn, htype, hf'⟩ := shown_of_entry hf hhidden' (by rw [hdir]; nofun)
            have hisDir : T.IsDir (D ++ cs ++ [f.name]) := by
              rw [hdir] at htype
              cases n with
              | dir size => exact ⟨size, hn⟩
              | file | link | special => cases htype
            have hchild := leads_child hroot hpath hcs hisDir
            rw [List.append_assoc D] at hchild
            refine ih (slashed_append _) hchild (shown_append hshown hf') s ?_
            simpa [List.append_assoc] using hs
          · rename_i hdir
            -- What is not listed as a directory is removed by its name.
            obtain rfl := List.mem_singleton.mp hs
            obtain ⟨e', he', hpath', htype⟩ := SourceTree.mem_children.mp hf
            intro e he hlocate _
            have hproper := T.names e' he' f.name (by rw [hpath']; simp)
            rw [List.append_assoc, locate_child hroot hpath hcs hproper] at hlocate
            have heq : e.path = D ++ cs ++ [f.name] := (Option.some.inj hlocate).symm
            obtain rfl := SourceTree.entry_unique he he' (heq.trans hpath'.symm)
            refine ⟨⟨d, hd, D, hD, ?_⟩, fun hnode => ?_⟩
            · rw [heq, List.append_assoc]
              exact List.prefix_append _ _
            · rcases h.slashed d hd hslash D hD cs f.name hshown (of_decide_eq_false hhidden') e he
                heq hnode with ⟨hknown, hfile⟩ | hmigrated
              · -- A file that is reported as one has been listed.
                have hf' : T.Shown (D ++ cs) [f.name] :=
                  ⟨of_decide_eq_false hhidden', ⟨e, he, heq, hknown⟩, trivial⟩
                rw [heq, List.append_assoc] at hfile ⊢
                refine ⟨d ++ relative (cs ++ [f.name]), (mem_walkthrough T fs _).mpr
                  (Or.inr ⟨d, hd, mem_listFiles_of_shown hroot hslash hD (by simp) hfile
                    (shown_append hshown hf')⟩), ?_⟩
                obtain ⟨b, hb⟩ := hfile
                exact locate_relative hroot hslash hD (by simp) hb
              · exact hmigrated
      · obtain rfl := List.mem_singleton.mp hs
        refine mayTake_directory hd hD hcs fun e _ _ hallowed => ?_
        cases hnode : e.node.isDir with
        | true => rfl
        | false => exact absurd hlast (hallowed hnode)

/-- A path string that names nothing, with a slash behind it. -/
theorem SourceTree.NamesNothing.slash {s : Str} (hs : s ≠ []) (h : T.NamesNothing s) :
    T.NamesNothing (s ++ ['/']) := by
  have hstart : T.start (s ++ ['/']) = T.start s := by
    cases s with
    | nil => exact absurd rfl hs
    | cons c s => rfl
  unfold NamesNothing SourceTree.locate Leads at h ⊢
  rwa [components_append_singleton, hstart]

/-- Behind a path string that names nothing there is no call that takes anything. -/
theorem SourceTree.NamesNothing.mayTake {path : Str} (h : T.NamesNothing path) {fuel : Nat} :
    ∀ s ∈ removeCalls T fuel path, MayTake T fs s := by
  cases fuel with
  | zero => nofun
  | succ fuel =>
      intro s hs e he hlocate _
      have hnone : T.opendir path = none := by
        cases hopen : T.opendir path with
        | none => rfl
        | some dir =>
            obtain ⟨D, hD, -⟩ := SourceTree.opendir_some hopen
            exact absurd hD (h.2 D)
      rw [removeCalls, hnone] at hs
      obtain rfl := List.mem_singleton.mp hs
      exact absurd hlocate (h.1 e he)

/-- Everything that `removeRec` gets to through a registered name may be taken. -/
theorem mayTake_registered (h : SeesSame T fs) (hroot : fs.root.getLast? = some '/')
    (hd : d ∈ fs.directories) (fuel : Nat) :
    ∀ s ∈ removeCalls T fuel (fs.root ++ d), MayTake T fs s := by
  have hne : ∀ n, fs.root ++ n ≠ [] := by
    intro n hnil
    rw [(List.append_eq_nil_iff.mp hnil).1] at hroot
    cases hroot
  by_cases hleads : ∃ D, T.Leads (fs.root ++ d) D
  · obtain ⟨D, hD⟩ := hleads
    by_cases hslash : Slashed d
    · have hD' : T.Leads (fs.root ++ d) (D ++ []) := by rwa [List.append_nil]
      exact mayTake_below h hroot hd hslash hD hslash hD' trivial
    · -- Without a slash at its end the name runs into those of the entries. What is then named is
      -- in the condition.
      obtain ⟨hself, hentries⟩ := h.unslashed d hd hslash
      cases fuel with
      | zero => nofun
      | succ fuel =>
          intro s hs
          rw [removeCalls, SourceTree.opendir_of_leads (hne d) hD] at hs
          rcases List.mem_append.mp hs with hs | hs
          · obtain ⟨f, hf, hs⟩ := List.mem_flatMap.mp hs
            split at hs
            · cases hs
            · rename_i hhidden
              have hnothing := hentries D hD f hf (by simpa using hhidden)
              rw [← List.append_assoc] at hnothing
              split at hs
              · refine (hnothing.slash ?_).mayTake s hs
                rw [List.append_assoc]
                exact hne _
              · obtain rfl := List.mem_singleton.mp hs
                exact fun e he hlocate _ => absurd hlocate (hnothing.1 e he)
          · obtain rfl := List.mem_singleton.mp hs
            exact mayTake_directory hd hD (by rwa [List.append_nil])
              fun e he hlocate _ => hself e he hlocate
  · -- The name leads to no directory, so `removeRec` only calls `remove` on it.
    have hnone : T.opendir (fs.root ++ d) = none := by
      cases hopen : T.opendir (fs.root ++ d) with
      | none => rfl
      | some dir =>
          obtain ⟨D, hD, -⟩ := SourceTree.opendir_some hopen
          exact absurd ⟨D, hD⟩ hleads
    cases fuel with
    | zero => nofun
    | succ fuel =>
        intro s hs e he hlocate hallowed
        rw [removeCalls, hnone] at hs
        obtain rfl := List.mem_singleton.mp hs
        have hnode : e.node.isDir = true := by
          by_cases hslash : Slashed d
          · cases hnode : e.node.isDir with
            | true => rfl
            | false => exact absurd (getLast?_slashed hroot hslash) (hallowed hnode)
          · exact (h.unslashed d hd hslash).1 e he hlocate
        exact absurd ⟨_, leads_of_locate hlocate (SourceTree.isDir_entry he hnode)⟩ hleads

/-! ### The removal -/

/-- A call that may take what it takes loses nothing. -/
theorem NoLoss.remove {st : RemoveState} (hst : Removing T st ∧ NoLoss T fs st) {s : Str}
    (hs : MayTake T fs s) : Removing T (st.remove s) ∧ NoLoss T fs (st.remove s) := by
  obtain ⟨hremoving, h⟩ := hst
  refine ⟨hremoving.remove s, ?_⟩
  rcases st.remove_cases s with hnone | ⟨e, he, hlocate, hallowed, -, hremoved, -, -⟩
  · rw [hnone]
    exact h
  · obtain ⟨hwithin, hmigrated⟩ := hs e (hremoving.remains.entries e he)
      (hremoving.remains.locate hlocate) hallowed
    have hcases : ∀ r ∈ (st.remove s).removed, r ∈ st.removed ∨ r = ⟨e.path, e.node⟩ := by
      intro r hr
      rw [hremoved] at hr
      exact (List.mem_append.mp hr).imp_right List.mem_singleton.mp
    refine ⟨fun r hr hnode => ?_, fun r hr hnode => ?_, (hremoving.remove s).below,
      fun r hr hnot => ?_⟩
    · rcases hcases r hr with hr | rfl
      · exact h.files r hr hnode
      · exact hmigrated hnode
    · rcases hcases r hr with hr | rfl
      · exact h.dirs r hr hnode
      · exact hwithin
    · rcases hcases r hr with hr | rfl
      · exact h.inside r hr hnot
      · exact hwithin

/-- The loop over the names takes migrated files, and registered directories. -/
theorem removeNames_noLoss (h : SeesSame T fs) :
    Removing T (removeNames T fs) ∧ NoLoss T fs (removeNames T fs) := by
  have hloop : Removing T (removeNames T fs) ∧ ∀ r ∈ (removeNames T fs).removed,
      (r.node.isDir = false → IsMigrated T fs r.place) ∧
        (r.node.isDir = true → Within T fs r.place) := by
    refine List.foldlRecOn (motive := fun st => Removing T st ∧ ∀ r ∈ st.removed,
      (r.node.isDir = false → IsMigrated T fs r.place) ∧
        (r.node.isDir = true → Within T fs r.place)) _ _ ⟨.start T, nofun⟩ ?_
    rintro st ⟨hremoving, hst⟩ n hn
    refine ⟨hremoving.remove _, fun r hr => ?_⟩
    rcases st.remove_cases (fs.root ++ n) with hnone | ⟨e, he, hlocate, -, -, hremoved, -, -⟩
    · rw [hnone] at hr
      exact hst r hr
    · have hlocate := hremoving.remains.locate hlocate
      rw [hremoved] at hr
      rcases List.mem_append.mp hr with hr | hr
      · exact hst r hr
      · obtain rfl := List.mem_singleton.mp hr
        exact ⟨fun _ => ⟨n, hn, hlocate⟩,
          h.names n hn e (hremoving.remains.entries e he) hlocate⟩
  exact ⟨hloop.1, fun r hr => (hloop.2 r hr).1, fun r hr => (hloop.2 r hr).2, hloop.1.below,
    fun r hr hnot => absurd hr hnot⟩

theorem removeSources_noLoss (h : SeesSame T fs) (hroot : fs.root.getLast? = some '/') :
    Removing T (removeSources T fs (remiFilesetWalkthrough T fs)) ∧
      NoLoss T fs (removeSources T fs (remiFilesetWalkthrough T fs)) := by
  refine List.foldlRecOn (motive := fun st => Removing T st ∧ NoLoss T fs st) _ _
    (removeNames_noLoss h) fun st hst d hd => ?_
  exact removeRec_keeps (I := fun st => Removing T st ∧ NoLoss T fs st)
    (fun _ hst' => hst'.1.remains)
    (fun s hs _ hst' => NoLoss.remove hst' (mayTake_registered h hroot hd _ s hs)) hst

end SeesSame

/-! ### What `removeRec` takes for certain -/

section Takes
variable {T : SourceTree} {st : RemoveState}

theorem removeRec_remains (fuel : Nat) (path : Str) (st : RemoveState) :
    (removeRec fuel path st).tree.Remains st.tree :=
  removeRec_keeps (I := fun st' => st'.tree.Remains st.tree) (fun _ h => h)
    (fun s _ st' h => (st'.remove_remains s).trans h) (.refl _)

theorem removeEntry_remains (fuel : Nat) (path : Str) (st : RemoveState) (f : Dirent) :
    (removeEntry fuel path st f).tree.Remains st.tree := by
  unfold removeEntry
  split
  · exact .refl _
  · split
    · exact removeRec_remains _ _ _
    · exact st.remove_remains _

theorem foldl_remains {α : Type} {step : RemoveState → α → RemoveState}
    (hstep : ∀ st a, (step st a).tree.Remains st.tree) (l : List α) (st : RemoveState) :
    (l.foldl step st).tree.Remains st.tree :=
  List.foldlRecOn (motive := fun st' => st'.tree.Remains st.tree) l step (.refl _)
    fun st' h a _ => (hstep st' a).trans h

/-- A directory is where its own path leads, as no link is on the way. -/
theorem leads_self {s : Str} {D : Path} (hstart : s.head? = some '/') (hs : components s = D)
    (hD : T.IsDir D) : T.Leads s D := by
  obtain ⟨size, hsize⟩ := hD
  have hfollow : T.follow (SourceTree.maxLinks + 1) [] D = some D :=
    SourceTree.walk_entries (D := []) _ (n := .dir size) nofun hsize
  have hlookup : T.lookup [] D = some (D, .dir size) := by
    rw [SourceTree.lookup, hfollow, Option.bind_some, hsize]
    rfl
  rw [SourceTree.Leads, SourceTree.start, if_pos hstart, hs, SourceTree.directory, hlookup]

/-- A name that does not begin with a dot does not make a path string end in one. -/
theorem endsInDot_name {path c : Str} (hpath : path ≠ []) (hc : ProperName c)
    (hhidden : c.head? ≠ some '.') : SourceTree.endsInDot (path ++ c) = false := by
  obtain ⟨hnil, -, -, hslash⟩ := hc
  refine decide_eq_false ?_
  rintro (hdot | ⟨t, ht⟩)
  · have hlen := congrArg List.length hdot
    rw [List.length_append, List.length_singleton] at hlen
    have hpos := List.length_pos_iff.mpr hpath
    have hpos' := List.length_pos_iff.mpr hnil
    omega
  · rcases List.append_eq_append_iff.mp ht with ⟨a, -, ha⟩ | ⟨b, -, rfl⟩
    · -- The name is a part of the two characters.
      match a, ha with
      | [], ha => exact hslash (by rw [show c = ['/', '.'] from ha.symm]; simp)
      | [_], ha =>
          obtain rfl : c = ['.'] := (List.cons.inj ha).2.symm
          exact hhidden rfl
      | _ :: _ :: a, ha =>
          have hc := (List.cons.inj (List.cons.inj ha).2).2
          exact hnil (List.append_eq_nil_iff.mp hc.symm).2
    · exact hslash (by simp)

/-- An entry that is no directory is taken when the path string is the one of its place. -/
theorem remove_takes {path c : Str} {D : Path} (hpath : path.getLast? = some '/')
    (hD : st.tree.Leads path D) {e : TreeEntry} (he : e ∈ st.tree.entries)
    (hplace : e.path = D ++ [c]) (hnode : e.node.isDir = false) (hhidden : c.head? ≠ some '.') :
    e ∉ (st.remove (path ++ c)).tree.entries := by
  have hc := st.tree.names e he c (by rw [hplace]; simp)
  have hne : path ≠ [] := by
    rintro rfl
    cases hpath
  have hlocate : st.tree.locate (path ++ c) = some e.path := by
    have hchild := locate_child hpath (Or.inl rfl) (by rwa [List.append_nil]) hc
    rwa [List.nil_append, ← hplace] at hchild
  have hlast : (path ++ c).getLast? ≠ some '/' := by
    intro hlast
    rw [List.getLast?_append, Option.or_eq_some_iff] at hlast
    rcases hlast with hlast | ⟨hnone, -⟩
    · exact hc.2.2.2 (List.mem_of_getLast? hlast)
    · exact hc.1 (List.getLast?_eq_none_iff.mp hnone)
  have hremove := SourceTree.remove_of_locate he hlocate (endsInDot_name hne hc hhidden)
    (fun _ => hlast) (st.tree.no_children_of_not_dir he hnode)
  unfold RemoveState.remove
  rw [hremove]
  exact fun hthere => of_decide_eq_true (List.mem_filter.mp hthere).2 rfl

/-- `removeRec` on the path string of a directory takes what is no directory below it, where the
names are shown on the way. -/
theorem removeRec_takes (hst : st.tree.Remains T) {fuel : Nat} {path : Str} {D cs : Path}
    (hhead : path.head? = some '/') (hlast : path.getLast? = some '/')
    (hpath : components path = D) (hshown : T.Shown D cs) (hfuel : cs.length < fuel)
    {e : TreeEntry} {c : Str} (hplace : e.path = D ++ cs ++ [c]) (hnode : e.node.isDir = false)
    (hhidden : c.head? ≠ some '.') : e ∉ (removeRec fuel path st).tree.entries := by
  -- By induction on the fuel, along the names on the way to the entry.
  induction fuel generalizing path D cs st with
  | zero => exact absurd hfuel (Nat.not_lt_zero _)
  | succ fuel ih =>
      by_cases he : e ∈ st.tree.entries
      · have hentry := SourceTree.node_entry he
        rw [hplace, List.append_assoc] at hentry
        have hD := leads_self hhead hpath (SourceTree.isDir_of_append (by simp) hentry)
        have hne : path ≠ [] := by
          rintro rfl
          cases hlast
        -- The first name on the way is listed, and what is done with it takes the entry.
        have hfirst : ∃ f ∈ st.tree.children D, ∀ st' : RemoveState, st'.tree.Remains st.tree →
            e ∉ (removeEntry fuel path st' f).tree.entries := by
          cases cs with
          | nil =>
              rw [List.append_nil] at hplace
              refine ⟨⟨c, if e.typeKnown then e.node.dType else .unknown⟩,
                SourceTree.mem_children.mpr ⟨e, he, hplace, rfl⟩, fun st' hst' => ?_⟩
              have htype : ¬ (if e.typeKnown then e.node.dType else .unknown) = DType.dir := by
                cases hkind : e.node with
                | dir size => simp [hkind, SourceNode.isDir] at hnode
                | file | link | special => split <;> simp [SourceNode.dType]
              by_cases he' : e ∈ st'.tree.entries
              · have hentry' := SourceTree.node_entry he'
                rw [hplace] at hentry'
                have hD' := leads_self hhead hpath (SourceTree.isDir_of_child hentry')
                rw [removeEntry, if_neg (by simpa [Dirent.hidden] using hhidden), if_neg htype]
                exact remove_takes hlast hD' he' hplace hnode hhidden
              · exact fun hthere => he' ((removeEntry_remains _ _ _ _).entries e hthere)
          | cons c₁ rest =>
              obtain ⟨hc₁, ⟨e₁, he₁, hplace₁, hknown⟩, hrest⟩ := hshown
              have hnext : D ++ (c₁ :: rest ++ [c]) = D ++ [c₁] ++ (rest ++ [c]) := by simp
              rw [hnext] at hentry
              obtain ⟨size, hsize⟩ := SourceTree.isDir_of_append (by simp) hentry
              obtain ⟨e₂, he₂, hplace₂, hkind⟩ := SourceTree.entry_of_node (by simp) hsize
              obtain rfl : e₂ = e₁ :=
                SourceTree.entry_unique (hst.entries _ he₂) he₁ (hplace₂.trans hplace₁.symm)
              refine ⟨⟨c₁, .dir⟩, SourceTree.mem_children.mpr
                ⟨e₂, he₂, hplace₂, by simp [hknown, hkind, SourceNode.dType]⟩,
                fun st' hst' => ?_⟩
              have hproper := T.names e₂ he₁ c₁ (by rw [hplace₁]; simp)
              have hcomponents : components (path ++ c₁ ++ ['/']) = D ++ [c₁] := by
                have hname := components_name hlast (Or.inl rfl) hproper
                rw [List.nil_append, List.append_nil, hpath] at hname
                rw [components_append_singleton, hname]
              have hhead' : (path ++ c₁ ++ ['/']).head? = some '/' := by
                rw [List.append_assoc, List.head?_append, hhead]
                rfl
              rw [removeEntry, if_neg (by simpa [Dirent.hidden] using hc₁), if_pos rfl]
              exact ih (hst'.trans hst) hhead' List.getLast?_concat hcomponents hrest
                (Nat.lt_of_succ_lt_succ hfuel) (by rw [hplace]; simp)
        obtain ⟨f, hf, htakes⟩ := hfirst
        -- Nothing that is done before or after brings the entry back.
        obtain ⟨before, after, hlist⟩ := List.append_of_mem hf
        rw [removeRec_succ, SourceTree.opendir_of_leads hne hD, hlist]
        dsimp only
        rw [List.foldl_append, List.foldl_cons]
        have hstep := fun st f => removeEntry_remains fuel path st f
        have hgone := htakes _ (foldl_remains hstep before st)
        exact fun hthere => hgone ((foldl_remains hstep after _).entries e
          ((RemoveState.remove_remains _ path).entries e hthere))
      · exact fun hthere => he ((removeRec_remains _ path st).entries e hthere)

end Takes

/-! ### The removal of the sources -/

/-- The registered names end with a slash, and no link and no `..` is on the way to a registered
directory. No name of the walkthrough names a directory. -/
structure Straight (T : SourceTree) (fs : Fileset) : Prop where
  slashed : ∀ d ∈ fs.directories, Slashed d
  direct : ∀ d ∈ fs.directories, ∀ D, T.Leads (fs.root ++ d) D → components (fs.root ++ d) = D
  files : ∀ n ∈ remiFilesetWalkthrough T fs, ∀ e ∈ T.entries,
    T.locate (fs.root ++ n) = some e.path → e.node.isDir = false

section Sources
variable {T : SourceTree} {fs : Fileset}

theorem removeSources_removing (T : SourceTree) (fs : Fileset) :
    Removing T (removeSources T fs (remiFilesetWalkthrough T fs)) := by
  refine List.foldlRecOn (motive := fun st => Removing T st) _ _ ?_ fun st hst d _ =>
    removeRec_keeps (I := fun st => Removing T st) (fun _ h => h.remains)
      (fun s _ _ h => h.remove s) hst
  exact List.foldlRecOn (motive := fun st => Removing T st) _ _ (.start T)
    fun st hst n _ => hst.remove _

/-- Of what is below a registered directory everything is taken that `removeRec` gets to. -/
theorem removeSources_takes (hhead : fs.root.head? = some '/')
    (hroot : fs.root.getLast? = some '/') {d : Str} (hd : d ∈ fs.directories) (hslash : Slashed d)
    {D cs : Path} (hpath : components (fs.root ++ d) = D) (hshown : T.Shown D cs)
    {e : TreeEntry} (he : e ∈ T.entries) {c : Str} (hplace : e.path = D ++ cs ++ [c])
    (hnode : e.node.isDir = false) (hhidden : c.head? ≠ some '.') :
    e ∉ (removeSources T fs (remiFilesetWalkthrough T fs)).tree.entries := by
  have hlen : cs.length < T.fuel := by
    have hentry := SourceTree.node_entry he
    rw [hplace, List.append_assoc] at hentry
    have hle := SourceTree.length_le_entries hentry
    rw [List.length_append, List.length_singleton] at hle
    unfold SourceTree.fuel
    omega
  have hhead' : (fs.root ++ d).head? = some '/' := by
    rw [List.head?_append, hhead]
    rfl
  have hremains : ∀ st : RemoveState, ∀ dirname,
      (removeRec T.fuel (fs.root ++ dirname) st).tree.Remains st.tree :=
    fun st _ => removeRec_remains _ _ st
  have hstart : (removeNames T fs).tree.Remains T :=
    foldl_remains (fun st _ => st.remove_remains _) _ _
  -- The directory is one of the fold. What comes before it only removes, and so does what comes
  -- after it.
  obtain ⟨before, after, hlist⟩ := List.append_of_mem hd
  have hsplit : removeSources T fs (remiFilesetWalkthrough T fs) =
      after.foldl (fun st dirname => removeRec T.fuel (fs.root ++ dirname) st)
        (removeRec T.fuel (fs.root ++ d)
          (before.foldl (fun st dirname => removeRec T.fuel (fs.root ++ dirname) st)
            (removeNames T fs))) := by
    rw [removeSources, hlist, List.foldl_append, List.foldl_cons]
    rfl
  rw [hsplit]
  have hgone := removeRec_takes ((foldl_remains hremains before _).trans hstart) hhead'
    (getLast?_slashed hroot hslash) hpath hshown hlen hplace hnode hhidden
  exact fun hthere => hgone ((foldl_remains hremains after _).entries e hthere)

/-- When the ways to the registered directories are straight, nothing is lost only if `removeRec`
sees the same as `listFiles`. -/
theorem SeesSame.of_noLoss (h : Straight T fs) (hhead : fs.root.head? = some '/')
    (hroot : fs.root.getLast? = some '/')
    (hnoLoss : NoLoss T fs (removeSources T fs (remiFilesetWalkthrough T fs))) :
    SeesSame T fs where
  slashed d hd hslash D hD cs c hshown hhidden e he hplace hnode := by
    have hgone := removeSources_takes hhead hroot hd hslash (h.direct d hd D hD) hshown he hplace
      hnode hhidden
    exact Or.inr (hnoLoss.files _ ((removeSources_removing T fs).gone e he hgone) hnode)
  unslashed d hd hnot := absurd (h.slashed d hd) hnot
  names n hn e he hlocate hdir := by
    rw [h.files n hn e he hlocate] at hdir
    cases hdir

end Sources

section Migrate
variable {σ : Type}

/-- A migration that succeeds has left the caller's fileset, and removes the sources when it has
been told to. Any other migration removes nothing. -/
theorem migrate_source (rpc : Rpc σ) (io : ClientIo) (T : SourceTree)
    (ph : Option RemiProviderHandle) (fs : Fileset) (root : Option Str)
    (removeSource mode status : Int) (st : σ) :
    let r := remiFilesetMigrate rpc io T ph (some fs) root removeSource mode status st
    r.source = if r.ret = .success ∧ removeSource = remiRemoveSource then
      removeSources T fs (remiFilesetWalkthrough T fs) else ⟨T, []⟩ := by
  cases ph with
  | none => simp [remiFilesetMigrate]
  | some ph =>
      cases root with
      | none => simp [remiFilesetMigrate]
      | some root =>
          by_cases hroot : root.head? = some '/'
          · dsimp only
            rw [migrate_of_transfer hroot rfl]
            by_cases hret : (runTransfer rpc io T ph mode fs root status st).ret = .success
            · obtain ⟨hopens, hstart⟩ := transfer_started hret
              have hfileset := transfer_fileset rpc ph mode root status st hopens
              rw [if_neg hstart] at hfileset
              rw [if_neg (not_not_intro hret), hfileset]
              split
              · exact (if_neg fun h => absurd h.1 (show Ret.errUser ≠ .success by decide)).symm
              · by_cases hremove : removeSource = remiRemoveSource <;> simp [hremove]
            · rw [if_pos hret]
              simp [hret]
          · simp [remiFilesetMigrate, hroot]

end Migrate

/-- In a tree of directories and regular files that are reported as such, the two see the same
through names that end with a slash. -/
theorem SeesSame.of_clean {T : SourceTree} {fs : Fileset}
    (hclean : ∀ e ∈ T.entries, e.node.isDir = false → e.typeKnown = true ∧ T.HasFile e.path)
    (hslash : ∀ d ∈ fs.directories, Slashed d)
    (hfiles : ∀ n ∈ remiFilesetWalkthrough T fs, ∀ e ∈ T.entries,
      T.locate (fs.root ++ n) = some e.path → e.node.isDir = false) : SeesSame T fs where
  slashed d hd _ D hD cs c hshown hhidden e he hplace hnode := Or.inl (hclean e he hnode)
  unslashed d hd hnot := absurd (hslash d hd) hnot
  names n hn e he hlocate hdir := by
    rw [hfiles n hn e he hlocate] at hdir
    cases hdir

/-- The root `/a/` with the registered directory `d`, sent byte by byte. -/
def aDirectory (d : Str) : Fileset :=
  { byteByByte with files := .empty, directories := SortedSet.empty.insert d }

/-- The directory `/a/d` with the file `f` and a link `l` to it. -/
def linkTree : SourceTree where
  entries := [⟨[['a']], .dir 0, 0, true⟩, ⟨[['a'], ['d']], .dir 0, 0, true⟩,
    ⟨[['a'], ['d'], ['f']], .file ⟨[1], oneByte_small⟩, 0, true⟩,
    ⟨[['a'], ['d'], ['l']], .link [['a'], ['d'], ['f']], 0, true⟩]
  names := by decide
  nodup := by decide
  parents := by decide

end Remi
