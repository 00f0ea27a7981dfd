import Remi.Proofs.Walkthrough

/-!
# `Remi.Proofs.Remains`: a source tree while entries are removed

A tree with fewer entries resolves fewer path strings, and those to the same places
(`Remains.locate`). A call of `remove` takes at most one entry (`remove_cases`). In the course of
a removal every entry is either still there or recorded as removed, and a directory is removed
only when everything that was below it is gone (`Removing`).
-/

set_option autoImplicit false

namespace Remi

open Remi.Lib

/-! ### A tree with fewer entries -/

namespace SourceTree

/-- `T'` is what remains of `T`. -/
structure Remains (T' T : SourceTree) : Prop where
  entries : ∀ e ∈ T'.entries, e ∈ T.entries
  cwd : T'.cwd = T.cwd

section Remains
variable {T T' : SourceTree}

theorem Remains.refl (T : SourceTree) : T.Remains T := ⟨fun _ h => h, rfl⟩

theorem Remains.trans {T'' : SourceTree} (h' : T''.Remains T') (h : T'.Remains T) :
    T''.Remains T :=
  ⟨fun e he => h.entries e (h'.entries e he), h'.cwd.trans h.cwd⟩

variable (h : T'.Remains T)
include h

theorem Remains.node {p : Path} {n : SourceNode} (hn : T'.node? p = some n) :
    T.node? p = some n := by
  by_cases hp : p = []
  · subst hp
    exact hn
  · obtain ⟨e, he, rfl, rfl⟩ := entry_of_node hp hn
    exact node_entry (h.entries e he)

theorem Remains.isDir {p : Path} (hp : T'.IsDir p) : T.IsDir p := by
  obtain ⟨size, hsize⟩ := hp
  exact ⟨size, h.node hsize⟩

theorem Remains.walk {viaLink viaLink' : Path → Option Path}
    (hvia : ∀ p q, viaLink' p = some q → viaLink p = some q) {done p q : Path}
    (hq : T'.walk viaLink' done p = some q) : T.walk viaLink done p = some q := by
  induction p generalizing done with
  | nil => exact hq
  | cons c rest ih =>
      simp only [SourceTree.walk] at hq ⊢
      split
      · rename_i hdots
        rw [if_pos hdots] at hq
        exact ih hq
      · rename_i hdots
        rw [if_neg hdots] at hq
        cases hnode : T'.node? (done ++ [c]) with
        | none =>
            rw [hnode] at hq
            cases hq
        | some n =>
            rw [hnode] at hq
            rw [h.node hnode]
            cases n with
            | link target => exact hvia _ _ hq
            | dir size => exact ih hq
            | file | special => exact hq

theorem Remains.follow {k : Nat} {done p q : Path} (hq : T'.follow k done p = some q) :
    T.follow k done p = some q := by
  induction k generalizing done p q with
  | zero => cases hq
  | succ k ih => exact h.walk (fun _ _ => ih) hq

theorem Remains.lookup {done p : Path} {x : Path × SourceNode} (hx : T'.lookup done p = some x) :
    T.lookup done p = some x := by
  obtain ⟨q, hq, hnode⟩ := Option.bind_eq_some_iff.mp hx
  obtain ⟨n, hn, rfl⟩ := Option.map_eq_some_iff.mp hnode
  rw [SourceTree.lookup, h.follow hq, Option.bind_some, h.node hn]
  rfl

theorem Remains.directory {done p D : Path} (hD : T'.directory done p = some D) :
    T.directory done p = some D := by
  unfold SourceTree.directory at hD ⊢
  split at hD
  · rename_i q size hlookup
    obtain rfl := Option.some.inj hD
    rw [h.lookup hlookup]
  · cases hD

theorem Remains.start (s : Str) : T'.start s = T.start s := by
  unfold SourceTree.start
  rw [h.cwd]

theorem Remains.leads {s : Str} {D : Path} (hD : T'.Leads s D) : T.Leads s D := by
  unfold Leads at hD ⊢
  rw [h.start] at hD
  exact h.directory hD

theorem Remains.locate {s : Str} {p : Path} (hp : T'.locate s = some p) : T.locate s = some p := by
  unfold SourceTree.locate at hp ⊢
  cases hlast : (components s).getLast? with
  | none =>
      rw [hlast] at hp
      cases hp
  | some name =>
      rw [hlast] at hp
      obtain ⟨D, hD, rfl⟩ := Option.map_eq_some_iff.mp hp
      rw [h.start] at hD
      simp [h.directory hD]

theorem Remains.children {D : Path} {f : Dirent} (hf : f ∈ T'.children D) : f ∈ T.children D := by
  obtain ⟨e, he, hpath, htype⟩ := mem_children.mp hf
  exact mem_children.mpr ⟨e, h.entries e he, hpath, htype⟩

end Remains

/-- A directory that can be opened is one that the path leads to. -/
theorem opendir_some {T : SourceTree} {s : Str} {dir : List Dirent} (h : T.opendir s = some dir) :
    ∃ D, T.Leads s D ∧ dir = T.children D := by
  unfold opendir at h
  split at h
  · cases h
  · obtain ⟨D, hD, rfl⟩ := Option.map_eq_some_iff.mp h
    exact ⟨D, hD, rfl⟩

theorem opendir_of_leads {T : SourceTree} {s : Str} {D : Path} (hs : s ≠ []) (h : T.Leads s D) :
    T.opendir s = some (T.children D) := by
  rw [opendir, if_neg hs, show T.directory _ _ = some D from h]
  rfl

end SourceTree

/-! ### One call of `remove` -/

/-- What `remove` takes is an entry without entries below it, where the path string leads. A
string that ends with a slash takes no entry but a directory. -/
theorem SourceTree.remove_some {T T' : SourceTree} {s : Str} {r : Removed}
    (h : T.remove s = some (r, T')) : ∃ e ∈ T.entries, T.locate s = some e.path ∧
      (e.node.isDir = false → s.getLast? ≠ some '/') ∧
      (∀ e' ∈ T.entries, e'.path.dropLast ≠ e.path) ∧ r = ⟨e.path, e.node⟩ ∧
      T'.entries = T.entries.filter (·.path ≠ e.path) ∧ T'.cwd = T.cwd := by
  unfold remove at h
  split at h
  · cases h
  · rename_i p hlocate
    split at h
    · cases h
    · rename_i e hfind
      obtain rfl : e.path = p := by simpa using List.find?_some hfind
      split at h
      · cases h
      · rename_i hallowed
        split at h
        · rename_i hempty
          obtain ⟨rfl, rfl⟩ := Prod.mk.inj (Option.some.inj h)
          exact ⟨e, List.mem_of_find?_eq_some hfind, hlocate,
            fun hnode hslash => hallowed (Or.inr ⟨hnode, hslash⟩), hempty, rfl, rfl, rfl⟩
        · cases h

/-- An entry without entries below it is taken, unless the path string ends with a dot or with a
slash that the entry does not allow. -/
theorem SourceTree.remove_of_locate {T : SourceTree} {s : Str} {e : TreeEntry} (he : e ∈ T.entries)
    (hlocate : T.locate s = some e.path) (hdot : endsInDot s = false)
    (hslash : e.node.isDir = false → s.getLast? ≠ some '/')
    (hempty : ∀ e' ∈ T.entries, e'.path.dropLast ≠ e.path) :
    T.remove s = some (⟨e.path, e.node⟩, T.erase e.path hempty) := by
  have hallowed : ¬ (endsInDot s = true ∨ e.node.isDir = false ∧ s.getLast? = some '/') := by
    rintro (hends | ⟨hnode, hlast⟩)
    · rw [hdot] at hends
      cases hends
    · exact hslash hnode hlast
  simp only [remove, hlocate, find_entry he]
  rw [if_neg hallowed, dif_pos hempty]

namespace RemoveState

/-- A call of `remove` takes nothing, or one entry. -/
theorem remove_cases (st : RemoveState) (s : Str) :
    st.remove s = st ∨ ∃ e ∈ st.tree.entries, st.tree.locate s = some e.path ∧
      (e.node.isDir = false → s.getLast? ≠ some '/') ∧
      (∀ e' ∈ st.tree.entries, e'.path.dropLast ≠ e.path) ∧
      (st.remove s).removed = st.removed ++ [⟨e.path, e.node⟩] ∧
      (st.remove s).tree.entries = st.tree.entries.filter (·.path ≠ e.path) ∧
      (st.remove s).tree.cwd = st.tree.cwd := by
  unfold remove
  cases hremove : st.tree.remove s with
  | none => exact Or.inl rfl
  | some x =>
      obtain ⟨r, T'⟩ := x
      obtain ⟨e, he, hlocate, hslash, hempty, rfl, hentries, hcwd⟩ :=
        SourceTree.remove_some hremove
      exact Or.inr ⟨e, he, hlocate, hslash, hempty, rfl, hentries, hcwd⟩

theorem remove_remains (st : RemoveState) (s : Str) : (st.remove s).tree.Remains st.tree := by
  rcases st.remove_cases s with hnone | ⟨e, -, -, -, -, -, hentries, hcwd⟩
  · rw [hnone]
    exact .refl _
  · refine ⟨fun e' he' => ?_, hcwd⟩
    rw [hentries] at he'
    exact (List.mem_filter.mp he').1

end RemoveState

/-! ### The removal so far -/

/-- `st` is what is left of `T`. Every entry is there or has been removed, and what was below it
had been removed before. -/
structure Removing (T : SourceTree) (st : RemoveState) : Prop where
  remains : st.tree.Remains T
  gone : ∀ e ∈ T.entries, e ∉ st.tree.entries → ⟨e.path, e.node⟩ ∈ st.removed
  taken : ∀ r ∈ st.removed, ∃ e ∈ T.entries, r = ⟨e.path, e.node⟩
  below : ∀ before r after, st.removed = before ++ r :: after → ∀ e ∈ T.entries,
    r.place <+: e.path → e.path ≠ r.place → ∃ r' ∈ before, r'.place = e.path

section Removing
variable {T : SourceTree} {st : RemoveState}

theorem Removing.start (T : SourceTree) : Removing T ⟨T, []⟩ where
  remains := .refl T
  gone e he hnot := absurd he hnot
  taken r hr := by cases hr
  below before r after h := by simp at h

/-- Nothing is below a directory without entries. -/
theorem SourceTree.not_below {p : Path} (h : ∀ e ∈ T.entries, e.path.dropLast ≠ p)
    {e : TreeEntry} (he : e ∈ T.entries) (hp : p <+: e.path) (hne : e.path ≠ p) : False := by
  obtain ⟨q, hq⟩ := hp
  cases q with
  | nil => exact hne (by rw [← hq, List.append_nil])
  | cons c rest =>
      have hnode : ∃ n, T.node? (p ++ [c]) = some n := by
        have hpath : p ++ [c] ++ rest = e.path := by simpa using hq
        have hentry := node_entry he
        rw [← hpath] at hentry
        by_cases hrest : rest = []
        · rw [hrest, List.append_nil] at hentry
          exact ⟨_, hentry⟩
        · obtain ⟨size, hdir⟩ := isDir_of_append hrest hentry
          exact ⟨_, hdir⟩
      obtain ⟨n, hn⟩ := hnode
      obtain ⟨e', he', hpath, -⟩ := entry_of_node (by simp) hn
      exact h e' he' (by rw [hpath, List.dropLast_concat])

theorem Removing.remove (h : Removing T st) (s : Str) : Removing T (st.remove s) := by
  rcases st.remove_cases s with hnone | ⟨e, he, -, -, hempty, hremoved, hentries, -⟩
  · rw [hnone]
    exact h
  · refine ⟨(st.remove_remains s).trans h.remains, fun e' he' hnot => ?_, fun r hr => ?_,
      fun before r after hlog e' he' hbelow hne => ?_⟩
    · rw [hremoved]
      by_cases hthere : e' ∈ st.tree.entries
      · have hpath : e'.path = e.path := by
          by_contra hpath
          exact hnot (by rw [hentries]; exact List.mem_filter.mpr ⟨hthere, decide_eq_true hpath⟩)
        rw [SourceTree.entry_unique hthere he hpath]
        exact List.mem_append_right _ (List.mem_singleton_self _)
      · exact List.mem_append_left _ (h.gone e' he' hthere)
    · rw [hremoved] at hr
      rcases List.mem_append.mp hr with hr | hr
      · exact h.taken r hr
      · exact ⟨e, h.remains.entries e he, List.mem_singleton.mp hr⟩
    · rw [hremoved] at hlog
      rcases List.eq_nil_or_concat after with rfl | ⟨after', r', rfl⟩
      · -- It is the entry that has been taken now.
        obtain ⟨rfl, hlast⟩ := List.append_inj' hlog rfl
        obtain rfl := List.singleton_inj.mp hlast.symm
        have hgone : e' ∉ st.tree.entries := fun hthere =>
          SourceTree.not_below hempty hthere hbelow hne
        exact ⟨_, h.gone e' he' hgone, rfl⟩
      · rw [List.concat_eq_append, ← List.cons_append, ← List.append_assoc] at hlog
        obtain ⟨hbefore, -⟩ := List.append_inj' hlog rfl
        exact h.below before r after' hbefore e' he' hbelow hne

end Removing

end Remi
