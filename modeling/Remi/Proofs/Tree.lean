import Remi.FsUtil
import Mathlib.Data.List.Induction
import Mathlib.Data.List.Perm.Basic

/-!
# `Remi.Proofs.Tree`: walks through a source tree

A component that names an entry of a directory leads into it (`directory_append`), so the path
strings that a recursion over a tree builds lead to the directories of the recursion. The
entries on the way to a place are different ones, so there are at most as many as the tree has
(`length_le_entries`): the fuel of the recursions suffices.
-/

set_option autoImplicit false

namespace Remi

open Remi.Lib

namespace SourceTree

variable {T : SourceTree} {D p : Path} {c : Str}

theorem entry_unique {e e' : TreeEntry} (he : e ∈ T.entries) (he' : e' ∈ T.entries)
    (h : e.path = e'.path) : e = e' :=
  List.inj_on_of_nodup_map T.nodup he he' h

theorem find_entry {e : TreeEntry} (he : e ∈ T.entries) :
    T.entries.find? (·.path = e.path) = some e := by
  cases hfind : T.entries.find? (·.path = e.path) with
  | none =>
      have hne := List.find?_eq_none.mp hfind e he
      simp at hne
  | some e' =>
      have hpath : e'.path = e.path := by simpa using List.find?_some hfind
      rw [entry_unique (List.mem_of_find?_eq_some hfind) he hpath]

/-- The node of an entry. -/
theorem node_entry {e : TreeEntry} (he : e ∈ T.entries) : T.node? e.path = some e.node := by
  rw [node?, if_neg (T.parents e he).1, find_entry he]
  rfl

/-- What is there below the root is an entry. -/
theorem entry_of_node {n : SourceNode} (hp : p ≠ []) (h : T.node? p = some n) :
    ∃ e ∈ T.entries, e.path = p ∧ e.node = n := by
  rw [node?, if_neg hp] at h
  obtain ⟨e, hfind, hnode⟩ := Option.map_eq_some_iff.mp h
  exact ⟨e, List.mem_of_find?_eq_some hfind, by simpa using List.find?_some hfind, hnode⟩

/-- There is a directory at `p`. -/
def IsDir (T : SourceTree) (p : Path) : Prop := ∃ size, T.node? p = some (.dir size)

theorem isDir_root : T.IsDir [] := ⟨0, rfl⟩

theorem isDir_entry {e : TreeEntry} (he : e ∈ T.entries) (hdir : e.node.isDir = true) :
    T.IsDir e.path := by
  cases hnode : e.node with
  | dir size => exact ⟨size, by rw [node_entry he, hnode]⟩
  | file | link | special => simp [hnode, SourceNode.isDir] at hdir

/-- What is there is in a directory. -/
theorem isDir_of_child {n : SourceNode} (h : T.node? (p ++ [c]) = some n) : T.IsDir p := by
  obtain ⟨e, he, hpath, -⟩ := entry_of_node (by simp) h
  obtain ⟨-, hparent⟩ := T.parents e he
  rw [hpath, List.dropLast_concat] at hparent
  rcases hparent with rfl | ⟨d, hd, rfl, hdir⟩
  · exact isDir_root
  · exact isDir_entry hd hdir

/-- There is a directory on the way to what is there. -/
theorem isDir_of_append {n : SourceNode} {q : Path} (hq : q ≠ []) (h : T.node? (p ++ q) = some n) :
    T.IsDir p := by
  induction q using List.reverseRecOn generalizing n with
  | nil => exact absurd rfl hq
  | append_singleton q c ih =>
      rw [← List.append_assoc] at h
      obtain ⟨size, hdir⟩ := isDir_of_child h
      by_cases hnil : q = []
      · subst hnil
        exact ⟨size, by simpa using hdir⟩
      · exact ih hnil hdir

/-- The names on the way to what is there are proper. -/
theorem proper_of_node {n : SourceNode} (h : T.node? p = some n) : ∀ c ∈ p, ProperName c := by
  by_cases hp : p = []
  · simp [hp]
  · obtain ⟨e, he, rfl, -⟩ := entry_of_node hp h
    exact T.names e he

/-! ### The entries of a directory -/

/-- The entry `c` of the directory at `D`, as `readdir` reports it. -/
theorem mem_children {f : Dirent} : f ∈ T.children D ↔ ∃ e ∈ T.entries, e.path = D ++ [f.name] ∧
    f.type = if e.typeKnown then e.node.dType else .unknown := by
  simp only [children, List.mem_filterMap]
  constructor
  · rintro ⟨e, he, h⟩
    split at h
    · rename_i hdir
      obtain ⟨name, hlast, rfl⟩ := Option.map_eq_some_iff.mp h
      refine ⟨e, he, ?_, rfl⟩
      rw [← hdir]
      exact (List.dropLast_append_getLast? name hlast).symm
    · cases h
  · rintro ⟨e, he, hpath, htype⟩
    refine ⟨e, he, ?_⟩
    rw [hpath, List.dropLast_concat, if_pos rfl, List.getLast?_concat, Option.map_some, ← htype]

/-! ### Following a path -/

/-- A walk through entries of a directory. -/
theorem walk_entries (viaLink : Path → Option Path) {cs : Path} {n : SourceNode}
    (hn : ∀ target, n ≠ .link target) (h : T.node? (D ++ cs) = some n) :
    T.walk viaLink D cs = some (D ++ cs) := by
  induction cs generalizing D with
  | nil => rw [List.append_nil]; rfl
  | cons c rest ih =>
      have hproper : c ≠ ['.', '.'] :=
        (proper_of_node h c (List.mem_append_right D List.mem_cons_self)).2.2.1
      have happend : D ++ c :: rest = D ++ [c] ++ rest := by simp
      rw [happend] at h ⊢
      rw [walk, if_neg hproper]
      by_cases hrest : rest = []
      · subst hrest
        rw [List.append_nil] at h ⊢
        rw [h]
        cases n with
        | link target => exact absurd rfl (hn target)
        | dir size => rfl
        | file | special => simp
      · obtain ⟨size, hdir⟩ := isDir_of_append hrest h
        rw [hdir]
        exact ih h

/-- A walk to a directory can go on through its entries. -/
theorem walk_append {viaLink : Path → Option Path} {done : Path} {cs : Path} {n : SourceNode}
    (hn : ∀ target, n ≠ .link target)
    (hvia : ∀ q q', viaLink q = some q' → T.IsDir q' → T.node? (q' ++ cs) = some n →
      viaLink (q ++ cs) = some (q' ++ cs))
    (h : T.walk viaLink done p = some D) (hD : T.IsDir D) (hcs : T.node? (D ++ cs) = some n) :
    T.walk viaLink done (p ++ cs) = some (D ++ cs) := by
  -- By induction on the components. Behind a link the hypothesis on `viaLink` takes over.
  induction p generalizing done with
  | nil =>
      obtain rfl : done = D := Option.some.inj h
      exact walk_entries viaLink hn hcs
  | cons c rest ih =>
      rw [List.cons_append]
      simp only [walk] at h ⊢
      split
      · rename_i hdots
        rw [if_pos hdots] at h
        exact ih h
      · rename_i hdots
        rw [if_neg hdots] at h
        cases hnode : T.node? (done ++ [c]) with
        | none =>
            rw [hnode] at h
            cases h
        | some m =>
            rw [hnode] at h
            cases m with
            | link target =>
                dsimp only at h ⊢
                rw [← List.append_assoc]
                exact hvia _ _ h hD hcs
            | dir size => exact ih h
            | file | special =>
                dsimp only at h
                split at h
                · obtain rfl := Option.some.inj h
                  obtain ⟨size, hdir⟩ := hD
                  rw [hnode] at hdir
                  cases hdir
                · cases h

theorem follow_append {k : Nat} {done : Path} {cs : Path} {n : SourceNode}
    (hn : ∀ target, n ≠ .link target) (h : T.follow k done p = some D) (hD : T.IsDir D)
    (hcs : T.node? (D ++ cs) = some n) : T.follow k done (p ++ cs) = some (D ++ cs) := by
  induction k generalizing done p D with
  | zero => cases h
  | succ k ih => exact walk_append hn (fun q q' hq hq' hcs' => ih hq hq' hcs') h hD hcs

theorem isDir_of_directory {done : Path} (h : T.directory done p = some D) : T.IsDir D := by
  unfold directory at h
  split at h
  · rename_i q size hlookup
    obtain rfl := Option.some.inj h
    obtain ⟨q', -, hq'⟩ := Option.bind_eq_some_iff.mp hlookup
    obtain ⟨n, hn, heq⟩ := Option.map_eq_some_iff.mp hq'
    obtain ⟨rfl, rfl⟩ := Prod.mk.inj heq
    exact ⟨size, hn⟩
  · cases h

theorem follow_of_directory {done : Path} (h : T.directory done p = some D) :
    T.follow (maxLinks + 1) done p = some D := by
  unfold directory at h
  split at h
  · rename_i q size hlookup
    obtain rfl := Option.some.inj h
    obtain ⟨q', hfollow, hq'⟩ := Option.bind_eq_some_iff.mp hlookup
    obtain ⟨n, -, heq⟩ := Option.map_eq_some_iff.mp hq'
    obtain ⟨rfl, -⟩ := Prod.mk.inj heq
    exact hfollow
  · cases h

/-- What is below the directory that a path leads to is where the longer path leads. -/
theorem lookup_append {done : Path} {cs : Path} {n : SourceNode} (hn : ∀ target, n ≠ .link target)
    (h : T.directory done p = some D) (hcs : T.node? (D ++ cs) = some n) :
    T.lookup done (p ++ cs) = some (D ++ cs, n) := by
  rw [lookup, follow_append hn (follow_of_directory h) (isDir_of_directory h) hcs,
    Option.bind_some, hcs]
  rfl

theorem directory_append {done : Path} (h : T.directory done p = some D)
    (hdir : T.IsDir (D ++ [c])) : T.directory done (p ++ [c]) = some (D ++ [c]) := by
  obtain ⟨size, hsize⟩ := hdir
  rw [directory, lookup_append (by simp) h hsize]

/-! ### The depth of a tree -/

/-- The places on the way to what is there are entries. -/
theorem length_le_entries {n : SourceNode} {cs : Path} (h : T.node? (D ++ cs) = some n) :
    cs.length ≤ T.entries.length := by
  have hentry : ∀ k < cs.length, ∃ e ∈ T.entries, e.path = D ++ cs.take (k + 1) := by
    intro k hk
    have hsplit : D ++ cs = D ++ cs.take (k + 1) ++ cs.drop (k + 1) := by
      rw [List.append_assoc, List.take_append_drop]
    have hnode : ∃ m, T.node? (D ++ cs.take (k + 1)) = some m := by
      by_cases hlast : cs.drop (k + 1) = []
      · rw [hsplit, hlast, List.append_nil] at h
        exact ⟨n, h⟩
      · rw [hsplit] at h
        obtain ⟨size, hdir⟩ := isDir_of_append hlast h
        exact ⟨_, hdir⟩
    obtain ⟨m, hm⟩ := hnode
    have hne : D ++ cs.take (k + 1) ≠ [] := by
      intro hnil
      have hlen := congrArg List.length hnil
      rw [List.length_append, List.length_take, List.length_nil] at hlen
      omega
    obtain ⟨e, he, hpath, -⟩ := entry_of_node hne hm
    exact ⟨e, he, hpath⟩
  -- The places are distinct, because they have distinct lengths.
  let places := (List.range cs.length).map fun k => D ++ cs.take (k + 1)
  have hnodup : places.Nodup := by
    refine (List.nodup_map_iff_inj_on List.nodup_range).mpr fun i hi j hj hij => ?_
    have hlen := congrArg List.length hij
    rw [List.mem_range] at hi hj
    simp only [List.length_append, List.length_take] at hlen
    omega
  have hsub : places ⊆ T.entries.map (·.path) := by
    intro q hq
    obtain ⟨k, hk, rfl⟩ := List.mem_map.mp hq
    obtain ⟨e, he, hpath⟩ := hentry k (List.mem_range.mp hk)
    exact List.mem_map.mpr ⟨e, he, hpath⟩
  have hle := (List.subperm_of_subset hnodup hsub).length_le
  simpa [places] using hle

end SourceTree

end Remi
