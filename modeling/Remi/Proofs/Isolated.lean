import Remi.Proofs.Territory

/-!
# `Remi.Proofs.Isolated`: a migration among others, and alone

`Alike` relates two providers that look the same to the client `m`. An operation of one of its
handlers has the same result in both (`exec_alike`), and an operation of any other handler
within its own territory leaves them alike (`exec_unseen`). So the steps of one client, taken
out of a run, are a run by themselves, with the same answers and files (`migrations_isolated`).
-/

set_option autoImplicit false

namespace Remi

open Remi.Lib

/-- The providers look the same to the client `m` with the files `A`. In the second one it is
alone. -/
structure Alike (classes : ClassKey → Option MigrationClass) (A : Path → Prop) (m : Nat)
    (s s₁ : Provider) : Prop where
  cwd : s₁.fs.cwd = s.fs.cwd
  node : ∀ p, A p → s₁.fs.node p = s.fs.node p
  known : ∀ key, classes key ≠ none → s.classes key ≠ none ∧ s₁.classes key ≠ none
  found : ∀ key, (s₁.classes key).getD .null = (s.classes key).getD .null
  issued : ∀ id t, s₁.issuedTo id = some t ↔ s.issuedTo id = some t ∧ t.client = m
  record : ∀ id, (∀ t, s.issuedTo id = some t → t.client = m) →
    s₁.opInProgress id = s.opInProgress id
  responses : ∀ t, t.client = m → s₁.responses t = s.responses t
  opened : ∀ t, t.client = m → s₁.opened t = s.opened t
  mapped : ∀ t, t.client = m → s₁.mapped t = s.mapped t
  descriptors : ∀ fd, fd.owner.client = m → s₁.descriptors fd = s.descriptors fd
  isOpen : ∀ fd, fd.owner.client = m → s₁.isOpen fd = s.isOpen fd
  segments : ∀ seg, seg.owner.client = m → s₁.segments seg = s.segments seg

theorem update_congr {α β : Type} [DecidableEq α] {f g : α → β} {a : α} (b : β) {x : α}
    (h : f x = g x) : Function.update f a b x = Function.update g a b x := by
  by_cases hx : x = a
  · subst hx
    simp only [Function.update_self]
  · simpa only [Function.update_of_ne hx] using h

section Alike
variable {classes : ClassKey → Option MigrationClass} {A : Path → Prop} {m : Nat}
  {s s₁ : Provider}

theorem alike_init (fs : Fs) :
    Alike classes A m (.init classes fs) (.init classes fs) where
  cwd := rfl
  node _ _ := rfl
  known _ h := ⟨h, h⟩
  found _ := rfl
  issued _ _ := by simp [Provider.init]
  record _ _ := rfl
  responses _ _ := rfl
  opened _ _ := rfl
  mapped _ _ := rfl
  descriptors _ _ := rfl
  isOpen _ _ := rfl
  segments _ _ := rfl

theorem Alike.place (h : Alike classes A m s s₁) (path : Str) :
    s₁.fs.place path = s.fs.place path := by
  unfold Fs.place
  rw [h.cwd]

theorem Alike.owned (h : Alike classes A m s s₁) {id : Uuid} (hid : s.Owns m id) :
    s₁.opInProgress id = s.opInProgress id := by
  obtain ⟨n, hn⟩ := hid
  refine h.record id fun t ht => ?_
  obtain rfl := Option.some.inj (hn.symm.trans ht)
  rfl

/-! ### The same change in both -/

theorem Alike.modifyOp (h : Alike classes A m s s₁) (id : Uuid) (op : Operation) :
    Alike classes A m (s.modifyOp id op) (s₁.modifyOp id op) :=
  { h with record := fun i hi => update_congr _ (h.record i hi) }

theorem Alike.erase (h : Alike classes A m s s₁) (id : Uuid) :
    Alike classes A m { s with opInProgress := Function.update s.opInProgress id none }
      { s₁ with opInProgress := Function.update s₁.opInProgress id none } :=
  { h with record := fun i hi => update_congr _ (h.record i hi) }

theorem Alike.closeAll (h : Alike classes A m s s₁) (fds : List Fd) :
    Alike classes A m (s.closeAll fds) (s₁.closeAll fds) :=
  { h with isOpen := fun fd hfd => by simp only [Provider.closeAll, h.isOpen fd hfd] }

/-- The nodes of the client's files decide whether the file systems are alike. -/
theorem Alike.files (h : Alike classes A m s s₁) {fs fs₁ : Fs} (hcwd : fs₁.cwd = fs.cwd)
    (hnode : ∀ p, A p → fs₁.node p = fs.node p) :
    Alike classes A m { s with fs } { s₁ with fs := fs₁ } :=
  { h with cwd := hcwd, node := hnode }

theorem Alike.modifyFile (h : Alike classes A m s s₁) (p : Path) (f : Bytes → Bytes) :
    Alike classes A m { s with fs := s.fs.modifyFile p f }
      { s₁ with fs := s₁.fs.modifyFile p f } := by
  refine h.files h.cwd fun q hq => ?_
  by_cases he : q = p
  · subst he
    simp only [Fs.modifyFile_node_self, h.node q hq]
  · simp only [Fs.modifyFile_node_ne he, h.node q hq]

/-- A positioned write through a descriptor of the client. -/
theorem Alike.write (h : Alike classes A m s s₁) (t : Tid) (io : Io) (id : Uuid) {fd : Fd}
    (hfd : fd.owner.client = m) (data : Bytes) (offset : Nat) :
    (s₁.write t io id fd data offset).1 = (s.write t io id fd data offset).1 ∧
      Alike classes A m (s.write t io id fd data offset).2
        (s₁.write t io id fd data offset).2 := by
  simp only [Provider.write, h.descriptors fd hfd, h.isOpen fd hfd]
  cases io.count data.length with
  | none => exact ⟨rfl, { h with }⟩
  | some n =>
      cases s.descriptors fd with
      | none => exact ⟨rfl, { h with }⟩
      | some p =>
          dsimp only
          split
          · exact ⟨rfl, { h.modifyFile p fun b => overlay 0 b offset (data.take n) with }⟩
          · exact ⟨rfl, { h with }⟩

/-- A transfer into segments of the client. -/
theorem Alike.scatter (h : Alike classes A m s s₁) {segs : List (Addr × Nat)}
    (hsegs : ∀ seg, .mapped seg ∈ segs.map Prod.fst → seg.owner.client = m) (data : Bytes)
    {fs fs₁ : Fs} (hnode : ∀ p, A p → fs₁.node p = fs.node p) {p : Path} (hp : A p) :
    (scatter s₁.segments segs data fs₁).node p = (scatter s.segments segs data fs).node p := by
  induction segs generalizing data fs fs₁ with
  | nil => exact hnode p hp
  | cons x rest ih =>
      have hrest := fun seg hseg => hsegs seg (List.mem_cons_of_mem _ hseg)
      obtain ⟨a, size⟩ := x
      cases a with
      | mapped seg =>
          have hseg := h.segments seg (hsegs seg List.mem_cons_self)
          simp only [Remi.scatter, hseg]
          refine ih hrest _ fun q hq => ?_
          cases s.segments seg with
          | none => exact hnode q hq
          | some q' =>
              by_cases he : q = q'
              · subst he
                simp only [Fs.modifyFile_node_self, hnode q hq]
              · simp only [Fs.modifyFile_node_ne he, hnode q hq]
      | null | failed => exact ih hrest _ hnode

/-- `mkdir` in both file systems. What it finds outside the client's files does not matter. -/
theorem Alike.mkdir (h : Alike classes A m s s₁) (p : Path) (ok : Prop) [Decidable ok] :
    Alike classes A m
      (if ok ∧ s.fs.node p = none then { s with fs := s.fs.put p .dir } else s)
      (if ok ∧ s₁.fs.node p = none then { s₁ with fs := s₁.fs.put p .dir } else s₁) := by
  have hput : ∀ q, A q → q ≠ p → ∀ fs : Fs, (fs.put p .dir).node q = fs.node q :=
    fun q _ hne fs => Fs.put_node_ne hne fs _
  by_cases hp : A p
  · rw [h.node p hp]
    split
    · refine h.files h.cwd fun q hq => ?_
      by_cases he : q = p
      · subst he
        simp only [Fs.put_node_self]
      · rw [hput q hq he, hput q hq he, h.node q hq]
    · exact h
  · have hne : ∀ q, A q → q ≠ p := fun q hq he => hp (he ▸ hq)
    split <;> split
    · exact h.files h.cwd fun q hq => by
        rw [hput q hq (hne q hq), hput q hq (hne q hq), h.node q hq]
    · exact { h with node := fun q hq => (h.node q hq).trans (hput q hq (hne q hq) _).symm }
    · exact { h with node := fun q hq => (hput q hq (hne q hq) _).trans (h.node q hq) }
    · exact h

/-- A file of the client is opened in both. -/
theorem Alike.openTrunc (h : Alike classes A m s s₁) (t : Tid) (p : Path) (l l₁ : List Path) :
    Alike classes A m
      { s with
        fs := s.fs.put p (.file [])
        descriptors := Function.update s.descriptors ⟨t, s.opened t⟩ (some p)
        isOpen := Function.update s.isOpen ⟨t, s.opened t⟩ true
        opened := Function.update s.opened t (s.opened t + 1)
        overwritten := l }
      { s₁ with
        fs := s₁.fs.put p (.file [])
        descriptors := Function.update s₁.descriptors ⟨t, s.opened t⟩ (some p)
        isOpen := Function.update s₁.isOpen ⟨t, s.opened t⟩ true
        opened := Function.update s₁.opened t (s.opened t + 1)
        overwritten := l₁ } :=
  { h with
    node := fun q hq => by
      by_cases he : q = p
      · subst he
        simp only [Fs.put_node_self]
      · simp only [Fs.put_node_ne he, h.node q hq]
    opened := fun t' ht' => update_congr _ (h.opened t' ht')
    descriptors := fun fd hfd => update_congr _ (h.descriptors fd hfd)
    isOpen := fun fd hfd => update_congr _ (h.isOpen fd hfd) }

/-- The client draws a fresh id. -/
theorem Alike.draw (h : Alike classes A m s s₁) {t : Tid} (ht : t.client = m) {id : Uuid}
    (hfresh : s.issuedTo id = none) :
    Alike classes A m { s with issuedTo := Function.update s.issuedTo id (some t) }
      { s₁ with issuedTo := Function.update s₁.issuedTo id (some t) } :=
  { h with
    issued := fun i t' => by
      by_cases he : i = id
      · subst he
        simp only [Function.update_self, Option.some.injEq]
        exact ⟨fun htt => ⟨htt, htt ▸ ht⟩, And.left⟩
      · simpa only [Function.update_of_ne he] using h.issued i t'
    record := fun i hi => by
      refine h.record i fun t' ht' => ?_
      have hne : i ≠ id := by
        rintro rfl
        rw [hfresh] at ht'
        cases ht'
      exact hi t' (by simpa only [Function.update_of_ne hne] using ht') }

/-- The entry of a key that is looked up with `operator[]`. -/
theorem Alike.classAt (h : Alike classes A m s s₁) (t : Tid) (w : Outcome) (key : ClassKey) :
    SameResult (Alike classes A m) (exec t w (.classAt key) s) (exec t w (.classAt key) s₁) := by
  obtain ⟨table, hx, hsame, hkept⟩ := exec_classAt t w key s
  obtain ⟨table₁, hx₁, hsame₁, hkept₁⟩ := exec_classAt t w key s₁
  rw [hx, hx₁, h.found key]
  refine sameResult_some { h with known := fun key' hkey => ?_, found := fun key' => ?_ }
  · exact ⟨hkept key' (h.known key' hkey).1, hkept₁ key' (h.known key' hkey).2⟩
  · exact (hsame₁ key').trans ((h.found key').trans (hsame key').symm)

end Alike

/-! ### One operation -/

section Step
variable {classes : ClassKey → Option MigrationClass} {cwd : Path} {targets : Str → Prop}
  {m : Nat} {s s₁ : Provider} {t : Tid} {w : Outcome} {o : Op}

/-- An operation of the client has the same result in both. -/
theorem exec_alike (h : Alike classes (PlaceOf cwd targets) m s s₁) (hcwd : s.fs.cwd = cwd)
    (ht : t.client = m) (hwithin : o.Within classes targets m s)
    (hfresh : o = .newUuid → s.issuedTo w.uuid = none) :
    SameResult (Alike classes (PlaceOf cwd targets) m) (exec t w o s) (exec t w o s₁) := by
  have htarget : ∀ path, targets path → PlaceOf cwd targets (s.fs.place path) :=
    fun path hpath => ⟨path, hpath, by rw [Fs.place, hcwd]⟩
  -- The rules for `Alike` are used one for each operation. What an operation reads is the
  -- client's own, and so is what it writes.
  cases o with
  -- The id is new in the whole run, so it is new alone.
  | newUuid =>
      have hnone : s.issuedTo w.uuid = none := hfresh rfl
      have hnone₁ : s₁.issuedTo w.uuid = none := by
        by_contra hne
        obtain ⟨t', ht'⟩ := Option.ne_none_iff_exists'.mp hne
        exact absurd (hnone.symm.trans ((h.issued _ _).mp ht').1) (by simp)
      simp only [exec, hnone, hnone₁]
      exact sameResult_some (h.draw ht hnone)
  | classCount key =>
      obtain ⟨hs, hs₁⟩ := h.known key hwithin
      simp only [exec, Option.isSome_iff_ne_none.mpr hs, Option.isSome_iff_ne_none.mpr hs₁]
      exact sameResult_some h
  | classAt key => exact h.classAt t w key
  | access path =>
      simp only [exec, h.place, h.node _ (htarget path hwithin)]
      exact sameResult_some h
  | mkdir path =>
      have hmkdir := h.mkdir (s.fs.place path) (w.io ≠ .fail)
      have hexec : ∀ x : Provider, exec t w (.mkdir path) x = some ((),
          if w.io ≠ .fail ∧ x.fs.node (x.fs.place path) = none then
            { x with fs := x.fs.put (x.fs.place path) .dir } else x) := by
        intro x
        simp only [exec]
        split <;> rfl
      rw [hexec s, hexec s₁, h.place]
      exact sameResult_some hmkdir
  | openTrunc path mode =>
      simp only [exec, h.place, h.node _ (htarget path hwithin), h.opened t ht]
      split
      · exact sameResult_some h
      · exact sameResult_some (h.openTrunc t _ _ _)
  | close fd => exact sameResult_some (h.closeAll [fd])
  | vecAt v i =>
      simp only [exec]
      split
      · exact sameResult_some h
      · exact sameResult_some { h with }
  | filesizeAt id i =>
      simp only [exec, h.owned hwithin]
      cases s.opInProgress id with
      | none => exact sameResult_none
      | some op =>
          dsimp only
          split
          · exact sameResult_some h
          · exact sameResult_some { h with }
  | before callback uargs fileset => exact sameResult_some { h with }
  | insert id op => exact sameResult_some (h.modifyOp id op)
  | find id =>
      simp only [exec, h.owned hwithin]
      exact sameResult_some h
  | erase id => exact sameResult_some (h.erase id)
  | lock id =>
      simp only [exec, h.owned hwithin]
      cases s.opInProgress id with
      | none => exact sameResult_none
      | some op =>
          dsimp only
          split
          · exact sameResult_some (h.modifyOp id _)
          · exact sameResult_none
  | unlock id =>
      simp only [exec, h.owned hwithin]
      cases s.opInProgress id with
      | none => exact sameResult_some h
      | some op => exact sameResult_some (h.modifyOp id _)
  | load id =>
      simp only [exec, h.owned hwithin]
      cases s.opInProgress id with
      | none => exact sameResult_none
      | some op => exact sameResult_some h
  | setError id error =>
      simp only [exec, h.owned hwithin]
      cases s.opInProgress id with
      | none => exact sameResult_none
      | some op => exact sameResult_some (h.modifyOp id _)
  | closeFds id =>
      simp only [exec, h.owned hwithin.1]
      cases s.opInProgress id with
      | none => exact sameResult_none
      | some op => exact sameResult_some ((h.closeAll op.fds).modifyOp id _)
  | after id callback uargs =>
      simp only [exec, h.owned hwithin]
      cases s.opInProgress id with
      | none => exact sameResult_none
      | some op => exact sameResult_some { h.modifyOp id _ with }
  | ftruncate id fd size =>
      simp only [exec, h.descriptors fd hwithin, h.isOpen fd hwithin]
      cases s.descriptors fd with
      | none => exact sameResult_some h
      | some p =>
          dsimp only
          split
          · exact sameResult_some (h.modifyFile p _)
          · exact sameResult_some h
  | mmap id fd size =>
      simp only [exec, h.descriptors fd hwithin, h.isOpen fd hwithin, h.mapped t ht]
      cases s.descriptors fd with
      | none => exact sameResult_some { h with }
      | some p =>
          dsimp only
          split
          · exact sameResult_some { h with
              mapped := fun t' ht' => update_congr _ (h.mapped t' ht')
              segments := fun seg hseg => update_congr _ (h.segments seg hseg) }
          · exact sameResult_some { h with }
  | munmap a => exact sameResult_some { h with }
  | expose segs =>
      simp only [exec]
      split
      · exact sameResult_none
      · exact sameResult_some { h with }
  | pull remote segs =>
      simp only [exec]
      cases remote with
      | none => exact sameResult_none
      | some bulk =>
          dsimp only
          split
          · refine sameResult_some (h.files ?_ fun p hp => h.scatter hwithin _ h.node hp)
            rw [scatter_cwd, scatter_cwd, h.cwd]
          · exact sameResult_none
  | msync a => exact sameResult_some { h with }
  | pwrite id fd data offset | abtIoPwrite id fd data offset =>
      obtain ⟨hres, hwrite⟩ := h.write t w.io id hwithin data offset
      simp only [exec]
      exact .some ⟨hres.symm, hwrite⟩
  | respond r =>
      exact sameResult_some { h with
        responses := fun t' ht' => update_congr _ (h.responses t' ht') }

end Step

section Frame
variable {classes : ClassKey → Option MigrationClass} {cwd : Path} {targets : Nat → Str → Prop}
  {m : Nat} {s s₁ s' : Provider} {t : Tid} {w : Outcome} {o : Op} {r : Ans o}

/-- The descriptors and segments lead to targets of the clients they belong to. -/
structure Provider.Placed (s : Provider) (cwd : Path) (targets : Nat → Str → Prop) : Prop where
  base : s.fs.cwd = cwd
  descriptors : ∀ fd p, s.descriptors fd = some p → PlaceOf cwd (targets fd.owner.client) p
  segments : ∀ seg p, s.segments seg = some p → PlaceOf cwd (targets seg.owner.client) p

/-- The targets of different clients have different places. -/
theorem Apart.not_placeOf (hapart : Apart cwd targets) {m' : Nat} (hne : m' ≠ m) {p : Path}
    (hp : PlaceOf cwd (targets m') p) : ¬ PlaceOf cwd (targets m) p := by
  rintro ⟨path', hpath', heq⟩
  obtain ⟨path, hpath, rfl⟩ := hp
  exact (hapart m' m path path' hne hpath hpath').1 heq.symm

/-- A client changes no file of another one. -/
theorem places_apart (hapart : Apart cwd targets) (hplaced : s.Placed cwd targets) {m' : Nat}
    (hne : m' ≠ m) (hwithin : o.Within classes (targets m') m' s) {p : Path}
    (hp : p ∈ o.places s) : ¬ PlaceOf cwd (targets m) p := by
  have hfd : ∀ fd : Fd, fd.owner.client = m' → p ∈ (s.descriptors fd).toList →
      ¬ PlaceOf cwd (targets m) p := by
    intro fd howner hmem
    have hplace := hplaced.descriptors fd p (Option.mem_toList.mp hmem)
    rw [howner] at hplace
    exact hapart.not_placeOf hne hplace
  cases o with
  | mkdir dir =>
      obtain rfl := List.mem_singleton.mp hp
      rw [Fs.place, hplaced.base]
      -- The directory is a target of the other client, or on the way to one. `Apart` excludes
      -- both.
      obtain ⟨path, hpath, rfl | hdir⟩ := hwithin
      · exact hapart.not_placeOf hne ⟨dir, hpath, rfl⟩
      · rintro ⟨path', hpath', heq⟩
        exact (hapart m' m path path' hne hpath hpath').2 dir hdir heq.symm
  | openTrunc path mode =>
      obtain rfl := List.mem_singleton.mp hp
      rw [Fs.place, hplaced.base]
      exact hapart.not_placeOf hne ⟨path, hwithin, rfl⟩
  | ftruncate id fd | pwrite id fd | abtIoPwrite id fd => exact hfd fd hwithin hp
  | pull remote segs =>
      obtain ⟨⟨a, size⟩, hmem, hplace⟩ := List.mem_filterMap.mp hp
      cases a with
      | mapped seg =>
          have howner := hwithin seg (List.mem_map_of_mem hmem)
          have hseg := hplaced.segments seg p hplace
          rw [howner] at hseg
          exact hapart.not_placeOf hne hseg
      | null | failed => cases hplace
  | _ => cases hp

/-- A client changes no record of another one. -/
theorem record_apart {m' : Nat} (hne : m' ≠ m) {targets : Str → Prop}
    (hwithin : o.Within classes targets m' s) {id : Uuid}
    (hid : ∀ t, s.issuedTo id = some t → t.client = m) (x : Option Operation) :
    o.record t w id x = x := by
  have hother : ∀ i, s.Owns m' i → i ≠ id := by
    rintro i ⟨n, hn⟩ rfl
    exact hne (hid _ hn)
  cases o with
  | insert i | erase i | lock i | unlock i | setError i | after i =>
      exact if_neg (hother i hwithin)
  | closeFds i => exact if_neg (hother i hwithin.1)
  | _ => rfl

/-- A client closes and opens descriptors of its own only. -/
theorem isOpen_apart (ht : t.client ≠ m) {targets : Str → Prop}
    (hwithin : o.Within classes targets t.client s) (hx : exec t w o s = some (r, s')) {fd : Fd}
    (hfd : fd.owner.client = m) : s'.isOpen fd = s.isOpen fd := by
  refine (exec_effect hx).isOpen fd ?_ ?_
  · intro hclosed
    cases o with
    | close fd' =>
        obtain rfl := List.mem_singleton.mp hclosed
        exact ht (hwithin.symm.trans hfd)
    | closeFds id =>
        simp only [Op.closed] at hclosed
        cases hop : s.opInProgress id with
        | none => simp [hop] at hclosed
        | some op =>
            simp only [hop, Option.map_some, Option.getD_some] at hclosed
            exact ht ((hwithin.2 op hop fd hclosed).symm.trans hfd)
    | _ => cases hclosed
  · intro p hopens
    cases o with
    | openTrunc path mode =>
        rcases exec_openTrunc hx with ⟨rfl, -⟩ | ⟨rfl, -⟩
        · cases hopens
        · obtain ⟨rfl, -⟩ := Prod.mk.inj (Option.some.inj hopens)
          exact ht hfd
    | _ => cases hopens

/-- An operation of another client leaves the providers alike. -/
theorem exec_unseen (h : Alike classes (PlaceOf cwd (targets m)) m s s₁)
    (hapart : Apart cwd targets) (hplaced : s.Placed cwd targets) (ht : t.client ≠ m)
    (hwithin : o.Within classes (targets t.client) t.client s)
    (hx : exec t w o s = some (r, s')) :
    Alike classes (PlaceOf cwd (targets m)) m s' s₁ := by
  have heff := exec_effect hx
  have hother : ∀ t', t'.client = m → t' ≠ t := fun t' ht' he => ht (he ▸ ht')
  exact {
    cwd := h.cwd.trans heff.cwd.symm
    node := fun p hp => (h.node p hp).trans
      (heff.node p fun hmem => places_apart hapart hplaced ht hwithin hmem hp).symm
    known := fun key hkey => ⟨classes_step hx (h.known key hkey).1, (h.known key hkey).2⟩
    -- The table may get a null class from the other client, which nobody can tell from none.
    found := fun key => by
      rw [h.found key]
      cases o with
      | classAt key' =>
          obtain ⟨table, heq, hsame, -⟩ := exec_classAt t w key' s
          obtain ⟨-, rfl⟩ := Prod.mk.inj (Option.some.inj (heq.symm.trans hx))
          exact (hsame key).symm
      | _ => rw [heff.classes fun _ ho => by cases ho]
    issued := fun id t' => by
      rw [h.issued]
      rcases issuedTo_step hx id with hsame | ⟨-, -, hnone, hnew⟩
      · rw [hsame]
      · rw [hnone, hnew]
        exact ⟨fun hfalse => absurd hfalse.1 (by simp), fun hdrawn =>
          absurd hdrawn.2 (Option.some.inj hdrawn.1 ▸ ht)⟩
    -- The other client changes no record whose id is not its own.
    record := fun id hid => by
      have hid' : ∀ t', s.issuedTo id = some t' → t'.client = m := fun t' ht' => by
        rcases issuedTo_step hx id with hsame | ⟨-, -, hnone, -⟩
        · exact hid t' (hsame.trans ht')
        · exact absurd (hnone.symm.trans ht') (by simp)
      rw [h.record id hid', heff.record, record_apart ht hwithin hid']
    responses := fun t' ht' => by
      rw [h.responses t' ht', heff.responses]
      cases o with
      | respond a => exact (Function.update_of_ne (hother t' ht') _ _).symm
      | _ => rfl
    opened := fun t' ht' => by
      rw [h.opened t' ht']
      cases o with
      | openTrunc path mode =>
          rcases exec_openTrunc hx with ⟨-, rfl⟩ | ⟨-, -, rfl⟩
          · rfl
          · exact (Function.update_of_ne (hother t' ht') _ _).symm
      | _ => rw [(heff.files fun _ _ ho => by cases ho).2.1]
    mapped := fun t' ht' => by
      rw [h.mapped t' ht', heff.mapped]
      cases o with
      | mmap id fd size =>
          cases r with
          | mapped seg => exact (Function.update_of_ne (hother t' ht') _ _).symm
          | null | failed => rfl
      | _ => rfl
    descriptors := fun fd hfd => by
      rw [h.descriptors fd hfd]
      cases o with
      | openTrunc path mode =>
          rcases exec_openTrunc hx with ⟨-, rfl⟩ | ⟨-, -, rfl⟩
          · rfl
          · have hne : fd ≠ ⟨t, s.opened t⟩ := by
              rintro rfl
              exact ht hfd
            exact (Function.update_of_ne hne _ _).symm
      | _ => rw [heff.descriptors]; rfl
    isOpen := fun fd hfd => (h.isOpen fd hfd).trans (isOpen_apart ht hwithin hx hfd).symm
    segments := fun seg hseg => (h.segments seg hseg).trans
      (heff.segments seg fun _ _ _ _ => fun he => ht (he ▸ hseg)).symm }

end Frame

/-! ### A whole run -/

/-- In `P₁` the client `m` is alone, and otherwise in the same situation as in `P`. -/
abbrev AloneAs (classes : ClassKey → Option MigrationClass) (cwd : Path)
    (targets : Nat → Str → Prop) (m : Nat) (P P₁ : System) : Prop :=
  Alone (fun t : Tid => t.client = m) (Alike classes (PlaceOf cwd (targets m)) m) P P₁

section Run
variable {classes : ClassKey → Option MigrationClass} {cwd : Path} {targets : Nat → Str → Prop}
  {m : Nat} {P P₁ : System}

/-- What the client may send and draw is the same. -/
theorem AloneAs.separated (h : AloneAs classes cwd targets m P P₁) {l : Step}
    (hl : l.thread.client = m) (hC : P.Separated classes targets l) :
    P₁.Separated classes targets l := by
  cases l with
  | spawn t q =>
      obtain ⟨hpermits, hstart⟩ := hC
      refine ⟨permits_mono (fun n a ha => ?_) hpermits, hstart⟩
      rw [h.shared.responses ⟨t.client, n⟩ hl]
      exact ha
  | step t w =>
      have hpending : P₁.pending t = P.pending t := by
        simp only [System.pending, h.inside t hl]
      simp only [System.Separated, System.Decides, hpending] at hC ⊢
      split
      · rename_i heq
        rw [heq] at hC
        by_contra hne
        obtain ⟨t', ht'⟩ := Option.ne_none_iff_exists'.mp hne
        exact absurd (hC.symm.trans ((h.shared.issued _ _).mp ht').1) (by simp)
      · rename_i heq
        rw [heq] at hC
        exact hC
      · trivial

/-- An operation of a handler of the client has the same result. -/
theorem AloneAs.exec {G : Tid → Ghost} (h : AloneAs classes cwd targets m P P₁)
    (hw : Watched discipline G P) (hJ : Parted classes cwd targets G P) {t : Tid} {w : Outcome}
    {q : Request} {o : Op} {k : Ans o → Handler Unit} (hclient : t.client = m)
    (hC : P.Decides targets t w) (ht : P.thread t = some ⟨q, .op o k⟩) :
    SameResult (Alike classes (PlaceOf cwd (targets m)) m) (Remi.exec t w o P.shared)
      (Remi.exec t w o P₁.shared) := by
  have hwithin := Parted.within hw hJ ht
  rw [hclient] at hwithin
  refine exec_alike h.shared hJ.base hclient hwithin ?_
  rintro rfl
  simpa only [System.Decides, System.pending, ht] using hC

end Run

/-- The client 0 migrates the file `/f` and the client 1 the file `/g`. -/
private def twoTargets (m : Nat) (path : Str) : Prop :=
  m = 0 ∧ path = ['/', 'f'] ∨ m = 1 ∧ path = ['/', 'g']

private instance (m : Nat) (path : Str) : Decidable (twoTargets m path) :=
  inferInstanceAs (Decidable (_ ∨ _))

/-- The operations of two handlers in turns, where the world decides `w` and `w'` for them. -/
private def inTurns (t t' : Tid) (w w' : Outcome) (n : Nat) : List Step :=
  (List.replicate n [.step t w, .step t' w']).flatten

/-- Both clients migrate one byte. The write for the client 1 fails. -/
private def twoMigrations : List Step :=
  let w := Outcome.succeed 1
  let w' := Outcome.succeed 2
  .spawn ⟨0, 0⟩ (.start { oneFile with root := ['/'] } [1] [0]) ::
    .spawn ⟨1, 0⟩ (.start { oneFile with root := ['/'], files := .ofList [['g']] } [1] [0]) ::
    inTurns ⟨0, 0⟩ ⟨1, 0⟩ w w' 10 ++
    .spawn ⟨0, 1⟩ (.write 1 0 0 [7]) :: .spawn ⟨1, 1⟩ (.write 2 0 0 [8]) ::
    inTurns ⟨0, 1⟩ ⟨1, 1⟩ w { w' with io := .fail } 7 ++
    .step ⟨1, 1⟩ w' :: .spawn ⟨0, 2⟩ (.end_ 1) :: .spawn ⟨1, 2⟩ (.end_ 2) ::
    inTurns ⟨0, 2⟩ ⟨1, 2⟩ w w' 7 ++ List.replicate 2 (.step ⟨0, 2⟩ w)

private theorem twoTargets_apart : Apart [] twoTargets := by
  have hprefix : ∀ c dir : Str, DirPrefix dir ('/' :: c) → '/' ∉ c → dir = [] := by
    rintro c dir ⟨rest, heq⟩ hc
    cases dir with
    | nil => rfl
    | cons d dir =>
        obtain ⟨-, rfl⟩ := List.cons.inj heq
        simp at hc
  rintro m m' path path' hne (⟨rfl, rfl⟩ | ⟨rfl, rfl⟩) (⟨rfl, rfl⟩ | ⟨rfl, rfl⟩)
  · exact absurd rfl hne
  · refine ⟨by decide, fun dir hdir => ?_⟩
    obtain rfl := hprefix _ dir hdir (by decide)
    decide
  · refine ⟨by decide, fun dir hdir => ?_⟩
    obtain rfl := hprefix _ dir hdir (by decide)
    decide
  · exact absurd rfl hne

end Remi
