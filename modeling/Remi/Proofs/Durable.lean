import Remi.Proofs.AmongOthers
import Remi.Proofs.Classes
import Remi.Proofs.Overwrite
import Remi.Proofs.Removal

/-!
# `Remi.Proofs.Durable`: what has been delivered stays

Once `migrate_end` has succeeded, the provider never writes to the files of the operation again,
whatever requests it gets: with any ids, any file numbers and offsets, in any order, from clients
that follow the protocol or do not. Three facts make this so. A handler writes only to descriptors
of the record it has found, and the record is gone. `migrate_start` opens only what its check has
found free. And nothing removes a file, so the check goes on finding the delivered ones.

`heed` is the monitor of the second fact. `Avoids` says of a set of files that are there that no
record, and nothing a handler has in its hands, leads to one of them; every request keeps it, and
leaves such files as they are. A `migrate_start` that succeeds establishes it for its files, because
the descriptors of older records lead to files that its check has not found (`Provider.Grounded`).
`copy_stays` and `migrated_once` are the results for a client.

The check relies on two things. `access` tells whether there is a file, so it must not fail on one
that is there, and a "before" callback must not put other names into the fileset.
-/

set_option autoImplicit false

namespace Remi

open Remi.Lib

/-! ### What `migrate_start` opens -/

/-- The paths that the check has found free, after an answer. -/
def checked (free : List Str) : (o : Op) → Ans o → List Str
  | .access path, r => if r then free else path :: free
  | _, _ => free

/-- The answer of a "before" callback leaves the names of the files. -/
def NamesKept : (o : Op) → Ans o → Prop
  | .before _ _ fileset, r => r.2.fullNames = fileset.fullNames
  | _, _ => True

/-- Only what has been found free is opened. -/
def heed : Monitor Ans (List Str) where
  allows free o :=
    match o with
    | .openTrunc path _ => path ∈ free
    | _ => True
  next free o r free' := free' = checked free o r ∧ NamesKept o r
  returns _ := True

/-- A program that opens only what it has found free, and returns with `Q`. -/
abbrev Heeds {α : Type} (p : Handler α) (free : List Str) (Q : List Str → α → Prop) : Prop :=
  p.Obeys heed Q free

/-- A check that finds nothing has looked for all the files. -/
theorem anyExists_heeds (root : Str) (files : List Str) (free : List Str) :
    Heeds (anyExists root files) free fun free' found =>
      found = false → (∀ path ∈ free, path ∈ free') ∧ ∀ n ∈ files, root ++ n ∈ free' := by
  induction files generalizing free with
  | nil =>
      intro _
      exact ⟨fun _ h => h, fun _ h => by cases h⟩
  | cons n rest ih =>
      refine ⟨trivial, fun r free' hr => ?_⟩
      cases r with
      | true =>
          intro hfound
          cases hfound
      | false =>
          obtain ⟨rfl, -⟩ := hr
          refine Prog.Obeys.mono (ih _) fun free'' found h hfound => ?_
          obtain ⟨hkeep, hrest⟩ := h hfound
          refine ⟨fun path hp => hkeep path (List.mem_cons_of_mem _ hp), fun n' hn' => ?_⟩
          rcases List.mem_cons.mp hn' with rfl | hn'
          · exact hkeep _ List.mem_cons_self
          · exact hrest n' hn'

theorem mkdirAll_heeds (dirs : List Str) (free : List Str) :
    Heeds (mkdirAll dirs) free fun free' _ => free' = free := by
  induction dirs generalizing free with
  | nil => rfl
  | cons d rest ih =>
      refine ⟨trivial, fun r free' hr => ?_⟩
      obtain rfl : free' = free := hr.1
      exact ih free'

theorem closeEach_heeds (fds : List Fd) (free : List Str) :
    Heeds (closeEach fds) free fun _ _ => True := by
  induction fds generalizing free with
  | nil => trivial
  | cons fd rest ih => exact ⟨trivial, fun _ free' _ => ih free'⟩

theorem openFiles_heeds (root : Str) (theModes : List Nat) (files : List Str) (i : Nat)
    (opened : List Fd) {free : List Str} (h : ∀ n ∈ files, root ++ n ∈ free) :
    Heeds (openFiles root theModes files i opened) free fun _ _ => True := by
  induction files generalizing i opened with
  | nil => trivial
  | cons n rest ih =>
      refine Prog.obeys_bind (mkdirAll_heeds _ free) fun free₁ _ h₁ => ?_
      obtain rfl : free₁ = free := h₁
      refine ⟨trivial, fun mode free₂ h₂ => ?_⟩
      obtain rfl : free₂ = free₁ := h₂.1
      refine ⟨h n List.mem_cons_self, fun r free₃ h₃ => ?_⟩
      obtain rfl : free₃ = free₂ := h₃.1
      cases r with
      | none =>
          show Heeds (closeEach opened >>= fun _ => Prog.pure none) free₃ _
          exact Prog.obeys_bind (closeEach_heeds opened free₃) fun _ _ _ => trivial
      | some fd => exact ih (i + 1) (opened ++ [fd]) fun n' hn' => h n' (List.mem_cons_of_mem n hn')

theorem createOperation_heeds (fileset : Fileset) (filesizes theModes : List Nat) (id : Uuid)
    {free : List Str} (h : ∀ path ∈ fileset.fullNames, path ∈ free) :
    Heeds (createOperation fileset filesizes theModes id) free fun _ _ => True := by
  have hopen := openFiles_heeds fileset.root theModes fileset.files.toList 0 []
    fun n hn => h (fileset.root ++ n) (mem_fullNames hn)
  refine Prog.obeys_bind hopen fun free' r _ => ?_
  cases r with
  | none => exact ⟨trivial, fun _ _ _ => trivial⟩
  | some fds => exact ⟨trivial, fun _ _ _ => ⟨trivial, fun _ _ _ => trivial⟩⟩

theorem callBefore_heeds (klass : MigrationClass) (fileset : Fileset) (free : List Str) :
    Heeds (callBefore klass fileset) free fun free' r =>
      free' = free ∧ r.2.fullNames = fileset.fullNames := by
  unfold callBefore
  cases klass.beforeCallback with
  | none => exact ⟨rfl, rfl⟩
  | some callback => exact ⟨trivial, fun _ _ hr => hr⟩

theorem migrateStart_heeds (fileset : Fileset) (filesizes theModes : List Nat) :
    Heeds (migrateStart fileset filesizes theModes) [] fun _ _ => True := by
  refine ⟨trivial, fun id free₁ _ => ⟨trivial, fun known free₂ _ => ?_⟩⟩
  cases known with
  | false => exact ⟨trivial, fun _ _ _ => trivial⟩
  | true =>
      show Heeds (anyExists fileset.root fileset.files.toList >>= _) free₂ _
      refine Prog.obeys_bind (anyExists_heeds _ _ _) fun free₃ found hfound => ?_
      cases found with
      | true => exact ⟨trivial, fun _ _ _ => trivial⟩
      | false =>
          obtain ⟨-, hall⟩ := hfound rfl
          refine ⟨trivial, fun klass free₄ h₄ => ?_⟩
          obtain rfl : free₄ = free₃ := h₄.1
          show Heeds (callBefore klass fileset >>= _) free₄ _
          refine Prog.obeys_bind (callBefore_heeds klass fileset _) fun free₅ r h₅ => ?_
          obtain ⟨status, fileset'⟩ := r
          obtain ⟨rfl, hnames⟩ := h₅
          dsimp only
          by_cases hstatus : status = 0
          · rw [if_neg (not_not_intro hstatus)]
            refine createOperation_heeds fileset' filesizes theModes id fun path hpath => ?_
            rw [hnames] at hpath
            obtain ⟨n, hn, rfl⟩ := List.mem_map.mp hpath
            exact hall n hn
          · rw [if_pos hstatus]
            exact ⟨trivial, fun _ _ _ => trivial⟩

/-- The other handlers open nothing. -/
theorem handle_heeds (abtio : Bool) (q : Request) :
    Heeds (handle abtio q) [] fun _ _ => True := by
  by_cases hq : q.kind = .start
  · cases q with
    | start fileset filesizes theModes => exact migrateStart_heeds fileset filesizes theModes
    | mmap | write | end_ => cases hq
  · have hissues : (handle abtio q).Issues fun o => ∀ path mode, o ≠ .openTrunc path mode := by
      refine (handle_follows abtio q).issues (I := fun g => g.req.kind ≠ .start) hq ?_ ?_
      · rintro g o hg hallow path mode rfl
        exact hg hallow.1
      · intro g o r hg
        rw [after_req]
        exact hg
    refine hissues.obeys (fun free o ho => ?_) []
    cases o with
    | openTrunc path mode => exact absurd rfl (ho path mode)
    | _ => trivial

/-! ### What a request leaves alone -/

/-- None of the descriptors leads to a place of `A`. -/
def Provider.Spares (s : Provider) (A : Path → Prop) (fds : List Fd) : Prop :=
  ∀ fd ∈ fds, ∀ p, s.descriptors fd = some p → ¬ A p

/-- There are files at the places of `A`, and only the records of `own` lead to them. -/
structure Avoids (A : Path → Prop) (own : Uuid → Prop) (s : Provider) : Prop where
  there : ∀ p, A p → s.fs.HasFile p
  records : ∀ id op, ¬ own id → s.opInProgress id = some op → s.Spares A op.fds

/-- What a handler has opened does not lead to the places of `A`, nor does what it has found
free. -/
structure Avoiding (A : Path → Prop) (own : Uuid → Prop) (g : Ghost) (free : List Str)
    (s : Provider) : Prop extends Avoids A own s where
  mine : s.Spares A g.mine
  free : ∀ path ∈ free, ¬ A (s.fs.place path)

/-- Nothing a handler has in its hands leads to the places of `A`, and the files there are those
of `fs`. -/
structure Sparing (A : Path → Prop) (fs : Fs) (g : Ghost) (free : List Str) (s : Provider) : Prop
    extends Avoiding A (fun _ => False) g free s where
  fds : s.Spares A g.fds
  maps : ∀ seg, .mapped seg ∈ g.maps → ∀ p, s.segments seg = some p → ¬ A p
  same : ∀ p, A p → s.fs.node p = fs.node p

section Step
variable {A : Path → Prop} {own : Uuid → Prop} {t : Tid} {w : Outcome} {g : Ghost}
  {free : List Str} {o : Op} {r : Ans o} {s s' : Provider}

/-- What a handler opens is not at a place of `A`. -/
theorem Avoiding.opens (h : Avoiding A own g free s) (hheed : heed.allows free o) {path : Str}
    {mode : Nat} (ho : o = .openTrunc path mode) : ¬ A (s.fs.place path) := by
  subst ho
  exact h.free path hheed

theorem Avoiding.spares (h : Avoiding A own g free s) (hheed : heed.allows free o)
    (hx : exec t w o s = some (r, s')) {fds : List Fd} (hfds : s.Spares A fds) :
    s'.Spares A fds := by
  intro fd hfd p hp
  rcases descriptors_step hx hp with hold | ⟨⟨path, mode, ho, rfl⟩, -⟩
  · exact hfds fd hfd p hold
  · exact h.opens hheed ho

theorem Avoiding.mine_step (h : Avoiding A own g free s) (hheed : heed.allows free o)
    (hx : exec t w o s = some (r, s')) : s'.Spares A (g.after o r).mine := by
  have hold : s'.Spares A g.mine := h.spares hheed hx h.mine
  cases o with
  | openTrunc path mode =>
      intro fd hfd p hp
      rcases List.mem_append.mp hfd with hmine | hnew
      · exact hold fd hmine p hp
      · rcases exec_openTrunc hx with ⟨rfl, -⟩ | ⟨rfl, -, rfl⟩
        · cases hnew
        · obtain rfl : fd = ⟨t, s.opened t⟩ := by simpa using hnew
          obtain rfl : s.fs.place path = p := by simpa using hp
          exact h.opens hheed rfl
  | close fd => exact fun fd' hfd' => hold fd' (List.mem_of_mem_tail hfd')
  | insert id op => exact fun fd hfd => absurd hfd List.not_mem_nil
  | _ => exact hold

theorem Avoiding.free_step (h : Avoiding A own g free s)
    (haccess : ∀ path, o = .access path → w.io ≠ .fail) (hx : exec t w o s = some (r, s'))
    {path : Str} (hpath : path ∈ checked free o r) : ¬ A (s'.fs.place path) := by
  rw [place_step hx]
  cases o with
  | access path' =>
      obtain ⟨rfl, -⟩ := Prod.mk.inj (Option.some.inj hx)
      have hio : w.io ≠ .fail := haccess path' rfl
      cases hnode : s.fs.node (s.fs.place path') with
      | some n =>
          simp only [checked, hio, hnode, ne_eq, not_false_eq_true, Option.isSome_some, and_self,
            decide_true, if_true] at hpath
          exact h.free path hpath
      | none =>
          simp only [checked, hio, hnode, ne_eq, not_false_eq_true, Option.isSome_none, and_false,
            decide_false, Bool.false_eq_true, if_false] at hpath
          rcases List.mem_cons.mp hpath with rfl | hpath
          · intro hA
            obtain ⟨b, hb⟩ := h.there _ hA
            rw [hnode] at hb
            cases hb
          · exact h.free path hpath
  | _ => exact h.free path hpath

theorem Avoiding.step (h : Avoiding A own g free s) (hallow : g.Allows o)
    (hheed : heed.allows free o) (haccess : ∀ path, o = .access path → w.io ≠ .fail)
    (hx : exec t w o s = some (r, s')) :
    Avoiding A own (g.after o r) (checked free o r) s' where
  there p hp := hasFile_step (P := ⟨s, fun _ => none⟩) hx (h.there p hp)
  records id op hid hop := by
    rw [(exec_effect hx).record] at hop
    cases hold : s.opInProgress id with
    | none =>
        rw [hold] at hop
        obtain rfl := Op.record_none hop
        obtain ⟨-, -, -, -, -, -, -, hfds⟩ := hallow
        rw [hfds]
        exact h.spares hheed hx h.mine
    | some op' =>
        rw [hold] at hop
        rcases Op.record_fds hop with ⟨hfds, -⟩ | rfl
        · rw [hfds]
          exact h.spares hheed hx (h.records id op' hid hold)
        · obtain ⟨-, -, -, -, -, -, -, hfds⟩ := hallow
          rw [hfds]
          exact h.spares hheed hx h.mine
  mine := h.mine_step hheed hx
  free path hpath := h.free_step haccess hx hpath

/-! ### The contents stay -/

/-- A new segment is a mapping of the file of its descriptor. -/
theorem exec_mmap_segment {id : Uuid} {fd : Fd} {size : Nat} {seg : Seg}
    (h : exec t w (.mmap id fd size) s = some (.mapped seg, s')) :
    s'.segments seg = s.descriptors fd := by
  simp only [exec] at h
  split at h
  · rename_i p hp
    split at h
    · obtain ⟨ha, rfl⟩ := Prod.mk.inj (Option.some.inj h)
      obtain rfl := Mapping.mapped.inj ha
      rw [hp]
      exact Function.update_self _ _ _
    · cases (Prod.mk.inj (Option.some.inj h)).1
  · cases (Prod.mk.inj (Option.some.inj h)).1

variable {fs : Fs}

theorem Sparing.maps_step (h : Sparing A fs g free s) (hallow : g.Allows o)
    (hx : exec t w o s = some (r, s')) {seg : Seg} (hseg : .mapped seg ∈ (g.after o r).maps)
    {p : Path} (hp : s'.segments seg = some p) : ¬ A p := by
  have hold : .mapped seg ∈ g.maps → ¬ A p := by
    intro hseg
    rcases segments_step hx hp with hp | ⟨id, fd, size, rfl, -, hfd⟩
    · exact h.maps seg hseg p hp
    · exact h.fds fd hallow.2.2.1 p hfd
  cases o with
  | mmap id fd size =>
      simp only [Ghost.after] at hseg
      split at hseg
      · exact hold hseg
      · rcases List.mem_append.mp hseg with hseg | hseg
        · exact hold hseg
        · obtain rfl := List.mem_singleton.mp hseg
          rw [exec_mmap_segment hx] at hp
          exact h.fds fd hallow.2.2.1 p hp
  | munmap a => exact hold (List.mem_of_mem_tail hseg)
  | _ => exact hold hseg

theorem Sparing.fds_step (h : Sparing A fs g free s) (hheed : heed.allows free o)
    (hx : exec t w o s = some (r, s')) : s'.Spares A (g.after o r).fds := by
  cases o with
  | load id =>
      obtain ⟨op, hop, heq⟩ := Option.map_eq_some_iff.mp hx
      obtain ⟨rfl, rfl⟩ := Prod.mk.inj heq
      exact h.records id op not_false hop
  | _ => exact h.spares hheed hx h.fds

/-- The places that an operation may change are not in `A`, but for a `mkdir` on a file. -/
theorem Sparing.places (h : Sparing A fs g free s) (hallow : g.Allows o)
    (hheed : heed.allows free o) (hmkdir : ∀ path, o ≠ .mkdir path) {p : Path}
    (hp : p ∈ o.places s) : ¬ A p := by
  cases o with
  | mkdir path => exact absurd rfl (hmkdir path)
  | openTrunc path mode =>
      obtain rfl := List.mem_singleton.mp hp
      exact h.opens hheed rfl
  | ftruncate id fd => exact h.fds fd hallow.2.2.1 p (Option.mem_toList.mp hp)
  | pwrite id fd | abtIoPwrite id fd => exact h.fds fd hallow.2.2.2.1 p (Option.mem_toList.mp hp)
  | pull remote segs =>
      obtain ⟨⟨a, size⟩, hseg, hplace⟩ := List.mem_filterMap.mp hp
      have ha : a ∈ g.maps := by
        rw [← hallow.2.2.1]
        exact List.mem_map_of_mem hseg
      cases a with
      | mapped seg => exact h.maps seg ha p hplace
      | null | failed => cases hplace
  | _ => exact absurd hp List.not_mem_nil

theorem Sparing.node_step (h : Sparing A fs g free s) (hallow : g.Allows o)
    (hheed : heed.allows free o) (hx : exec t w o s = some (r, s')) {p : Path} (hp : A p) :
    s'.fs.node p = fs.node p := by
  rw [← h.same p hp]
  by_cases hmkdir : ∃ path, o = .mkdir path
  · obtain ⟨path, rfl⟩ := hmkdir
    obtain ⟨b, hb⟩ := h.there p hp
    simp only [exec] at hx
    split at hx
    · -- A directory is made where there is nothing.
      rename_i hnone
      obtain ⟨-, rfl⟩ := Prod.mk.inj (Option.some.inj hx)
      refine Fs.put_node_ne ?_ _ _
      rintro rfl
      rw [hnone.2] at hb
      cases hb
    · obtain ⟨-, rfl⟩ := Prod.mk.inj (Option.some.inj hx)
      rfl
  · refine (exec_effect hx).node p fun hplace => ?_
    exact h.places hallow hheed (fun path ho => hmkdir ⟨path, ho⟩) hplace hp

theorem Sparing.step (h : Sparing A fs g free s) (hallow : g.Allows o)
    (hheed : heed.allows free o) (haccess : ∀ path, o = .access path → w.io ≠ .fail)
    (hx : exec t w o s = some (r, s')) :
    Sparing A fs (g.after o r) (checked free o r) s' where
  toAvoiding := h.toAvoiding.step hallow hheed haccess hx
  fds := h.fds_step hheed hx
  maps _ hseg _ hp := h.maps_step hallow hx hseg hp
  same _ hp := h.node_step hallow hheed hx hp

end Step

/-! ### Requests one after the other -/

/-- The existence check can be relied on, and callbacks leave the names of the files. -/
structure Env.Checks (env : Env) : Prop where
  access : ∀ n, env.io .access n ≠ .fail
  callback : ∀ n fs, KeepsNames (env.callback n fs)

section Serve
variable {env : Env} {abtio : Bool} {A : Path → Prop} {own : Uuid → Prop} {s : Site}

/-- What every operation keeps that the two monitors allow holds after a request. -/
theorem Env.Checks.serve (henv : env.Checks) (abtio : Bool) (q : Request)
    {I : Ghost → List Str → Provider → Prop} (hs : I (.init q) [] s.receive.provider)
    (hstep : ∀ g free t w o s r s', I g free s → g.Allows o → heed.allows free o →
      (∀ path, o = .access path → w.io ≠ .fail) → exec t w o s = some (r, s') →
      I (g.after o r) (checked free o r) s') :
    ∃ g free, I g free (env.serve abtio q s).2.provider := by
  have hboth := (handle_follows abtio q).both (handle_heeds abtio q)
  have hrun : ∀ (x : Ghost × List Str) (s₁ : Site) o r s₂, (discipline.both heed).allows x o →
      I x.1 x.2 s₁.provider → env.step s.tid o s₁ = some (r, s₂) →
      ∃ x', (discipline.both heed).next x o r x' ∧ I x'.1 x'.2 s₂.provider := by
    rintro x s₁ o r s₂ ⟨hallow, hheed⟩ hI hx
    have hexec := step_exec hx
    have hkept : NamesKept o r := by
      cases o with
      | before callback uargs fileset =>
          obtain ⟨rfl, -⟩ := Prod.mk.inj (Option.some.inj hexec)
          exact henv.callback _ _ fileset
      | _ => trivial
    have haccess : ∀ path, o = .access path → (env.outcome s₁ o).io ≠ .fail := by
      rintro path rfl
      exact henv.access _
    exact ⟨(x.1.after o r, checked x.2 o r), ⟨rfl, rfl, hkept⟩,
      hstep x.1 x.2 _ _ o _ r _ hI hallow hheed haccess hexec⟩
  obtain ⟨x, hx, -⟩ := hboth.run (s := s.receive) hs hrun
  exact ⟨x.1, x.2, hx⟩

theorem Avoids.avoiding (h : Avoids A own s.provider) (q : Request) :
    Avoiding A own (.init q) [] s.receive.provider where
  there := h.there
  records := h.records
  mine _ hfd := absurd hfd List.not_mem_nil
  free _ hpath := absurd hpath List.not_mem_nil

theorem Avoids.serve (henv : env.Checks) (abtio : Bool) (q : Request)
    (h : Avoids A own s.provider) : Avoids A own (env.serve abtio q s).2.provider := by
  obtain ⟨_, _, hend⟩ := henv.serve abtio q (h.avoiding q)
    fun g free t w o s r s' hI hallow hheed haccess hx => hI.step hallow hheed haccess hx
  exact hend.toAvoids

/-- A request leaves the files alone that no record leads to. -/
theorem Avoids.serve_same (henv : env.Checks) (abtio : Bool) (q : Request)
    (h : Avoids A (fun _ => False) s.provider) {p : Path} (hp : A p) :
    (env.serve abtio q s).2.provider.fs.node p = s.provider.fs.node p := by
  have hs : Sparing A s.provider.fs (.init q) [] s.receive.provider :=
    { toAvoiding := h.avoiding q
      fds := fun _ hfd => absurd hfd List.not_mem_nil
      maps := fun _ hseg => absurd hseg List.not_mem_nil
      same := fun _ _ => rfl }
  obtain ⟨_, _, hend⟩ := henv.serve abtio q hs
    fun g free t w o s r s' hI hallow hheed haccess hx => hI.step hallow hheed haccess hx
  exact hend.same p hp

theorem Avoids.serveAll (henv : env.Checks) (abtio : Bool) (later : List Request)
    (h : Avoids A own s.provider) : Avoids A own (env.serveAll abtio later s).provider := by
  induction later generalizing s with
  | nil => exact h
  | cons q rest ih => exact ih (h.serve henv abtio q)

/-- Requests leave the files alone that no record leads to. -/
theorem Avoids.serveAll_same (henv : env.Checks) (abtio : Bool) (later : List Request)
    (h : Avoids A (fun _ => False) s.provider) {p : Path} (hp : A p) :
    (env.serveAll abtio later s).provider.fs.node p = s.provider.fs.node p := by
  induction later generalizing s with
  | nil => rfl
  | cons q rest ih => exact (ih (h.serve henv abtio q)).trans (h.serve_same henv abtio q hp)

end Serve

/-! ### Records lead to files -/

/-- Every descriptor of a record leads to a file, and the next descriptors are new ones. -/
structure Provider.Grounded (s : Provider) : Prop where
  files : ∀ fd p, s.descriptors fd = some p → s.fs.HasFile p
  fresh : ∀ t n, s.opened t ≤ n → s.descriptors ⟨t, n⟩ = none
  records : ∀ id op, s.opInProgress id = some op → ∀ fd ∈ op.fds, s.descriptors fd ≠ none

section Grounded
variable {t : Tid} {w : Outcome} {o : Op} {r : Ans o} {s s' : Provider}

/-- A descriptor keeps the file that it has been opened for. -/
theorem descriptors_keep (hfresh : ∀ t n, s.opened t ≤ n → s.descriptors ⟨t, n⟩ = none)
    (hx : exec t w o s = some (r, s')) {fd : Fd} {p : Path} (hp : s.descriptors fd = some p) :
    s'.descriptors fd = some p := by
  cases o with
  | openTrunc path mode =>
      rcases exec_openTrunc hx with ⟨-, rfl⟩ | ⟨-, -, rfl⟩
      · exact hp
      · refine (Function.update_of_ne ?_ _ _).trans hp
        rintro rfl
        rw [hfresh t _ (Nat.le_refl _)] at hp
        cases hp
  | _ =>
      rw [(exec_effect hx).descriptors]
      exact hp

theorem Provider.fresh_step (hfresh : ∀ t n, s.opened t ≤ n → s.descriptors ⟨t, n⟩ = none)
    (hx : exec t w o s = some (r, s')) (t' : Tid) (n : Nat) (hn : s'.opened t' ≤ n) :
    s'.descriptors ⟨t', n⟩ = none := by
  have hold := hfresh t' n (Nat.le_trans (opened_step hx t') hn)
  cases h : s'.descriptors ⟨t', n⟩ with
  | none => rfl
  | some p =>
      rcases descriptors_step hx h with hsome | ⟨⟨path, mode, rfl, -⟩, heq⟩
      · rw [hold] at hsome
        cases hsome
      · obtain ⟨rfl, rfl⟩ := Fd.mk.inj heq
        rcases exec_openTrunc hx with ⟨-, rfl⟩ | ⟨-, -, rfl⟩
        · rw [hold] at h
          cases h
        · simp at hn

/-- The descriptors of a handler have been opened. -/
structure Grounding (g : Ghost) (s : Provider) : Prop extends s.Grounded where
  mine : ∀ fd ∈ g.mine, s.descriptors fd ≠ none

theorem Grounding.step {g : Ghost} (h : Grounding g s) (hallow : g.Allows o)
    (hx : exec t w o s = some (r, s')) : Grounding (g.after o r) s' := by
  have hkeep : ∀ fd, s.descriptors fd ≠ none → s'.descriptors fd ≠ none := by
    intro fd hfd
    obtain ⟨p, hp⟩ := Option.ne_none_iff_exists'.mp hfd
    rw [descriptors_keep h.fresh hx hp]
    exact Option.some_ne_none p
  refine { files := fun fd p hp => ?_, fresh := Provider.fresh_step h.fresh hx
           records := fun id op hop => ?_, mine := ?_ }
  · rcases descriptors_step hx hp with hold | ⟨⟨path, mode, rfl, rfl⟩, rfl⟩
    · exact hasFile_step (P := ⟨s, fun _ => none⟩) hx (h.files fd p hold)
    · rcases exec_openTrunc hx with ⟨-, rfl⟩ | ⟨-, -, rfl⟩
      · exact h.files _ _ hp
      · exact ⟨[], Fs.put_node_self _ _ _⟩
  · rw [(exec_effect hx).record] at hop
    have hinsert : o = .insert id op → ∀ fd ∈ op.fds, s'.descriptors fd ≠ none := by
      rintro rfl fd hfd
      obtain ⟨-, -, -, -, -, -, -, hfds⟩ := hallow
      rw [hfds] at hfd
      exact hkeep fd (h.mine fd hfd)
    cases hold : s.opInProgress id with
    | none =>
        rw [hold] at hop
        exact hinsert (Op.record_none hop)
    | some op' =>
        rw [hold] at hop
        rcases Op.record_fds hop with ⟨hfds, -⟩ | ho
        · rw [hfds]
          exact fun fd hfd => hkeep fd (h.records id op' hold fd hfd)
        · exact hinsert ho
  · have hold : ∀ fd ∈ g.mine, s'.descriptors fd ≠ none := fun fd hfd => hkeep fd (h.mine fd hfd)
    cases o with
    | openTrunc path mode =>
        intro fd hfd
        rcases List.mem_append.mp hfd with hmine | hnew
        · exact hold fd hmine
        · rcases exec_openTrunc hx with ⟨rfl, -⟩ | ⟨rfl, -, rfl⟩
          · cases hnew
          · obtain rfl : fd = ⟨t, s.opened t⟩ := by simpa using hnew
            simp
    | close fd => exact fun fd' hfd' => hold fd' (List.mem_of_mem_tail hfd')
    | insert id op => exact fun fd hfd => absurd hfd List.not_mem_nil
    | _ => exact hold

theorem Provider.Grounded.serve {env : Env} {site : Site} (abtio : Bool) (q : Request)
    (h : site.provider.Grounded) : (env.serve abtio q site).2.provider.Grounded := by
  have hs : Grounding (.init q) site.receive.provider :=
    { files := h.files, fresh := h.fresh, records := h.records
      mine := fun _ hfd => absurd hfd List.not_mem_nil }
  obtain ⟨g, hend, -⟩ := (handle_follows abtio q).run
    (I := fun g (site : Site) => Grounding g site.provider) hs
    fun g s o r s' hallow hI hx => ⟨_, rfl, hI.step hallow (step_exec hx)⟩
  exact hend.toGrounded

/-- Records lead to files in every state that requests lead to. -/
theorem serveAll_grounded (env : Env) (abtio : Bool) (classes : ClassKey → Option MigrationClass)
    (fs : Fs) (before : List Request) :
    (env.serveAll abtio before (.init classes fs)).provider.Grounded := by
  suffices h : ∀ s : Site, s.provider.Grounded → (env.serveAll abtio before s).provider.Grounded by
    refine h _ ⟨fun fd p hp => ?_, fun _ _ _ => rfl, fun id op hop => ?_⟩
    · cases hp
    · cases hop
  induction before with
  | nil => exact fun s hs => hs
  | cons q rest ih => exact fun s hs => ih _ (hs.serve abtio q)

end Grounded

/-! ### From `migrate_start` to `migrate_end` -/

section Transfer
variable {env : Env} {abtio : Bool} {fileset fileset' : Fileset} {filesizes theModes : List Nat}
  {s : Site} {status : Int} {id : Uuid}

/-- The id in the answer is the one that has been drawn. -/
theorem start_id (haccepts : Accepts env s fileset fileset')
    (h : ((providerRpc env abtio).start fileset filesizes theModes s).1 =
      (.success, status, id)) : id = env.uuid s.served := by
  obtain ⟨-, hanswer⟩ := start_eq env abtio fileset filesizes theModes s
  obtain ⟨_, _, ret, status', -, -, hserve, -⟩ :=
    serve_start env abtio s fileset filesizes theModes haccepts.fresh
  have hsent : (some (Response.start ret status' (env.uuid s.served))) =
      some (.start .success status id) := hserve.symm.trans ((hanswer status id).mpr h)
  simp only [Option.some.injEq, Response.start.injEq] at hsent
  exact hsent.2.2.symm

/-- The other records stay. -/
theorem start_records (haccepts : Accepts env s fileset fileset') {id' : Uuid}
    (hid : id' ≠ env.uuid s.served) :
    ((providerRpc env abtio).start fileset filesizes theModes s).2.provider.opInProgress id' =
      s.provider.opInProgress id' := by
  obtain ⟨s₁, haccepted, hprovider⟩ := start_accepted env abtio filesizes theModes haccepts
  obtain ⟨r, s₂, hrun, heq⟩ :=
    run_createOperation env s.tid fileset' filesizes theModes (env.uuid s.served) s₁
  obtain ⟨r', s₂', hrun', hsame, -⟩ :=
    run_openFiles_files env s.tid fileset'.root theModes fileset'.files.toList 0 [] s₁
  rw [hrun, Prod.mk.injEq] at hrun'
  obtain ⟨-, rfl⟩ := hrun'
  have hrecord : s₂.provider.opInProgress = s.provider.opInProgress :=
    hsame.record.trans haccepted.record
  rw [hprovider, heq]
  cases r with
  | none => exact congrFun hrecord id'
  | some fds =>
      rw [← hrecord]
      exact Function.update_of_ne hid _ _

/-- The descriptors stay that have been opened before. -/
theorem start_descriptors (hs : s.provider.Grounded) {fd : Fd} {p : Path}
    (hp : s.provider.descriptors fd = some p) :
    ((providerRpc env abtio).start fileset filesizes theModes s).2.provider.descriptors fd =
      some p := by
  rw [(start_eq env abtio fileset filesizes theModes s).1]
  have hrun := Prog.run_invariant (env.step s.tid)
    (I := fun s : Site => (∀ t n, s.provider.opened t ≤ n → s.provider.descriptors ⟨t, n⟩ = none) ∧
      s.provider.descriptors fd = some p)
    (fun o s r s' hI hx => ⟨Provider.fresh_step hI.1 (step_exec hx),
      descriptors_keep hI.1 (step_exec hx) hI.2⟩)
    (migrateStart fileset filesizes theModes) s.receive ⟨hs.fresh, hp⟩
  exact hrun.2

/-- Only the new record leads to the files of a `migrate_start` that has succeeded. -/
theorem start_avoids (henv : env.Checks) (hs : s.provider.Grounded)
    (h : ((providerRpc env abtio).start fileset filesizes theModes s).1 =
      (.success, status, id)) :
    Avoids (· ∈ s.provider.fs.places fileset) (· = id)
      ((providerRpc env abtio).start fileset filesizes theModes s).2.provider := by
  obtain ⟨fileset', op, haccepts, hstarted⟩ := start_success h
  have hnames : fileset'.fullNames = fileset.fullNames := by
    have hkeep := henv.callback s.provider.calls s.provider.fs fileset
    rwa [haccepts.agrees] at hkeep
  have hplaces : s.provider.fs.places fileset' = s.provider.fs.places fileset :=
    congrArg (List.map _) hnames
  refine ⟨fun p hp => ⟨[], hstarted.empty p (hplaces ▸ hp)⟩, ?_⟩
  intro id' op' hid hop fd hfd p hp hplace
  rw [start_records haccepts (start_id haccepts h ▸ hid)] at hop
  -- The descriptor has been opened before, for a file that the check has not found.
  obtain ⟨p', hp'⟩ := Option.ne_none_iff_exists'.mp (hs.records id' op' hop fd hfd)
  rw [start_descriptors hs hp'] at hp
  obtain rfl := Option.some.inj hp
  obtain ⟨b, hb⟩ := hs.files fd p' hp'
  obtain ⟨path, hpath, rfl⟩ := List.mem_map.mp hplace
  obtain ⟨name, hname, rfl⟩ := List.mem_map.mp hpath
  obtain ⟨k, hk⟩ := List.mem_iff_getElem?.mp hname
  rcases haccepts.absent k name hk with hio | hnone
  · exact henv.access _ hio
  · rw [hnone] at hb
    cases hb

/-- A `migrate_end` that succeeds has erased its record. -/
theorem end_erased (h : ((providerRpc env abtio).end_ id s).1.1 = .success) :
    ((providerRpc env abtio).end_ id s).2.provider.opInProgress id = none := by
  by_cases hdoomed : s.provider.Doomed id
  · exact absurd h (end_doomed env abtio hdoomed)
  · simp only [Provider.Doomed, not_forall, not_not] at hdoomed
    obtain ⟨op, hop, herror⟩ := hdoomed
    by_cases hmutex : op.mutex = none
    · rw [(end_eq env abtio s id).1, serve_end env abtio hop hmutex herror]
      exact Function.update_self _ _ _
    · -- The handler waits for the mutex of the record.
      have hserve : (env.serve abtio (.end_ id) s).1 = none := by
        simp [Env.serve, handle, migrateEnd, Site.receive, Prog.call, Prog.run, Env.step,
          Op.sysCall, exec, hop, hmutex]
      simp only [providerRpc] at h
      split at h
      · rename_i heq
        rw [heq] at hserve
        cases hserve
      · exact absurd h (show Ret.errMercury ≠ .success by decide)

variable {A : Path → Prop} {own : Uuid → Prop}

/-- The RPCs of a transfer touch no other record's files. -/
theorem rpc_keeps_avoids (henv : env.Checks) (abtio : Bool) :
    (providerRpc env abtio).Keeps fun s => Avoids A own s.provider where
  mmap id bulk s hs := by
    rw [(mmap_eq env abtio s id bulk).1]
    exact hs.serve henv abtio _
  write id i offset data s hs := by
    rw [(write_eq env abtio s id i offset data).1]
    exact hs.serve henv abtio _
  end_ id s hs := by
    rw [(end_eq env abtio s id).1]
    exact hs.serve henv abtio _

/-- After a `migrate_end` that succeeds no record leads to the files. -/
theorem end_avoids (henv : env.Checks) (hs : Avoids A (· = id) s.provider)
    (h : ((providerRpc env abtio).end_ id s).1.1 = .success) :
    Avoids A (fun _ => False) ((providerRpc env abtio).end_ id s).2.provider := by
  have hend := (rpc_keeps_avoids henv abtio).end_ id s hs
  refine ⟨hend.there, fun id' op _ hop => hend.records id' op ?_ hop⟩
  rintro rfl
  rw [end_erased h] at hop
  cases hop

/-- What the RPCs behind `migrate_start` keep is kept by the transfer of the data. -/
theorem deliver_keeps {rpc : Rpc Site} {I : Site → Prop} (hI : rpc.Keeps I) (io : ClientIo)
    (T : SourceTree) (ph : RemiProviderHandle) (mode : Int) (source : Fileset) (id : Uuid)
    (hs : I s) : I (deliver rpc io T ph mode source id s).2 := by
  unfold deliver
  split
  · exact hI.mmap _ _ _ hs
  · exact writeFiles_keeps io hI _ _ _ _ _ hs

variable (env abtio) in
/-- What every request keeps is kept by a migration. -/
theorem migrate_keeps {I : Site → Prop} (hI : ∀ q s, I s → I (env.serve abtio q s).2)
    (io : ClientIo) (T : SourceTree) (ph : RemiProviderHandle) (source : Fileset) (root : Str)
    (removeSource mode status : Int) (hs : I s) :
    I (remiFilesetMigrate (providerRpc env abtio) io T (some ph) (some source) (some root)
      removeSource mode status s).server := by
  by_cases hroot : root.head? = some '/'
  · rw [(migrate_accepted _ io T ph source removeSource mode status s hroot).2]
    by_cases hopens : Opens io T source
    · obtain ⟨rest, hrest, heq⟩ := transfer_opened (providerRpc env abtio) ph mode root status s
        hopens
      rw [heq]
      have hkeeps : (providerRpc env abtio).Keeps I := by
        refine ⟨fun id bulk s hs => ?_, fun id i offset data s hs => ?_, fun id s hs => ?_⟩
        · rw [(mmap_eq env abtio s id bulk).1]
          exact hI _ s hs
        · rw [(write_eq env abtio s id i offset data).1]
          exact hI _ s hs
        · rw [(end_eq env abtio s id).1]
          exact hI _ s hs
      refine sendStart_server ?_ (hrest.server I hkeeps)
      rw [providerRpc_eq]
      exact hI _ s hs
    · obtain ⟨ret, -, heq⟩ := transfer_unopened (providerRpc env abtio) ph mode root status s
        hopens
      rw [heq]
      exact hs
  · simpa [remiFilesetMigrate, hroot] using hs

end Transfer

/-! ### The files of a migration -/

section Migrate
variable {env : Env} {abtio : Bool} {io : ClientIo} {T : SourceTree} {ph : RemiProviderHandle}
  {fileset : Fileset} {root : Str} {removeSource mode status : Int} {s : Site}

/-- After a migration that succeeds no record leads to its files. -/
theorem migrate_avoids (henv : env.Checks) (hs : s.provider.Grounded)
    (hret : (remiFilesetMigrate (providerRpc env abtio) io T (some ph) (some fileset) (some root)
      removeSource mode status s).ret = .success) :
    Avoids (· ∈ s.provider.fs.places (sentFileset T fileset root)) (fun _ => False)
      (remiFilesetMigrate (providerRpc env abtio) io T (some ph) (some fileset) (some root)
        removeSource mode status s).server.provider := by
  obtain ⟨hroot, hret⟩ := migrate_success hret
  obtain ⟨hopens, hstart⟩ := transfer_started hret
  have hok := not_not.mp hstart
  have hm := transfer_deliver (providerRpc env abtio) ph mode root status s hopens
  rw [sendStart_success hok] at hm
  rw [(migrate_accepted _ io T ph fileset removeSource mode status s hroot).2]
  rw [hm] at hret ⊢
  have hstarted := start_avoids henv hs (Prod.ext hok rfl)
  generalize (providerRpc env abtio).start (sentFileset T fileset root)
    ((Sources T fileset).map (·.size)) ((Sources T fileset).map (·.mode)) s = answer
    at hret hstarted ⊢
  have hdelivered := deliver_keeps (rpc_keeps_avoids henv abtio) io T ph mode fileset
    answer.1.2.2 hstarted
  generalize deliver (providerRpc env abtio) io T ph mode fileset answer.1.2.2 answer.2 = x
    at hret hdelivered ⊢
  have hx : x.1 = .success := by
    by_contra hfailed
    rw [conclude, if_pos hfailed] at hret
    exact hfailed hret
  rw [conclude, if_neg (not_not_intro hx)] at hret ⊢
  exact end_avoids henv hdelivered hret

/-- Paths keep their places. -/
theorem serve_cwd (env : Env) (abtio : Bool) (q : Request) (s : Site) :
    (env.serve abtio q s).2.provider.fs.cwd = s.provider.fs.cwd :=
  Prog.run_invariant (env.step s.tid) (I := fun s' => s'.provider.fs.cwd = s.provider.fs.cwd)
    (fun _ _ _ _ hs hx => (exec_effect (step_exec hx)).cwd.trans hs) (handle abtio q) s.receive rfl

theorem serveAll_cwd (env : Env) (abtio : Bool) (qs : List Request) (s : Site) :
    (env.serveAll abtio qs s).provider.fs.cwd = s.provider.fs.cwd := by
  induction qs generalizing s with
  | nil => rfl
  | cons q rest ih => exact (ih _).trans (serve_cwd env abtio q s)

/-- The places of a fileset, after any requests. -/
theorem serveAll_places (env : Env) (abtio : Bool) (qs : List Request) (s : Site)
    (fileset : Fileset) :
    (env.serveAll abtio qs s).provider.fs.places fileset = s.provider.fs.places fileset := by
  have hplace : (env.serveAll abtio qs s).provider.fs.place = s.provider.fs.place := by
    funext path
    unfold Fs.place
    rw [serveAll_cwd]
  rw [Fs.places, hplace]
  rfl

/-- After a migration that succeeds no record leads to its files, and paths have their places. -/
theorem migrate_delivered {classes : ClassKey → Option MigrationClass} {fs : Fs}
    (before : List Request) (henv : env.Checks)
    (hret : (remiFilesetMigrate (providerRpc env abtio) io T (some ph) (some fileset) (some root)
      removeSource mode status (env.serveAll abtio before (.init classes fs))).ret = .success) :
    let provider := (remiFilesetMigrate (providerRpc env abtio) io T (some ph) (some fileset)
      (some root) removeSource mode status
      (env.serveAll abtio before (.init classes fs))).server.provider
    Avoids (· ∈ fs.places (sentFileset T fileset root)) (fun _ => False) provider ∧
      provider.fs.cwd = fs.cwd := by
  have hcwd := migrate_keeps env abtio
    (I := fun s => s.provider.fs.cwd = fs.cwd) (fun q s hs => (serve_cwd env abtio q s).trans hs)
    io T ph fileset root removeSource mode status (serveAll_cwd env abtio before (.init classes fs))
  have havoids := migrate_avoids henv (serveAll_grounded env abtio classes fs before) hret
  rw [serveAll_places] at havoids
  exact ⟨havoids, hcwd⟩

/-- A migration that names one of the files is refused. -/
theorem migrate_barred {A : Path → Prop} (henv : env.Checks)
    (hs : Avoids A (fun _ => False) s.provider) {p : Path} (hA : A p)
    (hp : p ∈ s.provider.fs.places (sentFileset T fileset root)) :
    (remiFilesetMigrate (providerRpc env abtio) io T (some ph) (some fileset) (some root)
      removeSource mode status s).ret ≠ .success := by
  intro hret
  obtain ⟨-, hret⟩ := migrate_success hret
  obtain ⟨-, hstart⟩ := transfer_started hret
  obtain ⟨fileset', op, haccepts, -⟩ := start_success (Prod.ext (not_not.mp hstart) rfl)
  obtain ⟨path, hpath, rfl⟩ := List.mem_map.mp hp
  obtain ⟨name, hname, rfl⟩ := List.mem_map.mp hpath
  obtain ⟨k, hk⟩ := List.mem_iff_getElem?.mp hname
  obtain ⟨b, hb⟩ := hs.there _ hA
  rcases haccepts.absent k name hk with hio | hnone
  · exact henv.access _ hio
  · rw [hnone] at hb
    cases hb

theorem checks_succeed : Env.succeed.Checks :=
  ⟨fun _ => show Io.full ≠ .fail by decide, fun _ _ _ => rfl⟩

end Migrate

end Remi
