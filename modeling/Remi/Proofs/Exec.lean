import Remi.Server.Discipline

/-!
# `Remi.Proofs.Exec`: what one operation changes

`exec_effect` gives one equation for each part of a provider that an invariant speaks of.
The proofs about whole runs use these equations, and look into `exec` only for the answer
of an operation.
-/

set_option autoImplicit false

namespace Remi

open Remi.Lib

namespace Op

/-- What an operation of `t` makes of the record of `id`. -/
def record (t : Tid) (w : Outcome) (id : Uuid) : Op → Option Operation → Option Operation
  | .insert i op, x => if i = id then some op else x
  | .erase i, x => if i = id then none else x
  | .lock i, x => if i = id then x.map fun op => { op with mutex := some t } else x
  | .unlock i, x => if i = id then x.map fun op => { op with mutex := none } else x
  | .setError i e, x => if i = id then x.map fun op => { op with error := e } else x
  | .closeFds i, x => if i = id then x.map fun op => { op with closedBy := some t } else x
  | .after i _ _, x =>
    if i = id then x.map fun op => { op with fileset := (w.callback op.fileset).2 } else x
  | _, x => x

/-- The ids drawn, after an operation of `t`. -/
def issuedTo (t : Tid) (w : Outcome) : Op → (Uuid → Option Tid) → Uuid → Option Tid
  | .newUuid, x => Function.update x w.uuid (some t)
  | _, x => x

/-- The answers sent, after an operation of `t`. -/
def responses (t : Tid) : Op → (Tid → Option Response) → Tid → Option Response
  | .respond r, x => Function.update x t (some r)
  | _, x => x

/-- The callback calls that an operation adds. -/
def callbacks (t : Tid) (s : Provider) : Op → List CallbackCall
  | .before callback uargs fileset => [.before t callback uargs fileset]
  | .after id callback uargs =>
    ((s.opInProgress id).map fun op => .after t id callback uargs op.fileset).toList
  | _ => []

/-- The operation may change a file or create something. -/
def touches : Op → Bool
  | .mkdir _ | .openTrunc _ _ | .ftruncate _ _ _ | .pull _ _ | .pwrite _ _ _ _
  | .abtIoPwrite _ _ _ _ => true
  | _ => false

/-- The write calls that an operation adds, from its answer. -/
def writes (t : Tid) : (o : Op) → Ans o → List WriteCall
  | .pwrite id fd data offset, n => [⟨t, id, fd, offset, data.length, n⟩]
  | .abtIoPwrite id fd data offset, n => [⟨t, id, fd, offset, data.length, n⟩]
  | _, _ => []

/-- The descriptor that an operation opens, with the place of its file. -/
def opens (s : Provider) : (o : Op) → Ans o → Option (Fd × Path)
  | .openTrunc path _, r => r.map (·, s.fs.place path)
  | _, _ => none

/-- The descriptors that an operation closes. -/
def closed (s : Provider) : Op → List Fd
  | .close fd => [fd]
  | .closeFds id => ((s.opInProgress id).map (·.fds)).getD []
  | _ => []

/-- The place of the file behind an address. -/
def segmentPlace (s : Provider) : Addr → Option Path
  | .mapped seg => s.segments seg
  | _ => none

/-- The places of the files and directories that an operation may change. -/
def places (s : Provider) : Op → List Path
  | .mkdir path => [s.fs.place path]
  | .openTrunc path _ => [s.fs.place path]
  | .ftruncate _ fd _ => (s.descriptors fd).toList
  | .pull _ segs => segs.filterMap fun seg => segmentPlace s seg.1
  | .pwrite _ fd _ _ => (s.descriptors fd).toList
  | .abtIoPwrite _ fd _ _ => (s.descriptors fd).toList
  | _ => []

/-- The addresses that an operation unmaps, exposes or synchronises. -/
def unmapped : Op → List Addr
  | .munmap a => [a]
  | _ => []

def exposed : Op → List Addr
  | .expose segs => segs.map Prod.fst
  | _ => []

def synced : Op → List Addr
  | .msync a => [a]
  | _ => []

/-- The numbers of segments mapped, after an operation of `t`. -/
def mapped (t : Tid) : (o : Op) → Ans o → (Tid → Nat) → Tid → Nat
  | .mmap _ _ _, .mapped _, x => Function.update x t (x t + 1)
  | _, _, x => x

/-- The numbers of failed `mmap` calls, after an operation of `t`. -/
def mapFailures (t : Tid) : (o : Op) → Ans o → (Tid → Nat) → Tid → Nat
  | .mmap _ _ _, .failed, x => Function.update x t (x t + 1)
  | _, _, x => x

section Record
variable {t : Tid} {w : Outcome} {id : Uuid} {o : Op} {op op' : Operation}

/-- Only `insert` makes a record. -/
theorem record_none (h : o.record t w id none = some op') : o = .insert id op' := by
  cases o <;> simp only [record] at h <;> try split at h
  all_goals first | contradiction | simp_all

/-- Only `erase` takes a record away. -/
theorem record_some (t : Tid) (w : Outcome) (op : Operation) (h : o ≠ .erase id) :
    ∃ op', o.record t w id (some op) = some op' := by
  cases o <;> simp only [record] <;> try split
  all_goals first | exact ⟨_, rfl⟩ | simp_all

/-- Only `closeFds` notes who has closed the descriptors. -/
theorem record_closedBy (h : o.record t w id (some op) = some op') :
    op'.closedBy = op.closedBy ∨ o = .closeFds id ∧ op'.closedBy = some t ∨
      o = .insert id op' := by
  cases o <;> simp only [record] at h <;> try split at h
  all_goals first | contradiction | (simp_all; done) | (obtain rfl := Option.some.inj h; simp_all)

/-- A record keeps its descriptors and sizes. -/
theorem record_fds (h : o.record t w id (some op) = some op') :
    op'.fds = op.fds ∧ op'.filesizes = op.filesizes ∨ o = .insert id op' := by
  cases o <;> simp only [record] at h <;> try split at h
  all_goals first | contradiction | (simp_all; done) | (obtain rfl := Option.some.inj h; simp_all)

/-- A record keeps its modes, and only `after` changes its fileset. -/
theorem record_fileset (h : o.record t w id (some op) = some op') :
    op'.modes = op.modes ∧ (op'.fileset = op.fileset ∨
      ∃ callback uargs, o = .after id callback uargs ∧
        op'.fileset = (w.callback op.fileset).2) ∨ o = .insert id op' := by
  cases o <;> simp only [record] at h <;> try split at h
  all_goals first | contradiction | (simp_all; done) | (obtain rfl := Option.some.inj h; simp_all)

/-- Only `lock` and `unlock` change the mutex. -/
theorem record_mutex (h : o.record t w id (some op) = some op') :
    op'.mutex = op.mutex ∨ o = .lock id ∧ op'.mutex = some t ∨
      o = .unlock id ∧ op'.mutex = none ∨ o = .insert id op' := by
  cases o <;> simp only [record] at h <;> try split at h
  all_goals first | contradiction | (simp_all; done) | (obtain rfl := Option.some.inj h; simp_all)

/-- Only `setError` changes the error. -/
theorem record_error (h : o.record t w id (some op) = some op') :
    op'.error = op.error ∨ o = .setError id op'.error ∨ o = .insert id op' := by
  cases o <;> simp only [record] at h <;> try split at h
  all_goals first | contradiction | (simp_all; done) | (obtain rfl := Option.some.inj h; simp_all)

end Record

end Op

/-- The files are the same ones, and none has been overwritten. -/
def SameFiles (s s' : Provider) : Prop :=
  s'.overwritten = s.overwritten ∧ s'.opened = s.opened ∧
    ∀ p, s'.fs.HasFile p ↔ s.fs.HasFile p

theorem SameFiles.of_eq {s s' : Provider} (h₁ : s'.overwritten = s.overwritten)
    (h₂ : s'.opened = s.opened) (h₃ : s'.fs = s.fs) : SameFiles s s' :=
  ⟨h₁, h₂, fun _ => by rw [h₃]⟩

/-- The parts of a provider after an operation of `t` with the answer `r`. By default the
operation leaves a part as `Op` says by computation. -/
structure Effect (t : Tid) (w : Outcome) (o : Op) (r : Ans o) (s s' : Provider) : Prop where
  record : ∀ id, s'.opInProgress id = o.record t w id (s.opInProgress id) := by exact fun _ => rfl
  issuedTo : s'.issuedTo = o.issuedTo t w s.issuedTo := by rfl
  responses : s'.responses = o.responses t s.responses := by rfl
  callbacks : s'.callbacks = o.callbacks t s ++ s.callbacks := by rfl
  calls : s'.calls = s.calls + (o.callbacks t s).length := by rfl
  writes : s'.writes = o.writes t r ++ s.writes := by rfl
  descriptors : s'.descriptors = (match o.opens s r with
    | some (fd, p) => Function.update s.descriptors fd (some p)
    | none => s.descriptors) := by rfl
  isOpen : ∀ fd, fd ∉ o.closed s → (∀ p, o.opens s r ≠ some (fd, p)) →
    s'.isOpen fd = s.isOpen fd := by exact fun _ _ _ => rfl
  segments : ∀ seg, (∀ id fd size, o = .mmap id fd size → seg.owner ≠ t) →
    s'.segments seg = s.segments seg := by exact fun _ _ => rfl
  closes : ∀ fd, s'.closes fd = s.closes fd + (o.closed s).count fd := by exact fun _ => rfl
  unmaps : ∀ a, s'.unmaps a = s.unmaps a + o.unmapped.count a := by exact fun _ => rfl
  exposes : ∀ a, s'.exposes a = s.exposes a + o.exposed.count a := by exact fun _ => rfl
  syncs : ∀ a, s'.syncs a = s.syncs a + o.synced.count a := by exact fun _ => rfl
  mapped : s'.mapped = o.mapped t r s.mapped := by rfl
  mapFailures : s'.mapFailures = o.mapFailures t r s.mapFailures := by rfl
  files : (∀ p mode, o ≠ .openTrunc p mode) → SameFiles s s' := by
    exact fun _ => .of_eq rfl rfl rfl
  cwd : s'.fs.cwd = s.fs.cwd := by rfl
  fs : o.touches = false → s'.fs = s.fs := by exact fun _ => rfl
  node : ∀ p, p ∉ o.places s → s'.fs.node p = s.fs.node p := by exact fun _ _ => rfl
  classes : (∀ key, o ≠ .classAt key) → s'.classes = s.classes := by exact fun _ => rfl
  outOfBounds : (∀ v i, o ≠ .vecAt v i) → (∀ id i, o ≠ .filesizeAt id i) →
    s'.outOfBounds = s.outOfBounds := by exact fun _ _ => rfl

section
variable {t : Tid} {w : Outcome} {o : Op} {r : Ans o} {s s' : Provider}

theorem modifyOp_opInProgress (s : Provider) (i : Uuid) (op : Operation) (id : Uuid) :
    (s.modifyOp i op).opInProgress id = if i = id then some op else s.opInProgress id := by
  by_cases h : i = id
  · subst h
    simp [Provider.modifyOp]
  · simp [Provider.modifyOp, h, Ne.symm h]

/-- A change of the record of `i` that its handler makes through the pointer. -/
theorem modifyOp_map {i : Uuid} {op : Operation} (f : Operation → Operation)
    (h : s.opInProgress i = some op) (id : Uuid) :
    (s.modifyOp i (f op)).opInProgress id =
      if i = id then (s.opInProgress id).map f else s.opInProgress id := by
  rw [modifyOp_opInProgress]
  by_cases hi : i = id
  · subst hi
    simp [h]
  · simp [hi]

/-- What is not closed stays as it is. -/
theorem closeAll_isOpen (s : Provider) (fds : List Fd) (fd : Fd) (h : fd ∉ fds) :
    (s.closeAll fds).isOpen fd = s.isOpen fd := by
  simp [Provider.closeAll, h]

/-- A write changes the contents of a file and is logged. -/
theorem write_effect (t : Tid) (io : Io) (id : Uuid) (fd : Fd) (data : Bytes) (offset : Nat)
    (s : Provider) :
    ∃ fs : Fs, (∀ p, fs.HasFile p ↔ s.fs.HasFile p) ∧ fs.cwd = s.fs.cwd ∧
      (∀ p, p ∉ (s.descriptors fd).toList → fs.node p = s.fs.node p) ∧
      (s.write t io id fd data offset).2 = { s with
        fs := fs
        writes := ⟨t, id, fd, offset, data.length, (s.write t io id fd data offset).1⟩
          :: s.writes } := by
  unfold Provider.write
  split
  · rename_i n p hcount hp
    split
    · refine ⟨_, fun q => Fs.hasFile_modifyFile _ _ _ _, rfl, fun q hq => ?_, rfl⟩
      have hne : q ≠ p := by simpa [hp] using hq
      exact Fs.modifyFile_node_ne hne _ _
    · exact ⟨s.fs, fun _ => Iff.rfl, rfl, fun _ _ => rfl, rfl⟩
  · exact ⟨s.fs, fun _ => Iff.rfl, rfl, fun _ _ => rfl, rfl⟩

theorem scatter_hasFile (segments : Seg → Option Path) (segs : List (Addr × Nat))
    (data : Bytes) (fs : Fs) (p : Path) :
    (scatter segments segs data fs).HasFile p ↔ fs.HasFile p := by
  induction segs generalizing data fs with
  | nil => exact Iff.rfl
  | cons seg rest ih =>
      obtain ⟨a, size⟩ := seg
      cases a with
      | mapped seg =>
          rw [scatter, ih]
          cases segments seg with
          | none => exact Iff.rfl
          | some q => exact Fs.hasFile_modifyFile _ _ _ _
      | null | failed => exact ih _ _

theorem scatter_cwd (segments : Seg → Option Path) (segs : List (Addr × Nat)) (data : Bytes)
    (fs : Fs) : (scatter segments segs data fs).cwd = fs.cwd := by
  induction segs generalizing data fs with
  | nil => rfl
  | cons seg rest ih =>
      obtain ⟨a, size⟩ := seg
      cases a with
      | mapped seg =>
          rw [scatter, ih]
          cases segments seg <;> rfl
      | null | failed => exact ih _ _

/-- A transfer changes the files behind its segments only. -/
theorem scatter_node (s : Provider) {segs : List (Addr × Nat)} (data : Bytes) (fs : Fs) {p : Path}
    (hp : ∀ seg ∈ segs, Op.segmentPlace s seg.1 ≠ some p) :
    (scatter s.segments segs data fs).node p = fs.node p := by
  induction segs generalizing data fs with
  | nil => rfl
  | cons seg rest ih =>
      have hseg := hp seg List.mem_cons_self
      have hrest := ih (data.drop seg.2)
      obtain ⟨a, size⟩ := seg
      cases a with
      | mapped seg =>
          rw [scatter, hrest _ fun x hx => hp x (List.mem_cons_of_mem _ hx)]
          cases hs : s.segments seg with
          | none => rfl
          | some q =>
              have hne : p ≠ q := by
                rintro rfl
                exact hseg hs
              exact Fs.modifyFile_node_ne hne _ _
      | null | failed => exact hrest _ fun x hx => hp x (List.mem_cons_of_mem _ hx)

/-- One more call with the address `a`. -/
theorem update_add_one (f : Addr → Nat) (a b : Addr) :
    Function.update f a (f a + 1) b = f b + [a].count b := by
  rw [List.count_singleton]
  by_cases h : b = a
  · subst h
    simp
  · simp [h, Ne.symm h]

theorem exec_effect (h : exec t w o s = some (r, s')) : Effect t w o r s s' := by
  -- One case for each operation. The fields without a line here are those that `exec` leaves as
  -- the effect has them.
  cases o with
  | newUuid =>
      simp only [exec] at h
      split at h
      · obtain ⟨-, rfl⟩ := Prod.mk.inj (Option.some.inj h)
        exact {}
      · cases h
  | classCount | access | find | before | respond =>
      obtain ⟨-, rfl⟩ := Prod.mk.inj (Option.some.inj h)
      exact {}
  | close fd =>
      obtain ⟨-, rfl⟩ := Prod.mk.inj (Option.some.inj h)
      exact { isOpen := fun fd' hfd _ => closeAll_isOpen s [fd] fd' hfd }
  | classAt key =>
      simp only [exec] at h
      split at h
      · obtain ⟨-, rfl⟩ := Prod.mk.inj (Option.some.inj h)
        exact {}
      · obtain ⟨-, rfl⟩ := Prod.mk.inj (Option.some.inj h)
        exact { classes := fun hne => absurd rfl (hne key) }
  | vecAt v i =>
      simp only [exec] at h
      split at h
      · obtain ⟨-, rfl⟩ := Prod.mk.inj (Option.some.inj h)
        exact {}
      · obtain ⟨-, rfl⟩ := Prod.mk.inj (Option.some.inj h)
        exact { outOfBounds := fun hne _ => absurd rfl (hne v i) }
  | mkdir p =>
      simp only [exec] at h
      split at h
      · rename_i hp
        obtain ⟨-, rfl⟩ := Prod.mk.inj (Option.some.inj h)
        exact { files := fun _ => ⟨rfl, rfl, Fs.hasFile_mkdir hp.2⟩, fs := nofun
                node := fun q hq => Fs.put_node_ne (by simpa [Op.places] using hq) _ _ }
      · obtain ⟨-, rfl⟩ := Prod.mk.inj (Option.some.inj h)
        exact {}
  | openTrunc p mode =>
      simp only [exec] at h
      split at h
      · obtain ⟨rfl, rfl⟩ := Prod.mk.inj (Option.some.inj h)
        exact {}
      · obtain ⟨rfl, rfl⟩ := Prod.mk.inj (Option.some.inj h)
        have hopens : ∀ fd, (∀ q, some (⟨t, s.opened t⟩, s.fs.place p) ≠ some (fd, q)) →
            Function.update s.isOpen ⟨t, s.opened t⟩ true fd = s.isOpen fd := fun fd hfd =>
          Function.update_of_ne (fun he => hfd _ (congrArg (fun x => some (x, _)) he.symm)) _ _
        exact { files := fun hne => absurd rfl (hne p mode), fs := nofun
                isOpen := fun fd _ hfd => hopens fd hfd
                node := fun q hq => Fs.put_node_ne (by simpa [Op.places] using hq) _ _ }
  | filesizeAt id i =>
      simp only [exec] at h
      split at h
      · split at h
        · obtain ⟨-, rfl⟩ := Prod.mk.inj (Option.some.inj h)
          exact {}
        · obtain ⟨-, rfl⟩ := Prod.mk.inj (Option.some.inj h)
          exact { outOfBounds := fun _ hne => absurd rfl (hne id i) }
      · cases h
  | insert id op =>
      obtain ⟨-, rfl⟩ := Prod.mk.inj (Option.some.inj h)
      exact { record := modifyOp_opInProgress s id op }
  | erase id =>
      obtain ⟨-, rfl⟩ := Prod.mk.inj (Option.some.inj h)
      have hrec : ∀ i, Function.update s.opInProgress id none i =
          if id = i then none else s.opInProgress i := fun i => by
        simp only [Function.update_apply, eq_comm]
      exact { record := hrec }
  | lock id =>
      simp only [exec] at h
      split at h
      · rename_i op hop
        split at h
        · obtain ⟨-, rfl⟩ := Prod.mk.inj (Option.some.inj h)
          exact { record := modifyOp_map (fun op => { op with mutex := some t }) hop }
        · cases h
      · cases h
  | unlock id =>
      simp only [exec] at h
      split at h
      · rename_i op hop
        obtain ⟨-, rfl⟩ := Prod.mk.inj (Option.some.inj h)
        exact { record := modifyOp_map (fun op => { op with mutex := none }) hop }
      · rename_i hop
        obtain ⟨-, rfl⟩ := Prod.mk.inj (Option.some.inj h)
        refine { record := fun i => ?_ }
        simp only [Op.record]
        split
        · rename_i hi
          rw [← hi, hop]
          rfl
        · rfl
  | load id =>
      obtain ⟨op, -, heq⟩ := Option.map_eq_some_iff.mp h
      obtain ⟨-, rfl⟩ := Prod.mk.inj heq
      exact {}
  | setError id e =>
      obtain ⟨op, hop, heq⟩ := Option.map_eq_some_iff.mp h
      obtain ⟨-, rfl⟩ := Prod.mk.inj heq
      exact { record := modifyOp_map (fun op => { op with error := e }) hop }
  | closeFds id =>
      obtain ⟨op, hop, heq⟩ := Option.map_eq_some_iff.mp h
      obtain ⟨-, rfl⟩ := Prod.mk.inj heq
      have hcloses : ∀ fd, s.closes fd + op.fds.count fd =
          s.closes fd + (Op.closed s (.closeFds id)).count fd := fun fd => by
        simp only [Op.closed, hop, Option.map_some, Option.getD_some]
      have hopen : ∀ fd, fd ∉ Op.closed s (.closeFds id) →
          (s.closeAll op.fds).isOpen fd = s.isOpen fd := fun fd hfd => by
        simp only [Op.closed, hop, Option.map_some, Option.getD_some] at hfd
        exact closeAll_isOpen s op.fds fd hfd
      exact { record := modifyOp_map (fun op => { op with closedBy := some t }) hop
              isOpen := fun fd hfd _ => hopen fd hfd
              closes := hcloses }
  | after id callback uargs =>
      obtain ⟨op, hop, heq⟩ := Option.map_eq_some_iff.mp h
      obtain ⟨-, rfl⟩ := Prod.mk.inj heq
      have hcalls : CallbackCall.after t id callback uargs op.fileset :: s.callbacks =
          Op.callbacks t s (.after id callback uargs) ++ s.callbacks := by
        simp [Op.callbacks, hop]
      exact { record := modifyOp_map
                (fun op => { op with fileset := (w.callback op.fileset).2 }) hop
              callbacks := hcalls
              calls := by simp [Op.callbacks, hop] }
  | ftruncate id fd size =>
      simp only [exec] at h
      split at h
      · split at h
        · obtain ⟨-, rfl⟩ := Prod.mk.inj (Option.some.inj h)
          rename_i p hp _
          exact { files := fun _ => ⟨rfl, rfl, fun _ => Fs.hasFile_modifyFile _ _ _ _⟩
                  fs := nofun
                  node := fun q hq =>
                    Fs.modifyFile_node_ne (by simpa [Op.places, hp] using hq) _ _ }
        · obtain ⟨-, rfl⟩ := Prod.mk.inj (Option.some.inj h)
          exact {}
      · obtain ⟨-, rfl⟩ := Prod.mk.inj (Option.some.inj h)
        exact {}
  | mmap id fd size =>
      simp only [exec] at h
      split at h
      · split at h
        · obtain ⟨rfl, rfl⟩ := Prod.mk.inj (Option.some.inj h)
          have hseg : ∀ seg : Seg, seg.owner ≠ t →
              Function.update s.segments ⟨t, s.mapped t⟩ (s.descriptors fd) seg =
                s.segments seg := fun seg hne =>
            Function.update_of_ne (fun he => hne (congrArg Seg.owner he)) _ _
          rename_i p hp _
          rw [hp] at hseg
          exact { segments := fun seg hne => hseg seg (hne id fd size rfl) }
        · obtain ⟨rfl, rfl⟩ := Prod.mk.inj (Option.some.inj h)
          exact {}
      · obtain ⟨rfl, rfl⟩ := Prod.mk.inj (Option.some.inj h)
        exact {}
  | munmap a =>
      obtain ⟨-, rfl⟩ := Prod.mk.inj (Option.some.inj h)
      exact { unmaps := update_add_one _ a }
  | msync a =>
      obtain ⟨-, rfl⟩ := Prod.mk.inj (Option.some.inj h)
      exact { syncs := update_add_one _ a }
  | expose segs =>
      simp only [exec] at h
      split at h
      · cases h
      · obtain ⟨-, rfl⟩ := Prod.mk.inj (Option.some.inj h)
        exact {}
  | pull remote segs =>
      simp only [exec] at h
      split at h
      · cases h
      · split at h
        · obtain ⟨-, rfl⟩ := Prod.mk.inj (Option.some.inj h)
          exact { files := fun _ => ⟨rfl, rfl, scatter_hasFile _ _ _ _⟩
                  cwd := scatter_cwd _ _ _ _
                  fs := nofun
                  node := fun p hp => scatter_node s _ _ fun seg hseg hplace =>
                    hp (List.mem_filterMap.mpr ⟨seg, hseg, hplace⟩) }
        · cases h
  -- Only what the descriptor names can change.
  | pwrite id fd data offset | abtIoPwrite id fd data offset =>
      simp only [exec, Option.some.injEq] at h
      obtain ⟨fs, hsame, hcwd, hnode, heq⟩ := write_effect t w.io id fd data offset s
      rw [h] at heq
      dsimp only at heq
      obtain rfl := heq
      exact { files := fun _ => ⟨rfl, rfl, hsame⟩, cwd := hcwd, fs := nofun, node := hnode }

/-- `operator[]` answers the class of a key, and the null class for a key without one. The
table then answers the same for every key, and loses none. -/
theorem exec_classAt (t : Tid) (w : Outcome) (key : ClassKey) (s : Provider) :
    ∃ classes, exec t w (.classAt key) s = some ((s.classes key).getD .null, { s with classes }) ∧
      (∀ key', (classes key').getD .null = (s.classes key').getD .null) ∧
      ∀ key', s.classes key' ≠ none → classes key' ≠ none := by
  simp only [exec]
  cases hc : s.classes key with
  | some c => exact ⟨s.classes, rfl, fun _ => rfl, fun _ h => h⟩
  | none =>
      refine ⟨_, rfl, fun key' => ?_, fun key' h => ?_⟩
      · by_cases he : key' = key
        · subst he
          simp [hc]
        · rw [Function.update_of_ne he]
      · by_cases he : key' = key
        · subst he
          simp
        · rwa [Function.update_of_ne he]

/-- `mmap` gives its handler's next segment, or fails. -/
theorem exec_mmap {id : Uuid} {fd : Fd} {size : Nat} {a : Addr}
    (h : exec t w (.mmap id fd size) s = some (a, s')) :
    a = .failed ∨ a = .mapped ⟨t, s.mapped t⟩ := by
  simp only [exec] at h
  split at h
  · split at h
    · exact Or.inr (Prod.mk.inj (Option.some.inj h)).1.symm
    · exact Or.inl (Prod.mk.inj (Option.some.inj h)).1.symm
  · exact Or.inl (Prod.mk.inj (Option.some.inj h)).1.symm

/-- An id stays with the handler that has drawn it. -/
theorem issuedTo_step (hx : exec t w o s = some (r, s')) (id : Uuid) :
    s'.issuedTo id = s.issuedTo id ∨
      o = .newUuid ∧ HEq r id ∧ s.issuedTo id = none ∧ s'.issuedTo id = some t := by
  rw [(exec_effect hx).issuedTo]
  cases o with
  | newUuid =>
      simp only [exec] at hx
      split at hx
      · rename_i hnone
        obtain ⟨rfl, -⟩ := Prod.mk.inj (Option.some.inj hx)
        by_cases he : id = w.uuid
        · subst he
          exact Or.inr ⟨rfl, HEq.rfl, hnone, by simp [Op.issuedTo]⟩
        · exact Or.inl (by simp [Op.issuedTo, he])
      · cases hx
  | _ => exact Or.inl rfl

/-- The id that is drawn is a fresh one. -/
theorem exec_newUuid {id : Uuid} (h : exec t w .newUuid s = some (id, s')) :
    s.issuedTo id = none := by
  simp only [exec] at h
  split at h
  · rename_i hfresh
    obtain ⟨rfl, -⟩ := Prod.mk.inj (Option.some.inj h)
    exact hfresh
  · cases h

/-- `open` with `O_TRUNC` fails, or gives its handler's next descriptor. What is not a
directory then is an empty file. -/
theorem exec_openTrunc {path : Str} {mode : Nat} {r : Option Fd}
    (h : exec t w (.openTrunc path mode) s = some (r, s')) :
    r = none ∧ s' = s ∨
      r = some ⟨t, s.opened t⟩ ∧ s.fs.node (s.fs.place path) ≠ some .dir ∧ s' =
        { s with
          fs := s.fs.put (s.fs.place path) (.file [])
          descriptors := Function.update s.descriptors ⟨t, s.opened t⟩ (some (s.fs.place path))
          isOpen := Function.update s.isOpen ⟨t, s.opened t⟩ true
          opened := Function.update s.opened t (s.opened t + 1)
          overwritten := if s.fs.node (s.fs.place path) = none then s.overwritten
            else s.fs.place path :: s.overwritten } := by
  simp only [exec] at h
  split at h
  · obtain ⟨rfl, rfl⟩ := Prod.mk.inj (Option.some.inj h)
    exact Or.inl ⟨rfl, rfl⟩
  · rename_i hok
    obtain ⟨rfl, rfl⟩ := Prod.mk.inj (Option.some.inj h)
    exact Or.inr ⟨rfl, fun hdir => hok (Or.inr hdir), rfl⟩

/-- Path strings keep their places. -/
theorem place_step (h : exec t w o s = some (r, s')) : s'.fs.place = s.fs.place := by
  funext path
  unfold Fs.place
  rw [(exec_effect h).cwd]

theorem opened_step (h : exec t w o s = some (r, s')) (t' : Tid) :
    s.opened t' ≤ s'.opened t' := by
  by_cases ho : ∃ path mode, o = .openTrunc path mode
  · obtain ⟨path, mode, rfl⟩ := ho
    rcases exec_openTrunc h with ⟨-, rfl⟩ | ⟨-, -, rfl⟩
    · exact Nat.le_refl _
    · by_cases he : t' = t
      · subst he
        simp
      · simp [he]
  · rw [((exec_effect h).files fun path mode ho' => ho ⟨path, mode, ho'⟩).2.1]

/-- Only `open` gives a descriptor a file. -/
theorem descriptors_step (h : exec t w o s = some (r, s')) {fd : Fd} {p : Path}
    (hfd : s'.descriptors fd = some p) :
    s.descriptors fd = some p ∨
      (∃ path mode, o = .openTrunc path mode ∧ p = s.fs.place path) ∧ fd = ⟨t, s.opened t⟩ := by
  cases o with
  | openTrunc path mode =>
      rcases exec_openTrunc h with ⟨-, rfl⟩ | ⟨-, -, rfl⟩
      · exact Or.inl hfd
      · dsimp only at hfd
        by_cases he : fd = ⟨t, s.opened t⟩
        · subst he
          rw [Function.update_self] at hfd
          exact Or.inr ⟨⟨path, mode, rfl, (Option.some.inj hfd).symm⟩, rfl⟩
        · rw [Function.update_of_ne he] at hfd
          exact Or.inl hfd
  | _ =>
      rw [(exec_effect h).descriptors] at hfd
      exact Or.inl hfd

end

end Remi
