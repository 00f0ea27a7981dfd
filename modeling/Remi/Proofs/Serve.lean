import Remi.Proofs.Client
import Remi.Proofs.Discipline
import Remi.Proofs.Start

/-!
# `Remi.Proofs.Serve`: the RPCs behind `migrate_start`

What `migrate_write`, `migrate_mmap` and `migrate_end` do at a provider that runs nothing
else, when the record is ready for a transfer. A call that goes wrong leaves the operation
`Doomed`: no later request makes it end with success.
-/

set_option autoImplicit false

namespace Remi

open Remi.Lib

/-! ### What every handler keeps -/

/-- A handler keeps what every operation keeps that the discipline allows for its request. -/
theorem serve_keeps (env : Env) (abtio : Bool) {I : Provider → Prop} (q : Request)
    (hI : ∀ (g : Ghost) t w o s r s', g.req = q → g.Allows o → I s →
      exec t w o s = some (r, s') → I s')
    {s : Site} (hs : I s.receive.provider) : I (env.serve abtio q s).2.provider := by
  have hstep : ∀ g s₁ o r s₂, discipline.allows g o → g.req = q ∧ I s₁.provider →
      env.step s.tid o s₁ = some (r, s₂) →
      ∃ g', discipline.next g o r g' ∧ g'.req = q ∧ I s₂.provider := by
    rintro g s₁ o r s₂ hallow ⟨hreq, hs₁⟩ hstep
    refine ⟨g.after o r, rfl, ?_, hI g _ _ _ _ _ _ hreq hallow hs₁ (step_exec hstep)⟩
    rw [← hreq]
    cases o <;> rfl
  obtain ⟨g, ⟨-, hend⟩, -⟩ := (handle_follows abtio q).run ⟨rfl, hs⟩ hstep
  exact hend

/-! ### Operations that cannot succeed -/

/-- The record of `id` is gone, or has an error. -/
def Provider.Doomed (s : Provider) (id : Uuid) : Prop :=
  ∀ op, s.opInProgress id = some op → op.error ≠ .success

/-- Only `migrate_start` makes a record, and an error stays. -/
theorem serve_doomed (env : Env) (abtio : Bool) (q : Request) (hq : q.kind ≠ .start) {s : Site}
    {id : Uuid} (hs : s.provider.Doomed id) : (env.serve abtio q s).2.provider.Doomed id := by
  refine serve_keeps env abtio (I := fun s' => s'.Doomed id) q ?_ hs
  intro g t w o s₁ r s₂ hreq hallow hs₁ hx op' hop'
  have hinsert : ∀ op, o ≠ .insert id op := by
    rintro op rfl
    exact hq (hreq ▸ hallow.1)
  rw [(exec_effect hx).record] at hop'
  cases hop : s₁.opInProgress id with
  | none =>
      rw [hop] at hop'
      exact absurd (Op.record_none hop') (hinsert op')
  | some op =>
      rw [hop] at hop'
      rcases Op.record_error hop' with he | ho | ho
      · rw [he]
        exact hs₁ op hop
      · subst ho
        obtain ⟨-, -, -, -, -, -, herror⟩ := hallow
        rw [herror]
        exact Ret.errIo_ne_success
      · exact absurd ho (hinsert op')

/-! ### The answers of the RPCs -/

section Answers
variable (env : Env) (abtio : Bool) (s : Site)

theorem write_eq (id : Uuid) (i offset : Nat) (data : Bytes) :
    ((providerRpc env abtio).write id i offset data s).2 =
        (env.serve abtio (.write id i offset data) s).2 ∧
      (((providerRpc env abtio).write id i offset data s).1 = .success ↔
        (env.serve abtio (.write id i offset data) s).1 = some (.write .success)) := by
  simp only [providerRpc]
  split
  · rename_i ret s' heq
    simp [heq]
  · rename_i s' answer hnot heq
    rw [heq]
    exact ⟨rfl, iff_of_false (show Ret.errMercury ≠ .success by decide) (hnot .success)⟩

theorem mmap_eq (id : Uuid) (bulk : Option Bulk) :
    ((providerRpc env abtio).mmap id bulk s).2 = (env.serve abtio (.mmap id bulk) s).2 ∧
      (((providerRpc env abtio).mmap id bulk s).1 = .success ↔
        (env.serve abtio (.mmap id bulk) s).1 = some (.mmap .success)) := by
  simp only [providerRpc]
  split
  · rename_i ret s' heq
    simp [heq]
  · rename_i s' answer hnot heq
    rw [heq]
    exact ⟨rfl, iff_of_false (show Ret.errMercury ≠ .success by decide) (hnot .success)⟩

theorem end_eq (id : Uuid) :
    ((providerRpc env abtio).end_ id s).2 = (env.serve abtio (.end_ id) s).2 ∧
      ∀ ret status, (env.serve abtio (.end_ id) s).1 = some (.end_ ret status) →
        ((providerRpc env abtio).end_ id s).1 = (ret, status) := by
  simp only [providerRpc]
  split
  · rename_i ret status s' heq
    rw [heq]
    refine ⟨rfl, fun ret' status' h => ?_⟩
    simp only [Option.some.injEq, Response.end_.injEq] at h
    rw [h.1, h.2]
  · rename_i s' answer hnot heq
    rw [heq]
    exact ⟨rfl, fun ret status h => absurd h (hnot ret status)⟩

end Answers

/-! ### `migrate_write` -/

/-- `s'` is `s` with the files `fs`, apart from the mappings and the histories. -/
structure Provider.WithFiles (s : Provider) (fs : Fs) (s' : Provider) : Prop where
  fs : s'.fs = fs := by rfl
  classes : s'.classes = s.classes := by rfl
  record : s'.opInProgress = s.opInProgress := by rfl
  descriptors : s'.descriptors = s.descriptors := by rfl
  isOpen : s'.isOpen = s.isOpen := by rfl
  calls : s'.calls = s.calls := by rfl
  callbacks : s'.callbacks = s.callbacks := by rfl

theorem Provider.WithFiles.refl (s : Provider) : s.WithFiles s.fs s := by
  constructor <;> rfl

theorem Provider.WithFiles.trans {s s' s'' : Provider} {fs fs' : Fs} (h : s.WithFiles fs s')
    (h' : s'.WithFiles fs' s'') : s.WithFiles fs' s'' where
  fs := h'.fs
  classes := h'.classes.trans h.classes
  record := h'.record.trans h.record
  descriptors := h'.descriptors.trans h.descriptors
  isOpen := h'.isOpen.trans h.isOpen
  calls := h'.calls.trans h.calls
  callbacks := h'.callbacks.trans h.callbacks

theorem Provider.WithFiles.answered {s s' : Provider} {fs : Fs} (h : s.WithFiles fs s')
    (responses : Tid → Option Response) : s.WithFiles fs { s' with responses } :=
  ⟨h.fs, h.classes, h.record, h.descriptors, h.isOpen, h.calls, h.callbacks⟩

theorem Provider.WithFiles.ready {s s' : Provider} {fs : Fs} {id : Uuid} {op : Operation}
    {places : List Path} (h : s.WithFiles fs s') (hs : s.Ready id op places) :
    s'.Ready id op places where
  record := by rw [h.record]; exact hs.record
  mutex := hs.mutex
  error := hs.error
  holds := hs.holds.imp fun fd p hfd => by
    unfold Provider.Holds
    rwa [h.descriptors, h.isOpen]

theorem Operation.unlock_eq {op : Operation} (h : op.mutex = none) :
    { op with mutex := none } = op := by
  cases op
  cases h
  rfl

/-- The descriptor of a file number. -/
theorem Provider.Ready.fd {s : Provider} {id : Uuid} {op : Operation} {places : List Path}
    (h : s.Ready id op places) {i : Nat} {p : Path} (hp : places[i]? = some p) :
    ∃ fd, op.fds[i]? = some fd ∧ s.Holds fd p := by
  obtain ⟨hlt, rfl⟩ := List.getElem?_eq_some_iff.mp hp
  have hfds : i < op.fds.length := by rwa [h.holds.length_eq]
  exact ⟨op.fds[i], List.getElem?_eq_getElem hfds, h.holds.get hfds hlt⟩

/-- A write that does not take all of its data does not return its length. -/
theorem write_short (t : Tid) (id : Uuid) (fd : Fd) (offset : Nat) {io : Io} {data : Bytes}
    (h : io.count data.length ≠ some data.length) (s : Provider) :
    (s.write t io id fd data offset).1 ≠ data.length := by
  unfold Provider.write
  cases hcount : io.count data.length with
  | none => simp
  | some n =>
      have hn : n ≠ data.length := fun hn => h (by rw [hcount, hn])
      cases s.descriptors fd with
      | none => simp
      | some q =>
          dsimp only
          split
          · exact fun he => hn (Int.ofNat.inj he)
          · simp

section Write
variable {env : Env} {abtio : Bool} {s : Site} {id : Uuid} {op : Operation}
  {places : List Path} {i offset size : Nat} {p : Path} {data : Bytes}

variable (env abtio offset data) in
/-- A chunk inside its file is written, or the operation is doomed. -/
theorem write_ready (h : s.provider.Ready id op places) (hp : places[i]? = some p)
    (hsize : op.filesizes[i]? = some size) (hbound : size < offsetBound)
    (hroom : offset + data.length ≤ size) :
    ((env.io .pwrite (s.made .pwrite)).count data.length = some data.length →
      ((providerRpc env abtio).write id i offset data s).1 = .success ∧
        s.provider.WithFiles (s.provider.fs.modifyFile p fun b => overlay 0 b offset data)
          ((providerRpc env abtio).write id i offset data s).2.provider) ∧
    ((env.io .pwrite (s.made .pwrite)).count data.length ≠ some data.length →
      ((providerRpc env abtio).write id i offset data s).2.provider.Doomed id) := by
  obtain ⟨fd, hfd, hdesc, hopen⟩ := h.fd hp
  obtain ⟨hlt, hget⟩ := List.getElem?_eq_some_iff.mp hsize
  have hrecord := h.record
  have hmutex := h.mutex
  have hmod : (offset + data.length) % sizeModulus = offset + data.length := by
    apply Nat.mod_eq_of_lt
    simp only [sizeModulus, offsetBound] at *
    omega
  have hoffset : offset < offsetBound := by omega
  obtain ⟨hserver, hanswer⟩ := write_eq env abtio s id i offset data
  rw [hserver, hanswer]
  constructor
  · intro hio
    have hserve : env.serve abtio (.write id i offset data) s = (some (.write .success),
        { provider :=
            { s.provider with
              fs := s.provider.fs.modifyFile p fun b => overlay 0 b offset data
              writes := ⟨s.tid, id, fd, offset, data.length, data.length⟩ :: s.provider.writes
              responses :=
                Function.update s.provider.responses s.tid (some (.write .success)) }
          served := s.served + 1
          made := Function.update s.made .pwrite (s.made .pwrite + 1) }) := by
      cases abtio <;>
        simp [Env.serve, handle, migrateWrite, writeChunk, Site.receive, Site.tid, Prog.call,
          Prog.run, Env.step, Env.outcome, Op.sysCall, exec, Provider.modifyOp, Provider.write,
          hrecord, hmutex, hfd, hlt, hget, hmod, Nat.not_lt.mpr hroom, hio, hdesc, hopen, hoffset,
          Operation.unlock_eq hmutex, Function.update_eq_self_iff]
    rw [hserve]
    exact ⟨rfl, by constructor <;> rfl⟩
  · intro hio
    have hshort := write_short s.tid id fd offset hio
    have hkept : ∀ s', (Provider.write s.tid (env.io .pwrite (s.made .pwrite)) id fd data offset
        s').2.opInProgress = s'.opInProgress := by
      intro s'
      obtain ⟨fs, -, -, -, heq⟩ := write_effect s.tid (env.io .pwrite (s.made .pwrite)) id fd data
        offset s'
      rw [heq]
    have hrecord' : (env.serve abtio (.write id i offset data) s).2.provider.opInProgress id =
        some { op with error := .errIo } := by
      cases abtio <;>
        simp [Env.serve, handle, migrateWrite, writeChunk, Site.receive, Prog.call, Prog.run,
          Env.step, Env.outcome, Op.sysCall, exec, Provider.modifyOp, hrecord, hmutex, hfd, hlt,
          hget, hmod, Nat.not_lt.mpr hroom, hshort, hkept]
    intro op' hop'
    rw [hrecord'] at hop'
    obtain rfl := Option.some.inj hop'
    exact Ret.errIo_ne_success

end Write

/-! ### `migrate_mmap` -/

/-- A file that is cut or filled to the length of its data. -/
def cut (d b : Bytes) : Bytes := resize 0 d.length b

/-- Data copied through a mapping, which does not extend the file. -/
def copyIn (d b : Bytes) : Bytes := overlay 0 b 0 (d.take b.length)

/-- The files with contents. -/
def nonempty (l : List (Path × Bytes)) : List (Path × Bytes) := l.filter (·.2 ≠ [])

/-- The segment of a provider is a mapping of the file, in the length of its data. -/
def Provider.Maps (s : Provider) (seg : Addr × Nat) (x : Path × Bytes) : Prop :=
  ∃ k, seg = (.mapped k, x.2.length) ∧ s.segments k = some x.1

/-- The state after the mapping loop has got through, when every `mmap` has succeeded. -/
structure MapsAll (t : Tid) (l : List (Path × Bytes)) (new : List (Addr × Nat))
    (s s' : Provider) : Prop where
  files : s.WithFiles (s.fs.modifyAll cut (nonempty l)) s'
  maps : List.Forall₂ s'.Maps new (nonempty l)
  kept : ∀ k : Seg, k.owner = t → k.index < s.mapped t → s'.segments k = s.segments k

section Mmap
variable {env : Env} {t : Tid} {id : Uuid} {op : Operation}

theorem step_ftruncate (env : Env) (t : Tid) (id : Uuid) {fd : Fd} {p : Path} {s : Site} (n : Nat)
    (hfd : s.provider.Holds fd p) :
    ∃ ok s', env.step t (.ftruncate id fd n) s = some (ok, s') ∧
      s'.provider.responses = s.provider.responses ∧
      (ok = true → s.provider.WithFiles (s.provider.fs.modifyFile p (resize 0 n)) s'.provider ∧
        s'.provider.segments = s.provider.segments ∧ s'.provider.mapped = s.provider.mapped) ∧
      ((∀ call n, env.io call n = .full) → n < offsetBound → ok = true) := by
  obtain ⟨hdesc, hopen⟩ := hfd
  by_cases hok : env.io .ftruncate (s.made .ftruncate) ≠ .fail ∧ n < offsetBound
  · refine ⟨true, ⟨{ s.provider with fs := s.provider.fs.modifyFile p (resize 0 n) }, s.served,
      Function.update s.made .ftruncate (s.made .ftruncate + 1)⟩, ?_, rfl,
      fun _ => ⟨by constructor <;> rfl, rfl, rfl⟩, fun _ _ => rfl⟩
    simp [Env.step, Env.outcome, Op.sysCall, exec, hdesc, hopen, hok]
  · refine ⟨false, ⟨s.provider, s.served,
      Function.update s.made .ftruncate (s.made .ftruncate + 1)⟩, ?_, rfl,
      (fun hfalse => by cases hfalse), fun hfull hn => absurd ⟨by simp [hfull], hn⟩ hok⟩
    simp only [Env.step, Env.outcome, Op.sysCall, exec, hdesc, hopen, and_true]
    rw [if_neg hok]
    rfl

theorem step_mmap (env : Env) (t : Tid) (id : Uuid) {fd : Fd} {p : Path} {s : Site} (n : Nat)
    (hfd : s.provider.Holds fd p) :
    ∃ a s', env.step t (.mmap id fd n) s = some (a, s') ∧
      s'.provider.responses = s.provider.responses ∧
      s.provider.WithFiles s.provider.fs s'.provider ∧ a ≠ .null ∧
      (a.isMapped = true → a = .mapped ⟨t, s.provider.mapped t⟩ ∧
        s'.provider.segments = Function.update s.provider.segments ⟨t, s.provider.mapped t⟩
          (some p) ∧
        s'.provider.mapped t = s.provider.mapped t + 1) ∧
      ((∀ call n, env.io call n = .full) → a.isMapped = true) := by
  obtain ⟨hdesc, hopen⟩ := hfd
  by_cases hok : env.io .mmap (s.made .mmap) = .fail
  · refine ⟨.failed, ⟨s.provider.mapFailure t, s.served,
      Function.update s.made .mmap (s.made .mmap + 1)⟩, ?_, rfl, by constructor <;> rfl, by simp,
      nofun, fun hfull => absurd (hok.symm.trans (hfull _ _)) (by decide)⟩
    simp [Env.step, Env.outcome, Op.sysCall, exec, hdesc, hopen, hok]
  · refine ⟨.mapped ⟨t, s.provider.mapped t⟩, ⟨{ s.provider with
        segments := Function.update s.provider.segments ⟨t, s.provider.mapped t⟩ (some p)
        mapped := Function.update s.provider.mapped t (s.provider.mapped t + 1) }, s.served,
      Function.update s.made .mmap (s.made .mmap + 1)⟩, ?_, rfl, by constructor <;> rfl, by simp,
      fun _ => ⟨rfl, rfl, Function.update_self _ _ _⟩, fun _ => rfl⟩
    simp [Env.step, Env.outcome, Op.sysCall, exec, hdesc, hopen, hok]

/-- The mapping loop ends. When it gets through and nothing but mappings has come of it, all
files have their lengths. -/
theorem run_mapFiles (env : Env) (t : Tid) {l : List (Path × Bytes)} {fds : List Fd} {i : Nat}
    (theData : List (Addr × Nat)) {s : Site} (hrecord : s.provider.opInProgress id = some op)
    (hholds : List.Forall₂ s.provider.Holds fds (l.map (·.1)))
    (hsizes : op.filesizes.drop i = l.map (·.2.length)) :
    ∃ ok new s', (mapFiles id fds i theData).run (env.step t) s =
        (some (ok, theData ++ new), s') ∧
      s'.provider.responses = s.provider.responses ∧
      (ok = true → (∀ seg ∈ new, seg.1.isMapped = true) →
        MapsAll t l new s.provider s'.provider) ∧
      ((∀ call n, env.io call n = .full) → (∀ x ∈ l, x.2.length < offsetBound) →
        ok = true ∧ ∀ seg ∈ new, seg.1.isMapped = true) := by
  induction l generalizing fds i theData s with
  | nil =>
      obtain rfl : fds = [] := by simpa using hholds
      refine ⟨true, [], s, by simp [mapFiles], rfl, fun _ _ => ⟨.refl _, .nil, fun _ _ _ => rfl⟩,
        fun _ _ => ⟨rfl, by simp⟩⟩
  | cons x l ih =>
      obtain ⟨fd, rest, hfd, hrest, rfl⟩ : ∃ fd rest, s.provider.Holds fd x.1 ∧
          List.Forall₂ s.provider.Holds rest (l.map (·.1)) ∧ fds = fd :: rest := by
        simpa [List.forall₂_cons_right_iff] using hholds
      have hget : op.filesizes[i]? = some x.2.length := by
        rw [← List.head?_drop, hsizes]
        rfl
      have hdrop : op.filesizes.drop (i + 1) = l.map (·.2.length) := by
        rw [← List.tail_drop, hsizes]
        rfl
      obtain ⟨hlt, hat⟩ := List.getElem?_eq_some_iff.mp hget
      have hsize : env.step t (.filesizeAt id i) s = some (x.2.length, s) := by
        simp [Env.step, exec, Op.sysCall, hrecord, hlt, hat]
      rw [mapFiles, Prog.call_bind, Prog.run_op_some _ hsize]
      by_cases hx : x.2 = []
      · -- An empty file is skipped.
        obtain ⟨ok, new, s', hrun, hresponses, hok, hfull⟩ :=
          ih (i := i + 1) theData hrecord hrest hdrop
        have hsame : nonempty (x :: l) = nonempty l := by simp [nonempty, hx]
        refine ⟨ok, new, s', by simpa [hx] using hrun, hresponses, fun h₁ h₂ => ?_,
          fun h₁ h₂ => hfull h₁ fun y hy => h₂ y (List.mem_cons_of_mem _ hy)⟩
        obtain ⟨hfiles, hmaps, hkept⟩ := hok h₁ h₂
        exact ⟨by rwa [hsame], by rwa [hsame], hkept⟩
      · have hlen : x.2.length ≠ 0 := fun h => hx (List.length_eq_zero_iff.mp h)
        have hsame : nonempty (x :: l) = x :: nonempty l := by simp [nonempty, hx]
        obtain ⟨cutOk, s₁, hcut, hresponses₁, hcutFiles, hcutFull⟩ :=
          step_ftruncate env t id x.2.length hfd
        simp only [hlen, ↓reduceIte]
        rw [Prog.call_bind, Prog.run_op_some _ hcut]
        cases cutOk with
        | false =>
            refine ⟨false, [], s₁, by simp, hresponses₁, (fun hok => by cases hok), fun h₁ h₂ => ?_⟩
            cases hcutFull h₁ (h₂ x List.mem_cons_self)
        | true =>
            obtain ⟨hfiles₁, hsegs₁, hmapped₁⟩ := hcutFiles rfl
            have hfd₁ : s₁.provider.Holds fd x.1 := by
              unfold Provider.Holds
              rwa [hfiles₁.descriptors, hfiles₁.isOpen]
            obtain ⟨a, s₂, hmap, hresponses₂, hfiles₂, hnull, hmapped₂, hmapFull⟩ :=
              step_mmap env t id x.2.length hfd₁
            simp only [Bool.not_true, Bool.false_eq_true, ↓reduceIte]
            rw [Prog.call_bind, Prog.run_op_some _ hmap, if_neg hnull]
            have hfiles := hfiles₁.trans hfiles₂
            have hrecord₂ : s₂.provider.opInProgress id = some op := by
              rw [hfiles.record]
              exact hrecord
            have hrest₂ : List.Forall₂ s₂.provider.Holds rest (l.map (·.1)) :=
              hrest.imp fun fd p h => by
                unfold Provider.Holds
                rwa [hfiles.descriptors, hfiles.isOpen]
            obtain ⟨ok, new, s', hrun, hresponses, hok, hfull⟩ :=
              ih (i := i + 1) (theData ++ [(a, x.2.length)]) hrecord₂ hrest₂ hdrop
            refine ⟨ok, (a, x.2.length) :: new, s', by rw [hrun]; simp,
              hresponses.trans (hresponses₂.trans hresponses₁), fun h₁ h₂ => ?_,
              fun h₁ h₂ => ?_⟩
            · obtain ⟨ha, hnew⟩ := List.forall_mem_cons.mp h₂
              obtain ⟨rfl, hsegs, hcount⟩ := hmapped₂ ha
              obtain ⟨hfiles₃, hmaps, hkept⟩ := hok h₁ hnew
              have hfs : s₂.provider.fs = s.provider.fs.modifyFile x.1 (cut x.2) := by
                rw [hfiles₂.fs, hfiles₁.fs]
                rfl
              refine ⟨?_, ?_, fun k howner hk => ?_⟩
              · rw [hfs] at hfiles₃
                rw [hsame]
                exact hfiles.trans hfiles₃
              · rw [hsame]
                refine .cons ⟨_, rfl, ?_⟩ hmaps
                rw [hkept _ rfl (by rw [hcount]; exact Nat.lt_succ_self _), hsegs,
                  Function.update_self]
              · rw [hmapped₁] at hcount hsegs
                have hne : k ≠ ⟨t, s.provider.mapped t⟩ := by
                  rintro rfl
                  exact Nat.lt_irrefl _ hk
                rw [hkept k howner (by omega), hsegs, Function.update_of_ne hne, hsegs₁]
            · obtain ⟨h₃, h₄⟩ := hfull h₁ fun y hy => h₂ y (List.mem_cons_of_mem _ hy)
              exact ⟨h₃, List.forall_mem_cons.mpr ⟨hmapFull h₁, h₄⟩⟩

theorem run_unmapEach (env : Env) (t : Tid) (segs : List (Addr × Nat)) (s : Site) :
    ∃ s', (unmapEach segs).run (env.step t) s = (some (), s') ∧
      s.provider.WithFiles s.provider.fs s'.provider ∧
      s'.provider.responses = s.provider.responses := by
  induction segs generalizing s with
  | nil => exact ⟨s, rfl, .refl _, rfl⟩
  | cons seg rest ih =>
      obtain ⟨s', hrun, hfiles, hresponses⟩ := ih { s with provider := { s.provider with
        unmaps := Function.update s.provider.unmaps seg.1 (s.provider.unmaps seg.1 + 1) } }
      have hfirst : s.provider.WithFiles s.provider.fs { s.provider with
        unmaps := Function.update s.provider.unmaps seg.1 (s.provider.unmaps seg.1 + 1) } := by
        constructor <;> rfl
      exact ⟨s', hrun, hfirst.trans hfiles, hresponses⟩

theorem run_syncEach (env : Env) (t : Tid) (segs : List (Addr × Nat)) (s : Site) :
    ∃ ok s', (syncEach segs).run (env.step t) s = (some ok, s') ∧
      s.provider.WithFiles s.provider.fs s'.provider ∧
      s'.provider.responses = s.provider.responses ∧
      ((∀ call n, env.io call n = .full) → (∀ seg ∈ segs, seg.1.isMapped = true) →
        ok = true) := by
  induction segs generalizing s with
  | nil => exact ⟨true, s, rfl, .refl _, rfl, fun _ _ => rfl⟩
  | cons seg rest ih =>
      obtain ⟨ok, s₁, hstep, hfiles₁, hresponses₁, hfull₁⟩ : ∃ ok s₁,
          env.step t (.msync seg.1) s = some (ok, s₁) ∧
          s.provider.WithFiles s.provider.fs s₁.provider ∧
          s₁.provider.responses = s.provider.responses ∧
          ((∀ call n, env.io call n = .full) → seg.1.isMapped = true → ok = true) := by
        refine ⟨_, _, rfl, by constructor <;> rfl, rfl, fun hfull hmapped => ?_⟩
        cases hseg : seg.1 with
        | mapped k => simp [Env.outcome, Op.sysCall, hfull]
        | null | failed =>
            rw [hseg] at hmapped
            cases hmapped
      rw [syncEach, Prog.call_bind, Prog.run_op_some _ hstep]
      cases ok with
      | false =>
          refine ⟨false, s₁, rfl, hfiles₁, hresponses₁, fun h₁ h₂ => ?_⟩
          exact hfull₁ h₁ (h₂ seg List.mem_cons_self)
      | true =>
          obtain ⟨ok, s', hrun, hfiles, hresponses, hfull⟩ := ih s₁
          rw [hfiles₁.fs] at hfiles
          exact ⟨ok, s', hrun, hfiles₁.trans hfiles, hresponses.trans hresponses₁,
            fun h₁ h₂ => hfull h₁ fun y hy => h₂ y (List.mem_cons_of_mem _ hy)⟩

end Mmap

/-- The data of the files, one after the other. -/
def allBytes (l : List (Path × Bytes)) : Bytes := l.flatMap (·.2)

theorem allBytes_nonempty (l : List (Path × Bytes)) : allBytes (nonempty l) = allBytes l := by
  induction l with
  | nil => rfl
  | cons x l ih =>
      by_cases hx : x.2 = []
      · simpa [allBytes, nonempty, hx] using ih
      · simpa [allBytes, nonempty, hx] using ih

/-- A whole transfer puts the data of each file into its mapping. -/
theorem scatter_eq {s : Provider} {segs : List (Addr × Nat)} {l : List (Path × Bytes)}
    (h : List.Forall₂ s.Maps segs l) (fs : Fs) :
    scatter s.segments segs (allBytes l) fs = fs.modifyAll copyIn l := by
  induction h generalizing fs with
  | nil => rfl
  | @cons seg x segs l hx _ ih =>
      obtain ⟨k, rfl, hk⟩ := hx
      have hdrop : (allBytes (x :: l)).drop x.2.length = allBytes l := by simp [allBytes]
      have htake : (allBytes (x :: l)).take x.2.length = x.2 := by simp [allBytes]
      rw [scatter, hdrop, hk]
      simp only [htake]
      exact ih _

section Transfer
variable {env : Env} {t : Tid} {id : Uuid}

/-- The exits behind `cleanup(true)` answer with an error. -/
theorem run_mmapFailed (env : Env) (t : Tid) (id : Uuid) (theData : List (Addr × Nat)) (s : Site) :
    ((mmapFailed id theData).run (env.step t) s).2.provider.responses t =
      some (.mmap .errIo) := by
  obtain ⟨s₁, hrun, -, -⟩ := run_unmapEach env t theData s
  rw [mmapFailed, Prog.run_bind_some _ hrun]
  exact Function.update_self _ _ _

/-- Segments are exposed when there is one. -/
theorem step_expose (env : Env) (t : Tid) {segs : List (Addr × Nat)} (hsegs : segs ≠ [])
    (s : Site) :
    ∃ s', env.step t (.expose segs) s = some ((), s') ∧
      s.provider.WithFiles s.provider.fs s'.provider ∧
      s'.provider.segments = s.provider.segments ∧
      s'.provider.responses = s.provider.responses := by
  refine ⟨{ s with provider := { s.provider with
    exposes := fun a => s.provider.exposes a + (segs.map Prod.fst).count a } },
    ?_, by constructor <;> rfl, rfl, rfl⟩
  simp only [Env.step, exec, if_neg hsegs]
  rfl

/-- A pull between segments that are memory copies a part of them. -/
theorem step_pull (env : Env) (t : Tid) {bulk : Bulk} {segs : List (Addr × Nat)}
    (hbulk : bulk.all Mapping.isMapped = true) (hmapped : ∀ seg ∈ segs, seg.1.isMapped = true)
    (s : Site) :
    ∃ n s', env.step t (.pull (some bulk) segs) s = some (n, s') ∧
      n ≤ min bulk.bytes.length (segsRoom segs) ∧
      ((∀ call n, env.io call n = .full) → n = min bulk.bytes.length (segsRoom segs)) ∧
      s.provider.WithFiles (scatter s.provider.segments segs (bulk.bytes.take n) s.provider.fs)
        s'.provider ∧
      s'.provider.responses = s.provider.responses := by
  have hmapped' : segs.all (·.1.isMapped) = true := List.all_eq_true.mpr hmapped
  refine ⟨((env.outcome s (.pull (some bulk) segs)).io.count
      (min bulk.bytes.length (segsRoom segs))).getD 0,
    { s with
      provider := { s.provider with
        fs := scatter s.provider.segments segs (bulk.bytes.take
          (((env.outcome s (.pull (some bulk) segs)).io.count
            (min bulk.bytes.length (segsRoom segs))).getD 0)) s.provider.fs }
      made := Function.update s.made .pull (s.made .pull + 1) },
    ?_, ?_, fun hall => ?_, by constructor <;> rfl, rfl⟩
  · simp only [Env.step, exec, hbulk, hmapped', and_self, ↓reduceIte]
    rfl
  · cases (env.outcome s (.pull (some bulk) segs)).io with
    | fail => exact Nat.zero_le _
    | full => exact Nat.le_refl _
    | short m => exact Nat.min_le_right _ _
  · simp [Env.outcome, Op.sysCall, hall, Io.count]

/-- A pull with a side that is not memory throws. -/
theorem step_pull_none (env : Env) (t : Tid) {bulk : Option Bulk} {segs : List (Addr × Nat)}
    (h : ¬ ∃ b, bulk = some b ∧ b.all Mapping.isMapped = true ∧
      ∀ seg ∈ segs, seg.1.isMapped = true) (s : Site) :
    env.step t (.pull bulk segs) s = none := by
  cases bulk with
  | none => rfl
  | some b =>
      have hnot : ¬ (b.all Mapping.isMapped = true ∧ segs.all (·.1.isMapped) = true) := by
        intro hboth
        exact h ⟨b, rfl, hboth.1, List.all_eq_true.mp hboth.2⟩
      simp only [Env.step, exec, if_neg hnot]
      rfl

/-- The transfer answers success only when both sides are memory and all of it has been copied.
It does so when every call does what it is asked to. -/
theorem run_mmapTransfer (env : Env) (id : Uuid) (bulk : Option Bulk) (total : Nat)
    (segs : List (Addr × Nat)) {s : Site} (hs : s.provider.responses t = none) :
    (((mmapTransfer id bulk total segs).run (env.step t) s).2.provider.responses t =
        some (.mmap .success) →
      ∃ b n, bulk = some b ∧ b.all Mapping.isMapped = true ∧
        (∀ seg ∈ segs, seg.1.isMapped = true) ∧ n % sizeModulus = total ∧
        n ≤ min b.bytes.length (segsRoom segs) ∧
        s.provider.WithFiles (scatter s.provider.segments segs (b.bytes.take n) s.provider.fs)
          ((mmapTransfer id bulk total segs).run (env.step t) s).2.provider) ∧
    ((∀ call n, env.io call n = .full) → segs ≠ [] → (∀ seg ∈ segs, seg.1.isMapped = true) →
      (∃ b, bulk = some b ∧ b.all Mapping.isMapped = true ∧
        min b.bytes.length (segsRoom segs) % sizeModulus = total) →
      ((mmapTransfer id bulk total segs).run (env.step t) s).2.provider.responses t =
        some (.mmap .success)) := by
  rw [mmapTransfer]
  by_cases hsegs : segs = []
  · -- Nothing to expose: the call throws.
    have hexpose : env.step t (.expose segs) s = none := by simp [Env.step, exec, hsegs]
    rw [Prog.call_bind, Prog.run_op_none _ hexpose]
    exact ⟨fun h => by simp [hs] at h, fun _ hne => absurd hsegs hne⟩
  obtain ⟨s₁, hexpose, hfiles₁, hsegments₁, hresponses₁⟩ := step_expose env t hsegs s
  have hs₁ : s₁.provider.responses t = none := by rw [hresponses₁, hs]
  rw [Prog.call_bind, Prog.run_op_some _ hexpose, Prog.call_bind]
  by_cases hmemory : ∃ b, bulk = some b ∧ b.all Mapping.isMapped = true ∧
      ∀ seg ∈ segs, seg.1.isMapped = true
  · obtain ⟨b, rfl, hb, hmapped⟩ := hmemory
    obtain ⟨n, s₂, hpull, hn, hfull, hcopied, -⟩ := step_pull env t hb hmapped s₁
    have hfiles₂ : s.provider.WithFiles
        (scatter s.provider.segments segs (b.bytes.take n) s.provider.fs) s₂.provider := by
      rw [hsegments₁, hfiles₁.fs] at hcopied
      exact hfiles₁.trans hcopied
    rw [Prog.run_op_some _ hpull]
    by_cases htotal : n % sizeModulus = total
    · obtain ⟨ok, s₃, hsync, hfiles₃, hresponses₃, hsyncFull⟩ :=
        run_syncEach env t segs s₂
      rw [if_neg (not_not_intro htotal), Prog.run_bind_some _ hsync]
      cases ok with
      | false =>
          have hanswer := run_mmapFailed env t id segs s₃
          refine ⟨fun h => ?_, fun hall _ _ _ => ?_⟩
          · rw [show (!false) = true from rfl, if_pos rfl, hanswer] at h
            cases h
          · cases hsyncFull hall hmapped
      | true =>
          obtain ⟨s₄, hunmap, hfiles₄, -⟩ := run_unmapEach env t segs s₃
          have hlast : ((unmapEach segs >>= fun _ => issue (.respond (.mmap .success))).run
              (env.step t) s₃).2.provider = { s₄.provider with
                responses := Function.update s₄.provider.responses t (some (.mmap .success)) } := by
            rw [Prog.run_bind_some _ hunmap]
            rfl
          simp only [Bool.not_true, Bool.false_eq_true, ↓reduceIte]
          rw [hlast]
          refine ⟨fun _ => ⟨b, n, rfl, hb, hmapped, htotal, hn, ?_⟩, fun _ _ _ _ => ?_⟩
          · rw [hfiles₃.fs] at hfiles₄
            rw [hfiles₂.fs] at hfiles₃ hfiles₄
            exact ((hfiles₂.trans hfiles₃).trans hfiles₄).answered _
          · exact Function.update_self _ _ _
    · -- Not all of it has been copied: the answer is an error.
      rw [if_pos htotal]
      have hanswer : ((issue (.respond (.mmap .errMigration))).run (env.step t)
          s₂).2.provider.responses t = some (.mmap .errMigration) := Function.update_self _ _ _
      refine ⟨fun h => ?_, ?_⟩
      · rw [hanswer] at h
        cases h
      · rintro hall - - ⟨b', ⟨⟩, -, hb'⟩
        rw [hfull hall] at htotal
        exact absurd hb' htotal
  · -- One of the sides is not memory: the call throws.
    have hpull := step_pull_none env t hmemory s₁
    rw [Prog.run_op_none _ hpull]
    refine ⟨fun h => ?_, ?_⟩
    · rw [hs₁] at h
      cases h
    · rintro - - hmapped ⟨b, hb, hb', -⟩
      exact absurd ⟨b, hb, hb', hmapped⟩ hmemory

end Transfer

section Mmap
variable {env : Env} {abtio : Bool} {s : Site} {id : Uuid} {op : Operation}
  {l : List (Path × Bytes)} {bulk : Option Bulk}

/-- The room in the segments of the nonempty files. -/
theorem segsRoom_eq {s : Provider} {segs : List (Addr × Nat)} (h : List.Forall₂ s.Maps segs l) :
    segsRoom segs = (allBytes l).length := by
  induction h with
  | nil => rfl
  | @cons seg x segs l hx _ ih =>
      obtain ⟨k, rfl, -⟩ := hx
      simp only [segsRoom, allBytes, List.map_cons, List.sum_cons, List.flatMap_cons,
        List.length_append] at ih ⊢
      rw [ih]

variable (env abtio) in
/-- A transfer through mappings that is answered with success has put the data of every
nonempty file in its place. It succeeds when every call does what it is asked to. -/
theorem mmap_ready (h : s.provider.Ready id op (l.map (·.1)))
    (hsizes : op.filesizes = l.map (·.2.length))
    (hbulk : ∀ b, bulk = some b → b.all Mapping.isMapped = true →
      b.bytes = allBytes l ∧ b.bytes.length < sizeModulus) :
    (((providerRpc env abtio).mmap id bulk s).1 = .success →
      (∃ b, bulk = some b ∧ b.all Mapping.isMapped = true) ∧
      s.provider.WithFiles
        ((s.provider.fs.modifyAll cut (nonempty l)).modifyAll copyIn (nonempty l))
        ((providerRpc env abtio).mmap id bulk s).2.provider) ∧
    ((∀ call n, env.io call n = .full) → (∀ x ∈ l, x.2.length < offsetBound) →
      nonempty l ≠ [] → (∃ b, bulk = some b ∧ b.all Mapping.isMapped = true) →
      ((providerRpc env abtio).mmap id bulk s).1 = .success) := by
  obtain ⟨hserver, hanswer⟩ := mmap_eq env abtio s id bulk
  rw [hserver, hanswer]
  have hrecord : s.receive.provider.opInProgress id = some op := h.record
  have hfind : env.step s.tid (.find id) s.receive = some (true, s.receive) := by
    simp [Env.step, exec, Op.sysCall, hrecord]
  have hload : env.step s.tid (.load id) s.receive = some (op, s.receive) := by
    simp [Env.step, exec, Op.sysCall, hrecord]
  have hholds : List.Forall₂ s.receive.provider.Holds op.fds (l.map (·.1)) := h.holds
  obtain ⟨ok, segs, s₁, hmap, hresponses, hok, hfull⟩ :=
    run_mapFiles env s.tid (i := 0) [] hrecord hholds (by simpa using hsizes)
  have hsum : op.filesizes.sum = (allBytes l).length := by
    rw [hsizes, ← List.length_flatMap]
    rfl
  simp only [Env.serve, handle, migrateMmap, Prog.call_bind]
  rw [Prog.run_op_some _ hfind]
  simp only [Bool.not_true, Bool.false_eq_true, ↓reduceIte]
  rw [Prog.run_op_some _ hload, Prog.run_bind_some _ hmap]
  rw [List.nil_append] at hmap ⊢
  cases ok with
  | false =>
      have hfailed := run_mmapFailed env s.tid id segs s₁
      simp only [Bool.not_false, ↓reduceIte]
      refine ⟨fun hsuccess => ?_, fun hall hbound _ _ => ?_⟩
      · rw [hfailed] at hsuccess
        cases hsuccess
      · cases (hfull hall hbound).1
  | true =>
      have hnone : s₁.provider.responses s.tid = none := by
        rw [hresponses]
        exact receive_responses s
      obtain ⟨hsuccess, hwhole⟩ :=
        run_mmapTransfer env id bulk (op.filesizes.sum % sizeModulus) segs hnone
      simp only [Bool.not_true, Bool.false_eq_true, ↓reduceIte]
      constructor
      · intro hret
        obtain ⟨b, n, rfl, hb, hmapped, hn, hle, hfiles⟩ := hsuccess hret
        obtain ⟨hcut, hmaps, -⟩ := hok rfl hmapped
        obtain ⟨hbytes, htotal⟩ := hbulk b rfl hb
        rw [hbytes] at htotal
        -- All bytes have been copied, because they are fewer than the modulus.
        have hwholly : n = (allBytes l).length := by
          rw [hbytes] at hle
          rw [hsum, Nat.mod_eq_of_lt htotal, Nat.mod_eq_of_lt (by omega)] at hn
          exact hn
        refine ⟨⟨b, rfl, hb⟩, ?_⟩
        rw [hbytes, hwholly, List.take_length, ← allBytes_nonempty, scatter_eq hmaps,
          hcut.fs] at hfiles
        have hreceive : s.provider.WithFiles s.provider.fs s.receive.provider := by
          constructor <;> rfl
        exact hreceive.trans (hcut.trans hfiles)
      · rintro hall hbound hne ⟨b, rfl, hb⟩
        obtain ⟨-, hmapped⟩ := hfull hall hbound
        obtain ⟨-, hmaps, -⟩ := hok rfl hmapped
        refine hwhole hall ?_ hmapped ⟨b, rfl, hb, ?_⟩
        · rintro rfl
          exact hne (List.forall₂_nil_left_iff.mp hmaps)
        · rw [segsRoom_eq hmaps, allBytes_nonempty, (hbulk b rfl hb).1, Nat.min_self, hsum]

end Mmap

/-! ### `migrate_end` -/

/-- The class that `migrate_end` finds. A class that is not registered has no callbacks. -/
def Provider.klass (s : Provider) (fileset : Fileset) : MigrationClass :=
  (s.classes (classKey fileset)).getD .null

/-- The status of a migration that has no error. -/
def Env.endStatus (env : Env) (s : Provider) (fileset : Fileset) : Int :=
  match (s.klass fileset).afterCallback with
  | some _ => (env.callback s.calls s.fs fileset).1
  | none => 0

/-- The fileset that a call of a callback sees. -/
def CallbackCall.fileset : CallbackCall → Fileset
  | .before _ _ _ fileset => fileset
  | .after _ _ _ _ fileset => fileset

/-- The filesets that callbacks have seen. -/
def Provider.seen (s : Provider) : List Fileset := s.callbacks.map (·.fileset)

/-- The call of the "after" callback in a `migrate_end` of `t`. -/
def MigrationClass.afterCall (klass : MigrationClass) (t : Tid) (id : Uuid) (fileset : Fileset) :
    List CallbackCall :=
  match klass.afterCallback with
  | some callback => [.after t id callback klass.uargs fileset]
  | none => []

/-- The table after a look at the class of a fileset. -/
def Provider.lookedUp (s : Provider) (fileset : Fileset) : ClassKey → Option MigrationClass :=
  Function.update s.classes (classKey fileset) (some (s.klass fileset))

section End
variable {env : Env} {abtio : Bool} {s : Site} {id : Uuid} {op : Operation} {places : List Path}

/-- A `migrate_end` of an operation without an error: its answer, and the provider after it. -/
theorem serve_end (env : Env) (abtio : Bool) (hrecord : s.provider.opInProgress id = some op)
    (hmutex : op.mutex = none) (herror : op.error = .success) :
    env.serve abtio (.end_ id) s =
      (some (.end_ (if env.endStatus s.provider op.fileset = 0 then .success else .errUser)
          (env.endStatus s.provider op.fileset)),
        { s with
          provider :=
            { s.provider.closeAll op.fds with
              classes := s.provider.lookedUp op.fileset
              opInProgress := Function.update s.provider.opInProgress id none
              calls := s.provider.calls +
                ((s.provider.klass op.fileset).afterCall s.tid id op.fileset).length
              callbacks := (s.provider.klass op.fileset).afterCall s.tid id op.fileset ++
                s.provider.callbacks
              responses := Function.update s.provider.responses s.tid (some (.end_
                (if env.endStatus s.provider op.fileset = 0 then .success else .errUser)
                (env.endStatus s.provider op.fileset))) }
          served := s.served + 1 }) := by
  unfold Env.endStatus Provider.lookedUp Provider.klass MigrationClass.afterCall
  -- The lookup stores an empty class where there was none, so the table changes either way.
  cases hclass : s.provider.classes (classKey op.fileset) with
  | none =>
      simp [Env.serve, handle, migrateEnd, endFinished, callAfter, Site.receive, Prog.call,
        Prog.run, Env.step, Op.sysCall, exec, Provider.modifyOp, Provider.closeAll, hrecord,
        hmutex, herror, hclass, MigrationClass.null]
  | some klass =>
      cases hcallback : klass.afterCallback with
      | none =>
          simp [Env.serve, handle, migrateEnd, endFinished, callAfter, Site.receive, Prog.call,
            Prog.run, Env.step, Op.sysCall, exec, Provider.modifyOp, Provider.closeAll, hrecord,
            hmutex, herror, hclass, hcallback]
      | some callback =>
          simp [Env.serve, handle, migrateEnd, endFinished, callAfter, Site.receive, Prog.call,
            Prog.run, Env.step, Env.outcome, Op.sysCall, exec, Provider.modifyOp,
            Provider.closeAll, hrecord, hmutex, herror, hclass, hcallback]

variable (env abtio) in
/-- The end of an operation that is ready. -/
theorem end_ready (h : s.provider.Ready id op places) :
    ((providerRpc env abtio).end_ id s).1 =
        (if env.endStatus s.provider op.fileset = 0 then .success else .errUser,
          env.endStatus s.provider op.fileset) ∧
      ((providerRpc env abtio).end_ id s).2.provider.fs = s.provider.fs ∧
      ((providerRpc env abtio).end_ id s).2.provider.callbacks =
        (s.provider.klass op.fileset).afterCall s.tid id op.fileset ++ s.provider.callbacks := by
  obtain ⟨hserver, hanswer⟩ := end_eq env abtio s id
  have hserve := serve_end env abtio h.record h.mutex h.error
  rw [hserver, hserve]
  rw [hserve] at hanswer
  exact ⟨hanswer _ _ rfl, rfl, rfl⟩

/-- An operation that is doomed does not end with success. -/
theorem end_doomed (env : Env) (abtio : Bool) (h : s.provider.Doomed id) :
    ((providerRpc env abtio).end_ id s).1.1 ≠ .success := by
  obtain ⟨-, hanswer⟩ := end_eq env abtio s id
  cases hrecord : s.provider.opInProgress id with
  | none =>
      have hserve : (env.serve abtio (.end_ id) s).1 = some (.end_ .errInvalidOpid 0) := by
        simp [Env.serve, handle, migrateEnd, Site.receive, Prog.call, Prog.run, Env.step,
          Op.sysCall, exec, hrecord]
      rw [hanswer _ _ hserve]
      exact Ret.errInvalidOpid_ne_success
  | some op =>
      have herror := h op hrecord
      by_cases hmutex : op.mutex = none
      · have hserve : (env.serve abtio (.end_ id) s).1 = some (.end_ op.error 0) := by
          simp [Env.serve, handle, migrateEnd, endFailed, Site.receive, Prog.call, Prog.run,
            Env.step, Op.sysCall, exec, Provider.modifyOp, Provider.closeAll, hrecord, hmutex,
            herror]
        rw [hanswer _ _ hserve]
        exact herror
      · -- The handler waits for the mutex of the record.
        have hserve : (env.serve abtio (.end_ id) s).1 = none := by
          simp [Env.serve, handle, migrateEnd, Site.receive, Prog.call, Prog.run, Env.step,
            Op.sysCall, exec, hrecord, hmutex]
        simp only [providerRpc]
        split
        · rename_i heq
          rw [heq] at hserve
          cases hserve
        · exact show Ret.errMercury ≠ .success by decide

end End

end Remi
