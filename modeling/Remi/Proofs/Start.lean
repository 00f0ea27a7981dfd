import Remi.Server.Sequential
import Remi.Proofs.Exec

/-!
# `Remi.Proofs.Start`: a `migrate_start` that runs alone

What the handler of `migrate_start` leaves when nothing else runs: which files there are
after its creating loop (`run_openFiles_files`), and what the loop has opened when it gets
through (`run_openFiles_opened`).
-/

set_option autoImplicit false

namespace Remi

open Remi.Lib

/-- The operation behind a step of a handler that runs alone. -/
theorem step_exec {env : Env} {t : Tid} {o : Op} {r : Ans o} {s s' : Site}
    (h : env.step t o s = some (r, s')) :
    exec t (env.outcome s o) o s.provider = some (r, s'.provider) := by
  obtain ⟨⟨r', p⟩, hx, heq⟩ := Option.map_eq_some_iff.mp h
  obtain ⟨rfl, rfl⟩ := Prod.mk.inj heq
  exact hx

/-! ### The directories -/

/-- One of the `mkdir` calls on `dirs` names `p`, and does not fail. The first of them is call
number `base`. -/
def Made (env : Env) (cwd : Path) (base : Nat) (dirs : List Str) (p : Path) : Prop :=
  ∃ c d, dirs[c]? = some d ∧ env.io .mkdir (base + c) ≠ .fail ∧ place cwd d = p

/-- The parts of a provider that the creating loop leaves as they are. -/
structure Provider.SameRecords (s s' : Provider) : Prop where
  classes : s'.classes = s.classes := by rfl
  record : s'.opInProgress = s.opInProgress := by rfl
  calls : s'.calls = s.calls := by rfl
  callbacks : s'.callbacks = s.callbacks := by rfl
  responses : s'.responses = s.responses := by rfl

theorem Provider.SameRecords.trans {s s' s'' : Provider} (h : s.SameRecords s')
    (h' : s'.SameRecords s'') : s.SameRecords s'' where
  classes := h'.classes.trans h.classes
  record := h'.record.trans h.record
  calls := h'.calls.trans h.calls
  callbacks := h'.callbacks.trans h.callbacks
  responses := h'.responses.trans h.responses

/-- The state `s'` after the `mkdir` calls on `dirs`. They make directories of what names
nothing, and change nothing else. -/
structure DirsMade (env : Env) (dirs : List Str) (s s' : Site) : Prop where
  cwd : s'.provider.fs.cwd = s.provider.fs.cwd
  files : ∀ p, s'.provider.fs.HasFile p ↔ s.provider.fs.HasFile p
  keep : ∀ p n, s.provider.fs.node p = some n → s'.provider.fs.node p = some n
  absent : ∀ p, s'.provider.fs.node p = none ↔ s.provider.fs.node p = none ∧
    ¬ Made env s.provider.fs.cwd (s.made .mkdir) dirs p
  mkdirs : s'.made .mkdir = s.made .mkdir + dirs.length
  opens : s'.made .open_ = s.made .open_
  descriptors : s'.provider.descriptors = s.provider.descriptors := by rfl
  isOpen : s'.provider.isOpen = s.provider.isOpen := by rfl
  opened : s'.provider.opened = s.provider.opened := by rfl
  same : s.provider.SameRecords s'.provider := by exact {}

section
variable {env : Env} {t : Tid}

theorem made_cons {cwd : Path} {base : Nat} {d : Str} {dirs : List Str} {p : Path} :
    Made env cwd base (d :: dirs) p ↔
      (env.io .mkdir base ≠ .fail ∧ place cwd d = p) ∨ Made env cwd (base + 1) dirs p := by
  constructor
  · rintro ⟨c, d', hd, hio, hp⟩
    cases c with
    | zero =>
        obtain rfl : d = d' := Option.some.inj hd
        exact Or.inl ⟨hio, hp⟩
    | succ c => exact Or.inr ⟨c, d', hd, by rwa [Nat.add_right_comm, Nat.add_assoc], hp⟩
  · rintro (⟨hio, hp⟩ | ⟨c, d', hd, hio, hp⟩)
    · exact ⟨0, d, rfl, hio, hp⟩
    · exact ⟨c + 1, d', hd, by rwa [← Nat.add_assoc, Nat.add_right_comm], hp⟩

theorem made_append {cwd : Path} {base : Nat} {dirs rest : List Str} {p : Path} :
    Made env cwd base (dirs ++ rest) p ↔
      Made env cwd base dirs p ∨ Made env cwd (base + dirs.length) rest p := by
  induction dirs generalizing base with
  | nil => simp [Made]
  | cons d dirs ih =>
      rw [List.cons_append, made_cons, made_cons, ih, or_assoc, List.length_cons,
        Nat.add_assoc, Nat.add_comm 1]

theorem DirsMade.refl (s : Site) : DirsMade env [] s s where
  cwd := rfl
  files _ := Iff.rfl
  keep _ _ h := h
  absent p := by simp [Made]
  mkdirs := rfl
  opens := rfl

theorem DirsMade.cons {d : Str} {dirs : List Str} {s s' s'' : Site} (h : DirsMade env [d] s s')
    (h' : DirsMade env dirs s' s'') : DirsMade env (d :: dirs) s s'' where
  cwd := h'.cwd.trans h.cwd
  files p := (h'.files p).trans (h.files p)
  keep p n hp := h'.keep p n (h.keep p n hp)
  absent p := by
    have happend : Made env s.provider.fs.cwd (s.made .mkdir) (d :: dirs) p ↔
        Made env s.provider.fs.cwd (s.made .mkdir) [d] p ∨
          Made env s.provider.fs.cwd (s.made .mkdir + [d].length) dirs p :=
      by
      rw [← made_append, List.singleton_append]
    rw [h'.absent, h.absent, h.cwd, h.mkdirs, happend, not_or, and_assoc]
  mkdirs := by
    rw [h'.mkdirs, h.mkdirs, List.length_singleton, List.length_cons]
    omega
  opens := h'.opens.trans h.opens
  descriptors := h'.descriptors.trans h.descriptors
  isOpen := h'.isOpen.trans h.isOpen
  opened := h'.opened.trans h.opened
  same := h.same.trans h'.same

theorem step_mkdir (env : Env) (t : Tid) (d : Str) (s : Site) :
    ∃ s', env.step t (.mkdir d) s = some ((), s') ∧ DirsMade env [d] s s' := by
  have hmade : ∀ p, Made env s.provider.fs.cwd (s.made .mkdir) [d] p ↔
      env.io .mkdir (s.made .mkdir) ≠ .fail ∧ s.provider.fs.place d = p := fun p => by
    rw [made_cons]
    simp [Made, Fs.place]
  by_cases hok : env.io .mkdir (s.made .mkdir) ≠ .fail ∧
      s.provider.fs.node (s.provider.fs.place d) = none
  · refine ⟨{ s with
      provider := { s.provider with fs := s.provider.fs.put (s.provider.fs.place d) .dir }
      made := Function.update s.made .mkdir (s.made .mkdir + 1) }, ?_, ?_⟩
    · simp [Env.step, Env.outcome, exec, Op.sysCall, hok]
    · refine { cwd := rfl, files := Fs.hasFile_mkdir hok.2, keep := fun p n hp => ?_,
               absent := fun p => ?_, mkdirs := by simp, opens := by simp }
      · rwa [Fs.put_node_ne]
        rintro rfl
        rw [hok.2] at hp
        cases hp
      · rw [hmade]
        by_cases hp : p = s.provider.fs.place d
        · subst hp
          simp [hok.1]
        · simp [hp, Ne.symm hp]
  · refine ⟨{ s with made := Function.update s.made .mkdir (s.made .mkdir + 1) }, ?_, ?_⟩
    · simp [Env.step, Env.outcome, exec, Op.sysCall, hok]
    · refine { cwd := rfl, files := fun _ => Iff.rfl, keep := fun _ _ hp => hp,
               absent := fun p => ?_, mkdirs := by simp, opens := by simp }
      rw [hmade]
      refine ⟨fun hp => ⟨hp, ?_⟩, fun hp => hp.1⟩
      rintro ⟨hio, rfl⟩
      exact hok ⟨hio, hp⟩

theorem run_mkdirAll (env : Env) (t : Tid) (dirs : List Str) (s : Site) :
    ∃ s', (mkdirAll dirs).run (env.step t) s = (some (), s') ∧ DirsMade env dirs s s' := by
  induction dirs generalizing s with
  | nil => exact ⟨s, rfl, .refl s⟩
  | cons d dirs ih =>
      obtain ⟨s₁, hstep, hmade⟩ := step_mkdir env t d s
      obtain ⟨s', hrun, hrest⟩ := ih s₁
      refine ⟨s', ?_, hmade.cons hrest⟩
      rw [mkdirAll, Prog.call_bind, Prog.run_op_some _ hstep, hrun]

/-- The mode of a file is read, within the vector or past its end. -/
theorem step_vecAt (env : Env) (t : Tid) (v : List Nat) (i : Nat) {dirs : List Str} {s s' : Site}
    (h : DirsMade env dirs s s') :
    ∃ s'', env.step t (.vecAt v i) s' = some (v.getD i 0, s'') ∧ DirsMade env dirs s s'' := by
  by_cases hi : i < v.length
  · exact ⟨s', by simp [Env.step, exec, Op.sysCall, hi], h⟩
  · refine ⟨{ s' with provider :=
      { s'.provider with outOfBounds := s'.provider.outOfBounds + 1 } }, ?_, ?_⟩
    · simp [Env.step, exec, Op.sysCall, hi]
    · exact { h with same := h.same.trans {} }

/-! ### The creating loop -/

/-- The state after a round of the creating loop whose `open` succeeds. -/
structure RoundOpened (env : Env) (t : Tid) (target : Str) (s s' : Site) : Prop where
  io : env.io .open_ (s.made .open_) ≠ .fail
  cwd : s'.provider.fs.cwd = s.provider.fs.cwd
  fresh : s.provider.fs.HasFile (s.provider.fs.place target) ∨
    s.provider.fs.node (s.provider.fs.place target) = none ∧
      ¬ Made env s.provider.fs.cwd (s.made .mkdir) (mkdirsCalls (dirname target))
        (s.provider.fs.place target)
  self : s'.provider.fs.node (s.provider.fs.place target) = some (.file [])
  files : ∀ p, s'.provider.fs.HasFile p ↔
    p = s.provider.fs.place target ∨ s.provider.fs.HasFile p
  keep : ∀ p n, p ≠ s.provider.fs.place target → s.provider.fs.node p = some n →
    s'.provider.fs.node p = some n
  absent : ∀ p, s'.provider.fs.node p = none ↔ p ≠ s.provider.fs.place target ∧
    s.provider.fs.node p = none ∧
    ¬ Made env s.provider.fs.cwd (s.made .mkdir) (mkdirsCalls (dirname target)) p
  mkdirs : s'.made .mkdir = s.made .mkdir + (mkdirsCalls (dirname target)).length
  opens : s'.made .open_ = s.made .open_ + 1
  descriptors : s'.provider.descriptors = Function.update s.provider.descriptors
    ⟨t, s.provider.opened t⟩ (some (s.provider.fs.place target))
  isOpen : s'.provider.isOpen = Function.update s.provider.isOpen ⟨t, s.provider.opened t⟩ true
  opened : s'.provider.opened t = s.provider.opened t + 1
  same : s.provider.SameRecords s'.provider

/-- The state after a round of the creating loop whose `open` fails. -/
structure RoundFailed (env : Env) (target : Str) (s s' : Site) : Prop where
  reason : env.io .open_ (s.made .open_) = .fail ∨
    ¬ s.provider.fs.HasFile (s.provider.fs.place target) ∧
    (s.provider.fs.node (s.provider.fs.place target) = none →
      Made env s.provider.fs.cwd (s.made .mkdir) (mkdirsCalls (dirname target))
        (s.provider.fs.place target))
  cwd : s'.provider.fs.cwd = s.provider.fs.cwd
  files : ∀ p, s'.provider.fs.HasFile p ↔ s.provider.fs.HasFile p
  same : s.provider.SameRecords s'.provider

theorem run_closeEach (env : Env) (t : Tid) (fds : List Fd) (s : Site) :
    ∃ p : Provider, (closeEach fds).run (env.step t) s = (some (), { s with provider := p }) ∧
      p.fs = s.provider.fs ∧ s.provider.SameRecords p := by
  induction fds generalizing s with
  | nil => exact ⟨s.provider, rfl, rfl, {}⟩
  | cons fd rest ih =>
      have hstep : env.step t (.close fd) s =
          some ((), { s with provider := s.provider.closeAll [fd] }) := rfl
      obtain ⟨p, hrun, hp, hsame⟩ := ih { s with provider := s.provider.closeAll [fd] }
      have hfirst : s.provider.SameRecords (s.provider.closeAll [fd]) := {}
      refine ⟨p, ?_, hp, hfirst.trans hsame⟩
      rw [closeEach, Prog.call_bind, Prog.run_op_some _ hstep, hrun]

/-- The `open` of a round that has made its directories succeeds, or gives no descriptor. -/
theorem step_openTrunc (target : Str) (mode : Nat) {s s₁ : Site}
    (h : DirsMade env (mkdirsCalls (dirname target)) s s₁) :
    (∃ s', env.step t (.openTrunc target mode) s₁ = some (some ⟨t, s.provider.opened t⟩, s') ∧
        RoundOpened env t target s s') ∨
      ∃ s', env.step t (.openTrunc target mode) s₁ = some (none, s') ∧
        RoundFailed env target s s' := by
  have hplace : s₁.provider.fs.place target = s.provider.fs.place target := by
    simp [Fs.place, h.cwd]
  by_cases hfails : env.io .open_ (s.made .open_) = .fail ∨
      s₁.provider.fs.node (s.provider.fs.place target) = some .dir
  · right
    refine ⟨{ s₁ with made := Function.update s₁.made .open_ (s₁.made .open_ + 1) }, ?_, ?_⟩
    · simp [Env.step, Env.outcome, exec, Op.sysCall, hplace, h.opens, hfails]
    · refine { reason := hfails.imp_right fun hdir => ⟨fun hfile => ?_, fun hnone => ?_⟩,
               cwd := h.cwd, files := h.files, same := h.same }
      · obtain ⟨b, hb⟩ := (h.files _).mpr hfile
        rw [hdir] at hb
        cases hb
      · by_contra hmade
        rw [(h.absent _).mpr ⟨hnone, hmade⟩] at hdir
        cases hdir
  · left
    obtain ⟨hio, hdir⟩ := not_or.mp hfails
    refine ⟨⟨{ s₁.provider with
        fs := s₁.provider.fs.put (s.provider.fs.place target) (.file [])
        descriptors := Function.update s₁.provider.descriptors ⟨t, s.provider.opened t⟩
          (some (s.provider.fs.place target))
        isOpen := Function.update s₁.provider.isOpen ⟨t, s.provider.opened t⟩ true
        opened := Function.update s₁.provider.opened t (s.provider.opened t + 1)
        overwritten :=
          if s₁.provider.fs.node (s.provider.fs.place target) = none then
            s₁.provider.overwritten
          else s.provider.fs.place target :: s₁.provider.overwritten },
      s₁.served, Function.update s₁.made .open_ (s₁.made .open_ + 1)⟩, ?_, ?_⟩
    · simp [Env.step, Env.outcome, exec, Op.sysCall, hplace, h.opens, h.opened, hio, hdir]
    · refine { io := hio, cwd := h.cwd, fresh := ?_, self := Fs.put_node_self _ _ _,
               files := fun p => ?_, keep := fun p n hne hp => ?_, absent := fun p => ?_,
               mkdirs := by simp [h.mkdirs], opens := by simp [h.opens],
               descriptors := by simp [h.descriptors], isOpen := by simp [h.isOpen],
               opened := by simp, same := h.same.trans {} }
      · cases hnode : s₁.provider.fs.node (s.provider.fs.place target) with
        | none => exact Or.inr ((h.absent _).mp hnode)
        | some n =>
            cases n with
            | file b => exact Or.inl ((h.files _).mp ⟨b, hnode⟩)
            | dir => exact absurd hnode hdir
      · rw [Fs.hasFile_create, h.files]
      · rw [Fs.put_node_ne hne]
        exact h.keep p n hp
      · by_cases hp : p = s.provider.fs.place target
        · subst hp
          simp
        · rw [Fs.put_node_ne hp, h.absent]
          simp [hp]

/-- A round of the creating loop either opens its file and goes on, or ends the loop. -/
theorem run_openFiles_cons (env : Env) (t : Tid) (root : Str) (theModes : List Nat) (name : Str)
    (rest : List Str) (i : Nat) (opened : List Fd) (s : Site) :
    (∃ s', RoundOpened env t (root ++ name) s s' ∧
        (openFiles root theModes (name :: rest) i opened).run (env.step t) s =
          (openFiles root theModes rest (i + 1)
            (opened ++ [⟨t, s.provider.opened t⟩])).run (env.step t) s') ∨
      ∃ s', RoundFailed env (root ++ name) s s' ∧
        (openFiles root theModes (name :: rest) i opened).run (env.step t) s =
          (some none, s') := by
  obtain ⟨s₁, hdirs, hmade⟩ := run_mkdirAll env t (mkdirsCalls (dirname (root ++ name))) s
  obtain ⟨s₂, hmode, hmade⟩ := step_vecAt env t theModes i hmade
  rw [openFiles, mkdirs, Prog.run_bind_some _ hdirs, Prog.call_bind, Prog.run_op_some _ hmode]
  rcases step_openTrunc (t := t) (root ++ name) (theModes.getD i 0) hmade with
    ⟨s', hopen, hround⟩ | ⟨s', hopen, hround⟩
  · exact Or.inl ⟨s', hround, by rw [Prog.call_bind, Prog.run_op_some _ hopen]⟩
  · obtain ⟨p, hclose, hfs, hsame⟩ := run_closeEach env t opened s'
    refine Or.inr ⟨{ s' with provider := p }, ?_, ?_⟩
    · exact { hround with
        cwd := by rw [hfs]; exact hround.cwd
        files := by rw [hfs]; exact hround.files
        same := hround.same.trans hsame }
    · rw [Prog.call_bind, Prog.run_op_some _ hopen]
      dsimp only
      rw [Prog.run_bind_some _ hclose]
      rfl

/-! ### Which files there are afterwards -/

/-- The creating loop creates a file when it opens `targets` in this order: the files before
some target exist, no `open` fails up to it, and there is nothing at its place, also after
the `mkdir` calls. -/
def CreatesFile (env : Env) (s : Site) (targets : List Str) : Prop :=
  ∃ pre u post, targets = pre ++ u :: post ∧
    (∀ v ∈ pre, s.provider.fs.HasFile (s.provider.fs.place v)) ∧
    (∀ j ≤ pre.length, env.io .open_ (s.made .open_ + j) ≠ .fail) ∧
    s.provider.fs.node (s.provider.fs.place u) = none ∧
    ¬ Made env s.provider.fs.cwd (s.made .mkdir)
      ((pre ++ [u]).flatMap fun v => mkdirsCalls (dirname v)) (s.provider.fs.place u)

theorem not_createsFile_nil (s : Site) : ¬ CreatesFile env s [] := by
  rintro ⟨pre, u, post, h, -⟩
  simp at h

/-- A loop that fails in its first round creates nothing. -/
theorem RoundFailed.not_createsFile {u : Str} {rest : List Str} {s s' : Site}
    (h : RoundFailed env u s s') : ¬ CreatesFile env s (u :: rest) := by
  rintro ⟨pre, v, post, hsplit, hpre, hio, hnone, hmade⟩
  rcases h.reason with hfail | ⟨hnofile, hdir⟩
  · exact hio 0 (Nat.zero_le _) hfail
  · cases pre with
    | nil =>
        obtain rfl : u = v := (List.cons.inj hsplit).1
        exact hmade (by simpa using hdir hnone)
    | cons x pre =>
        obtain rfl : u = x := (List.cons.inj hsplit).1
        exact hnofile (hpre u List.mem_cons_self)

/-- A target that is no file yet is created. -/
theorem RoundOpened.createsFile {u : Str} {s s' : Site} (h : RoundOpened env t u s s')
    (rest : List Str) (hnew : ¬ s.provider.fs.HasFile (s.provider.fs.place u)) :
    CreatesFile env s (u :: rest) := by
  obtain ⟨hnone, hmade⟩ := h.fresh.resolve_left hnew
  refine ⟨[], u, rest, rfl, by simp, fun j hj => ?_, hnone, by simpa using hmade⟩
  obtain rfl : j = 0 := by simpa using hj
  exact h.io

/-- Behind a target that exists, it is the rest that creates a file. -/
theorem RoundOpened.createsFile_iff {u : Str} {s s' : Site} (h : RoundOpened env t u s s')
    (rest : List Str) (hold : s.provider.fs.HasFile (s.provider.fs.place u)) :
    CreatesFile env s (u :: rest) ↔ CreatesFile env s' rest := by
  have hplace : s'.provider.fs.place = s.provider.fs.place := by
    funext v
    simp [Fs.place, h.cwd]
  have hfiles : ∀ p, s'.provider.fs.HasFile p ↔ s.provider.fs.HasFile p := fun p => by
    rw [h.files]
    refine ⟨?_, Or.inr⟩
    rintro (rfl | hp)
    · exact hold
    · exact hp
  have hmade : ∀ dirs p, Made env s.provider.fs.cwd (s.made .mkdir)
      (mkdirsCalls (dirname u) ++ dirs) p ↔
        Made env s.provider.fs.cwd (s.made .mkdir) (mkdirsCalls (dirname u)) p ∨
          Made env s'.provider.fs.cwd (s'.made .mkdir) dirs p := fun dirs p => by
    rw [made_append, h.mkdirs, h.cwd]
  have hne : ∀ {p}, s.provider.fs.node p = none → p ≠ s.provider.fs.place u := by
    rintro p hp rfl
    obtain ⟨b, hb⟩ := hold
    rw [hp] at hb
    cases hb
  constructor
  · rintro ⟨pre, v, post, hsplit, hpre, hio, hnone, hnot⟩
    cases pre with
    | nil =>
        obtain rfl : u = v := (List.cons.inj hsplit).1
        exact absurd rfl (hne hnone)
    | cons x pre =>
        obtain ⟨rfl, rfl⟩ := List.cons.inj hsplit
        rw [List.cons_append, List.flatMap_cons, hmade, not_or] at hnot
        refine ⟨pre, v, post, rfl, fun y hy => ?_, fun j hj => ?_, ?_, ?_⟩
        · rw [hplace, hfiles]
          exact hpre y (List.mem_cons_of_mem _ hy)
        · rw [h.opens, Nat.add_assoc, Nat.add_comm 1]
          exact hio (j + 1) (Nat.succ_le_succ hj)
        · rw [hplace, h.absent]
          exact ⟨hne hnone, hnone, hnot.1⟩
        · rw [hplace]
          exact hnot.2
  · rintro ⟨pre, v, post, rfl, hpre, hio, hnone, hnot⟩
    rw [hplace] at hnone hnot
    obtain ⟨-, hnone, hfirst⟩ := (h.absent _).mp hnone
    refine ⟨u :: pre, v, post, rfl, fun y hy => ?_, fun j hj => ?_, hnone, ?_⟩
    · rcases List.mem_cons.mp hy with rfl | hy
      · exact hold
      · rw [← hfiles, ← hplace]
        exact hpre y hy
    · cases j with
      | zero => exact h.io
      | succ j =>
          have hj := hio j (Nat.le_of_succ_le_succ hj)
          rwa [h.opens, Nat.add_assoc, Nat.add_comm 1] at hj
    · rw [List.cons_append, List.flatMap_cons, hmade, not_or]
      exact ⟨hfirst, hnot⟩

/-- The creating loop keeps the files there are, and `CreatesFile` says when there is a new one
after it. -/
theorem run_openFiles_files (env : Env) (t : Tid) (root : Str) (theModes : List Nat)
    (names : List Str) (i : Nat) (opened : List Fd) (s : Site) :
    ∃ r s', (openFiles root theModes names i opened).run (env.step t) s = (some r, s') ∧
      s.provider.SameRecords s'.provider ∧ s'.provider.fs.cwd = s.provider.fs.cwd ∧
      (∀ p, s.provider.fs.HasFile p → s'.provider.fs.HasFile p) ∧
      ((∃ p, s'.provider.fs.HasFile p ∧ ¬ s.provider.fs.HasFile p) ↔
        CreatesFile env s (names.map (root ++ ·))) := by
  induction names generalizing i opened s with
  | nil =>
      refine ⟨some opened, s, rfl, {}, rfl, fun _ h => h, ?_⟩
      exact iff_of_false (fun ⟨_, h, hnot⟩ => hnot h) (not_createsFile_nil s)
  | cons name rest ih =>
      rcases run_openFiles_cons env t root theModes name rest i opened s with
        ⟨s₁, hround, hrun⟩ | ⟨s₁, hround, hrun⟩
      · obtain ⟨r, s', hrest, hsame, hcwd, hkeep, hnew⟩ :=
          ih (i + 1) (opened ++ [⟨t, s.provider.opened t⟩]) s₁
        have hmono : ∀ p, s.provider.fs.HasFile p → s'.provider.fs.HasFile p := fun p hp =>
          hkeep p ((hround.files p).mpr (Or.inr hp))
        refine ⟨r, s', by rw [hrun, hrest], hround.same.trans hsame, hcwd.trans hround.cwd,
          hmono, ?_⟩
        rw [List.map_cons]
        by_cases hold : s.provider.fs.HasFile (s.provider.fs.place (root ++ name))
        · rw [hround.createsFile_iff _ hold, ← hnew]
          have hfiles : ∀ p, s₁.provider.fs.HasFile p ↔ s.provider.fs.HasFile p := fun p => by
            rw [hround.files]
            refine ⟨?_, Or.inr⟩
            rintro (rfl | hp)
            · exact hold
            · exact hp
          simp only [hfiles]
        · refine iff_of_true ⟨_, hkeep _ ?_, hold⟩ (hround.createsFile _ hold)
          exact (hround.files _).mpr (Or.inl rfl)
      · refine ⟨none, s₁, hrun, hround.same, hround.cwd, fun p hp => (hround.files p).mpr hp, ?_⟩
        rw [List.map_cons]
        exact iff_of_false (fun ⟨p, h, hnot⟩ => hnot ((hround.files p).mp h))
          hround.not_createsFile

/-! ### What the loop has opened -/

/-- A descriptor is open for the file at a place. -/
def Provider.Holds (s : Provider) (fd : Fd) (p : Path) : Prop :=
  s.descriptors fd = some p ∧ s.isOpen fd = true

/-- A loop that gets through has opened the files in their order. All of them are empty. -/
theorem run_openFiles_opened (root : Str) (theModes : List Nat) {names : List Str} {i : Nat}
    {opened fds : List Fd} {s s' : Site}
    (h : (openFiles root theModes names i opened).run (env.step t) s = (some (some fds), s')) :
    ∃ new, fds = opened ++ new ∧
      List.Forall₂ s'.provider.Holds new
        (names.map fun name => s.provider.fs.place (root ++ name)) ∧
      (∀ fd : Fd, fd.owner = t → fd.index < s.provider.opened t →
        s'.provider.descriptors fd = s.provider.descriptors fd ∧
          s'.provider.isOpen fd = s.provider.isOpen fd) ∧
      (∀ p, s.provider.fs.node p = some (.file []) → s'.provider.fs.node p = some (.file [])) ∧
      ∀ name ∈ names,
        s'.provider.fs.node (s.provider.fs.place (root ++ name)) = some (.file []) := by
  induction names generalizing i opened s with
  | nil =>
      obtain ⟨hfds, rfl⟩ := Prod.mk.inj h
      obtain rfl : opened = fds := by simpa using hfds
      exact ⟨[], by simp, .nil, fun _ _ _ => ⟨rfl, rfl⟩, fun _ hp => hp, by simp⟩
  | cons name rest ih =>
      rcases run_openFiles_cons env t root theModes name rest i opened s with
        ⟨s₁, hround, hrun⟩ | ⟨s₁, hround, hrun⟩
      · rw [hrun] at h
        obtain ⟨new, rfl, hnew, hold, hempty, hall⟩ := ih h
        have hplace : s₁.provider.fs.place = s.provider.fs.place := by
          funext v
          simp [Fs.place, hround.cwd]
        rw [hplace] at hnew hall
        have hself := hold ⟨t, s.provider.opened t⟩ rfl (by
          rw [hround.opened]
          exact Nat.lt_succ_self _)
        have hempty' : ∀ p, s.provider.fs.node p = some (.file []) →
            s'.provider.fs.node p = some (.file []) := by
          intro p hp
          by_cases he : p = s.provider.fs.place (root ++ name)
          · subst he
            exact hempty _ hround.self
          · exact hempty p (hround.keep p _ he hp)
        refine ⟨⟨t, s.provider.opened t⟩ :: new, by simp, ?_, fun fd howner hlt => ?_, hempty',
          fun n hn => ?_⟩
        · refine List.Forall₂.cons ⟨?_, ?_⟩ hnew
          · rw [hself.1, hround.descriptors, Function.update_self]
          · rw [hself.2, hround.isOpen, Function.update_self]
        · have hne : fd ≠ ⟨t, s.provider.opened t⟩ := by
            rintro rfl
            exact Nat.lt_irrefl _ hlt
          obtain ⟨hdesc, hopen⟩ := hold fd howner (by rw [hround.opened]; omega)
          rw [hdesc, hopen, hround.descriptors, hround.isOpen, Function.update_of_ne hne,
            Function.update_of_ne hne]
          exact ⟨rfl, rfl⟩
        · rcases List.mem_cons.mp hn with rfl | hn
          · exact hempty _ hround.self
          · exact hall n hn
      · rw [hrun] at h
        cases h

/-- No directory that is made for one of the targets is where a target is. -/
def Creatable (s : Provider) (targets : List Str) : Prop :=
  ∀ u ∈ targets, ∀ v ∈ targets, ∀ d ∈ mkdirsCalls (dirname v), s.fs.place d ≠ s.fs.place u

/-- After a round no directory is at the place of a target, if none has been there before. -/
theorem RoundOpened.not_dir {u v : Str} {targets : List Str} {s s' : Site}
    (h : RoundOpened env t u s s') (hmk : Creatable s.provider targets) (hu : u ∈ targets)
    (hv : v ∈ targets) (hdir : s.provider.fs.node (s.provider.fs.place v) ≠ some .dir) :
    s'.provider.fs.node (s.provider.fs.place v) ≠ some .dir := by
  by_cases he : s.provider.fs.place v = s.provider.fs.place u
  · rw [he, h.self]
    nofun
  cases hnode : s.provider.fs.node (s.provider.fs.place v) with
  | some n =>
      rw [h.keep _ n he hnode, ← hnode]
      exact hdir
  | none =>
      have hmade : ¬ Made env s.provider.fs.cwd (s.made .mkdir) (mkdirsCalls (dirname u))
          (s.provider.fs.place v) := by
        rintro ⟨c, d, hd, -, hplace⟩
        exact hmk v hv u hu d (List.mem_of_getElem? hd) hplace
      rw [(h.absent _).mpr ⟨he, hnode, hmade⟩]
      nofun

/-- The loop gets through when every `open` succeeds and no target is a directory. -/
theorem run_openFiles_ok (root : Str) (theModes : List Nat) {targets : List Str}
    {names : List Str} {i : Nat} {opened : List Fd} {s : Site}
    (hio : ∀ n, env.io .open_ n ≠ .fail) (hnames : ∀ name ∈ names, root ++ name ∈ targets)
    (hmk : Creatable s.provider targets)
    (hdir : ∀ v ∈ targets, s.provider.fs.node (s.provider.fs.place v) ≠ some .dir) :
    ∃ fds s', (openFiles root theModes names i opened).run (env.step t) s =
      (some (some fds), s') := by
  induction names generalizing i opened s with
  | nil => exact ⟨opened, s, rfl⟩
  | cons name rest ih =>
      have hname := hnames name List.mem_cons_self
      rcases run_openFiles_cons env t root theModes name rest i opened s with
        ⟨s₁, hround, hrun⟩ | ⟨s₁, hround, -⟩
      · have hplace : s₁.provider.fs.place = s.provider.fs.place := by
          funext v
          simp [Fs.place, hround.cwd]
        have hmk₁ : Creatable s₁.provider targets := by
          unfold Creatable
          rw [hplace]
          exact hmk
        obtain ⟨fds, s', hrest⟩ := ih (i := i + 1)
          (fun n hn => hnames n (List.mem_cons_of_mem _ hn)) hmk₁ fun v hv => by
            rw [hplace]
            exact hround.not_dir hmk hname hv (hdir v hv)
        exact ⟨fds, s', by rw [hrun, hrest]⟩
      · rcases hround.reason with hfail | ⟨hnofile, hmade⟩
        · exact absurd hfail (hio _)
        · cases hnode : s.provider.fs.node (s.provider.fs.place (root ++ name)) with
          | none =>
              obtain ⟨c, d, hd, -, hplace⟩ := hmade hnode
              exact absurd hplace (hmk _ hname _ hname d (List.mem_of_getElem? hd))
          | some n =>
              cases n with
              | file b => exact absurd ⟨b, hnode⟩ hnofile
              | dir => exact absurd hnode (hdir _ hname)

/-! ### The handler -/

/-- `migrate_start` gets to its creating loop with the fileset `fileset'`: a fresh id is drawn,
the class is registered, the existence check finds none of the files, and the callback agrees
and leaves `fileset'`. -/
structure Accepts (env : Env) (s : Site) (fileset fileset' : Fileset) : Prop where
  fresh : s.provider.issuedTo (env.uuid s.served) = none
  registered : ∃ klass callback, s.provider.classes (classKey fileset) = some klass ∧
    klass.beforeCallback = some callback
  absent : ∀ k name, fileset.files.toList[k]? = some name →
    env.io .access (s.made .access + k) = .fail ∨
      s.provider.fs.node (s.provider.fs.place (fileset.root ++ name)) = none
  agrees : env.callback s.provider.calls s.provider.fs fileset = (0, fileset')

theorem run_anyExists (env : Env) (t : Tid) (root : Str) (names : List Str) (s : Site) :
    ∃ present made, (anyExists root names).run (env.step t) s =
        (some present, { s with made := Function.update s.made .access made }) ∧
      (present = false ↔ ∀ k name, names[k]? = some name →
        env.io .access (s.made .access + k) = .fail ∨
          s.provider.fs.node (s.provider.fs.place (root ++ name)) = none) := by
  induction names generalizing s with
  | nil => exact ⟨false, s.made .access, by simp [anyExists], by simp⟩
  | cons name rest ih =>
      have hstep : env.step t (.access (root ++ name)) s =
          some (decide (env.io .access (s.made .access) ≠ .fail ∧
              (s.provider.fs.node (s.provider.fs.place (root ++ name))).isSome),
            { s with made := Function.update s.made .access (s.made .access + 1) }) := rfl
      have hsplit : (∀ k n, (name :: rest)[k]? = some n →
            env.io .access (s.made .access + k) = .fail ∨
              s.provider.fs.node (s.provider.fs.place (root ++ n)) = none) ↔
          (env.io .access (s.made .access) = .fail ∨
              s.provider.fs.node (s.provider.fs.place (root ++ name)) = none) ∧
            ∀ k n, rest[k]? = some n → env.io .access (s.made .access + 1 + k) = .fail ∨
              s.provider.fs.node (s.provider.fs.place (root ++ n)) = none := by
        constructor
        · intro h
          refine ⟨h 0 name rfl, fun k n hk => ?_⟩
          rw [Nat.add_assoc, Nat.add_comm 1]
          exact h (k + 1) n hk
        · rintro ⟨h₀, h⟩ k n hk
          cases k with
          | zero =>
              obtain rfl : name = n := Option.some.inj hk
              exact h₀
          | succ k =>
              have := h k n hk
              rwa [Nat.add_assoc, Nat.add_comm 1] at this
      rw [anyExists, Prog.call_bind, Prog.run_op_some _ hstep, hsplit]
      by_cases hfound : env.io .access (s.made .access) ≠ .fail ∧
          (s.provider.fs.node (s.provider.fs.place (root ++ name))).isSome
      · refine ⟨true, s.made .access + 1, by simp [hfound], ?_⟩
        refine iff_of_false (by decide) fun h => ?_
        rcases h.1 with hio | hnone
        · exact hfound.1 hio
        · simp [hnone] at hfound
      · obtain ⟨present, made, hrun, hpresent⟩ :=
          ih { s with made := Function.update s.made .access (s.made .access + 1) }
        refine ⟨present, made, ?_, ?_⟩
        · simp only [hfound, decide_false, Bool.false_eq_true, ↓reduceIte, hrun]
          simp
        · simp only [Function.update_self] at hpresent
          rw [hpresent]
          refine (and_iff_right ?_).symm
          rw [not_and_or, not_not, Option.not_isSome_iff_eq_none] at hfound
          exact hfound

/-- The state in which `migrate_start` begins to create files. -/
structure Accepted (env : Env) (t : Tid) (fileset : Fileset) (s s' : Site) : Prop where
  fs : s'.provider.fs = s.provider.fs
  classes : s'.provider.classes = s.provider.classes
  record : s'.provider.opInProgress = s.provider.opInProgress
  opened : s'.provider.opened = s.provider.opened
  calls : s'.provider.calls = s.provider.calls + 1
  callbacks : ∃ callback uargs, s'.provider.callbacks =
    .before t callback uargs fileset :: s.provider.callbacks
  mkdirs : s'.made .mkdir = s.made .mkdir
  opens : s'.made .open_ = s.made .open_

/-- A `migrate_start` of `t` has left the files of `s`, and has not answered success. -/
def StartRefused (t : Tid) (s s' : Site) : Prop :=
  s'.provider.fs = s.provider.fs ∧
    ∀ status id, s'.provider.responses t ≠ some (.start .success status id)

/-- The answer that ends a refused `migrate_start`. -/
theorem run_refuse {ret : Ret} (hret : ret ≠ .success) (status : Int) (id : Uuid) {s s' : Site}
    (hfs : s'.provider.fs = s.provider.fs) :
    StartRefused t s ((issue (.respond (.start ret status id))).run (env.step t) s').2 := by
  refine ⟨hfs, fun status' id' h => hret ?_⟩
  have hanswer : (some (Response.start ret status id)) = some (.start .success status' id') :=
    (Function.update_self t _ s'.provider.responses).symm.trans h
  simp only [Option.some.injEq, Response.start.injEq] at hanswer
  exact hanswer.1

/-- The existence check of `migrate_start` finds none of the files. -/
def Absent (env : Env) (s : Site) (fileset : Fileset) : Prop :=
  ∀ k name, fileset.files.toList[k]? = some name →
    env.io .access (s.made .access + k) = .fail ∨
      s.provider.fs.node (s.provider.fs.place (fileset.root ++ name)) = none

/-- What the checks of a `migrate_start` leave as it was. -/
structure Checked (env : Env) (t : Tid) (s s' : Site) : Prop where
  fs : s'.provider.fs = s.provider.fs := by rfl
  classes : s'.provider.classes = s.provider.classes := by rfl
  record : s'.provider.opInProgress = s.provider.opInProgress := by rfl
  opened : s'.provider.opened = s.provider.opened := by rfl
  responses : s'.provider.responses = s.provider.responses := by rfl
  issued : s'.provider.issuedTo =
    Function.update s.provider.issuedTo (env.uuid s.served) (some t) := by rfl
  mkdirs : s'.made .mkdir = s.made .mkdir := by simp [Op.sysCall]
  opens : s'.made .open_ = s.made .open_ := by simp [Op.sysCall]

/-- No callback has been called between `s` and `s'`. -/
def Uncalled (s s' : Site) : Prop :=
  s'.provider.calls = s.provider.calls ∧ s'.provider.callbacks = s.provider.callbacks

/-- The callback `callback` has been called once between `s` and `s'`, in a `migrate_start`. -/
def CalledBefore (t : Tid) (callback : Nat) (uargs : Option Nat) (fileset : Fileset)
    (s s' : Site) : Prop :=
  s'.provider.calls = s.provider.calls + 1 ∧
    s'.provider.callbacks = .before t callback uargs fileset :: s.provider.callbacks

/-- The ways of a `migrate_start` with a fresh id: what is left of it after its checks, and the
state then. -/
inductive Course (env : Env) (t : Tid) (fileset : Fileset) (filesizes theModes : List Nat)
    (s s' : Site) : Handler Unit → Prop
  | unknownClass (hclass : s.provider.classes (classKey fileset) = none) (hcalls : Uncalled s s') :
      Course env t fileset filesizes theModes s s'
        (issue (.respond (.start .errUnknownClass 1 (env.uuid s.served))))
  | fileExists (klass : MigrationClass)
      (hclass : s.provider.classes (classKey fileset) = some klass)
      (habsent : ¬ Absent env s fileset) (hcalls : Uncalled s s') :
      Course env t fileset filesizes theModes s s'
        (issue (.respond (.start .errFileExists 1 (env.uuid s.served))))
  | nullCallback (klass : MigrationClass)
      (hclass : s.provider.classes (classKey fileset) = some klass)
      (hbefore : klass.beforeCallback = none) (habsent : Absent env s fileset)
      (hcalls : Uncalled s s') :
      Course env t fileset filesizes theModes s s'
        (issue (.respond (.start .errUser 1 (env.uuid s.served))))
  | refused (klass : MigrationClass) (callback : Nat) (status : Int) (fileset' : Fileset)
      (hclass : s.provider.classes (classKey fileset) = some klass)
      (hbefore : klass.beforeCallback = some callback) (habsent : Absent env s fileset)
      (hresult : env.callback s.provider.calls s.provider.fs fileset = (status, fileset'))
      (hstatus : status ≠ 0) (hcalls : CalledBefore t callback klass.uargs fileset s s') :
      Course env t fileset filesizes theModes s s'
        (issue (.respond (.start .errUser status (env.uuid s.served))))
  | accepted (klass : MigrationClass) (callback : Nat) (fileset' : Fileset)
      (hclass : s.provider.classes (classKey fileset) = some klass)
      (hbefore : klass.beforeCallback = some callback) (habsent : Absent env s fileset)
      (hresult : env.callback s.provider.calls s.provider.fs fileset = (0, fileset'))
      (hcalls : CalledBefore t callback klass.uargs fileset s s') :
      Course env t fileset filesizes theModes s s'
        (createOperation fileset' filesizes theModes (env.uuid s.served))

/-- What `migrate_start` does up to its answer or its creating loop. -/
theorem run_migrateStart_course (env : Env) (t : Tid) (fileset : Fileset)
    (filesizes theModes : List Nat) {s : Site}
    (hfresh : s.provider.issuedTo (env.uuid s.served) = none) :
    ∃ rest s', Course env t fileset filesizes theModes s s' rest ∧ Checked env t s s' ∧
      (migrateStart fileset filesizes theModes).run (env.step t) s =
        rest.run (env.step t) s' := by
  obtain ⟨s₁, hnew, hs₁⟩ : ∃ s₁, env.step t .newUuid s = some (env.uuid s.served, s₁) ∧
      s₁ = { s with provider := { s.provider with
        issuedTo := Function.update s.provider.issuedTo (env.uuid s.served) (some t) } } := by
    simp [Env.step, Env.outcome, exec, hfresh, Op.sysCall]
  have hcount : env.step t (.classCount (classKey fileset)) s₁ =
      some ((s.provider.classes (classKey fileset)).isSome, s₁) := by
    rw [hs₁]
    rfl
  unfold migrateStart
  rw [Prog.call_bind, Prog.run_op_some _ hnew, Prog.call_bind, Prog.run_op_some _ hcount]
  cases hclass : s.provider.classes (classKey fileset) with
  | none =>
      refine ⟨_, s₁, .unknownClass hclass ?_, ?_, rfl⟩ <;> rw [hs₁]
      · exact ⟨rfl, rfl⟩
      · exact {}
  | some klass =>
      obtain ⟨present, made, hcheck, hpresent⟩ :=
        run_anyExists env t fileset.root fileset.files.toList s₁
      simp only [Option.isSome_some, Bool.not_true, Bool.false_eq_true, ↓reduceIte]
      rw [Prog.run_bind_some _ hcheck]
      cases present with
      | true =>
          have habsent : ¬ Absent env s fileset := by
            intro h
            have := hpresent.mpr (by rw [hs₁]; exact h)
            cases this
          refine ⟨_, _, .fileExists klass hclass habsent ?_, ?_, rfl⟩ <;> rw [hs₁]
          · exact ⟨rfl, rfl⟩
          · exact {}
      | false =>
          have habsent : Absent env s fileset := by
            have := hpresent.mp rfl
            rwa [hs₁] at this
          have hclassAt : env.step t (.classAt (classKey fileset))
              { s₁ with made := Function.update s₁.made .access made } =
                some (klass, { s₁ with made := Function.update s₁.made .access made }) := by
            rw [hs₁]
            simp [Env.step, exec, Op.sysCall, hclass]
          simp only [Bool.false_eq_true, ↓reduceIte]
          rw [Prog.call_bind, Prog.run_op_some _ hclassAt]
          cases hbefore : klass.beforeCallback with
          | none =>
              -- Without a callback the status stays 1.
              simp only [callBefore, hbefore]
              refine ⟨_, _, .nullCallback klass hclass hbefore habsent ?_, ?_, rfl⟩ <;> rw [hs₁]
              · exact ⟨rfl, rfl⟩
              · exact {}
          | some callback =>
              obtain ⟨s₂, hcall, hcalled, hs₂⟩ : ∃ s₂,
                  env.step t (.before callback klass.uargs fileset)
                    { s₁ with made := Function.update s₁.made .access made } =
                      some (env.callback s.provider.calls s.provider.fs fileset, s₂) ∧
                  CalledBefore t callback klass.uargs fileset s s₂ ∧ Checked env t s s₂ := by
                rw [hs₁]
                exact ⟨_, rfl, ⟨rfl, rfl⟩, {}⟩
              simp only [callBefore, hbefore]
              rw [Prog.call_bind, Prog.run_op_some _ hcall]
              rcases hresult : env.callback s.provider.calls s.provider.fs fileset with
                ⟨status, fileset'⟩
              simp only [hresult] at hcall ⊢
              by_cases hstatus : status = 0
              · subst hstatus
                exact ⟨_, s₂, .accepted klass callback fileset' hclass hbefore habsent hresult
                  hcalled, hs₂, by simp⟩
              · refine ⟨_, s₂, .refused klass callback status fileset' hclass hbefore habsent
                  hresult hstatus hcalled, hs₂, ?_⟩
                simp only [hstatus, ne_eq, not_false_eq_true, ↓reduceIte]

/-- `migrate_start` gets to its creating loop, or is refused. -/
theorem run_migrateStart (env : Env) (fileset : Fileset) (filesizes theModes : List Nat) (s : Site)
    (hs : s.provider.responses t = none) :
    (∃ fileset' s', Accepts env s fileset fileset' ∧ Accepted env t fileset s s' ∧
        (migrateStart fileset filesizes theModes).run (env.step t) s =
          (createOperation fileset' filesizes theModes (env.uuid s.served)).run (env.step t)
            s') ∨
      (∀ fileset', ¬ Accepts env s fileset fileset') ∧
        StartRefused t s ((migrateStart fileset filesizes theModes).run (env.step t) s).2 := by
  by_cases hfresh : s.provider.issuedTo (env.uuid s.served) = none
  · obtain ⟨rest, s₁, hcourse, hchecked, hrun⟩ :=
      run_migrateStart_course env t fileset filesizes theModes hfresh
    rw [hrun]
    -- A course that is not accepted ends with the answer it has left to send.
    have hrefuse : ∀ ret status, ret ≠ .success → StartRefused t s
        ((issue (.respond (.start ret status (env.uuid s.served)))).run (env.step t) s₁).2 :=
      fun ret status hret => run_refuse hret status _ hchecked.fs
    cases hcourse with
    | unknownClass hclass _ =>
        refine Or.inr ⟨fun _ h => ?_, hrefuse _ _ (by decide)⟩
        obtain ⟨klass, callback, hklass, -⟩ := h.registered
        rw [hclass] at hklass
        cases hklass
    | fileExists klass _ habsent _ =>
        exact Or.inr ⟨fun _ h => habsent h.absent, hrefuse _ _ (by decide)⟩
    | nullCallback klass hclass hbefore _ _ =>
        refine Or.inr ⟨fun _ h => ?_, hrefuse _ _ (by decide)⟩
        obtain ⟨klass', callback, hklass, hcallback⟩ := h.registered
        rw [hclass, Option.some.injEq] at hklass
        rw [← hklass, hbefore] at hcallback
        cases hcallback
    | refused klass callback status fileset' _ _ _ hresult hstatus _ =>
        refine Or.inr ⟨fun _ h => hstatus ?_, hrefuse _ _ (by decide)⟩
        exact (Prod.mk.inj (hresult.symm.trans h.agrees)).1
    | accepted klass callback fileset' hclass hbefore habsent hresult hcalls =>
        refine Or.inl ⟨fileset', s₁, ⟨hfresh, ⟨klass, callback, hclass, hbefore⟩, habsent, hresult⟩,
          ?_, rfl⟩
        exact { fs := hchecked.fs, classes := hchecked.classes, record := hchecked.record
                opened := hchecked.opened, calls := hcalls.1
                callbacks := ⟨callback, klass.uargs, hcalls.2⟩
                mkdirs := hchecked.mkdirs, opens := hchecked.opens }
  · -- An id that is not fresh is not drawn.
    have hnew : env.step t .newUuid s = none := by
      obtain ⟨t', ht'⟩ := Option.ne_none_iff_exists'.mp hfresh
      simp [Env.step, Env.outcome, exec, ht']
    right
    unfold migrateStart
    rw [Prog.call_bind, Prog.run_op_none _ hnew]
    exact ⟨fun _ h => hfresh h.fresh, rfl, by simp [hs]⟩

/-- The answer of the `migrate_start` that has drawn `id`, once it has stored `op`. -/
theorem run_createOperation (env : Env) (t : Tid) (fileset : Fileset)
    (filesizes theModes : List Nat) (id : Uuid) (s : Site) :
    ∃ r s₁, (openFiles fileset.root theModes fileset.files.toList 0 []).run (env.step t) s =
        (some r, s₁) ∧
      ((createOperation fileset filesizes theModes id).run (env.step t) s).2.provider =
        match r with
        | none =>
          { s₁.provider with
            responses := Function.update s₁.provider.responses t (some (.start .errIo 0 id)) }
        | some fds =>
          { s₁.provider with
            opInProgress := Function.update s₁.provider.opInProgress id
              (some { fileset, filesizes, modes := theModes, fds })
            responses := Function.update s₁.provider.responses t
              (some (.start .success 0 id)) } := by
  obtain ⟨r, s₁, hrun, -⟩ :=
    run_openFiles_files env t fileset.root theModes fileset.files.toList 0 [] s
  refine ⟨r, s₁, hrun, ?_⟩
  rw [createOperation, Prog.run_bind_some _ hrun]
  cases r <;> rfl

/-! ### The RPC -/

/-- The record of `id` is ready for a transfer to the files at `places`. -/
structure Provider.Ready (s : Provider) (id : Uuid) (op : Operation) (places : List Path) :
    Prop where
  record : s.opInProgress id = some op
  mutex : op.mutex = none
  error : op.error = .success
  holds : List.Forall₂ s.Holds op.fds places

/-- The places of the files of a fileset. -/
def Fs.places (fs : Fs) (fileset : Fileset) : List Path := fileset.fullNames.map fs.place

/-- A provider after a `migrate_start` that it has answered with success. -/
structure Started (s : Provider) (fileset : Fileset) (filesizes : List Nat) (id : Uuid)
    (op : Operation) (s' : Provider) : Prop where
  ready : s'.Ready id op (s.fs.places fileset)
  op_fileset : op.fileset = fileset
  op_filesizes : op.filesizes = filesizes
  cwd : s'.fs.cwd = s.fs.cwd
  empty : ∀ p ∈ s.fs.places fileset, s'.fs.node p = some (.file [])

section Rpc
variable {abtio : Bool} {fileset : Fileset} {filesizes theModes : List Nat} {s : Site}

/-- The RPC leaves what the handler leaves, and succeeds when the handler has said so. -/
theorem start_eq (env : Env) (abtio : Bool) (fileset : Fileset) (filesizes theModes : List Nat)
    (s : Site) :
    ((providerRpc env abtio).start fileset filesizes theModes s).2.provider =
        ((migrateStart fileset filesizes theModes).run (env.step s.tid) s.receive).2.provider ∧
      ∀ status id, ((migrateStart fileset filesizes theModes).run (env.step s.tid)
          s.receive).2.provider.responses s.tid = some (.start .success status id) ↔
        ((providerRpc env abtio).start fileset filesizes theModes s).1 =
          (.success, status, id) := by
  simp only [providerRpc, Env.serve, handle]
  split
  · rename_i ret status id s' heq
    obtain ⟨hanswer, rfl⟩ := Prod.mk.inj heq
    refine ⟨rfl, fun status' id' => ?_⟩
    rw [hanswer]
    simp
  · rename_i s' answer hnot heq
    obtain ⟨hanswer, rfl⟩ := Prod.mk.inj heq
    refine ⟨rfl, fun status' id' => ?_⟩
    rw [hanswer]
    refine iff_of_false (hnot .success status' id') fun h => ?_
    exact absurd (congrArg (fun x => x.1) h) (show Ret.errMercury ≠ .success by decide)

theorem receive_responses (s : Site) : s.receive.provider.responses s.tid = none :=
  Function.update_self _ _ _

/-- A `migrate_start` that does not get to its creating loop fails, and leaves the files. -/
theorem start_refused (env : Env) (abtio : Bool) (filesizes theModes : List Nat)
    (h : ∀ fileset', ¬ Accepts env s fileset fileset') :
    ((providerRpc env abtio).start fileset filesizes theModes s).1.1 ≠ .success ∧
      ((providerRpc env abtio).start fileset filesizes theModes s).2.provider.fs =
        s.provider.fs := by
  obtain ⟨hprovider, hanswer⟩ := start_eq env abtio fileset filesizes theModes s
  rcases run_migrateStart env fileset filesizes theModes s.receive
    (receive_responses s) with ⟨fileset', -, haccepts, -⟩ | ⟨-, hfs, hnot⟩
  · exact absurd ⟨haccepts.fresh, haccepts.registered, haccepts.absent, haccepts.agrees⟩
      (h fileset')
  · rw [hprovider]
    refine ⟨fun hret => ?_, hfs⟩
    exact hnot _ _ ((hanswer _ _).mpr (Prod.ext hret rfl))

/-- A `migrate_start` that gets to its creating loop. -/
theorem start_accepted (env : Env) (abtio : Bool) (filesizes theModes : List Nat)
    {fileset' : Fileset} (h : Accepts env s fileset fileset') :
    ∃ s₁, Accepted env s.tid fileset s s₁ ∧
      ((providerRpc env abtio).start fileset filesizes theModes s).2.provider =
        ((createOperation fileset' filesizes theModes (env.uuid s.served)).run
          (env.step s.tid) s₁).2.provider := by
  obtain ⟨hprovider, -⟩ := start_eq env abtio fileset filesizes theModes s
  rcases run_migrateStart env fileset filesizes theModes s.receive
    (receive_responses s) with ⟨fileset'', s₁, haccepts, haccepted, hrun⟩ | ⟨hnot, -⟩
  · have hsame : fileset'' = fileset' := by
      have := haccepts.agrees.symm.trans h.agrees
      exact (Prod.mk.inj this).2
    refine ⟨s₁, ⟨haccepted.fs, haccepted.classes, haccepted.record, haccepted.opened,
      haccepted.calls, haccepted.callbacks, haccepted.mkdirs, haccepted.opens⟩, ?_⟩
    rw [hprovider, hrun, hsame]
    rfl
  · exact absurd ⟨h.fresh, h.registered, h.absent, h.agrees⟩ (hnot fileset')

/-- The files after a `migrate_start`. -/
theorem start_files (env : Env) (abtio : Bool) (fileset : Fileset)
    (filesizes theModes : List Nat) (s : Site) :
    (∃ p, ((providerRpc env abtio).start fileset filesizes theModes s).2.provider.fs.HasFile p ∧
        ¬ s.provider.fs.HasFile p) ↔
      ∃ fileset', Accepts env s fileset fileset' ∧ CreatesFile env s fileset'.fullNames := by
  by_cases hacc : ∃ fileset', Accepts env s fileset fileset'
  · obtain ⟨fileset', h⟩ := hacc
    obtain ⟨s₁, haccepted, hprovider⟩ := start_accepted env abtio filesizes theModes h
    obtain ⟨r, s₂, hrun, -, -, -, hnew⟩ :=
      run_openFiles_files env s.tid fileset'.root theModes fileset'.files.toList 0 [] s₁
    obtain ⟨r', s₂', hrun', heq⟩ :=
      run_createOperation env s.tid fileset' filesizes theModes
        (env.uuid s.served) s₁
    rw [hrun, Prod.mk.injEq] at hrun'
    obtain ⟨-, rfl⟩ := hrun'
    have hfs : ((providerRpc env abtio).start fileset filesizes theModes s).2.provider.fs =
        s₂.provider.fs := by
      rw [hprovider, heq]
      cases r' <;> rfl
    have hsame : CreatesFile env s₁ fileset'.fullNames ↔
        CreatesFile env s fileset'.fullNames := by
      simp only [CreatesFile, haccepted.fs, haccepted.mkdirs, haccepted.opens]
    rw [hfs, ← haccepted.fs]
    refine hnew.trans (hsame.trans ⟨fun hc => ⟨fileset', h, hc⟩, ?_⟩)
    rintro ⟨fileset'', h'', hc⟩
    have : fileset'' = fileset' := (Prod.mk.inj (h''.agrees.symm.trans h.agrees)).2
    rwa [← this]
  · -- Without the creating loop no file is added.
    have hnot : ∀ fileset', ¬ Accepts env s fileset fileset' := fun f h => hacc ⟨f, h⟩
    rw [(start_refused env abtio filesizes theModes hnot).2]
    exact iff_of_false (fun ⟨_, h, hn⟩ => hn h) (fun ⟨f, h, _⟩ => hnot f h)

/-- What a successful `migrate_start` leaves. -/
theorem start_success {status : Int} {id : Uuid}
    (h : ((providerRpc env abtio).start fileset filesizes theModes s).1 =
      (.success, status, id)) :
    ∃ fileset' op, Accepts env s fileset fileset' ∧
      Started s.provider fileset' filesizes id op
        ((providerRpc env abtio).start fileset filesizes theModes s).2.provider := by
  obtain ⟨hprovider, hanswer⟩ := start_eq env abtio fileset filesizes theModes s
  by_cases hacc : ∃ fileset', Accepts env s fileset fileset'
  · obtain ⟨fileset', haccepts⟩ := hacc
    obtain ⟨s₁, haccepted, heq⟩ := start_accepted env abtio filesizes theModes haccepts
    obtain ⟨r, s₂, hrun, hcreate⟩ :=
      run_createOperation env s.tid fileset' filesizes theModes
        (env.uuid s.served) s₁
    obtain ⟨r', s₂', hrun', -, hcwd, -⟩ :=
      run_openFiles_files env s.tid fileset'.root theModes fileset'.files.toList 0 [] s₁
    rw [hrun, Prod.mk.injEq] at hrun'
    obtain ⟨-, rfl⟩ := hrun'
    have hsent := (hanswer status id).mpr h
    rw [← hprovider, heq, hcreate] at hsent
    -- A failed creation is answered with an error, so all files have been opened.
    cases r with
    | none =>
        simp only [Function.update_self, Option.some.injEq, Response.start.injEq] at hsent
        exact absurd hsent.1 (by decide)
    | some fds =>
        simp only [Function.update_self, Option.some.injEq, Response.start.injEq] at hsent
        obtain ⟨-, -, rfl⟩ := hsent
        obtain ⟨new, hnew, hholds, -, -, hempty⟩ := run_openFiles_opened (t := s.tid) _ _ hrun
        rw [List.nil_append] at hnew
        have hplaces : s.provider.fs.places fileset' = fileset'.files.toList.map
            fun name => s₁.provider.fs.place (fileset'.root ++ name) := by
          simp [Fs.places, Fileset.fullNames, haccepted.fs]
        refine ⟨fileset', { fileset := fileset', filesizes, modes := theModes, fds },
          haccepts, ?_⟩
        rw [heq, hcreate]
        refine { ready := ⟨Function.update_self _ _ _, rfl, rfl, ?_⟩, op_fileset := rfl,
                 op_filesizes := rfl, cwd := by rw [← haccepted.fs]; exact hcwd,
                 empty := fun p hp => ?_ }
        · rw [hplaces, hnew]
          exact hholds
        · rw [hplaces] at hp
          obtain ⟨name, hname, rfl⟩ := List.mem_map.mp hp
          exact hempty name hname
  · have hnot := start_refused env abtio filesizes theModes fun f h => hacc ⟨f, h⟩
    rw [h] at hnot
    exact absurd rfl hnot.1

/-- A `migrate_start` that gets to its creating loop succeeds when the files can be created. -/
theorem start_ok {fileset' : Fileset} (abtio : Bool) (filesizes theModes : List Nat)
    (h : Accepts env s fileset fileset') (hio : ∀ n, env.io .open_ n ≠ .fail)
    (hmk : Creatable s.provider fileset'.fullNames)
    (hdir : ∀ v ∈ fileset'.fullNames, s.provider.fs.node (s.provider.fs.place v) ≠ some .dir) :
    ((providerRpc env abtio).start fileset filesizes theModes s).1 =
      (.success, 0, env.uuid s.served) := by
  obtain ⟨hprovider, hanswer⟩ := start_eq env abtio fileset filesizes theModes s
  obtain ⟨s₁, haccepted, heq⟩ := start_accepted env abtio filesizes theModes h
  obtain ⟨r, s₂, hrun, hcreate⟩ :=
    run_createOperation env s.tid fileset' filesizes theModes (env.uuid s.served) s₁
  have hmk₁ : Creatable s₁.provider fileset'.fullNames := by
    unfold Creatable
    rw [haccepted.fs]
    exact hmk
  obtain ⟨fds, s₂', hrun'⟩ := run_openFiles_ok (t := s.tid) fileset'.root theModes (i := 0) hio
    (fun name hname => List.mem_map_of_mem hname) hmk₁ (by rwa [haccepted.fs])
  rw [hrun', Prod.mk.injEq] at hrun
  obtain ⟨hr, rfl⟩ := hrun
  obtain rfl := Option.some.inj hr
  rw [← hanswer, ← hprovider, heq, hcreate]
  exact Function.update_self _ _ _

end Rpc

end

end Remi
