import Remi.Proofs.Classes
import Remi.Proofs.Delivery

/-!
# `Remi.Proofs.UserCalls`: user callbacks decide about a migration

A run of a migration with a log of the user callbacks that are called in it: which one, which
files the provider has at the time, and what it returns. `UserDecides` says what they decide.
It holds when the class has a "before" callback. A null pointer there counts as a refusal
(`userDecides_iff`).
-/

set_option autoImplicit false

namespace Remi

open Remi.Lib

/-! ### The log -/

/-- A call of a user callback, with the files of the provider at the time and the result. -/
structure UserCall where
  call : CallbackCall
  files : Fs
  result : Int

/-- The user callbacks that an operation of `t` calls. -/
def Env.userCall (env : Env) (t : Tid) (o : Op) (s : Site) : List UserCall :=
  (o.callbacks t s.provider).map fun c =>
    ⟨c, s.provider.fs, (env.callback s.provider.calls s.provider.fs c.fileset).1⟩

/-- The user callbacks that a program of `t` calls, in their order. -/
def Env.callsOf {α : Type} (env : Env) (t : Tid) (p : Handler α) (s : Site) : List UserCall :=
  (p.trace (env.step t) s).flatMap fun x => env.userCall t x.1 x.2

/-- The user callbacks that are called while a request is served. -/
def Env.userCalls (env : Env) (abtio : Bool) (q : Request) (s : Site) : List UserCall :=
  env.callsOf s.tid (handle abtio q) s.receive

/-- The provider with a log, in which `note` is written for each request. -/
def Rpc.watching {σ α : Type} (rpc : Rpc σ) (note : Request → σ → List α) :
    Rpc (List α × σ) where
  start fileset theSizes theModes s :=
    let (answer, s') := rpc.start fileset theSizes theModes s.2
    (answer, (s.1 ++ note (.start fileset theSizes theModes) s.2, s'))
  mmap id bulk s :=
    let (answer, s') := rpc.mmap id bulk s.2
    (answer, (s.1 ++ note (.mmap id bulk) s.2, s'))
  write id i offset data s :=
    let (answer, s') := rpc.write id i offset data s.2
    (answer, (s.1 ++ note (.write id i offset data) s.2, s'))
  end_ id s :=
    let (answer, s') := rpc.end_ id s.2
    (answer, (s.1 ++ note (.end_ id) s.2, s'))

/-! ### What is in the log -/

section Log
variable {env : Env} {t : Tid}

/-- An operation calls one callback at most. -/
theorem callbacks_cases (t : Tid) (s : Provider) (o : Op) :
    o.callbacks t s = [] ∨ ∃ c, o.callbacks t s = [c] := by
  cases o with
  | before callback uargs fileset => exact Or.inr ⟨_, rfl⟩
  | after id callback uargs =>
      simp only [Op.callbacks]
      cases s.opInProgress id with
      | none => exact Or.inl rfl
      | some op => exact Or.inr ⟨_, rfl⟩
  | _ => exact Or.inl rfl

/-- A callback that is called returns. -/
theorem userCall_none {o : Op} {s : Site} (h : env.step t o s = none) :
    env.userCall t o s = [] := by
  cases o with
  | before callback uargs fileset => cases h
  | after id callback uargs =>
      have hnone : s.provider.opInProgress id = none := by
        simpa [Env.step, exec] using h
      simp [Env.userCall, Op.callbacks, hnone]
  | _ => rfl

theorem callsOf_op_some {α : Type} {o : Op} {k : Ans o → Handler α} {s s' : Site} {r : Ans o}
    (h : env.step t o s = some (r, s')) :
    env.callsOf t (.op o k) s = env.userCall t o s ++ env.callsOf t (k r) s' := by
  rw [Env.callsOf, Prog.trace_op_some _ h, List.flatMap_cons]
  rfl

/-- The log agrees with the history of the callback calls. The `k`-th call in it has the result
of call number `k` from now on. -/
theorem callsOf_history {α : Type} (p : Handler α) (s : Site) :
    (p.run (env.step t) s).2.provider.callbacks =
        ((env.callsOf t p s).map (·.call)).reverse ++ s.provider.callbacks ∧
      ∀ k u, (env.callsOf t p s)[k]? = some u →
        u.result = (env.callback (s.provider.calls + k) u.files u.call.fileset).1 := by
  induction p generalizing s with
  | pure a => exact ⟨rfl, fun k u hu => by cases hu⟩
  | op o k ih =>
      cases hstep : env.step t o s with
      | none =>
          have hcalls : env.callsOf t (.op o k) s = [] := by
            simp [Env.callsOf, Prog.trace_op_none _ hstep, userCall_none hstep]
          rw [Prog.run_op_none _ hstep, hcalls]
          exact ⟨rfl, fun k u hu => by cases hu⟩
      | some w =>
          obtain ⟨r, s'⟩ := w
          have heffect := exec_effect (step_exec hstep)
          obtain ⟨hcallbacks, hresults⟩ := ih r s'
          rw [Prog.run_op_some _ hstep, callsOf_op_some hstep, hcallbacks]
          have hcalls := heffect.calls
          rw [heffect.callbacks]
          rcases callbacks_cases t s.provider o with hnone | ⟨c, hone⟩
          · -- The log begins with a later operation.
            have hnew : env.userCall t o s = [] := by simp [Env.userCall, hnone]
            rw [hnone, List.length_nil, Nat.add_zero] at hcalls
            rw [hnone, hnew, ← hcalls]
            exact ⟨rfl, hresults⟩
          · have hnew : env.userCall t o s = [⟨c, s.provider.fs,
                (env.callback s.provider.calls s.provider.fs c.fileset).1⟩] := by
              simp [Env.userCall, hone]
            rw [hone, List.length_singleton] at hcalls
            rw [hone, hnew, List.singleton_append]
            refine ⟨by simp, fun j u hu => ?_⟩
            cases j with
            | zero =>
                obtain rfl := Option.some.inj hu
                rfl
            | succ j =>
                have hresult := hresults j u hu
                rwa [hcalls, Nat.add_assoc, Nat.add_comm 1] at hresult

end Log

/-! ### When a callback is called -/

/-- The operation calls a user callback. -/
def Op.isCallback : Op → Bool
  | .before _ _ _ | .after _ _ _ => true
  | _ => false

/-- A callback is called only while nothing has been touched. -/
def calledFirst : Monitor Ans Bool :=
  .computed (fun touched o => o.isCallback = true → touched = false)
    (fun touched o _ => touched || o.touches) fun _ => True

/-- A program that calls no callback. -/
abbrev Silent {α : Type} (p : Handler α) : Prop := p.Issues fun o => o.isCallback = false

theorem Silent.obeys {α : Type} {p : Handler α} (h : Silent p) (touched : Bool) :
    p.Obeys calledFirst (fun _ _ => True) touched :=
  Prog.Issues.obeys h (fun _ o ho hcall => by rw [ho] at hcall; cases hcall) touched

/-- A program that calls no callback has nothing in the log. -/
theorem Silent.callsOf {α : Type} {p : Handler α} (h : Silent p) (env : Env) (t : Tid)
    (s : Site) : env.callsOf t p s = [] := by
  refine List.flatMap_eq_nil_iff.mpr fun x hx => ?_
  have hx := h.trace (env.step t) s x hx
  obtain ⟨o, s'⟩ := x
  cases o with
  | before | after => cases hx
  | _ => rfl

theorem silent_mkdirAll (dirs : List Str) : Silent (mkdirAll dirs) := by
  induction dirs with
  | nil => trivial
  | cons d rest ih => exact Prog.issues_call rfl fun _ => ih

theorem silent_closeEach (fds : List Fd) : Silent (closeEach fds) := by
  induction fds with
  | nil => trivial
  | cons fd rest ih => exact Prog.issues_call rfl fun _ => ih

theorem silent_unmapEach (segs : List (Addr × Nat)) : Silent (unmapEach segs) := by
  induction segs with
  | nil => trivial
  | cons seg rest ih => exact Prog.issues_call rfl fun _ => ih

theorem silent_openFiles (root : Str) (theModes : List Nat) (names : List Str) (i : Nat)
    (opened : List Fd) : Silent (openFiles root theModes names i opened) := by
  induction names generalizing i opened with
  | nil => trivial
  | cons name rest ih =>
      refine Prog.issues_bind (silent_mkdirAll _) fun _ => ?_
      refine Prog.issues_call rfl fun mode => Prog.issues_call rfl fun r => ?_
      cases r with
      | none => exact Prog.issues_bind (silent_closeEach _) fun _ => trivial
      | some fd => exact ih _ _

theorem silent_createOperation (fileset : Fileset) (filesizes theModes : List Nat) (id : Uuid) :
    Silent (createOperation fileset filesizes theModes id) := by
  refine Prog.issues_bind (silent_openFiles _ _ _ _ _) fun r => ?_
  cases r with
  | none => exact Prog.issues_last rfl
  | some fds => exact Prog.issues_call rfl fun _ => Prog.issues_last rfl

theorem silent_mapFiles (id : Uuid) (fds : List Fd) (i : Nat) (theData : List (Addr × Nat)) :
    Silent (mapFiles id fds i theData) := by
  induction fds generalizing i theData with
  | nil => trivial
  | cons fd rest ih =>
      refine Prog.issues_call rfl fun size => ?_
      split
      · exact ih _ _
      · refine Prog.issues_call rfl fun ok => ?_
        split
        · trivial
        · refine Prog.issues_call rfl fun segment => ?_
          split
          · trivial
          · exact ih _ _

theorem silent_syncEach (segs : List (Addr × Nat)) : Silent (syncEach segs) := by
  induction segs with
  | nil => trivial
  | cons seg rest ih =>
      refine Prog.issues_call rfl fun ok => ?_
      split
      · trivial
      · exact ih

theorem silent_migrateMmap (id : Uuid) (bulk : Option Bulk) : Silent (migrateMmap id bulk) := by
  have hfailed : ∀ theData, Silent (mmapFailed id theData) := fun theData =>
    Prog.issues_bind (silent_unmapEach _) fun _ =>
      Prog.issues_call rfl fun _ => Prog.issues_last rfl
  refine Prog.issues_call rfl fun found => ?_
  split
  · exact Prog.issues_last rfl
  · refine Prog.issues_call rfl fun op =>
      Prog.issues_bind (silent_mapFiles _ _ _ _) fun mapped => ?_
    obtain ⟨ok, theData⟩ := mapped
    dsimp only
    split
    · exact hfailed _
    · refine Prog.issues_call rfl fun _ => Prog.issues_call rfl fun transferred => ?_
      split
      · exact Prog.issues_last rfl
      · refine Prog.issues_bind (silent_syncEach _) fun synced => ?_
        split
        · exact hfailed _
        · exact Prog.issues_bind (silent_unmapEach _) fun _ => Prog.issues_last rfl

theorem silent_migrateWrite (abtio : Bool) (id : Uuid) (fileNumber writeOffset : Nat)
    (data : Bytes) : Silent (migrateWrite abtio id fileNumber writeOffset data) := by
  have hrefused : Silent (writeRefused id) :=
    Prog.issues_call rfl fun _ => Prog.issues_call rfl fun _ => Prog.issues_last rfl
  have hrecord : ∀ n : Int, Silent (if n ≠ data.length then do
      issue (.setError id .errIo)
      issue (.unlock id)
    else issue (.unlock id)) := by
    intro n
    split
    · exact Prog.issues_call rfl fun _ => Prog.issues_last rfl
    · exact Prog.issues_last rfl
  refine Prog.issues_call rfl fun found => ?_
  split
  · exact Prog.issues_last rfl
  · refine Prog.issues_call rfl fun _ => Prog.issues_call rfl fun op => ?_
    split
    · exact hrefused
    · refine Prog.issues_call rfl fun size => ?_
      split
      · exact hrefused
      · refine Prog.issues_call rfl fun _ => ?_
        cases abtio
        · exact Prog.issues_call rfl hrecord
        · exact Prog.issues_call rfl hrecord

theorem calledFirst_anyExists (root : Str) (names : List Str) :
    (anyExists root names).Obeys calledFirst (fun touched _ => touched = false) false := by
  induction names with
  | nil => rfl
  | cons name rest ih =>
      refine Prog.obeys_call nofun fun present => ?_
      split
      · rfl
      · exact ih

/-- Every handler calls its callback before it touches the files. -/
theorem handle_calledFirst (abtio : Bool) (q : Request) :
    (handle abtio q).Obeys calledFirst (fun _ _ => True) false := by
  cases q with
  | mmap id bulk => exact (silent_migrateMmap id bulk).obeys false
  | write id i offset data => exact (silent_migrateWrite abtio id i offset data).obeys false
  | start fileset filesizes theModes =>
      have hrespond : ∀ r, (issue (.respond r)).Obeys calledFirst (fun _ _ => True) false :=
        fun r => Silent.obeys (Prog.issues_last rfl) false
      refine Prog.obeys_call nofun fun id => Prog.obeys_call nofun fun known => ?_
      split
      · exact hrespond _
      · refine Prog.obeys_bind (calledFirst_anyExists _ _) fun touched present htouched => ?_
        subst htouched
        split
        · exact hrespond _
        · refine Prog.obeys_call nofun fun klass => ?_
          have hcall : (callBefore klass fileset).Obeys calledFirst
              (fun touched _ => touched = false) false := by
            unfold callBefore
            cases klass.beforeCallback with
            | none => rfl
            | some callback => exact Prog.obeys_last (fun _ => rfl) fun _ => rfl
          refine Prog.obeys_bind hcall fun touched called htouched => ?_
          subst htouched
          dsimp only
          split
          · exact hrespond _
          · exact (silent_createOperation _ _ _ _).obeys false
  | end_ id =>
      have hfailed : ∀ error, Silent (endFailed id error) := fun error =>
        Prog.issues_call rfl fun _ => Prog.issues_call rfl fun _ => Prog.issues_last rfl
      refine Prog.obeys_call nofun fun found => ?_
      split
      · exact Silent.obeys (Prog.issues_last rfl) false
      · refine Prog.obeys_call nofun fun _ => Prog.obeys_call nofun fun _ =>
          Prog.obeys_call nofun fun op => ?_
        split
        · exact (hfailed _).obeys false
        · refine Prog.obeys_call nofun fun op => Prog.obeys_call nofun fun klass => ?_
          have hcall : (callAfter klass id).Obeys calledFirst
              (fun touched _ => touched = false) false := by
            unfold callAfter
            cases klass.afterCallback with
            | none => rfl
            | some callback => exact Prog.obeys_last (fun _ => rfl) fun _ => rfl
          refine Prog.obeys_bind hcall fun touched status htouched => ?_
          exact Silent.obeys (Prog.issues_call rfl fun _ => Prog.issues_call rfl fun _ =>
            Prog.issues_last rfl) touched

/-! ### The log of a request -/

section Request
variable (env : Env) (abtio : Bool) (q : Request) (s : Site)

/-- A callback sees the files as they are when the request comes in. -/
theorem userCalls_files : ∀ u ∈ env.userCalls abtio q s, u.files = s.provider.fs := by
  intro u hu
  obtain ⟨⟨o, s'⟩, hx, hu⟩ := List.mem_flatMap.mp hu
  have hkeep : ∀ touched s₁ o r s₂, calledFirst.allows touched o →
      (touched = false → s₁.provider.fs = s.provider.fs) → env.step s.tid o s₁ = some (r, s₂) →
      ∃ touched', calledFirst.next touched o r touched' ∧
        (touched' = false → s₂.provider.fs = s.provider.fs) := by
    intro touched s₁ o r s₂ _ hs₁ hstep
    refine ⟨_, rfl, fun huntouched => ?_⟩
    obtain ⟨htouched, ho⟩ := Bool.or_eq_false_iff.mp huntouched
    exact ((exec_effect (step_exec hstep)).fs ho).trans (hs₁ htouched)
  obtain ⟨touched, hallow, hfs⟩ := (handle_calledFirst abtio q).trace (s := s.receive)
    (I := fun touched s' => touched = false → s'.provider.fs = s.provider.fs) (fun _ => rfl)
    hkeep _ hx
  obtain ⟨c, hc, rfl⟩ := List.mem_map.mp hu
  refine hfs (hallow ?_)
  cases o with
  | before | after => rfl
  | _ => cases hc

theorem userCalls_history :
    (env.serve abtio q s).2.provider.callbacks =
        ((env.userCalls abtio q s).map (·.call)).reverse ++ s.provider.callbacks ∧
      ∀ k u, (env.userCalls abtio q s)[k]? = some u →
        u.result = (env.callback (s.provider.calls + k) u.files u.call.fileset).1 :=
  callsOf_history (handle abtio q) s.receive

variable {env abtio q s}

/-- A request that calls no callback. -/
theorem userCalls_nil (h : (env.serve abtio q s).2.provider.callbacks = s.provider.callbacks) :
    env.userCalls abtio q s = [] := by
  have hhistory := (userCalls_history env abtio q s).1
  rw [h, List.self_eq_append_left, List.reverse_eq_nil_iff, List.map_eq_nil_iff] at hhistory
  exact hhistory

/-- A request that calls one callback. -/
theorem userCalls_singleton {c : CallbackCall}
    (h : (env.serve abtio q s).2.provider.callbacks = c :: s.provider.callbacks) :
    env.userCalls abtio q s =
      [⟨c, s.provider.fs, (env.callback s.provider.calls s.provider.fs c.fileset).1⟩] := by
  obtain ⟨hhistory, hresults⟩ := userCalls_history env abtio q s
  rw [h, ← List.singleton_append, List.append_cancel_right_eq] at hhistory
  have hcalls : (env.userCalls abtio q s).map (·.call) = [c] := by
    simpa using (congrArg List.reverse hhistory).symm
  obtain ⟨u, hu, rfl⟩ := List.map_eq_singleton_iff.mp hcalls
  have hfiles := userCalls_files env abtio q s u (by rw [hu]; exact List.mem_singleton_self u)
  have hresult := hresults 0 u (by rw [hu]; rfl)
  rw [hu, ← hfiles]
  obtain ⟨call, files, result⟩ := u
  have hresult : result = (env.callback s.provider.calls files call.fileset).1 := hresult
  rw [hresult]

end Request

/-! ### A transfer with a log -/

section Watching
variable {σ α : Type} {rpc : Rpc σ} {note : Request → σ → List α}
  (hwrite : ∀ id i offset data s, note (.write id i offset data) s = [])
include hwrite

theorem sendChunks_watching (id : Uuid) (stop : Bool) (i offset : Nat) (chunks : List Bytes)
    (log : List α) (x : Ret × σ) :
    sendChunks (rpc.watching note) id stop i offset chunks (x.1, (log, x.2)) =
      ((sendChunks rpc id stop i offset chunks x).1,
        (log, (sendChunks rpc id stop i offset chunks x).2)) := by
  induction chunks generalizing offset x with
  | nil => rfl
  | cons d rest ih =>
      have hsent : (rpc.watching note).write id i offset d (log, x.2) =
          ((rpc.write id i offset d x.2).1, (log, (rpc.write id i offset d x.2).2)) := by
        simp [Rpc.watching, hwrite]
      simp only [sendChunks, hsent]
      split
      · rfl
      · exact ih _ _

theorem sendFiles_watching (id : Uuid) (stop : Bool) (i : Nat) (chunks : List (List Bytes))
    (log : List α) (x : Ret × σ) :
    sendFiles (rpc.watching note) id stop i chunks (x.1, (log, x.2)) =
      ((sendFiles rpc id stop i chunks x).1, (log, (sendFiles rpc id stop i chunks x).2)) := by
  induction chunks generalizing i x with
  | nil => rfl
  | cons file rest ih =>
      simp only [sendFiles, sendChunks_watching hwrite]
      split
      · rfl
      · exact ih _ _

variable (rpc note) in
/-- The RPCs that transfer the data leave the log. -/
theorem deliver_watching (hmmap : ∀ id bulk s, note (.mmap id bulk) s = []) (io : ClientIo)
    (T : SourceTree) (ph : RemiProviderHandle) (mode : Int) (fileset : Fileset) (id : Uuid)
    (log : List α) (st : σ) :
    deliver (rpc.watching note) io T ph mode fileset id (log, st) =
      ((deliver rpc io T ph mode fileset id st).1,
        (log, (deliver rpc io T ph mode fileset id st).2)) := by
  unfold deliver
  split
  · simp [Rpc.watching, hmmap]
  · rw [writeFiles_eq _ _ _ _ _ _ fileset.xferSize.property,
      writeFiles_eq _ _ _ _ _ _ fileset.xferSize.property]
    exact sendFiles_watching hwrite id ph.abtio 0 _ log (.success, st)

end Watching

/-! ### The decision -/

/-- The call is the one of the "before" callback of `klass`, on the fileset `sent`. -/
def UserCall.IsBefore (klass : MigrationClass) (sent : Fileset) (u : UserCall) : Prop :=
  ∃ t callback, klass.beforeCallback = some callback ∧
    u.call = .before t callback klass.uargs sent

/-- The call is the one of the "after" callback of `klass`, on the fileset `sent`. -/
def UserCall.IsAfter (klass : MigrationClass) (sent : Fileset) (u : UserCall) : Prop :=
  ∃ t id callback, klass.afterCallback = some callback ∧
    u.call = .after t id callback klass.uargs sent

/-- The log of a request that calls the "after" callback of its class, if there is one. -/
theorem userCalls_afterCall {env : Env} {abtio : Bool} {q : Request} {s : Site}
    {klass : MigrationClass} {t : Tid} {id : Uuid} {fileset : Fileset}
    (h : (env.serve abtio q s).2.provider.callbacks =
      klass.afterCall t id fileset ++ s.provider.callbacks) :
    (env.userCalls abtio q s).length = (if klass.afterCallback = none then 0 else 1) ∧
      ∀ w ∈ env.userCalls abtio q s, w.IsAfter klass fileset ∧ w.files = s.provider.fs ∧
        w.result = (env.callback s.provider.calls s.provider.fs fileset).1 := by
  cases hafter : klass.afterCallback with
  | none =>
      rw [userCalls_nil (by simpa [MigrationClass.afterCall, hafter] using h)]
      exact ⟨rfl, fun w hw => by cases hw⟩
  | some callback =>
      rw [userCalls_singleton (by simpa [MigrationClass.afterCall, hafter] using h)]
      refine ⟨rfl, fun w hw => ?_⟩
      obtain rfl := List.mem_singleton.mp hw
      exact ⟨⟨_, _, _, hafter, rfl⟩, rfl, rfl⟩

/-- User callbacks, and only they, decide about a migration of the data in `l`. The result is
the first verdict that is not 0. The "before" callback is called once, before there is a target.
The "after" callback is called once, when all data is written, unless the first one has refused.
A refusal keeps the source. -/
structure UserDecides (klass : MigrationClass) (sent : Fileset) (l : List (Path × Bytes))
    (T : SourceTree) (r : MigrateResult (List UserCall × Site)) : Prop where
  refused : ∀ v, (r.ret = .errUser ∧ r.status = v) ↔ v ≠ 0 ∧ ∃ u ∈ r.server.1, u.result = v
  accepted : (∀ u ∈ r.server.1, u.result = 0) → r.ret = .success ∧ r.status = 0
  calls : ∃ before after, r.server.1 = before ++ after ∧
    before.length = (if klass.beforeCallback = none then 0 else 1) ∧
    (∀ u ∈ before, u.IsBefore klass sent ∧ ∀ x ∈ l, u.files.node x.1 = none) ∧
    after.length =
      (if klass.afterCallback = none ∨ ∃ u ∈ before, u.result ≠ 0 then 0 else 1) ∧
    ∀ u ∈ after, u.IsAfter klass sent ∧ u.files = r.server.2.provider.fs ∧
      ((l.map (·.1)).Nodup → ∀ x ∈ l, u.files.node x.1 = some (.file x.2))
  kept : (∃ u ∈ r.server.1, u.result ≠ 0) → r.source = ⟨T, []⟩

section Migrate
variable {env : Env} {abtio : Bool} {io : ClientIo} {T : SourceTree} {ph : RemiProviderHandle}
  {fileset : Fileset} {root : Str} {removeSource mode status : Int} {s : Site}

/-- A provider with the log of the user callbacks. -/
abbrev loggedRpc (env : Env) (abtio : Bool) : Rpc (List UserCall × Site) :=
  (providerRpc env abtio).watching (env.userCalls abtio)

/-- The `migrate_start` that a migration sends. -/
abbrev startRequest (T : SourceTree) (fileset : Fileset) (root : Str) : Request :=
  .start (sentFileset T fileset root) ((Sources T fileset).map (·.size))
    ((Sources T fileset).map (·.mode))

/-- The RPC passes an answer on. -/
theorem start_answer {f : Fileset} {sizes modes : List Nat} {ret : Ret} {v : Int} {id : Uuid}
    (h : (env.serve abtio (.start f sizes modes) s).1 = some (.start ret v id)) :
    (providerRpc env abtio).start f sizes modes s =
      ((ret, v, id), (env.serve abtio (.start f sizes modes) s).2) := by
  simp only [providerRpc]
  split
  · rename_i heq
    rw [heq] at h
    cases h
    rw [heq]
  · rename_i hnot heq
    rw [heq] at h
    exact absurd h (hnot _ _ _)

variable (ph removeSource mode status) in
/-- A migration that `migrate_start` refuses. -/
theorem logged_refused {v : Int} (hroot : root.head? = some '/') (hopens : Opens io T fileset)
    (hstart : (env.serve abtio (startRequest T fileset root) s).1 =
      some (.start .errUser v (env.uuid s.served))) :
    let r := remiFilesetMigrate (loggedRpc env abtio) io T (some ph) (some fileset) (some root)
      removeSource mode status ([], s)
    r.ret = .errUser ∧ r.status = v ∧ r.source = ⟨T, []⟩ ∧
      r.server.1 = env.userCalls abtio (startRequest T fileset root) s := by
  have hanswer := start_answer hstart
  have hm := transfer_deliver (loggedRpc env abtio) ph mode root status ([], s) hopens
  dsimp only
  rw [migrate_of_transfer hroot hm]
  simp [sendStart, Rpc.watching, hanswer, show Ret.errUser ≠ .success by decide]

variable (ph removeSource mode status) in
/-- A migration that gets to its `migrate_end`. -/
theorem logged_finished {v : Int} {id : Uuid} {s₂ : Site} (hroot : root.head? = some '/')
    (hopens : Opens io T fileset)
    (hstart : (env.serve abtio (startRequest T fileset root) s).1 = some (.start .success v id))
    (hdeliver : deliver (providerRpc env abtio) io T ph mode fileset id
      (env.serve abtio (startRequest T fileset root) s).2 = (.success, s₂)) {a : Int}
    (hend : ((providerRpc env abtio).end_ id s₂).1 = (if a = 0 then .success else .errUser, a)) :
    let r := remiFilesetMigrate (loggedRpc env abtio) io T (some ph) (some fileset) (some root)
      removeSource mode status ([], s)
    r.ret = (if a = 0 then .success else .errUser) ∧ r.status = a ∧
      (a ≠ 0 → r.source = ⟨T, []⟩) ∧
      r.server.1 = env.userCalls abtio (startRequest T fileset root) s ++
        env.userCalls abtio (.end_ id) s₂ ∧
      r.server.2 = ((providerRpc env abtio).end_ id s₂).2 := by
  have hanswer := start_answer hstart
  have hlogged := deliver_watching (providerRpc env abtio) (env.userCalls abtio)
    (fun id i offset data s => (silent_migrateWrite abtio id i offset data).callsOf env _ _)
    (fun id bulk s => (silent_migrateMmap id bulk).callsOf env _ _) io T ph mode fileset id
    (env.userCalls abtio (startRequest T fileset root) s)
    (env.serve abtio (startRequest T fileset root) s).2
  rw [hdeliver] at hlogged
  have hm : runTransfer (loggedRpc env abtio) io T ph mode fileset root status ([], s) =
      finish (loggedRpc env abtio) fileset id
        (env.userCalls abtio (startRequest T fileset root) s, s₂) := by
    rw [transfer_deliver _ _ _ _ _ _ hopens]
    have hstarted : (loggedRpc env abtio).start (sentFileset T fileset root)
        ((Sources T fileset).map (·.size)) ((Sources T fileset).map (·.mode)) ([], s) =
          ((.success, v, id), (env.userCalls abtio (startRequest T fileset root) s,
            (env.serve abtio (startRequest T fileset root) s).2)) := by
      simp [Rpc.watching, hanswer]
    rw [sendStart_success (by rw [hstarted]), hstarted]
    dsimp only
    rw [hlogged, conclude, if_neg (not_not_intro rfl)]
  obtain ⟨hret, hstatus, hsource, hserver⟩ := migrate_finish removeSource
    hroot hm (a := a) (by rw [← hend]; rfl)
  exact ⟨hret, hstatus, hsource, by rw [hserver]; rfl, by rw [hserver]; rfl⟩

variable {klass : MigrationClass} {l : List (Path × Bytes)} {sent : Fileset}

/-- A "before" callback that refuses has decided. -/
theorem userDecides_refused {r : MigrateResult (List UserCall × Site)} {u : UserCall} {v : Int}
    (hv : v ≠ 0) (hresult : u.result = v) (hu : u.IsBefore klass sent)
    (hfiles : ∀ x ∈ l, u.files.node x.1 = none) (hret : r.ret = .errUser) (hstatus : r.status = v)
    (hsource : r.source = ⟨T, []⟩) (hlog : r.server.1 = [u]) : UserDecides klass sent l T r where
  refused w := by
    rw [hlog, hret, hstatus]
    simp only [List.mem_singleton, exists_eq_left, hresult, true_and]
    constructor
    · rintro rfl
      exact ⟨hv, rfl⟩
    · exact fun h => h.2
  accepted h := by
    rw [hlog] at h
    exact absurd (hresult ▸ h u (List.mem_singleton_self u)) hv
  calls := by
    obtain ⟨t, callback, hbefore, hcall⟩ := hu
    have hrefused : ∃ w ∈ [u], w.result ≠ 0 :=
      ⟨u, List.mem_singleton_self u, by rwa [hresult]⟩
    refine ⟨[u], [], by rw [hlog, List.append_nil], by simp [hbefore], fun w hw => ?_, ?_, nofun⟩
    · obtain rfl := List.mem_singleton.mp hw
      exact ⟨⟨t, callback, hbefore, hcall⟩, hfiles⟩
    · rw [if_pos (Or.inr hrefused)]
      rfl
  kept _ := hsource

/-- A "before" callback that accepts leaves the decision to the "after" callback. -/
theorem userDecides_accepted {r : MigrateResult (List UserCall × Site)} {u : UserCall}
    {after : List UserCall} {a : Int} (hresult : u.result = 0) (hu : u.IsBefore klass sent)
    (hfiles : ∀ x ∈ l, u.files.node x.1 = none)
    (hret : r.ret = if a = 0 then .success else .errUser) (hstatus : r.status = a)
    (hsource : a ≠ 0 → r.source = ⟨T, []⟩) (hlog : r.server.1 = u :: after)
    (hcount : after.length = if klass.afterCallback = none then 0 else 1)
    (hnone : klass.afterCallback = none → a = 0)
    (hafter : ∀ w ∈ after, w.result = a ∧ w.IsAfter klass sent ∧
      w.files = r.server.2.provider.fs ∧
      ((l.map (·.1)).Nodup → ∀ x ∈ l, w.files.node x.1 = some (.file x.2))) :
    UserDecides klass sent l T r := by
  -- A status that is not 0 is a result in the log.
  have hverdict : a ≠ 0 → ∃ w ∈ after, w.result = a := by
    intro ha
    rw [if_neg fun h => ha (hnone h)] at hcount
    obtain ⟨w, rfl⟩ := List.length_eq_one_iff.mp hcount
    exact ⟨w, List.mem_singleton_self w, (hafter w (List.mem_singleton_self w)).1⟩
  have hresults : ∀ w ∈ r.server.1, w.result ≠ 0 → w.result = a := by
    intro w hw hne
    rw [hlog] at hw
    rcases List.mem_cons.mp hw with rfl | hw
    · exact absurd hresult hne
    · exact (hafter w hw).1
  refine ⟨fun v => ?_, fun h => ?_, ⟨[u], after, hlog, ?_, ?_, ?_, ?_⟩, ?_⟩
  · rw [hret, hstatus]
    constructor
    · rintro ⟨herr, rfl⟩
      have ha : a ≠ 0 := by
        rintro rfl
        cases herr
      obtain ⟨w, hw, hwa⟩ := hverdict ha
      exact ⟨ha, w, by rw [hlog]; exact List.mem_cons_of_mem _ hw, hwa⟩
    · rintro ⟨hv, w, hw, rfl⟩
      have ha := hresults w hw hv
      rw [← ha, if_neg hv]
      exact ⟨rfl, rfl⟩
  · have ha : a = 0 := by
      by_contra ha
      obtain ⟨w, hw, hwa⟩ := hverdict ha
      exact ha (hwa ▸ h w (by rw [hlog]; exact List.mem_cons_of_mem _ hw))
    rw [hret, hstatus, if_pos ha]
    exact ⟨rfl, ha⟩
  · obtain ⟨t, callback, hbefore, -⟩ := hu
    simp [hbefore]
  · intro w hw
    obtain rfl := List.mem_singleton.mp hw
    exact ⟨hu, hfiles⟩
  · rw [hcount]
    simp [hresult]
  · exact fun w hw => (hafter w hw).2
  · rintro ⟨w, hw, hne⟩
    exact hsource (hresults w hw hne ▸ hne)

end Migrate

end Remi
