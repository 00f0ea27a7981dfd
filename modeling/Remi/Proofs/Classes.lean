import Remi.Server.Classes
import Remi.Proofs.Serve

/-!
# `Remi.Proofs.Classes`: the class table over registrations and requests

`serve_looked` says what a request does to the class table and which callbacks it calls.
-/

set_option autoImplicit false

namespace Remi

open Remi.Lib

/-! ### What a request does to the table -/

/-- The call of a callback is one that `klass` asks for. -/
def CallbackCall.MadeFor (klass : MigrationClass) : CallbackCall → Prop
  | .before _ callback uargs _ => klass.beforeCallback = some callback ∧ klass.uargs = uargs
  | .after _ _ callback uargs _ => klass.afterCallback = some callback ∧ klass.uargs = uargs

/-- What a request leaves of the table of `s`, and what it adds to the callbacks. Only a
`migrate_end` inserts a key, and only the one of an operation without an error. -/
structure Looked (q : Request) (s s' : Provider) : Prop where
  classes : ∀ key, s'.classes key = s.classes key ∨
    s.classes key = none ∧ s'.classes key = some .null ∧ ∃ id op, q = .end_ id ∧
      s.opInProgress id = some op ∧ op.error = .success ∧ key = classKey op.fileset
  callbacks : ∃ new, s'.callbacks = new ++ s.callbacks ∧ ∀ c ∈ new, ∃ klass,
    s.classes (classKey c.fileset) = some klass ∧ c.MadeFor klass

theorem Looked.of_eq {q : Request} {s s' : Provider} (hclasses : s'.classes = s.classes)
    (hcallbacks : s'.callbacks = s.callbacks) : Looked q s s' where
  classes key := Or.inl (congrFun hclasses key)
  callbacks := ⟨[], hcallbacks, by simp⟩

section Serve
variable (env : Env) (abtio : Bool) (s : Site)

/-- `migrate_mmap` and `migrate_write` do not look at the table. -/
theorem transfer_looked (q : Request) (hq : q.kind = .mmap ∨ q.kind = .write) :
    Looked q s.provider (env.serve abtio q s).2.provider := by
  have hkeep := serve_keeps env abtio (I := fun s' => s'.classes = s.provider.classes ∧
    s'.callbacks = s.provider.callbacks) q ?_ (s := s) ⟨rfl, rfl⟩
  · exact .of_eq hkeep.1 hkeep.2
  · intro g t w o s₁ r s₂ hreq hallow ⟨hclasses, hcallbacks⟩ hx
    have hkind : g.req.kind ≠ .start ∧ g.req.kind ≠ .end_ := by
      rw [hreq]
      rcases hq with h | h <;> rw [h] <;> decide
    refine ⟨((exec_effect hx).classes ?_).trans hclasses, ?_⟩
    · rintro key rfl
      exact hallow.elim hkind.1 hkind.2
    · rw [(exec_effect hx).callbacks, hcallbacks]
      have hnone : o.callbacks t s₁ = [] := by
        cases o with
        | before callback uargs fileset => exact absurd hallow.1 hkind.1
        | after id callback uargs => exact absurd hallow.2.1 hkind.2
        | _ => rfl
      rw [hnone, List.nil_append]

/-- The creating loop and the answer behind it leave the table and the callbacks. -/
theorem run_createOperation_answer (t : Tid) (fileset : Fileset) (filesizes theModes : List Nat)
    (id : Uuid) :
    ∃ ret, (ret = .errIo ∨ ret = .success) ∧
      let s' := ((createOperation fileset filesizes theModes id).run (env.step t) s).2
      s'.provider.classes = s.provider.classes ∧ s'.provider.callbacks = s.provider.callbacks ∧
        s'.provider.calls = s.provider.calls ∧
        s'.provider.responses t = some (.start ret 0 id) := by
  obtain ⟨r, s₁, hrun, hsame, -⟩ :=
    run_openFiles_files env t fileset.root theModes fileset.files.toList 0 [] s
  obtain ⟨r', s₂, hrun', heq⟩ := run_createOperation env t fileset filesizes theModes id s
  rw [hrun, Prod.mk.injEq] at hrun'
  obtain ⟨hr, rfl⟩ := hrun'
  obtain rfl := Option.some.inj hr
  dsimp only
  rw [heq]
  cases r with
  | none =>
      exact ⟨.errIo, Or.inl rfl, hsame.classes, hsame.callbacks, hsame.calls,
        Function.update_self _ _ _⟩
  | some fds =>
      exact ⟨.success, Or.inr rfl, hsame.classes, hsame.callbacks, hsame.calls,
        Function.update_self _ _ _⟩

/-- A `migrate_start` with a fresh id is answered. It leaves the table, and its callbacks are
those of its course. -/
theorem serve_start (fileset : Fileset) (filesizes theModes : List Nat)
    (hfresh : s.provider.issuedTo (env.uuid s.served) = none) :
    ∃ rest s₁ ret status, Course env s.tid fileset filesizes theModes s.receive s₁ rest ∧
      let served := env.serve abtio (.start fileset filesizes theModes) s
      served.1 = (rest.run (env.step s.tid) s₁).2.provider.responses s.tid ∧
      served.1 = some (.start ret status (env.uuid s.served)) ∧
      (ret = .errUnknownClass ↔ s.provider.classes (classKey fileset) = none) ∧
      served.2.provider.classes = s.provider.classes ∧
      served.2.provider.callbacks = s₁.provider.callbacks ∧
      served.2.provider.calls = s₁.provider.calls := by
  obtain ⟨rest, s₁, hcourse, hchecked, hrun⟩ := run_migrateStart_course env s.tid fileset filesizes
    theModes (s := s.receive) hfresh
  -- The answer that is left to send when the creating loop is not reached.
  have hsend : ∀ ret status id, ((issue (.respond (.start ret status id))).run (env.step s.tid)
      s₁).2.provider =
        { s₁.provider with
          responses :=
            Function.update s₁.provider.responses s.tid (some (.start ret status id)) } :=
    fun _ _ _ => rfl
  have hid : env.uuid s.receive.served = env.uuid s.served := rfl
  have hknown : ∀ (klass : MigrationClass) (ret : Ret),
      s.provider.classes (classKey fileset) = some klass → ret ≠ .errUnknownClass →
      (ret = .errUnknownClass ↔ s.provider.classes (classKey fileset) = none) := by
    intro klass ret hclass hret
    exact iff_of_false hret (by simp [hclass])
  refine ⟨rest, s₁, ?_⟩
  simp only [Env.serve, handle, hrun, true_and]
  -- Each exit of the handler has one answer, and only the first one is for a missing class.
  cases hcourse with
  | unknownClass hclass hcalls =>
      refine ⟨.errUnknownClass, 1, .unknownClass hclass hcalls, ?_⟩
      simp only [hsend, Function.update_self, hid]
      exact ⟨trivial, iff_of_true trivial hclass, hchecked.classes, trivial, trivial⟩
  | fileExists klass hclass habsent hcalls =>
      refine ⟨.errFileExists, 1, .fileExists klass hclass habsent hcalls, ?_⟩
      simp only [hsend, Function.update_self, hid]
      exact ⟨trivial, hknown klass _ hclass (by decide), hchecked.classes, trivial, trivial⟩
  | nullCallback klass hclass hbefore habsent hcalls =>
      refine ⟨.errUser, 1, .nullCallback klass hclass hbefore habsent hcalls, ?_⟩
      simp only [hsend, Function.update_self, hid]
      exact ⟨trivial, hknown klass _ hclass (by decide), hchecked.classes, trivial, trivial⟩
  | refused klass callback status fileset' hclass hbefore habsent hresult hstatus hcalls =>
      refine ⟨.errUser, status,
        .refused klass callback status fileset' hclass hbefore habsent hresult hstatus hcalls, ?_⟩
      simp only [hsend, Function.update_self, hid]
      exact ⟨trivial, hknown klass _ hclass (by decide), hchecked.classes, trivial, trivial⟩
  | accepted klass callback fileset' hclass hbefore habsent hresult hcalls =>
      obtain ⟨ret, hret, hclasses, hcallbacks, hcount, hanswer⟩ := run_createOperation_answer env s₁
        s.tid fileset' filesizes theModes (env.uuid s.served)
      refine ⟨ret, 0, .accepted klass callback fileset' hclass hbefore habsent hresult hcalls,
        hanswer, hknown klass ret hclass ?_, hclasses.trans hchecked.classes, hcallbacks, hcount⟩
      rcases hret with rfl | rfl <;> decide

/-- A `migrate_end` leaves the table, or inserts the class that it looks up and does not find. -/
theorem end_looked (id : Uuid) :
    Looked (.end_ id) s.provider (env.serve abtio (.end_ id) s).2.provider := by
  cases hrecord : s.provider.opInProgress id with
  | none =>
      refine .of_eq ?_ ?_ <;>
        simp [Env.serve, handle, migrateEnd, Site.receive, Prog.call, Prog.run, Env.step,
          Op.sysCall, exec, hrecord]
  | some op =>
      by_cases hmutex : op.mutex = none
      case neg =>
        -- The handler waits for the mutex of the record.
        refine .of_eq ?_ ?_ <;>
          simp [Env.serve, handle, migrateEnd, Site.receive, Prog.call, Prog.run, Env.step,
            Op.sysCall, exec, hrecord, hmutex]
      by_cases herror : op.error = .success
      case neg =>
        refine .of_eq ?_ ?_ <;>
          simp [Env.serve, handle, migrateEnd, endFailed, Site.receive, Prog.call, Prog.run,
            Env.step, Op.sysCall, exec, Provider.modifyOp, Provider.closeAll, hrecord, hmutex,
            herror]
      rw [serve_end env abtio hrecord hmutex herror]
      constructor
      · intro key
        show s.provider.lookedUp op.fileset key = _ ∨ _ ∧ s.provider.lookedUp op.fileset key = _ ∧ _
        unfold Provider.lookedUp Provider.klass
        by_cases hkey : key = classKey op.fileset
        · subst hkey
          rw [Function.update_self]
          cases hclass : s.provider.classes (classKey op.fileset) with
          | none => exact Or.inr ⟨rfl, rfl, id, op, rfl, hrecord, herror, rfl⟩
          | some klass => exact Or.inl rfl
        · exact Or.inl (Function.update_of_ne hkey _ _)
      · refine ⟨_, rfl, fun c hc => ?_⟩
        unfold Provider.klass MigrationClass.afterCall at hc
        cases hclass : s.provider.classes (classKey op.fileset) with
        | none =>
            rw [hclass] at hc
            cases hc
        | some klass =>
            simp only [hclass, Option.getD_some] at hc
            split at hc
            · rename_i callback hcallback
              obtain rfl := List.mem_singleton.mp hc
              exact ⟨klass, hclass, hcallback, rfl⟩
            · cases hc

/-- What any request does to the table and which callbacks it calls. -/
theorem serve_looked (q : Request) : Looked q s.provider (env.serve abtio q s).2.provider := by
  cases q with
  | start fileset filesizes theModes =>
      by_cases hfresh : s.provider.issuedTo (env.uuid s.served) = none
      · obtain ⟨rest, s₁, ret, status, hcourse, -, -, -, hclasses, hcallbacks, -⟩ :=
          serve_start env abtio s fileset filesizes theModes hfresh
        refine ⟨fun key => Or.inl (congrFun hclasses key), ?_⟩
        rw [hcallbacks]
        cases hcourse with
        | unknownClass _ hcalls | fileExists _ _ _ hcalls | nullCallback _ _ _ _ hcalls =>
            exact ⟨[], hcalls.2, by simp⟩
        | refused klass callback _ _ hclass hbefore _ _ _ hcalls
        | accepted klass callback _ hclass hbefore _ _ hcalls =>
            refine ⟨[.before s.tid callback klass.uargs fileset], hcalls.2, fun c hc => ?_⟩
            obtain rfl := List.mem_singleton.mp hc
            exact ⟨klass, hclass, hbefore, rfl⟩
      · -- An id that is not fresh is not drawn.
        obtain ⟨t', ht'⟩ := Option.ne_none_iff_exists'.mp hfresh
        have hnew : env.step s.tid .newUuid s.receive = none := by
          simp [Env.step, Env.outcome, exec, Site.receive, ht']
        refine .of_eq ?_ ?_ <;>
          simp only [Env.serve, handle, migrateStart] <;>
          rw [Prog.call_bind, Prog.run_op_none _ hnew] <;> rfl
  | mmap id bulk => exact transfer_looked env abtio s _ (Or.inl rfl)
  | write id i offset data => exact transfer_looked env abtio s _ (Or.inr rfl)
  | end_ id => exact end_looked env abtio s id

/-- The only id that is drawn while a request is served is the one of this request. -/
theorem serve_issued (q : Request) (u : Uuid)
    (h : (env.serve abtio q s).2.provider.issuedTo u ≠ none) :
    s.provider.issuedTo u ≠ none ∨ u = env.uuid s.served := by
  have hrun := Prog.run_invariant (env.step s.tid)
    (I := fun s' => s'.served = s.served ∧ ∀ u, s'.provider.issuedTo u ≠ none →
      s.provider.issuedTo u ≠ none ∨ u = env.uuid s.served) ?_ (handle abtio q) s.receive
    ⟨rfl, fun _ => Or.inl⟩
  · exact hrun.2 u h
  · rintro o s₁ r s₂ ⟨hserved, hissued⟩ hstep
    obtain ⟨⟨r', p⟩, hx, heq⟩ := Option.map_eq_some_iff.mp hstep
    obtain ⟨rfl, rfl⟩ := Prod.mk.inj heq
    refine ⟨hserved, fun u hu => ?_⟩
    dsimp only at hu
    rw [(exec_effect hx).issuedTo] at hu
    cases o with
    | newUuid =>
        by_cases he : u = env.uuid s.served
        · exact Or.inr he
        · refine hissued u ?_
          have hne : u ≠ (env.outcome s₁ .newUuid).uuid := by
            rw [show (env.outcome s₁ .newUuid).uuid = env.uuid s₁.served from rfl, hserved]
            exact he
          simpa [Op.issuedTo, Function.update_of_ne hne] using hu
    | _ => exact hissued u hu

end Serve

/-! ### The table and the events -/

/-- Every event has the property `P` for the classes that are registered before it. -/
def Explained (P : (ClassKey → Option MigrationClass) → Event → Prop) (events : List Event) :
    Prop :=
  ∀ before e after, events = before ++ e :: after → P (registered before) e

theorem explained_nil {P : (ClassKey → Option MigrationClass) → Event → Prop} :
    Explained P [] := fun before e after h => by simp at h

theorem Explained.snoc {P : (ClassKey → Option MigrationClass) → Event → Prop}
    {events : List Event} {e : Event} (h : Explained P events) (he : P (registered events) e) :
    Explained P (events ++ [e]) := by
  intro before d after hsplit
  rcases List.eq_nil_or_concat after with rfl | ⟨rest, x, rfl⟩
  · obtain ⟨rfl, hde⟩ := List.append_inj' hsplit rfl
    obtain rfl := (List.cons.inj hde).1
    exact he
  · have hsplit : events ++ [e] = (before ++ d :: rest) ++ [x] := by
      rw [hsplit]
      simp
    exact h before d rest (List.append_inj' hsplit rfl).1

theorem registered_snoc (events : List Event) (e : Event) :
    registered (events ++ [e]) = e.update (registered events) := by
  simp [registered]

/-- The table has the registered classes, and perhaps null classes besides. -/
def TableOf (table : ClassKey → Option MigrationClass) (p : Provider) : Prop :=
  ∀ key, p.classes key = table key ∨ table key = none ∧ p.classes key = some .null

/-- Every id that has been drawn is the one of an earlier request. -/
def Drawn (env : Env) (s : Site) : Prop :=
  ∀ u, s.provider.issuedTo u ≠ none → ∃ n < s.served, env.uuid n = u

theorem Drawn.fresh {env : Env} {s : Site} (h : Drawn env s) (huuid : Function.Injective env.uuid) :
    s.provider.issuedTo (env.uuid s.served) = none := by
  by_contra hne
  obtain ⟨n, hn, heq⟩ := h _ hne
  rw [huuid heq] at hn
  exact Nat.lt_irrefl _ hn

theorem serve_drawn {env : Env} (abtio : Bool) {s : Site} (q : Request) (h : Drawn env s) :
    Drawn env (env.serve abtio q s).2 := by
  intro u hu
  have hserved : (env.serve abtio q s).2.served = s.served + 1 := rfl
  rw [hserved]
  rcases serve_issued env abtio s q u hu with hold | rfl
  · obtain ⟨n, hn, heq⟩ := h u hold
    exact ⟨n, by omega, heq⟩
  · exact ⟨s.served, Nat.lt_succ_self _, rfl⟩

/-! ### The administrative calls -/

section Admin
variable (env : Env) (s : Hosted)

/-- The provider with `klass` under `key` in its table. -/
def Hosted.setClass (s : Hosted) (key : ClassKey) (klass : Option MigrationClass) (e : Event) :
    Hosted :=
  ⟨{ s.site with
      provider :=
        { s.site.provider with classes := Function.update s.site.provider.classes key klass } },
    s.events ++ [e]⟩

/-- A step that changes nothing but the events. -/
def Hosted.note (s : Hosted) (e : Event) : Hosted := ⟨s.site, s.events ++ [e]⟩

@[simp] theorem note_site (e : Event) : (s.note e).site = s.site := rfl

@[simp] theorem note_events (e : Event) : (s.note e).events = s.events ++ [e] := rfl

@[simp] theorem setClass_events (key : ClassKey) (klass : Option MigrationClass) (e : Event) :
    (s.setClass key klass e).events = s.events ++ [e] := rfl

@[simp] theorem setClass_classes (key : ClassKey) (klass : Option MigrationClass) (e : Event) :
    (s.setClass key klass e).site.provider.classes =
      Function.update s.site.provider.classes key klass := rfl

/-- The ways of a registration. -/
inductive Registration (s : Hosted) (providerId : UInt16) (klass : MigrationClass) :
    Option Str → Hosted → Prop
  | nullName : Registration s providerId klass none
      (s.note (.register none providerId klass .errInvalidArg))
  | present (name : Str) (old : MigrationClass)
      (hold : s.site.provider.classes ⟨name, providerId⟩ = some old) :
      Registration s providerId klass (some name)
        (s.note (.register (some name) providerId klass .errClassExists))
  | accepted (name : Str) (hnew : s.site.provider.classes ⟨name, providerId⟩ = none) :
      Registration s providerId klass (some name)
        (s.setClass ⟨name, providerId⟩ (some klass)
          (.register (some name) providerId klass .success))

/-- The ways of a deregistration. -/
inductive Deregistration (s : Hosted) (providerId : UInt16) : Option Str → Hosted → Prop
  | nullName : Deregistration s providerId none
      (s.note (.deregister none providerId .errInvalidArg []))
  | absent (name : Str) (hnone : s.site.provider.classes ⟨name, providerId⟩ = none) :
      Deregistration s providerId (some name)
        (s.note (.deregister (some name) providerId .errUnknownClass []))
  | accepted (name : Str) (klass : MigrationClass)
      (hold : s.site.provider.classes ⟨name, providerId⟩ = some klass) :
      Deregistration s providerId (some name)
        (s.setClass ⟨name, providerId⟩ none
          (.deregister (some name) providerId .success klass.freeCall))

theorem step_registration (className : Option Str) (providerId : UInt16)
    (klass : MigrationClass) :
    Registration s providerId klass className
      (s.step env (.registerProviderMigrationClass className providerId klass)) := by
  cases className with
  | none => exact .nullName
  | some name =>
      cases hclass : s.site.provider.classes ⟨name, providerId⟩ with
      | none =>
          have hstep : s.step env (.registerProviderMigrationClass (some name) providerId klass) =
              s.setClass ⟨name, providerId⟩ (some klass)
                (.register (some name) providerId klass .success) := by
            simp [Hosted.step, remiProviderRegisterProviderMigrationClass, hclass, Hosted.admin,
              Hosted.setClass]
          rw [hstep]
          exact .accepted name hclass
      | some old =>
          have hstep : s.step env (.registerProviderMigrationClass (some name) providerId klass) =
              s.note (.register (some name) providerId klass .errClassExists) := by
            simp [Hosted.step, remiProviderRegisterProviderMigrationClass, hclass, Hosted.admin,
              Hosted.note]
          rw [hstep]
          exact .present name old hclass

theorem step_deregistration (className : Option Str) (providerId : UInt16) :
    Deregistration s providerId className
      (s.step env (.deregisterProviderMigrationClass className providerId)) := by
  cases className with
  | none => exact .nullName
  | some name =>
      cases hclass : s.site.provider.classes ⟨name, providerId⟩ with
      | none =>
          have hstep : s.step env (.deregisterProviderMigrationClass (some name) providerId) =
              s.note (.deregister (some name) providerId .errUnknownClass []) := by
            simp [Hosted.step, remiProviderDeregisterProviderMigrationClass, hclass,
              Hosted.admin, Hosted.note]
          rw [hstep]
          exact .absent name hclass
      | some klass =>
          have hstep : s.step env (.deregisterProviderMigrationClass (some name) providerId) =
              s.setClass ⟨name, providerId⟩ none
                (.deregister (some name) providerId .success klass.freeCall) := by
            simp [Hosted.step, remiProviderDeregisterProviderMigrationClass, hclass,
              Hosted.admin, Hosted.setClass]
          rw [hstep]
          exact .accepted name klass hclass

end Admin

/-- The rule for a step: a registration, a deregistration or a request. The calls without a
provider id are the ones with `UINT16_MAX`. -/
theorem step_rule {env : Env} {s : Hosted} {I : Hosted → Prop} (c : ProviderCall)
    (hregister : ∀ className providerId klass s', Registration s providerId klass className s' →
      I s')
    (hderegister : ∀ className providerId s', Deregistration s providerId className s' → I s')
    (hrequest : ∀ abtio q callbacks, c = .request abtio q →
      (∀ call ∈ callbacks, ∃ klass,
        s.site.provider.classes (classKey call.fileset) = some klass ∧ call.MadeFor klass) →
      I ⟨(env.serve abtio q s.site).2,
        s.events ++ [.request q (env.serve abtio q s.site).1 callbacks]⟩) :
    I (s.step env c) := by
  cases c with
  | registerMigrationClass className klass =>
      exact hregister _ _ _ _ (step_registration env s className uint16Max klass)
  | registerProviderMigrationClass className providerId klass =>
      exact hregister _ _ _ _ (step_registration env s className providerId klass)
  | deregisterMigrationClass className =>
      exact hderegister _ _ _ (step_deregistration env s className uint16Max)
  | deregisterProviderMigrationClass className providerId =>
      exact hderegister _ _ _ (step_deregistration env s className providerId)
  | request abtio q =>
      obtain ⟨new, hnew, hmade⟩ := (serve_looked env abtio s.site q).callbacks
      have hcallbacks : (env.serve abtio q s.site).2.provider.callbacks.take
          ((env.serve abtio q s.site).2.provider.callbacks.length -
            s.site.provider.callbacks.length) = new := by
        rw [hnew, List.length_append, Nat.add_sub_cancel, List.take_left]
      simp only [Hosted.step, hcallbacks]
      exact hrequest abtio q new rfl hmade

/-! ### The table is the history -/

/-- What an administrative call, or a `migrate_start`, answers about the classes `table`. -/
def Event.Agrees (table : ClassKey → Option MigrationClass) : Event → Prop
  | .register none _ _ ret => ret = .errInvalidArg
  | .register (some name) providerId _ ret =>
    ret = if (table ⟨name, providerId⟩).isSome then .errClassExists else .success
  | .deregister none _ ret _ => ret = .errInvalidArg
  | .deregister (some name) providerId ret _ =>
    ret = if (table ⟨name, providerId⟩).isSome then .success else .errUnknownClass
  | .request (.start fileset _ _) answer _ =>
    ∃ r, answer = some r ∧ (r.ret = .errUnknownClass ↔ table (classKey fileset) = none)
  | .request _ _ _ => True

/-- The table has exactly the registered classes, and every answer has been right about the
classes that were registered at the time. -/
structure Truthful (s : Hosted) : Prop where
  table : s.site.provider.classes = registered s.events
  answers : Explained Event.Agrees s.events

/-- The class of an operation that `migrate_end` finds without an error is registered. -/
def ClassKept (s : Hosted) : ProviderCall → Prop
  | .request _ (.end_ id) => ∀ op, s.site.provider.opInProgress id = some op →
      op.error = .success → (registered s.events (classKey op.fileset)).isSome
  | _ => True

theorem truthful_step {env : Env} (huuid : Function.Injective env.uuid) {s : Hosted}
    {c : ProviderCall} (hs : Truthful s ∧ Drawn env s.site) (hc : ClassKept s c) :
    Truthful (s.step env c) ∧ Drawn env (s.step env c).site := by
  obtain ⟨⟨htable, hanswers⟩, hdrawn⟩ := hs
  refine step_rule (I := fun s' => Truthful s' ∧ Drawn env s'.site) c ?_ ?_ ?_
  · intro className providerId klass s' hway
    cases hway with
    | nullName =>
        refine ⟨⟨?_, hanswers.snoc rfl⟩, hdrawn⟩
        rw [note_events, registered_snoc, note_site]
        exact htable
    | present name old hold =>
        refine ⟨⟨?_, hanswers.snoc ?_⟩, hdrawn⟩
        · rw [note_events, registered_snoc, note_site]
          simpa [Event.update] using htable
        · rw [htable] at hold
          simp [Event.Agrees, hold]
    | accepted name hnew =>
        refine ⟨⟨?_, hanswers.snoc ?_⟩, hdrawn⟩
        · rw [setClass_events, registered_snoc, setClass_classes]
          simp [Event.update, htable]
        · rw [htable] at hnew
          simp [Event.Agrees, hnew]
  · intro className providerId s' hway
    cases hway with
    | nullName =>
        refine ⟨⟨?_, hanswers.snoc rfl⟩, hdrawn⟩
        rw [note_events, registered_snoc, note_site]
        exact htable
    | absent name hnone =>
        refine ⟨⟨?_, hanswers.snoc ?_⟩, hdrawn⟩
        · rw [note_events, registered_snoc, note_site]
          simpa [Event.update] using htable
        · rw [htable] at hnone
          simp [Event.Agrees, hnone]
    | accepted name klass hold =>
        refine ⟨⟨?_, hanswers.snoc ?_⟩, hdrawn⟩
        · rw [setClass_events, registered_snoc, setClass_classes]
          simp [Event.update, htable]
        · rw [htable] at hold
          simp [Event.Agrees, hold]
  · rintro abtio q callbacks rfl -
    refine ⟨⟨?_, hanswers.snoc ?_⟩, serve_drawn abtio q hdrawn⟩
    · rw [registered_snoc]
      show (env.serve abtio q s.site).2.provider.classes = registered s.events
      rw [← htable]
      funext key
      rcases (serve_looked env abtio s.site q).classes key with
        hsame | ⟨hnone, -, id, op, rfl, hop, herror, rfl⟩
      · exact hsame
      · have hkept := hc op hop herror
        rw [← htable, hnone] at hkept
        cases hkept
    · cases q with
      | start fileset filesizes theModes =>
          obtain ⟨rest, s₁, ret, status, -, -, hanswer, hunknown, -⟩ := serve_start env abtio s.site
            fileset filesizes theModes (hdrawn.fresh huuid)
          refine ⟨_, hanswer, ?_⟩
          rw [← htable]
          exact hunknown
      | mmap | write | end_ => exact trivial

/-- In a run in which every `migrate_end` finds the class of its operation registered, the
table is what the registrations and deregistrations have made of it, and their answers and
those of `migrate_start` say so. -/
theorem truthful_of_classKept {env : Env} (huuid : Function.Injective env.uuid) {fs : Fs}
    {calls : List ProviderCall} {s : Hosted}
    (hrun : Run (Hosted.next env) ClassKept (.init fs) calls s) : Truthful s := by
  refine (hrun.invariant (I := fun s => Truthful s ∧ Drawn env s.site)
    ⟨⟨rfl, explained_nil⟩, fun u hu => absurd rfl hu⟩ ?_).1
  intro s c s' hs hc hnext
  obtain rfl := Option.some.inj hnext
  exact truthful_step huuid hs hc

/-- A class whose before-callback is function 0, and whose argument 5 is freed by function 7. -/
private def someClass : MigrationClass := ⟨some 0, none, some 7, some 5⟩

/-- The registration of the class of `oneFile`, and the start of a migration of it. -/
private def oneStart : List ProviderCall :=
  [.registerProviderMigrationClass (some ['c']) 0 someClass,
    .request false (.start oneFile [2] [0])]

/-- The end of this migration. -/
private def oneEnd : ProviderCall := .request false (.end_ 0)

/-- A migration that ends while its class is registered. -/
theorem truthful_oneMigration : ∃ s,
    Run (Hosted.next .succeed) ClassKept (.init .empty) (oneStart ++ [oneEnd]) s ∧
      s.events.length = 3 ∧ Truthful s := by
  have hstart : Run (Hosted.next .succeed) ClassKept (.init .empty) oneStart
      (oneStart.foldl (Hosted.step .succeed) (.init .empty)) :=
    .snoc (.snoc .nil trivial rfl) trivial rfl
  have hkey : ((oneStart.foldl (Hosted.step .succeed) (.init .empty)).site.provider.opInProgress
      0).map (fun op => classKey op.fileset) = some ⟨['c'], 0⟩ := by decide +kernel
  have hkept : ClassKept (oneStart.foldl (Hosted.step .succeed) (.init .empty)) oneEnd := by
    intro op hop _
    rw [hop] at hkey
    rw [show classKey op.fileset = ⟨['c'], 0⟩ from Option.some.inj hkey]
    decide +kernel
  have hend := hstart.snoc hkept rfl
  exact ⟨_, hend, by decide +kernel, truthful_of_classKept Function.injective_id hend⟩

/-- Any calls can be made one after the other. -/
theorem run_steps (env : Env) (s : Hosted) (calls : List ProviderCall) :
    Run (Hosted.next env) (fun _ _ => True) s calls (calls.foldl (Hosted.step env) s) := by
  induction calls generalizing s with
  | nil => exact .nil
  | cons c calls ih => exact .cons trivial rfl (ih _)

/-- The class is deregistered before the `migrate_end`, and is then registered again. -/
private def againRegistered : List ProviderCall :=
  oneStart ++ [.deregisterProviderMigrationClass (some ['c']) 0, oneEnd] ++
    [.registerProviderMigrationClass (some ['c']) 0 someClass]

/-- The `migrate_end` of an operation whose class has been deregistered puts its key into the
table, and the class cannot be registered again. -/
theorem not_truthful_deregistered : ∃ s,
    Run (Hosted.next .succeed) (fun _ _ => True) (.init .empty) againRegistered s ∧
      s.events.getLast? = some (.register (some ['c']) 0 someClass .errClassExists) ∧
      ¬ Truthful s := by
  refine ⟨_, run_steps .succeed (.init .empty) againRegistered, rfl, fun h => ?_⟩
  have hlast : Ret.errClassExists = if (registered _ ⟨['c'], 0⟩).isSome then Ret.errClassExists
      else Ret.success :=
    h.answers (againRegistered.dropLast.foldl (Hosted.step .succeed) (.init .empty)).events
      (.register (some ['c']) 0 someClass .errClassExists) [] rfl
  exact absurd hlast (by decide +kernel)

end Remi
