import Remi.Proofs.OneByOne
import Remi.Proofs.Serial
import Remi.Proofs.Renaming
import Remi.Server.Alone

/-!
# `Remi.Proofs.Replay`: one client that waits, as a provider of its own serves it

A run has the decisions of the world in its steps, and the provider of `Remi.Server.Sequential`
has them in its `Env`, by the number of the call. `Env.deciding` writes the decision of one step
into a world. An operation then ends in the same way in every world with the same past
(`Env.SamePast`).

`Replays` follows the handlers of a client that is alone and waits. In the worlds with the past
of `env`, the provider that serves the requests so far comes to the state of the run, with the
rest of the last handler before it. When that is over, the two have served the same
(`replayed`).
-/

set_option autoImplicit false

namespace Remi

open Remi.Lib

/-! ### What an operation asks of the world -/

/-- The worlds decide the same, as far as the operation asks for it. -/
structure Op.SameFor (o : Op) (w w' : Outcome) : Prop where
  io : o.sysCall ≠ none → w.io = w'.io
  uuid : o = .newUuid → w.uuid = w'.uuid
  callback : o.callsUser = true → w.callback = w'.callback

/-- The operation draws an id. -/
def Op.draws : Op → Bool
  | .newUuid => true
  | _ => false

section Asks
variable {o : Op} {w w' : Outcome} {t : Tid} {s s' : Provider} {r : Ans o}

theorem exec_same (h : o.SameFor w w') (t : Tid) (s : Provider) : exec t w o s = exec t w' o s := by
  cases o with
  | newUuid => simp only [exec, h.uuid rfl]
  | before callback uargs fileset | after id callback uargs => simp only [exec, h.callback rfl]
  | access | mkdir | openTrunc | ftruncate | mmap | pull | msync | pwrite | abtIoPwrite =>
      simp only [exec, h.io (Option.some_ne_none _)]
  | _ => rfl

/-- The callbacks are counted. -/
theorem calls_step (hx : exec t w o s = some (r, s')) :
    s'.calls = s.calls + o.callsUser.toNat := by
  have heff := (exec_effect hx).calls
  rw [heff]
  cases o with
  | after id callback uargs =>
      obtain ⟨op, hop, -⟩ := Option.map_eq_some_iff.mp hx
      simp [Op.callbacks, hop, Op.callsUser]
  | _ => rfl

theorem sysCall_rename (ρ : Equiv.Perm Nat) (o : Op) : (o.rename ρ).sysCall = o.sysCall := by
  cases o <;> rfl

theorem callsUser_rename (ρ : Equiv.Perm Nat) (o : Op) :
    (o.rename ρ).callsUser = o.callsUser := by
  cases o <;> rfl

theorem draws_rename (ρ : Equiv.Perm Nat) (o : Op) : (o.rename ρ).draws = o.draws := by
  cases o <;> rfl

end Asks

/-! ### Only the first operation of a handler draws an id -/

/-- No operation of the program draws an id. -/
abbrev DrawsNone {α : Type} (p : Handler α) : Prop := p.Issues fun o => o.draws = false

/-- A handler draws an id in its first operation or never. -/
theorem handle_draws (abtio : Bool) (q : Request) :
    DrawsNone (handle abtio q) ∨
      ∃ k, handle abtio q = .op .newUuid k ∧ ∀ id, DrawsNone (k id) := by
  -- The discipline lets a handler draw one id, and only that of a `migrate_start`.
  have hrest : ∀ {g : Ghost} {p : Handler Unit}, p.Obeys discipline (fun g _ => g.Done) g →
      g.req.kind ≠ .start ∨ g.drawn ≠ none → DrawsNone p := by
    intro g p hobeys hg
    refine hobeys.issues (I := fun g => g.req.kind ≠ .start ∨ g.drawn ≠ none) hg ?_ ?_
    · intro g o hg hallow
      cases o with
      | newUuid =>
          rcases hg with hkind | hdrawn
          · exact absurd hallow.1 hkind
          · exact absurd hallow.2 hdrawn
      | _ => rfl
    · intro g o r hg
      cases o with
      | newUuid => exact Or.inr (Option.some_ne_none r)
      | _ => exact hg
  have hfollows := handle_follows abtio q
  cases q with
  | start fileset filesizes theModes =>
      exact Or.inr ⟨_, rfl, fun id => hrest (hfollows.2 id _ rfl) (Or.inr (Option.some_ne_none id))⟩
  | mmap | write | end_ => exact Or.inl (hrest hfollows (Or.inl nofun))

/-! ### The world that a run has made -/

/-- The rest of a handler, with the request counted behind it. -/
def Env.finish (env : Env) (p : Handler Unit) (s : Site) : Site :=
  { (p.run (env.step s.tid) s).2 with served := s.served + 1 }

/-- The state behind an operation that ends in the state `s'` of the provider. -/
def Site.stepped (s : Site) (o : Op) (s' : Provider) : Site :=
  { s with
    provider := s'
    made :=
      match o.sysCall with
      | some call => Function.update s.made call (s.made call + 1)
      | none => s.made }

/-- The world `env`, with `w` as its decision in the next operation. -/
def Env.deciding (env : Env) (s : Site) (o : Op) (w : Outcome) : Env where
  io call i := if o.sysCall = some call ∧ i = s.made call then w.io else env.io call i
  uuid i := if o.draws = true ∧ i = s.served then w.uuid else env.uuid i
  callback i fs :=
    if o.callsUser = true ∧ i = s.provider.calls then w.callback else env.callback i fs

/-- The worlds have decided the same in the calls so far, and for the first `drawn` ids. -/
structure Env.SamePast (env env' : Env) (s : Site) (drawn : Nat) : Prop where
  io : ∀ call, ∀ i < s.made call, env'.io call i = env.io call i
  uuid : ∀ i < drawn, env'.uuid i = env.uuid i
  callback : ∀ i < s.provider.calls, env'.callback i = env.callback i

section Past
variable {env env' : Env} {s : Site} {drawn : Nat} {o : Op} {w : Outcome} {r : Ans o}
  {s' : Provider} {t : Tid}

theorem made_stepped (s : Site) (o : Op) (s' : Provider) (call : SysCall) :
    s.made call ≤ (s.stepped o s').made call ∧
      (o.sysCall = some call → (s.stepped o s').made call = s.made call + 1) := by
  unfold Site.stepped
  cases hcall : o.sysCall with
  | none => exact ⟨Nat.le_refl _, nofun⟩
  | some call' =>
      by_cases he : call = call'
      · subst he
        simp
      · simp [Function.update_of_ne he, Ne.symm he]

/-- In a world with the past of `env` and `w` behind it, the operation does what it does where the
world decides `w`. -/
theorem Env.SamePast.step (hx : exec t w o s.provider = some (r, s'))
    (hdrawn : o.draws = true → drawn = s.served)
    (h : (env.deciding s o w).SamePast env' (s.stepped o s')
      (if o.draws then s.served + 1 else drawn)) :
    env.SamePast env' s drawn ∧ env'.step t o s = some (r, s.stepped o s') := by
  have hcalls := calls_step hx
  have hpast : env.SamePast env' s drawn := by
    refine ⟨fun call i hi => ?_, fun i hi => ?_, fun i hi => ?_⟩
    · rw [h.io call i (by have := (made_stepped s o s' call).1; omega)]
      exact if_neg fun he => absurd he.2 (Nat.ne_of_lt hi)
    · rw [h.uuid i (by split <;> [have := hdrawn ‹_›; skip] <;> omega)]
      exact if_neg fun he => absurd he.2 (by have := hdrawn he.1; omega)
    · rw [h.callback i (by show i < s'.calls; omega)]
      funext fs
      exact if_neg fun he => absurd he.2 (Nat.ne_of_lt hi)
  refine ⟨hpast, ?_⟩
  have hsame : o.SameFor (env'.outcome s o) w := by
    refine ⟨fun hcall => ?_, fun ho => ?_, fun ho => ?_⟩
    · obtain ⟨call, hcall⟩ := Option.ne_none_iff_exists'.mp hcall
      simp only [Env.outcome, hcall]
      rw [h.io call _ (by have := (made_stepped s o s' call).2 hcall; omega)]
      exact if_pos ⟨hcall, rfl⟩
    · subst ho
      show env'.uuid s.served = w.uuid
      rw [h.uuid _ (by simp [Op.draws])]
      exact if_pos ⟨rfl, rfl⟩
    · show env'.callback s.provider.calls s.provider.fs = w.callback
      rw [h.callback _ (by show _ < s'.calls; simp [hcalls, ho])]
      exact if_pos ⟨ho, rfl⟩
  simp only [Env.step, exec_same hsame, hx, Option.map_some]
  rfl

end Past

/-! ### The requests of one client, one after the other -/

theorem serveAll_snoc (env : Env) (abtio : Bool) (qs : List Request) (q : Request) (s : Site) :
    env.serveAll abtio (qs ++ [q]) s = (env.serve abtio q (env.serveAll abtio qs s)).2 := by
  induction qs generalizing s with
  | nil => rfl
  | cons q' rest ih => exact ih _

/-- In the worlds with the past of `env`, the provider that serves `qs` comes to `s`. -/
structure Served (abtio : Bool) (s₀ : Site) (qs : List Request) (env : Env) (s : Site) : Prop where
  length : qs.length = s.served
  leads : ∀ env', env.SamePast env' s s.served → env'.serveAll abtio qs s₀ = s

/-- In the worlds with the past of `env`, the provider that serves `qs` comes to `s`, with `p` as
the rest of the last handler. `drawn` ids have been drawn. -/
structure Replays (abtio : Bool) (s₀ : Site) (qs : List Request) (env : Env) (drawn : Nat)
    (s : Site) (p : Handler Unit) : Prop where
  length : qs.length = s.served + 1
  bound : drawn ≤ s.served + 1
  draws : DrawsNone p ∨ drawn = s.served ∧ ∃ k, p = .op .newUuid k ∧ ∀ id, DrawsNone (k id)
  leads : ∀ env', env.SamePast env' s drawn → env'.serveAll abtio qs s₀ = env'.finish p s

section Replays
variable {abtio : Bool} {s₀ s : Site} {qs : List Request} {env : Env} {drawn : Nat}
  {p : Handler Unit}

theorem Served.init (abtio : Bool) (env : Env) (hs : s.served = 0) : Served abtio s [] env s :=
  ⟨hs.symm, fun _ _ => rfl⟩

/-- A new request is served from its handler on. -/
theorem Served.spawn (h : Served abtio s₀ qs env s) (hnone : s.provider.responses s.tid = none)
    (q : Request) : Replays abtio s₀ (qs ++ [q]) env s.served s (handle abtio q) where
  length := by rw [List.length_append, List.length_singleton, h.length]
  bound := Nat.le_succ _
  draws := by
    rcases handle_draws abtio q with hnone | ⟨k, hk, hrest⟩
    · exact Or.inl hnone
    · exact Or.inr ⟨rfl, k, hk, hrest⟩
  leads env' hpast := by
    have hreceive : s.receive = s := by
      show { s with provider := { s.provider with
        responses := Function.update s.provider.responses s.tid none } } = s
      rw [← hnone, Function.update_eq_self]
    rw [serveAll_snoc, h.leads env' hpast]
    show env'.finish (handle abtio q) s.receive = _
    rw [hreceive]

/-- One operation of the last handler. -/
theorem Replays.step {o : Op} {k : Ans o → Handler Unit} {r : Ans o} {s' : Provider} {w : Outcome}
    (h : Replays abtio s₀ qs env drawn s (.op o k))
    (hx : exec s.tid w o s.provider = some (r, s')) :
    Replays abtio s₀ qs (env.deciding s o w) (if o.draws then s.served + 1 else drawn)
      (s.stepped o s') (k r) := by
  -- An id is drawn by the first operation, and by no other.
  have hdraws : (o.draws = true → drawn = s.served) ∧ DrawsNone (k r) := by
    rcases h.draws with hnone | ⟨hdrawn, k', hk', hrest⟩
    · exact ⟨fun ho => absurd (hnone.1.symm.trans ho) (by decide), hnone.2 r⟩
    · obtain ⟨rfl, hk⟩ := Prog.op.inj hk'
      obtain rfl := eq_of_heq hk
      exact ⟨fun _ => hdrawn, hrest r⟩
  refine ⟨h.length, ?_, Or.inl hdraws.2, fun env' hpast => ?_⟩
  · show (if o.draws then s.served + 1 else drawn) ≤ s.served + 1
    split
    · exact Nat.le_refl _
    · exact h.bound
  · obtain ⟨hbefore, hstep⟩ := hpast.step hx hdraws.1
    rw [h.leads env' hbefore]
    show { ((Prog.op o k).run (env'.step s.tid) s).2 with served := s.served + 1 } = _
    rw [Prog.run_op_some _ hstep]
    rfl

/-- The last handler is over. -/
theorem Replays.over (h : Replays abtio s₀ qs env drawn s p) (hover : Over p) :
    Served abtio s₀ qs env { s with served := s.served + 1 } where
  length := h.length
  leads env' hpast := by
    have hbefore : env.SamePast env' s drawn :=
      ⟨hpast.io, fun i hi => hpast.uuid i (Nat.lt_of_lt_of_le hi h.bound), hpast.callback⟩
    rw [h.leads env' hbefore, Env.finish]
    cases p with
    | pure a => rfl
    | op o k =>
        have hstuck : env'.step s.tid o s = none := by
          simp only [Env.step, exec_throws hover, Option.map_none]
        rw [Prog.run_op_none _ hstuck]

end Replays

/-! ### A client that is alone -/

/-- The condition on a step that the client `m` is alone, follows the protocol and waits. -/
def System.Solo (calls : SysCall → Io → Prop) (callbacks : (Fileset → Int × Fileset) → Prop)
    (m : Nat) (P : System) (l : Step) : Prop :=
  P.Protocol l ∧ P.Serial l ∧ l.thread.client = m ∧ P.Outcomes calls callbacks m l

/-- A provider that serves the requests of the client `m` in the world `env` is where the last
handler of the client is in `P`. It knows the client by the number 0. -/
structure Replayed (abtio : Bool) (s₀ : Site) (m : Nat) (P : System) (qs : List Request)
    (env : Env) (drawn : Nat) (s : Site) (q : Request) (p p' : Handler Unit) : Prop where
  requests : ∀ n, qs[n]? = (P.thread ⟨m, n⟩).map (·.req)
  provider : s.provider = P.shared.rename (Equiv.swap m 0)
  thread : P.thread ⟨m, s.served⟩ = some ⟨q, p⟩
  renamed : RenamedBy (Equiv.swap m 0) Ended p p'
  idle : P.Idle ⟨m, s.served⟩
  replays : Replays abtio s₀ qs env drawn s p'

/-- The same, where no handler of the client is at work. -/
structure Resting (abtio : Bool) (s₀ : Site) (m : Nat) (P : System) (qs : List Request)
    (env : Env) (s : Site) : Prop where
  requests : ∀ n, qs[n]? = (P.thread ⟨m, n⟩).map (·.req)
  provider : s.provider = P.shared.rename (Equiv.swap m 0)
  served : Served abtio s₀ qs env s

section Solo
variable {abtio : Bool} {m : Nat} {P : System} {qs : List Request} {env : Env} {drawn : Nat}
  {s₀ s : Site} {q : Request} {p p' : Handler Unit}
  {calls : SysCall → Io → Prop} {callbacks : (Fileset → Int × Fileset) → Prop}

theorem Env.Meets.deciding {o : Op} {w : Outcome} (h : env.Meets calls callbacks)
    (hw : o.Meets calls callbacks w) (s : Site) :
    (env.deciding s o w).Meets calls callbacks := by
  refine ⟨fun call i => ?_, fun i fs => ?_⟩
  · show calls call (if o.sysCall = some call ∧ i = s.made call then w.io else env.io call i)
    split
    · exact hw.1 call (by simp_all)
    · exact h.io call i
  · show callbacks (if o.callsUser = true ∧ i = s.provider.calls then w.callback
      else env.callback i fs)
    split
    · exact hw.2 (by simp_all)
    · exact h.callback i fs

theorem throws_rename (ρ : Equiv.Perm Nat) (o : Op) : (o.rename ρ).throws = o.throws := by
  cases o with
  | expose segs => simp [Op.throws, Op.rename, renameSegs]
  | pull remote segs => simp only [Op.throws, Op.rename, renameSegs_mapped]
  | _ => rfl

theorem over_renamed {ρ : Equiv.Perm Nat} (h : RenamedBy ρ Ended p p') (hover : Over p) :
    Over p' := by
  cases p with
  | pure a =>
      obtain ⟨b, rfl, -⟩ := h
      trivial
  | op o k =>
      obtain ⟨k', rfl, -⟩ := h
      exact (throws_rename ρ o).trans hover

/-- A step of the client is one of its last handler. -/
theorem Replayed.step (h : Replayed abtio s₀ m P qs env drawn s q p p') {n : Nat} {w : Outcome}
    {q' : Request} {o : Op} {k : Ans o → Handler Unit} {r : Ans o} {s' : Provider}
    (ht : P.thread ⟨m, n⟩ = some ⟨q', .op o k⟩) (hx : exec ⟨m, n⟩ w o P.shared = some (r, s')) :
    ∃ drawn₁ s₁ p₁, Replayed abtio s₀ m
      ⟨s', Function.update P.thread ⟨m, n⟩ (some ⟨q', k r⟩)⟩ qs
      (env.deciding s (o.rename (Equiv.swap m 0)) w) drawn₁ s₁ q' (k r) p₁ := by
  -- The handlers before the last one have returned, and there are none behind it.
  obtain rfl : n = s.served := by
    rcases Nat.lt_trichotomy n s.served with hlt | heq | hgt
    · exact absurd (h.idle n hlt _ _ ht) nofun
    · exact heq
    · have hnone := h.requests n
      have hlength := h.replays.length
      rw [ht, List.getElem?_eq_none (by omega)] at hnone
      cases hnone
  obtain ⟨rfl, rfl⟩ := Thread.mk.inj (Option.some.inj (ht.symm.trans h.thread))
  obtain ⟨k', rfl, hk⟩ := h.renamed
  have htid : (⟨m, s.served⟩ : Tid).rename (Equiv.swap m 0) = s.tid := by
    show (⟨Equiv.swap m 0 m, s.served⟩ : Tid) = ⟨0, s.served⟩
    rw [Equiv.swap_apply_left]
  have hx' : exec s.tid w (o.rename (Equiv.swap m 0)) s.provider =
      some (o.renameAns (Equiv.swap m 0) r, s'.rename (Equiv.swap m 0)) := by
    rw [h.provider, ← htid, exec_rename, hx, Option.map_some]
  refine ⟨_, s.stepped _ (s'.rename (Equiv.swap m 0)), _, ?_, rfl, Function.update_self _ _ _,
    hk r, System.idle_self.mpr h.idle, h.replays.step hx'⟩
  intro n
  rw [h.requests n]
  by_cases he : (⟨m, n⟩ : Tid) = ⟨m, s.served⟩
  · simp only [he, Function.update_self, ht, Option.map_some]
  · simp only [Function.update_of_ne he]

/-- The last handler is over. -/
theorem Replayed.over (h : Replayed abtio s₀ m P qs env drawn s q p p') (hover : Over p) :
    Resting abtio s₀ m P qs env { s with served := s.served + 1 } :=
  ⟨h.requests, h.provider, h.replays.over (over_renamed h.renamed hover)⟩

/-- The next request of the client. -/
theorem Resting.spawn (h : Resting abtio s₀ m P qs env s) {n : Nat} (hn : n = qs.length)
    (hidle : P.Idle ⟨m, n⟩) (hnone : P.shared.responses ⟨m, n⟩ = none) (q : Request) :
    Replayed abtio s₀ m
      { P with thread := Function.update P.thread ⟨m, n⟩ (some ⟨q, handle abtio q⟩) } (qs ++ [q])
      env s.served s q (handle abtio q) (handle abtio q) := by
  obtain rfl : n = s.served := hn.trans h.served.length
  refine ⟨fun i => ?_, h.provider, Function.update_self _ _ _, handle_renamed _ abtio q,
    System.idle_self.mpr hidle, h.served.spawn ?_ q⟩
  · dsimp only
    by_cases he : i = s.served
    · subst he
      rw [hn, List.getElem?_concat_length, ← hn, Function.update_self]
      rfl
    · rw [Function.update_of_ne (fun ht => he (Tid.mk.inj ht).2), ← h.requests i]
      by_cases hlt : i < qs.length
      · exact List.getElem?_append_left hlt
      · rw [List.getElem?_eq_none (Nat.le_of_not_lt hlt), List.getElem?_eq_none]
        rw [List.length_append, List.length_singleton]
        omega
  · rw [h.provider]
    show P.shared.responses ⟨Equiv.swap m 0 0, s.served⟩ = none
    rw [Equiv.swap_apply_right]
    exact hnone

/-- A client sends its requests without gaps. -/
theorem next_request {abtio : Bool} {classes : ClassKey → Option MigrationClass} {fs : Fs}
    {ls : List Step} {n : Nat} (hrequests : ∀ n, qs[n]? = (P.thread ⟨m, n⟩).map (·.req))
    (h : System.Reaches abtio System.Protocol (.init classes fs) ls P)
    (hnone : P.thread ⟨m, n⟩ = none) (hpermit : P.Permits ⟨m, n⟩ q) :
    n = qs.length ∧ P.shared.responses ⟨m, n⟩ = none := by
  have hn : System.next abtio P (.spawn ⟨m, n⟩ q) = some
      { P with thread := Function.update P.thread ⟨m, n⟩ (some ⟨q, handle abtio q⟩) } := by
    simp only [System.next, Pool.next, hnone]
  obtain ⟨G, -, hJ⟩ := latch_run abtio classes fs h
  obtain ⟨G', -, hJ'⟩ := latch_run abtio classes fs
    (.snoc h (show P.Protocol (.spawn ⟨m, n⟩ q) from hpermit) hn)
  have hle : qs.length ≤ n := by
    have hend := hrequests n
    rw [hnone] at hend
    exact List.getElem?_eq_none_iff.mp hend
  refine ⟨Nat.le_antisymm (Nat.le_of_not_lt fun hlt => ?_) hle, ?_⟩
  · -- The request behind the last one would not be there.
    have hthere := hJ'.started (t := ⟨m, n⟩) (Function.update_self _ _ _) hlt
    have hne : (⟨m, qs.length⟩ : Tid) ≠ ⟨m, n⟩ := fun he => Nat.ne_of_lt hlt (Tid.mk.inj he).2
    have hgap := hrequests qs.length
    rw [List.getElem?_eq_none (Nat.le_refl _)] at hgap
    exact hthere ((Function.update_of_ne hne _ _).trans (Option.map_eq_none_iff.mp hgap.symm))
  · rw [hJ.answer, hJ.absent _ hnone]
    rfl

/-- In every state of the run there is a world in which a provider of its own is where the client
is. -/
theorem replayed_run (hfull : ∀ call, calls call .full)
    (hagree : callbacks fun fileset => (0, fileset)) {classes : ClassKey → Option MigrationClass}
    {fs : Fs} {ls : List Step}
    (h : System.Reaches abtio (System.Solo calls callbacks m) (.init classes fs) ls P) :
    ∃ (qs : List Request) (env : Env), env.Meets calls callbacks ∧
      (qs = [] ∧ Resting abtio (.init classes fs) m P qs env (.init classes fs) ∨
        ∃ drawn s q p p', Replayed abtio (.init classes fs) m P qs env drawn s q p p') := by
  induction h with
  | nil =>
      refine ⟨[], .succeed, ⟨fun call _ => hfull call, fun _ _ => hagree⟩, Or.inl ⟨rfl, ?_⟩⟩
      exact ⟨fun _ => rfl, rfl, .init abtio _ rfl⟩
  | @snoc ls P P' l hrun hC hn ih =>
      obtain ⟨qs, env, hmeets, hstate⟩ := ih
      obtain ⟨hprotocol, hserial, hclient, houtcomes⟩ := hC
      cases l with
      | spawn t q =>
          obtain ⟨hnone, rfl⟩ := Pool.next_spawn hn
          obtain ⟨m', n⟩ := t
          obtain rfl : m' = m := hclient
          -- All handlers before this one have returned.
          have hresting : ∃ s, Resting abtio (.init classes fs) m' P qs env s := by
            rcases hstate with ⟨-, hresting⟩ | ⟨drawn, s, q', p, p', hreplayed⟩
            · exact ⟨_, hresting⟩
            · have hlt : s.served < n := by
                have hthere := hreplayed.thread
                have hlength := hreplayed.replays.length
                by_contra hge
                rcases Nat.eq_or_lt_of_le (Nat.le_of_not_lt hge) with rfl | hgt
                · rw [hnone] at hthere
                  cases hthere
                · have hend := hreplayed.requests n
                  rw [hnone, List.getElem?_eq_getElem (by omega)] at hend
                  cases hend
              have hp := hserial s.served hlt _ _ hreplayed.thread
              exact ⟨_, hreplayed.over (hp ▸ trivial)⟩
          obtain ⟨s, hresting⟩ := hresting
          obtain ⟨hlength, hresponse⟩ := next_request hresting.requests
            (hrun.weaken fun _ _ hC => hC.1) hnone hprotocol
          exact ⟨_, env, hmeets, Or.inr ⟨_, _, _, _, _, hresting.spawn hlength hserial hresponse q⟩⟩
      | step t w =>
          obtain ⟨q, o, k, r, s', ht, hx, rfl⟩ := Pool.next_step hn
          obtain ⟨m', n⟩ := t
          obtain rfl : m' = m := hclient
          have hw : o.Meets calls callbacks w :=
            houtcomes rfl o (by simp only [System.pending, ht])
          rcases hstate with ⟨rfl, hresting⟩ | ⟨drawn, s, q', p, p', hreplayed⟩
          · have hempty := hresting.requests n
            rw [ht] at hempty
            cases hempty
          · obtain ⟨drawn₁, s₁, p₁, hnext⟩ := hreplayed.step ht hx
            refine ⟨qs, _, hmeets.deciding ?_ s, Or.inr ⟨_, _, _, _, _, hnext⟩⟩
            exact ⟨fun call hcall => hw.1 call (by rwa [sysCall_rename] at hcall),
              fun ho => hw.2 (by rwa [callsUser_rename] at ho)⟩

/-- When the handlers of a client that is alone are over, a provider that serves its requests in
some world has come to the same state. It knows the client by the number 0. -/
theorem replayed (hfull : ∀ call, calls call .full)
    (hagree : callbacks fun fileset => (0, fileset)) {classes : ClassKey → Option MigrationClass}
    {fs : Fs} {ls : List Step}
    (h : System.Reaches abtio (System.Solo calls callbacks m) (.init classes fs) ls P)
    (hover : ∀ n q p, P.thread ⟨m, n⟩ = some ⟨q, p⟩ → Over p) :
    ∃ (env : Env) (qs : List Request), env.Meets calls callbacks ∧
      (∀ n, qs[n]? = (P.thread ⟨m, n⟩).map (·.req)) ∧
      (env.serveAll abtio qs (.init classes fs)).provider =
        P.shared.rename (Equiv.swap m 0) := by
  obtain ⟨qs, env, hmeets, hstate⟩ := replayed_run hfull hagree h
  have hresting : ∃ s, Resting abtio (.init classes fs) m P qs env s := by
    rcases hstate with ⟨-, hresting⟩ | ⟨drawn, s, q, p, p', hreplayed⟩
    · exact ⟨_, hresting⟩
    · exact ⟨_, hreplayed.over (hover _ _ _ hreplayed.thread)⟩
  obtain ⟨s, hresting⟩ := hresting
  refine ⟨env, qs, hmeets, hresting.requests, ?_⟩
  rw [hresting.served.leads env ⟨fun _ _ _ => rfl, fun _ _ => rfl, fun _ _ => rfl⟩,
    hresting.provider]

end Solo

end Remi
