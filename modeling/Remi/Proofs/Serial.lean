import Remi.Proofs.EarlyResponse
import Remi.Proofs.Issues
import Remi.Server.Serial
import Remi.Lib.Simulation

/-!
# `Remi.Proofs.Serial`: the early answer cannot be seen

`migrate_write` answers before it writes, so the client's next request can arrive while the
handler is still at work. `serializable` says that this makes no difference to what is on the
provider: each state that protocol-following clients lead to is reached as well, up to handlers
that have only looked up their record, by clients that wait until their handlers have returned.

The handler that has answered early holds the mutex of its record until it returns. The handler
of the next request therefore gets no further than to the lock, and what it has done until then
is to find a record that is still there when the lock is free. The simulation leaves such a
handler out (it is `Late`), and lets it catch up when the earlier one returns.
-/

set_option autoImplicit false

namespace Remi

open Remi.Lib

/-! ### The operations behind an answer -/

/-- A program that issues only what is allowed behind an answer once it has answered. -/
abbrev Behaves {α : Type} (p : Handler α) (g : Ghost) : Prop :=
  p.Obeys (.computed Ghost.AllowsBehind Ghost.after fun _ => True) (fun _ _ => True) g

section Behind
variable {α β : Type} {g : Ghost}

theorem after_unanswered {o : Op} {r : Ans o} (ho : o.responds = false) (hg : g.answer = none) :
    (g.after o r).answer = none := by
  cases o with
  | respond a => cases ho
  | _ => exact hg

/-- The rule for one operation before the answer. -/
theorem behaves_issue {o : Op} {f : Ans o → Handler β} (hg : g.answer = none)
    (ho : o.responds = false) (hf : ∀ r g', g'.answer = none → Behaves (f r) g') :
    Behaves (issue o >>= f) g :=
  Prog.obeys_call (fun h => absurd hg h) fun r => hf r _ (after_unanswered ho hg)

/-- The rule for a part before the answer. -/
theorem behaves_part {p : Handler α} {f : α → Handler β} (hg : g.answer = none)
    (hp : p.Issues fun o => o.responds = false)
    (hf : ∀ a g', g'.answer = none → Behaves (f a) g') : Behaves (p >>= f) g := by
  refine Prog.obeys_bind (Q := fun g' _ => g'.answer = none) ?_ fun g' a hg' => hf a g' hg'
  exact hp.obeys_keep hg (fun g' o hg' _ h => absurd hg' h)
    fun g' o r hg' ho => after_unanswered ho hg'

/-- The rule for the answer with what is behind it. -/
theorem behaves_respond {a : Response} {f : Unit → Handler β} (hg : g.answer = none)
    (hf : (f ()).Issues fun o => o.closing = true) :
    Behaves (issue (.respond a) >>= f) g :=
  Prog.obeys_call (fun h => absurd hg h) fun _ => hf.obeys (fun _ _ ho _ => ho) _

/-- The rule for an answer that is the last operation. -/
theorem behaves_last {a : Response} (hg : g.answer = none) :
    Behaves (issue (.respond a)) g :=
  Prog.obeys_last (fun h => absurd hg h) fun _ => trivial

theorem migrateStart_behaves (fileset : Fileset) (filesizes theModes : List Nat)
    (hg : g.answer = none) : Behaves (migrateStart fileset filesizes theModes) g := by
  refine behaves_issue hg rfl fun id g hg => behaves_issue hg rfl fun known g hg => ?_
  split
  · exact behaves_last hg
  · refine behaves_part hg (anyExists_issues (fun _ => rfl) _ _) fun present g hg => ?_
    split
    · exact behaves_last hg
    · refine behaves_issue hg rfl fun klass g hg => ?_
      refine behaves_part hg (callBefore_issues (fun _ _ _ => rfl) _ _) fun called g hg => ?_
      obtain ⟨status, fileset'⟩ := called
      dsimp only
      split
      · exact behaves_last hg
      · refine behaves_part hg (openFiles_issues (fun _ => rfl) (fun _ _ => rfl) (fun _ _ => rfl)
          (fun _ => rfl) _ _ _ _ _) fun fds g hg => ?_
        cases fds with
        | none => exact behaves_last hg
        | some fds => exact behaves_issue hg rfl fun _ g hg => behaves_last hg

theorem mmapFailed_behaves (id : Uuid) (theData : List (Addr × Nat)) (hg : g.answer = none) :
    Behaves (mmapFailed id theData) g :=
  behaves_part hg (unmapEach_issues (fun _ => rfl) _) fun _ _ hg =>
    behaves_issue hg rfl fun _ _ hg => behaves_last hg

theorem migrateMmap_behaves (id : Uuid) (remoteBulk : Option Bulk) (hg : g.answer = none) :
    Behaves (migrateMmap id remoteBulk) g := by
  refine behaves_issue hg rfl fun known g hg => ?_
  split
  · exact behaves_last hg
  · refine behaves_issue hg rfl fun op g hg => ?_
    refine behaves_part hg (mapFiles_issued id (fun _ => rfl) (fun _ _ => rfl) (fun _ _ => rfl)
      _ _ _) fun mapped g hg => ?_
    obtain ⟨mapped, theData⟩ := mapped
    dsimp only
    split
    · exact mmapFailed_behaves id theData hg
    · refine behaves_issue hg rfl fun _ g hg => behaves_issue hg rfl fun transferred g hg => ?_
      split
      · exact behaves_last hg
      · refine behaves_part hg (syncEach_issues (fun _ => rfl) _) fun synced g hg => ?_
        split
        · exact mmapFailed_behaves id theData hg
        · exact behaves_part hg (unmapEach_issues (fun _ => rfl) _) fun _ _ hg => behaves_last hg

theorem writeRefused_behaves (id : Uuid) (hg : g.answer = none) : Behaves (writeRefused id) g :=
  behaves_issue hg rfl fun _ _ hg => behaves_respond hg (Prog.issues_last rfl)

theorem migrateWrite_behaves (abtio : Bool) (id : Uuid) (fileNumber writeOffset : Nat)
    (data : Bytes) (hg : g.answer = none) :
    Behaves (migrateWrite abtio id fileNumber writeOffset data) g := by
  refine behaves_issue hg rfl fun known g hg => ?_
  split
  · exact behaves_last hg
  · refine behaves_issue hg rfl fun _ g hg => behaves_issue hg rfl fun op g hg => ?_
    split
    · exact writeRefused_behaves id hg
    · refine behaves_issue hg rfl fun size g hg => ?_
      split
      · exact writeRefused_behaves id hg
      · refine behaves_respond hg ?_
        -- The write, and what becomes of its result.
        have hwritten : ∀ s : Int, (if s ≠ data.length then do
              issue (.setError id .errIo)
              issue (.unlock id)
            else issue (.unlock id) : Handler Unit).Issues fun o => o.closing = true := by
          intro s
          split
          · exact Prog.issues_call rfl fun _ => Prog.issues_last rfl
          · exact Prog.issues_last rfl
        cases abtio
        · exact Prog.issues_call rfl hwritten
        · exact Prog.issues_call rfl hwritten

theorem migrateEnd_behaves (id : Uuid) (hg : g.answer = none) : Behaves (migrateEnd id) g := by
  refine behaves_issue hg rfl fun known g hg => ?_
  split
  · exact behaves_last hg
  · refine behaves_issue hg rfl fun _ g hg => behaves_issue hg rfl fun _ g hg => ?_
    refine behaves_issue hg rfl fun op g hg => ?_
    split
    · exact behaves_respond hg (Prog.issues_call rfl fun _ => Prog.issues_last rfl)
    · refine behaves_issue hg rfl fun op' g hg => behaves_issue hg rfl fun klass g hg => ?_
      refine behaves_part hg (callAfter_issues id (fun _ _ => rfl) _) fun status g hg => ?_
      exact behaves_respond hg (Prog.issues_call rfl fun _ => Prog.issues_last rfl)

end Behind

/-- Every handler keeps to the strict discipline. -/
theorem handle_strict (abtio : Bool) (q : Request) :
    (handle abtio q).Obeys strict (fun g _ => g.Done) (.init q) := by
  have hbehind : Behaves (handle abtio q) (.init q) := by
    cases q with
    | start fileset filesizes theModes => exact migrateStart_behaves fileset filesizes theModes rfl
    | mmap id remoteBulk => exact migrateMmap_behaves id remoteBulk rfl
    | write id fileNumber writeOffset data =>
        exact migrateWrite_behaves abtio id fileNumber writeOffset data rfl
    | end_ id => exact migrateEnd_behaves id rfl
  exact ((handle_follows abtio q).and hbehind).mono fun _ _ h => h.1

theorem watched_of_strict {G : Tid → Ghost} {P : System} (hw : Watched strict G P) :
    Watched discipline G P :=
  fun t q p ht => (hw t q p ht).weaken fun _ _ h => h.1

/-! ### An earlier handler that has not returned -/

/-- The handler of a request for an operation looks its record up first. -/
theorem handle_finds (abtio : Bool) {q : Request} {id : Uuid} (h : q.target = some id) :
    ∃ k, handle abtio q = .op (.find id) k ∧ ∃ o k', k true = .op o k' := by
  cases q with
  | start => cases h
  | mmap | write | end_ =>
      obtain rfl := Option.some.inj h
      exact ⟨_, rfl, _, _, rfl⟩

section Earlier
variable {G : Tid → Ghost} {P : System} {t : Tid} {q : Request} {p : Handler Unit} {n : Nat}

/-- A client has no gaps in its requests. -/
theorem Latch.started (hJ : Latch G P) (ht : P.thread t = some ⟨q, p⟩) (hn : n < t.call) :
    P.thread ⟨t.client, n⟩ ≠ none := by
  obtain ⟨m, c⟩ := t
  change n < c at hn
  have hanswer : (G ⟨m, n⟩).answer ≠ none := by
    rcases Nat.eq_zero_or_pos n with rfl | hpos
    · obtain ⟨c, rfl⟩ := Nat.exists_eq_succ_of_ne_zero (by omega : c ≠ 0)
      obtain ⟨status, id, hstart, -⟩ := hJ.protocol _ _ _ ht
      rw [← hJ.answer]
      exact fun h => absurd (hstart.symm.trans h) (by simp)
    · rcases hJ.earlier ht hpos hn with h | h
      · simp [h]
      · simp [h]
  intro hnone
  rw [hJ.absent _ hnone] at hanswer
  exact hanswer rfl

/-- A handler that has answered and not returned is that of a `migrate_write`. -/
theorem Latch.unreturned_write (hJ : Latch G P) (hw : Watched strict G P)
    (ht : P.thread t = some ⟨q, p⟩) (hp : p ≠ .pure ()) (hanswer : (G t).answer ≠ none)
    (hnotend : (G t).req.kind ≠ .end_) : (G t).req.kind = .write := by
  cases p with
  | pure a => exact absurd rfl hp
  | op o k =>
      obtain ⟨hallow, hbehind⟩ := (hw t q _ ht).1
      have hclosing := hbehind hanswer
      cases o with
      | pwrite | abtIoPwrite | setError => exact hallow.2.1
      | unlock id =>
          -- Neither a `migrate_start` nor a `migrate_mmap` holds a mutex.
          have hlocked := (hJ.valid t).locked hallow.2.1
          have htarget := (hJ.valid t).target id hallow.1
          cases hq : (G t).req with
          | start => rw [hq] at htarget; cases htarget
          | mmap => exact absurd (by rw [hq]; rfl) hlocked.2
          | write => rfl
          | end_ => exact absurd (by rw [hq]; rfl) hnotend
      | erase id =>
          rcases hallow.2.2 with ⟨h, -⟩ | ⟨-, -, h⟩ | ⟨h, -⟩
          · exact h
          · exact absurd h hanswer
          · exact absurd h hnotend
      | _ => cases hclosing

/-- An earlier handler that has not returned is a `migrate_write` for the operation of the later
request, and holds the mutex of its record. -/
theorem Latch.unreturned (hJ : Latch G P) (hw : Watched strict G P)
    (ht : P.thread t = some ⟨q, p⟩) (hn : n < t.call) {q' : Request} {p' : Handler Unit}
    (ht' : P.thread ⟨t.client, n⟩ = some ⟨q', p'⟩) (hp' : p' ≠ .pure ()) :
    ∃ id, q.target = some id ∧ (q.kind = .write ∨ q.kind = .end_) ∧
      (G ⟨t.client, n⟩).Holds id ∧ (G ⟨t.client, n⟩).req.kind = .write ∧
      (G ⟨t.client, n⟩).answer ≠ none := by
  obtain ⟨m, c⟩ := t
  change n < c at hn
  obtain ⟨c, rfl⟩ := Nat.exists_eq_succ_of_ne_zero (by omega : c ≠ 0)
  obtain ⟨status, id, hstart, htarget, hkind⟩ := hJ.protocol _ _ _ ht
  change P.shared.responses ⟨m, 0⟩ = _ at hstart
  -- The client has had the answer, so the handler is at work behind it.
  have hanswer : (G ⟨m, n⟩).answer ≠ none ∧ (G ⟨m, n⟩).req.kind ≠ .end_ := by
    rcases Nat.eq_zero_or_pos n with rfl | hpos
    · rw [hJ.answer] at hstart
      have hstartkind := ((hJ.valid _).answerStart _ _ _ hstart).1
      exact ⟨by simp [hstart], by simp [hstartkind]⟩
    · rcases hJ.earlier ht hpos hn with h | h
      · exact ⟨by simp [h], by simp [((hJ.valid _).answerWrite _ h).1]⟩
      · exact ⟨by simp [h], by simp [((hJ.valid _).answerMmap _ h).1]⟩
  obtain ⟨hanswer, hnotend⟩ := hanswer
  have hwrite := hJ.unreturned_write hw ht' hp' hanswer hnotend
  -- The first request of a client is no write.
  have hpos : 0 < n := by
    rcases Nat.eq_zero_or_pos n with rfl | hpos
    · rw [hJ.answer] at hstart
      exact absurd (((hJ.valid _).answerStart _ _ _ hstart).1.symm.trans hwrite) (by decide)
    · exact hpos
  have hsuccess : (G ⟨m, n⟩).answer = some (.write .success) := by
    rcases hJ.earlier ht hpos hn with h | h
    · exact h
    · exact absurd (((hJ.valid _).answerMmap _ h).1.symm.trans hwrite) (by decide)
  obtain ⟨hfound, herased, -⟩ := ((hJ.valid _).answerWrite _ hsuccess).2 rfl
  obtain ⟨id', hfound⟩ := Option.ne_none_iff_exists'.mp hfound
  obtain rfl : id' = id := by
    obtain ⟨_, _, -, hstart', -⟩ := hJ.owner hfound
    rw [hstart] at hstart'
    exact (Response.start.inj (Option.some.inj hstart')).2.2.symm
  have hlocked : (G ⟨m, n⟩).locked = true := by
    by_contra hnot
    refine hp' (finished_of_settled (watched_of_strict hw _ q' p' ht') hwrite hanswer ?_)
    simpa using hnot
  refine ⟨id', htarget, ?_, ⟨hfound, hlocked, herased⟩, hwrite, hanswer⟩
  rcases hkind with ⟨h, -⟩ | ⟨-, h⟩ | ⟨h, -⟩
  · exact Or.inl h
  · omega
  · exact Or.inr h

end Earlier

/-! ### The runs that are followed -/

/-- The invariant of the runs that the simulation follows. A handler with an earlier one beside
it has only looked its record up. -/
structure Tracked (abtio : Bool) (sends : Tid → Request → Prop) (G : Tid → Ghost) (P : System) :
    Prop where
  watched : Watched strict G P
  latch : Latch G P
  sends : ∀ t q p, P.thread t = some ⟨q, p⟩ → sends t q
  looking : ∀ t q p, P.thread t = some ⟨q, p⟩ → ¬ P.Idle t → System.Looking abtio q p

section Threads
variable {P : System} {t t' : Tid} {q : Request} {p : Handler Unit} {s' : Provider}

/-- A handler is kept from being idle by one that has not returned. -/
theorem System.not_idle (h : ¬ P.Idle t) :
    ∃ n < t.call, ∃ q p, P.thread ⟨t.client, n⟩ = some ⟨q, p⟩ ∧ p ≠ .pure () := by
  unfold System.Idle at h
  push Not at h
  exact h

/-- Steps of a handler that has not returned leave the others idle. -/
theorem System.Idle.step (h : P.Idle t') {p₀ : Handler Unit} (ht : P.thread t = some ⟨q, p₀⟩)
    (hp₀ : p₀ ≠ .pure ()) :
    System.Idle ⟨s', Function.update P.thread t (some ⟨q, p⟩)⟩ t' := by
  intro n hn q₁ p₁ ht₁
  rcases thread_update ht₁ with ⟨he, -, -⟩ | ⟨-, hold⟩
  · exact absurd (h n hn q p₀ (he ▸ ht)) hp₀
  · exact h n hn q₁ p₁ hold

/-- A handler that does not return in its step makes no other one idle. -/
theorem System.Idle.of_step
    (h : System.Idle ⟨s', Function.update P.thread t (some ⟨q, p⟩)⟩ t') (hp : p ≠ .pure ()) :
    P.Idle t' := by
  intro n hn q₁ p₁ ht₁
  by_cases he : (⟨t'.client, n⟩ : Tid) = t
  · exact absurd (h n hn q p (by rw [he]; exact Function.update_self _ _ _)) hp
  · exact h n hn q₁ p₁ ((Function.update_of_ne he _ _).trans ht₁)

/-- A new handler makes no other one idle. -/
theorem System.Idle.of_spawn
    (h : System.Idle { P with thread := Function.update P.thread t (some ⟨q, p⟩) } t')
    (ht : P.thread t = none) : P.Idle t' := by
  intro n hn q₁ p₁ ht₁
  have hne : (⟨t'.client, n⟩ : Tid) ≠ t := by
    intro he
    rw [he, ht] at ht₁
    cases ht₁
  exact h n hn q₁ p₁ ((Function.update_of_ne hne _ _).trans ht₁)

/-- A step of `t` does not matter for `t` to be idle. -/
theorem System.idle_self :
    System.Idle ⟨s', Function.update P.thread t (some ⟨q, p⟩)⟩ t ↔ P.Idle t := by
  have hne : ∀ n < t.call, (⟨t.client, n⟩ : Tid) ≠ t := by
    intro n hn he
    rw [← he] at hn
    exact Nat.lt_irrefl n hn
  constructor
  · intro h n hn q₁ p₁ ht₁
    exact h n hn q₁ p₁ ((Function.update_of_ne (hne n hn) _ _).trans ht₁)
  · intro h n hn q₁ p₁ ht₁
    exact h n hn q₁ p₁ ((Function.update_of_ne (hne n hn) _ _).symm.trans ht₁)

end Threads

section Tracked
variable {abtio : Bool} {sends : Tid → Request → Prop} {G : Tid → Ghost} {P : System} {t : Tid}
  {q : Request} {o : Op} {k : Ans o → Handler Unit} {r : Ans o} {w : Outcome} {s' : Provider}

/-- A new handler leaves the others idle, because its client has sent nothing behind it. -/
theorem Latch.idle_spawn (hJ : Latch G P) (ht : P.thread t = none) {p : Handler Unit} {t' : Tid}
    (ht' : P.thread t' ≠ none) (h : P.Idle t') :
    System.Idle { P with thread := Function.update P.thread t (some ⟨q, p⟩) } t' := by
  obtain ⟨th, ht'⟩ := Option.ne_none_iff_exists'.mp ht'
  intro n hn q₁ p₁ ht₁
  rcases thread_update ht₁ with ⟨he, -, -⟩ | ⟨-, hold⟩
  · exact absurd (he ▸ ht) (hJ.started ht' hn)
  · exact h n hn q₁ p₁ hold

/-- The next operation of a handler that is looking its record up, to write or to end. -/
theorem looking_next {abtio : Bool} {q : Request} {p : Handler Unit} {id : Uuid}
    (htarget : q.target = some id) (hkind : q.kind = .write ∨ q.kind = .end_)
    (h : System.Looking abtio q p) :
    (p = handle abtio q ∧ ∃ k, p = .op (.find id) k) ∨ ∃ k, p = .op (.lock id) k := by
  obtain ⟨id', k', hk', hp⟩ := h
  cases q with
  | start | mmap => rcases hkind with h | h <;> cases h
  | write | end_ =>
      obtain rfl := Option.some.inj htarget
      rcases hp with rfl | rfl
      · exact Or.inl ⟨rfl, _, rfl⟩
      · obtain ⟨hfind, hk⟩ := Prog.op.inj hk'
        obtain rfl := Op.find.inj hfind
        obtain rfl := eq_of_heq hk
        exact Or.inr ⟨_, rfl⟩

/-- A handler with an earlier one beside it can only find its record. -/
theorem Tracked.late_step (hT : Tracked abtio sends G P) (ht : P.thread t = some ⟨q, .op o k⟩)
    (hx : exec t w o P.shared = some (r, s')) (hlate : ¬ P.Idle t) :
    s' = P.shared ∧ System.Looking abtio q (k r) ∧ k r ≠ .pure () := by
  obtain ⟨n, hn, q', p', ht', hp'⟩ := System.not_idle hlate
  obtain ⟨id, htarget, hkind, hholds, -, -⟩ := hT.latch.unreturned hT.watched ht hn ht' hp'
  obtain ⟨op, hop, hmutex⟩ := hT.latch.holder _ id hholds
  rcases looking_next htarget hkind (hT.looking t q _ ht hlate) with ⟨hp, k', hfind⟩ | ⟨k', hlock⟩
  · -- The record is there, because its mutex is held.
    obtain ⟨rfl, -⟩ := Prog.op.inj hfind
    obtain ⟨hr, rfl⟩ := Prod.mk.inj (Option.some.inj hx)
    rw [hop] at hr
    subst hr
    obtain ⟨k₁, hk₁, o', k₂, hnext⟩ := handle_finds abtio htarget
    obtain rfl := eq_of_heq (Prog.op.inj (hp.trans hk₁)).2
    refine ⟨rfl, ⟨id, k, hp.symm, Or.inr rfl⟩, ?_⟩
    show k true ≠ .pure ()
    rw [hnext]
    nofun
  · -- The lock is not free.
    obtain ⟨rfl, -⟩ := Prog.op.inj hlock
    simp [exec, hop, hmutex] at hx

/-- A handler with an earlier one beside it has not answered. -/
theorem Tracked.late_unanswered (hT : Tracked abtio sends G P) {p : Handler Unit}
    (ht : P.thread t = some ⟨q, p⟩) (hlate : ¬ P.Idle t) : (G t).answer = none := by
  obtain ⟨n, hn, q', p', ht', hp'⟩ := System.not_idle hlate
  obtain ⟨id, htarget, hkind, -, -, -⟩ := hT.latch.unreturned hT.watched ht hn ht' hp'
  -- Neither a look at the map nor a lock comes behind an answer.
  have hnext : ∃ o k, p = .op o k ∧ o.closing = false := by
    rcases looking_next htarget hkind (hT.looking t q _ ht hlate) with ⟨-, k, hp⟩ | ⟨k, hp⟩
    · exact ⟨_, k, hp, rfl⟩
    · exact ⟨_, k, hp, rfl⟩
  obtain ⟨o, k, rfl, hclosing⟩ := hnext
  by_contra hanswer
  have h := (hT.watched t q _ ht).1.2 hanswer
  rw [hclosing] at h
  cases h

/-- A client has one handler at most with an earlier one beside it. -/
theorem Tracked.late_unique (hT : Tracked abtio sends G P) {t₁ t₂ : Tid}
    (hclient : t₁.client = t₂.client) (ht₁ : P.thread t₁ ≠ none) (ht₂ : P.thread t₂ ≠ none)
    (h₁ : ¬ P.Idle t₁) (h₂ : ¬ P.Idle t₂) : t₁ = t₂ := by
  obtain ⟨m, c₁⟩ := t₁
  obtain ⟨m₂, c₂⟩ := t₂
  obtain rfl : m = m₂ := hclient
  obtain ⟨⟨q₁, p₁⟩, ht₁⟩ := Option.ne_none_iff_exists'.mp ht₁
  obtain ⟨⟨q₂, p₂⟩, ht₂⟩ := Option.ne_none_iff_exists'.mp ht₂
  have hlast : ∀ {c c' : Nat} {q q' : Request} {p p' : Handler Unit},
      P.thread ⟨m, c⟩ = some ⟨q, p⟩ → ¬ P.Idle ⟨m, c⟩ → P.thread ⟨m, c'⟩ = some ⟨q', p'⟩ →
      c' ≤ c := by
    intro c c' q q' p p' ht hlate ht'
    by_contra hlt
    obtain ⟨n, hn, -⟩ := System.not_idle hlate
    change n < c at hn
    have hnone := hT.late_unanswered ht hlate
    rcases hT.latch.earlier ht' (by omega : 0 < c) (by omega) with h | h
    · exact absurd (hnone.symm.trans h) (by simp)
    · exact absurd (hnone.symm.trans h) (by simp)
  have h := hlast ht₁ h₁ ht₂
  have h' := hlast ht₂ h₂ ht₁
  rw [Nat.le_antisymm h' h]

theorem Tracked.step (hT : Tracked abtio sends G P) (ht : P.thread t = some ⟨q, .op o k⟩)
    (hx : exec t w o P.shared = some (r, s')) :
    Tracked abtio sends (Function.update G t ((G t).after o r))
      { shared := s', thread := Function.update P.thread t (some ⟨q, k r⟩) } where
  watched := fun t' q' p' ht' => by
    rcases thread_update ht' with ⟨rfl, rfl, rfl⟩ | ⟨hne, hold⟩
    · rw [Function.update_self]
      exact (hT.watched _ _ _ ht).2 r _ rfl
    · rw [Function.update_of_ne hne]
      exact hT.watched t' q' p' hold
  latch := latch_keeps (watched_of_strict hT.watched) hT.latch ht hx
  sends := fun t' q' p' ht' => by
    rcases thread_update ht' with ⟨rfl, rfl, -⟩ | ⟨-, hold⟩
    · exact hT.sends _ _ _ ht
    · exact hT.sends t' q' p' hold
  looking := fun t' q' p' ht' hlate => by
    have hbefore : ¬ P.Idle t' := fun h => hlate (h.step ht nofun)
    rcases thread_update ht' with ⟨rfl, rfl, rfl⟩ | ⟨-, hold⟩
    · exact (hT.late_step ht hx hbefore).2.1
    · exact hT.looking t' q' p' hold hbefore

theorem Tracked.spawn (hT : Tracked abtio sends G P) (ht : P.thread t = none)
    (hpermit : P.Permits t q) (hsends : sends t q) :
    Tracked abtio sends (Function.update G t (.init q))
      { P with thread := Function.update P.thread t (some ⟨q, handle abtio q⟩) } where
  watched := fun t' q' p' ht' => by
    rcases thread_update ht' with ⟨rfl, rfl, rfl⟩ | ⟨hne, hold⟩
    · rw [Function.update_self]
      exact handle_strict abtio q'
    · rw [Function.update_of_ne hne]
      exact hT.watched t' q' p' hold
  latch := latch_spawn abtio hT.latch ht hpermit
  sends := fun t' q' p' ht' => by
    rcases thread_update ht' with ⟨rfl, rfl, -⟩ | ⟨-, hold⟩
    · exact hsends
    · exact hT.sends t' q' p' hold
  looking := fun t' q' p' ht' hlate => by
    rcases thread_update ht' with ⟨rfl, rfl, rfl⟩ | ⟨-, hold⟩
    · -- The request is not the first one of its client.
      obtain ⟨n, hn, -⟩ := System.not_idle hlate
      obtain ⟨m, _ | c⟩ := t'
      · exact absurd hn (Nat.not_lt_zero n)
      · obtain ⟨_, id, -, htarget, -⟩ := hpermit
        obtain ⟨k, hk, -⟩ := handle_finds abtio htarget
        exact ⟨id, k, hk, Or.inl rfl⟩
    · refine hT.looking t' q' p' hold fun hidle => hlate ?_
      exact hT.latch.idle_spawn ht (by rw [hold]; simp) hidle

end Tracked

/-! ### The simulation -/

/-- The same provider, without the handlers that are `late`. -/
structure Lags (late : Tid → Prop) (P P' : System) : Prop where
  shared : P'.shared = P.shared
  kept : ∀ t, ¬ late t → P'.thread t = P.thread t
  left : ∀ t, late t → P'.thread t = none

section Simulation
variable {abtio : Bool} {sends : Tid → Request → Prop}
  {decides : Provider → Tid → Option Op → Outcome → Prop} {late late' : Tid → Prop}
  {G : Tid → Ghost} {P P' : System} {t : Tid} {q : Request}

/-- The steps of clients that wait. -/
abbrev System.Waits (sends : Tid → Request → Prop)
    (decides : Provider → Tid → Option Op → Outcome → Prop) (P : System) (l : Step) : Prop :=
  P.Conforms sends decides l ∧ P.Serial l

theorem permits_of_shared (h : P'.shared = P.shared) (hp : P.Permits t q) : P'.Permits t q :=
  permits_mono (fun _ _ ha => by rw [h]; exact ha) hp

/-- It does not matter whether a handler that is not there is late. -/
theorem Lags.change (hL : Lags late P P') (h : ∀ t, P.thread t ≠ none → (late t ↔ late' t)) :
    Lags late' P P' := by
  refine ⟨hL.shared, fun t ht => ?_, fun t ht => ?_⟩
  · by_cases hnone : P.thread t = none
    · by_cases hlate : late t
      · exact (hL.left t hlate).trans hnone.symm
      · exact hL.kept t hlate
    · exact hL.kept t fun hlate => ht ((h t hnone).mp hlate)
  · by_cases hnone : P.thread t = none
    · by_cases hlate : late t
      · exact hL.left t hlate
      · exact (hL.kept t hlate).trans hnone
    · exact hL.left t ((h t hnone).mpr ht)

/-- The same change of a handler that is not late, and of the provider. -/
theorem Lags.both (hL : Lags late P P') (ht : ¬ late t) (s : Provider)
    (th : Option (Thread Request Ans)) :
    Lags late ⟨s, Function.update P.thread t th⟩ ⟨s, Function.update P'.thread t th⟩ := by
  refine ⟨rfl, fun t' h => ?_, fun t' h => ?_⟩
  · by_cases he : t' = t
    · subst he
      simp only [Function.update_self]
    · simp only [Function.update_of_ne he]
      exact hL.kept t' h
  · have hne : t' ≠ t := by
      rintro rfl
      exact ht h
    simp only [Function.update_of_ne hne]
    exact hL.left t' h

/-- A change of a handler that is late is not seen. -/
theorem Lags.hidden (hL : Lags late P P') (ht : late t) (th : Option (Thread Request Ans)) :
    Lags late ⟨P.shared, Function.update P.thread t th⟩ P' := by
  refine ⟨hL.shared, fun t' h => ?_, hL.left⟩
  have hne : t' ≠ t := by
    rintro rfl
    exact h ht
  simp only [Function.update_of_ne hne]
  exact hL.kept t' h

/-- A handler that is no longer late. -/
theorem Lags.joined (hL : Lags late P P') :
    Lags (fun t' => late t' ∧ t' ≠ t) P
      ⟨P'.shared, Function.update P'.thread t (P.thread t)⟩ := by
  refine ⟨hL.shared, fun t' h => ?_, fun t' h => ?_⟩
  · by_cases he : t' = t
    · subst he
      exact Function.update_self _ _ _
    · simp only [Function.update_of_ne he]
      exact hL.kept t' fun hlate => h ⟨hlate, he⟩
  · simp only [Function.update_of_ne h.2]
    exact hL.left t' h.1

/-- Where a handler is idle, it is idle for the clients that wait. -/
theorem Lags.idle (hL : Lags late P P') (h : P.Idle t) : P'.Idle t := by
  intro n hn q₁ p₁ ht₁
  by_cases hlate : late ⟨t.client, n⟩
  · rw [hL.left _ hlate] at ht₁
    cases ht₁
  · exact h n hn q₁ p₁ ((hL.kept _ hlate).symm.trans ht₁)

/-- A request is sent now when all earlier handlers have returned, and later otherwise. -/
theorem Lags.spawn (hL : Lags (fun t' => ¬ P.Idle t') P P') (hJ : Latch G P)
    (ht : P.thread t = none) (hpermit : P.Permits t q) (hsends : sends t q) :
    ∃ ls P₁', System.Reaches abtio (System.Waits sends decides) P' ls P₁' ∧
      Lags (fun t' => ¬ System.Idle
          { P with thread := Function.update P.thread t (some ⟨q, handle abtio q⟩) } t')
        { P with thread := Function.update P.thread t (some ⟨q, handle abtio q⟩) } P₁' := by
  -- The new request makes no handler late that is there.
  have hsame : ∀ t', Function.update P.thread t (some ⟨q, handle abtio q⟩) t' ≠ none →
      (¬ P.Idle t' ↔ ¬ System.Idle
        { P with thread := Function.update P.thread t (some ⟨q, handle abtio q⟩) } t') := by
    intro t' hthere
    by_cases he : t' = t
    · subst he
      exact not_congr System.idle_self.symm
    · rw [Function.update_of_ne he] at hthere
      exact not_congr ⟨hJ.idle_spawn ht hthere, fun h => h.of_spawn ht⟩
  by_cases hidle : P.Idle t
  · have ht' : P'.thread t = none := (hL.kept t (not_not_intro hidle)).trans ht
    refine ⟨[.spawn t q],
      { P' with thread := Function.update P'.thread t (some ⟨q, handle abtio q⟩) }, ?_, ?_⟩
    · refine Run.single ⟨⟨permits_of_shared hL.shared hpermit, hsends⟩, hL.idle hidle⟩ ?_
      simp only [System.next, Pool.next, ht']
    · rw [hL.shared]
      exact (hL.both (not_not_intro hidle) _ _).change hsame
  · exact ⟨[], P', .nil, (hL.hidden hidle _).change hsame⟩

/-- A handler that is left out catches up. -/
theorem catch_up (decides : Provider → Tid → Option Op → Outcome → Prop) {p : Handler Unit}
    (ht : P.thread t = none) (hidle : P.Idle t) (hpermit : P.Permits t q) (hsends : sends t q)
    (hfind : ∀ s t id, ∃ w, decides s t (some (.find id)) w)
    (hlook : System.Looking abtio q p)
    (hthere : ∀ id, q.target = some id → P.shared.opInProgress id ≠ none) :
    ∃ ls, System.Reaches abtio (System.Waits sends decides) P ls
      ⟨P.shared, Function.update P.thread t (some ⟨q, p⟩)⟩ := by
  obtain ⟨id, k, hk, hp⟩ := hlook
  have hspawn : System.Reaches abtio (System.Waits sends decides) P [.spawn t q]
      ⟨P.shared, Function.update P.thread t (some ⟨q, handle abtio q⟩)⟩ :=
    Run.single ⟨⟨hpermit, hsends⟩, hidle⟩ (by simp only [System.next, Pool.next, ht])
  rcases hp with rfl | rfl
  · exact ⟨_, hspawn⟩
  · -- The look at the map finds the record, as it has before.
    have htarget : q.target = some id := by
      cases q with
      | start => cases (Prog.op.inj hk).1
      | mmap | write | end_ => exact congrArg some (Op.find.inj (Prog.op.inj hk).1)
    obtain ⟨w, hw⟩ := hfind P.shared t id
    have hsome : (P.shared.opInProgress id).isSome = true :=
      Option.isSome_iff_ne_none.mpr (hthere id htarget)
    have hstep : System.Reaches abtio (System.Waits sends decides)
        ⟨P.shared, Function.update P.thread t (some ⟨q, handle abtio q⟩)⟩ [.step t w]
        ⟨P.shared, Function.update P.thread t (some ⟨q, k true⟩)⟩ := by
      refine Run.single ⟨?_, trivial⟩ ?_
      · show decides P.shared t _ w
        simpa only [System.pending, Function.update_self, hk] using hw
      · simp only [System.next, Pool.next, Function.update_self, hk, exec, hsome, Option.map_some,
          Function.update_idem]
    exact ⟨_, hspawn.append hstep⟩

/-- The record of a handler that returns behind its answer stays. -/
theorem record_stays {w : Outcome} {o : Op} {k : Ans o → Handler Unit} {r : Ans o}
    {s' : Provider} {id : Uuid} (hw : Watched strict G P) (hJ : Latch G P)
    (ht : P.thread t = some ⟨q, .op o k⟩) (hx : exec t w o P.shared = some (r, s'))
    (hholds : (G t).Holds id) (hwrite : (G t).req.kind = .write) (hanswer : (G t).answer ≠ none) :
    s'.opInProgress id ≠ none := by
  obtain ⟨op, hop, -⟩ := hJ.holder t id hholds
  have hnoerase : o ≠ .erase id := by
    rintro rfl
    rcases (watched_of_strict hw).allows ht with ⟨-, -, ⟨-, -, h⟩ | ⟨-, -, h⟩ | ⟨h, -⟩⟩
    · exact hanswer h
    · exact hanswer h
    · exact absurd (hwrite.symm.trans h) (by decide)
  obtain ⟨op', hop'⟩ := Op.record_some t w op hnoerase
  rw [(exec_effect hx).record, hop, hop']
  simp

/-- The handler that kept `t'` from being idle, when `t'` is idle after a step of `t`. -/
theorem freed_by {s' : Provider} {p : Handler Unit} {t' : Tid}
    (h : System.Idle ⟨s', Function.update P.thread t (some ⟨q, p⟩)⟩ t') (hbefore : ¬ P.Idle t') :
    ∃ n < t'.call, t = ⟨t'.client, n⟩ ∧ ∃ q' p', P.thread t = some ⟨q', p'⟩ ∧ p' ≠ .pure () := by
  obtain ⟨n, hn, q', p', ht', hp'⟩ := System.not_idle hbefore
  by_cases he : (⟨t'.client, n⟩ : Tid) = t
  · exact ⟨n, hn, he.symm, q', p', he ▸ ht', hp'⟩
  · exact absurd (h n hn q' p' ((Function.update_of_ne he _ _).trans ht')) hp'

/-- A step of a handler that is there is taken by the clients that wait. When the handler returns
in it, the next one of its client catches up. -/
theorem Lags.step (hL : Lags (fun t' => ¬ P.Idle t') P P') (hT : Tracked abtio sends G P)
    {w : Outcome} {o : Op} {k : Ans o → Handler Unit} {r : Ans o} {s' : Provider}
    (hdecides : decides P.shared t (P.pending t) w)
    (hfind : ∀ s t id, ∃ w, decides s t (some (.find id)) w)
    (ht : P.thread t = some ⟨q, .op o k⟩) (hx : exec t w o P.shared = some (r, s')) :
    ∃ ls P₁', System.Reaches abtio (System.Waits sends decides) P' ls P₁' ∧
      Lags (fun t' => ¬ System.Idle ⟨s', Function.update P.thread t (some ⟨q, k r⟩)⟩ t')
        ⟨s', Function.update P.thread t (some ⟨q, k r⟩)⟩ P₁' := by
  by_cases hidle : P.Idle t
  · have ht' : P'.thread t = some ⟨q, .op o k⟩ := (hL.kept t (not_not_intro hidle)).trans ht
    have hstep : System.Reaches abtio (System.Waits sends decides) P' [.step t w]
        ⟨s', Function.update P'.thread t (some ⟨q, k r⟩)⟩ := by
      refine Run.single ⟨?_, trivial⟩ (Pool.next_of_exec ht' (hL.shared ▸ hx))
      show decides P'.shared t (P'.pending t) w
      simp only [System.pending, ht'] at hdecides ⊢
      simpa only [hL.shared, ht] using hdecides
    have hboth := hL.both (not_not_intro hidle) s' (some ⟨q, k r⟩)
    by_cases hnew : ∃ t₁, System.Idle ⟨s', Function.update P.thread t (some ⟨q, k r⟩)⟩ t₁ ∧
        ¬ P.Idle t₁ ∧ P.thread t₁ ≠ none
    · -- The step was the last one of `t`, and `t₁` is next.
      obtain ⟨t₁, hidle₁, hlate₁, hthere₁⟩ := hnew
      obtain ⟨⟨q₁, p₁⟩, ht₁⟩ := Option.ne_none_iff_exists'.mp hthere₁
      have hne₁ : t₁ ≠ t := by
        rintro rfl
        exact hlate₁ hidle
      have hrest : Function.update P.thread t (some ⟨q, k r⟩) t₁ = some ⟨q₁, p₁⟩ :=
        (Function.update_of_ne hne₁ _ _).trans ht₁
      obtain ⟨n, hn, he, q', p', hthread, hp'⟩ := freed_by hidle₁ hlate₁
      subst he
      obtain ⟨id, htarget, -, hholds, hwrite, hanswer⟩ :=
        hT.latch.unreturned hT.watched ht₁ hn hthread hp'
      have hrecord := record_stays hT.watched hT.latch ht hx hholds hwrite hanswer
      have hT₁ := hT.step ht hx
      have hfound : ∀ id', q₁.target = some id' → s'.opInProgress id' ≠ none := by
        intro id' hid'
        obtain rfl := Option.some.inj (htarget.symm.trans hid')
        exact hrecord
      obtain ⟨ls, hrun⟩ := catch_up decides (hboth.left t₁ hlate₁) (hboth.idle hidle₁)
        (permits_of_shared rfl (hT₁.latch.protocol t₁ q₁ p₁ hrest)) (hT.sends t₁ q₁ p₁ ht₁) hfind
        (hT.looking t₁ q₁ p₁ ht₁ hlate₁) hfound
      refine ⟨_, _, hstep.append hrun, ?_⟩
      rw [← hrest]
      refine hboth.joined.change fun t' hthere => ⟨fun h hidle' => ?_, fun h => ?_⟩
      · -- No other handler has become idle.
        obtain ⟨n', -, he', -⟩ := freed_by hidle' h.1
        have hne : t' ≠ ⟨t₁.client, n⟩ := by
          rintro rfl
          exact h.1 hidle
        refine h.2 (hT.late_unique (Tid.mk.inj he').1.symm ?_ hthere₁ h.1 hlate₁)
        simpa only [Function.update_of_ne hne] using hthere
      · refine ⟨fun h' => h (h'.step ht nofun), ?_⟩
        rintro rfl
        exact h hidle₁
    · refine ⟨_, _, hstep, hboth.change fun t' hthere => ⟨fun h hidle' => ?_, fun h h' => ?_⟩⟩
      · refine hnew ⟨t', hidle', h, ?_⟩
        have hne : t' ≠ t := by
          rintro rfl
          exact h hidle
        simpa only [Function.update_of_ne hne] using hthere
      · exact h (h'.step ht nofun)
  · -- A handler that is left out changes nothing.
    obtain ⟨rfl, -, hrest⟩ := hT.late_step ht hx hidle
    refine ⟨[], P', .nil, (hL.hidden hidle _).change fun t' _ => ?_⟩
    exact not_congr ⟨fun h => h.step ht nofun, fun h => h.of_step hrest⟩

/-- Clients that wait simulate those that do not. -/
theorem waits_simulates (abtio : Bool) (hfind : ∀ s t id, ∃ w, decides s t (some (.find id)) w) :
    Simulates (System.next abtio) (System.Conforms sends decides) (System.next abtio)
      (System.Waits sends decides) fun P P' =>
        (∃ G, Tracked abtio sends G P) ∧ Lags (fun t => ¬ P.Idle t) P P' := by
  intro P P' l P₁ hR hC hn
  obtain ⟨⟨G, hT⟩, hL⟩ := hR
  cases l with
  | spawn t q =>
      obtain ⟨ht, rfl⟩ := Pool.next_spawn hn
      obtain ⟨ls, P₁', hrun, hL₁⟩ := hL.spawn hT.latch ht hC.1 hC.2
      exact ⟨ls, P₁', hrun, ⟨_, hT.spawn ht hC.1 hC.2⟩, hL₁⟩
  | step t w =>
      obtain ⟨q, o, k, r, s', ht, hx, rfl⟩ := Pool.next_step hn
      obtain ⟨ls, P₁', hrun, hL₁⟩ := hL.step hT hC hfind ht hx
      exact ⟨ls, P₁', hrun, ⟨_, hT.step ht hx⟩, hL₁⟩

end Simulation

/-- The state of a run, and beside it one that clients who wait lead to. -/
theorem waits_run {sends : Tid → Request → Prop}
    {decides : Provider → Tid → Option Op → Outcome → Prop} (abtio : Bool)
    (hfind : ∀ s t id, ∃ w, decides s t (some (.find id)) w)
    (classes : ClassKey → Option MigrationClass) (fs : Fs) {ls : List Step} {P : System}
    (h : System.Reaches abtio (System.Conforms sends decides) (.init classes fs) ls P) :
    ∃ ls' P', System.Reaches abtio (System.Waits sends decides) (.init classes fs) ls' P' ∧
      (∃ G, Tracked abtio sends G P) ∧ Lags (fun t => ¬ P.Idle t) P P' := by
  have hinit : Tracked abtio sends (fun _ => .init (.end_ 0)) (.init classes fs) :=
    ⟨nofun, latch_init classes fs, nofun, nofun⟩
  exact Run.simulate (waits_simulates abtio hfind)
    ⟨⟨_, hinit⟩, rfl, fun _ _ => rfl, fun _ _ => rfl⟩ h

/-- The early answer cannot be seen. The provider of every state that protocol-following clients
lead to is that of a state where every client has waited until its earlier handlers had returned:
the same files, records, answers and histories. The handlers are the same ones, except for those
that have only looked their record up, and have not answered. -/
theorem serializable (abtio : Bool) (classes : ClassKey → Option MigrationClass) (fs : Fs)
    {ls : List Step} {P : System}
    (h : System.Reaches abtio System.Protocol (.init classes fs) ls P) :
    ∃ ls' P', System.Reaches abtio (fun P l => P.Protocol l ∧ P.Serial l) (.init classes fs)
        ls' P' ∧ P'.shared = P.shared ∧
      ∀ t, P'.thread t = P.thread t ∨ P'.thread t = none ∧ P.shared.responses t = none ∧
        ∃ q p, P.thread t = some ⟨q, p⟩ ∧ System.Looking abtio q p := by
  have hconforms : System.Reaches abtio
      (System.Conforms (fun _ _ => True) fun _ _ _ _ => True) (.init classes fs) ls P := by
    refine h.weaken fun P l hl => ?_
    cases l with
    | spawn t q => exact ⟨hl, trivial⟩
    | step t w => trivial
  obtain ⟨ls', P', hrun, ⟨G, hT⟩, hL⟩ :=
    waits_run abtio (fun _ _ _ => ⟨.succeed 0, trivial⟩) classes fs hconforms
  have hserial : System.Reaches abtio (fun P l => P.Protocol l ∧ P.Serial l)
      (.init classes fs) ls' P' := by
    refine hrun.weaken fun P l hl => ?_
    cases l with
    | spawn t q => exact ⟨hl.1.1, hl.2⟩
    | step t w => exact ⟨trivial, trivial⟩
  refine ⟨ls', P', hserial, hL.shared, fun t => ?_⟩
  by_cases hidle : P.Idle t
  · exact Or.inl (hL.kept t (not_not_intro hidle))
  · cases ht : P.thread t with
    | none => exact Or.inl (hL.left t hidle)
    | some th =>
        obtain ⟨q, p⟩ := th
        refine Or.inr ⟨hL.left t hidle, ?_, q, p, rfl, hT.looking t q p ht hidle⟩
        rw [hT.latch.answer]
        exact hT.late_unanswered ht hidle

/-- A `migrate_end` that looks its record up while the write before it is still to be made. -/
private def overtaking : List Step :=
  .spawn ⟨0, 0⟩ (.start oneFile [2] [0]) ::
      List.replicate 10 (.step ⟨0, 0⟩ (.succeed 1)) ++
    .spawn ⟨0, 1⟩ (.write 1 0 0 [7, 8]) :: List.replicate 5 (.step ⟨0, 1⟩ (.succeed 0)) ++
    [.spawn ⟨0, 2⟩ (.end_ 1), .step ⟨0, 2⟩ (.succeed 0)]

theorem serializable_overtaking : ∃ P,
    System.Reaches false System.Protocol (.init acceptAll .empty) overtaking P ∧
      P.shared.responses ⟨0, 1⟩ = some (.write .success) ∧ P.shared.writes = [] ∧
      (P.thread ⟨0, 2⟩).isSome ∧
      ∃ ls' P', System.Reaches false (fun P l => P.Protocol l ∧ P.Serial l)
        (.init acceptAll .empty) ls' P' ∧ P'.shared = P.shared ∧
        ∀ t, P'.thread t = P.thread t ∨ P'.thread t = none ∧ P.shared.responses t = none ∧
          ∃ q p, P.thread t = some ⟨q, p⟩ ∧ System.Looking false q p := by
  have hrun : (follow (System.next false) System.Protocol overtaking
      (.init acceptAll .empty)).any (fun P =>
        P.shared.responses ⟨0, 1⟩ = some (.write .success) ∧ P.shared.writes = [] ∧
          (P.thread ⟨0, 2⟩).isSome) = true := by decide
  obtain ⟨P, hP, hanswers⟩ := (Option.any_eq_true _ _).mp hrun
  obtain ⟨hwrite, hnone, hthere⟩ := of_decide_eq_true hanswers
  exact ⟨P, run_of_follow hP, hwrite, hnone, hthere,
    serializable false _ _ (run_of_follow hP)⟩

end Remi
