import Remi.Lib.Progress
import Remi.Proofs.Conserved
import Remi.Proofs.Serial

/-!
# `Remi.Proofs.Progress`: no handler waits for ever

A handler waits in one place only, where it locks the mutex of its record. `progress` says that
the one that holds the mutex is an earlier handler of the same client, and that this one can go
on. So no client waits for another one, there is no deadlock, and because the handlers come to an
end (`Remi.Lib.Progress`) each of them returns, or throws.

`Orderly` adds to `Latch` what is needed for this. The mutex of a record is held by a handler that
is at work on it, and the error of a record comes from a write that was short.
-/

set_option autoImplicit false

namespace Remi

open Remi.Lib

/-- The answer is one behind which there is no record any more. -/
def Response.closes : Response → Prop
  | .end_ _ _ => True
  | .mmap ret | .write ret => ret = .errIo
  | .start _ _ _ => False

/-- The client of the operation `id` has begun, and has had no answer that ends the operation. -/
def System.InProgress (P : System) (id : Uuid) : Prop :=
  ∃ m status, P.shared.responses ⟨m, 0⟩ = some (.start .success status id) ∧
    ∀ n a, P.shared.responses ⟨m, n + 1⟩ = some a → ¬ a.closes

/-- A `migrate_write` or `migrate_mmap` erases its record and answers `REMI_ERR_IO`, or does
neither. -/
def Ghost.Told (g : Ghost) : Prop :=
  ∀ a, g.answer = some a → g.req.kind = .write ∨ g.req.kind = .mmap →
    (g.erased = true ↔ a.ret = .errIo)

/-- The invariant of protocol-following runs, with what the mutex and the error of a record come
from. -/
structure Orderly (G : Tid → Ghost) (P : System) : Prop extends Latch G P where
  held : ∀ id op t, P.shared.opInProgress id = some op → op.mutex = some t →
    (G t).found = some id ∧ (G t).locked = true
  noted : ∀ id op, P.shared.opInProgress id = some op → op.error ≠ .success →
    ∃ c ∈ P.shared.writes, c.operationId = id ∧ c.Short
  unnoted : ∀ t, (G t).unrecorded = true → ∃ c ∈ P.shared.writes, c.t = t ∧ c.Short
  told : ∀ t, (G t).Told
  fresh : ∃ n : Nat, ∀ id : Nat, n ≤ id → P.shared.issuedTo id = none
  among : ∃ ts, P.Among ts

/-! ### The invariant -/

section Step
variable {G : Tid → Ghost} {P : System} {t : Tid} {w : Outcome} {q : Request} {o : Op}
  {k : Ans o → Handler Unit} {r : Ans o} {s' : Provider}

theorem held_step (hJ : Orderly G P) (hallow : (G t).Allows o)
    (hx : exec t w o P.shared = some (r, s')) {id : Uuid} {op' : Operation} {t' : Tid}
    (hop' : s'.opInProgress id = some op') (hmutex : op'.mutex = some t') :
    (Function.update G t ((G t).after o r) t').found = some id ∧
      (Function.update G t ((G t).after o r) t').locked = true := by
  rcases record_before hx hop' with rfl | ⟨op, hop, hrecord⟩
  · rw [hallow.2.2.2.2.2.1] at hmutex
    cases hmutex
  · by_cases hlock : o = .lock id
    · subst hlock
      simp only [Op.record, if_pos, Option.map_some, Option.some.injEq] at hrecord
      subst hrecord
      obtain rfl := Option.some.inj hmutex
      rw [Function.update_self]
      exact ⟨hallow.1, rfl⟩
    · have hunlock : o ≠ .unlock id := by
        rintro rfl
        simp only [Op.record, if_pos, Option.map_some, Option.some.injEq] at hrecord
        subst hrecord
        cases hmutex
      have hsame : op'.mutex = op.mutex := by
        rcases Op.record_mutex hrecord with h | ⟨h, -⟩ | ⟨h, -⟩ | rfl
        · exact h
        · exact absurd h hlock
        · exact absurd h hunlock
        · rw [insert_fresh hJ.toLatch hallow] at hop
          cases hop
      obtain ⟨hfound, hlocked⟩ := hJ.held id op t' hop (hsame.symm.trans hmutex)
      refine ⟨update_keeps (p := fun g => g.found = some id) hfound (after_found hallow), ?_⟩
      by_cases he : t' = t
      · subst he
        rw [Function.update_self]
        cases o with
        | unlock i =>
            obtain rfl : i = id := Option.some.inj (hallow.1.symm.trans hfound)
            exact absurd rfl hunlock
        | lock => rfl
        | _ => exact hlocked
      · rwa [Function.update_of_ne he]

/-- A write stays in the history. -/
theorem writes_mono (hx : exec t w o P.shared = some (r, s')) {c : WriteCall}
    (hc : c ∈ P.shared.writes) : c ∈ s'.writes := by
  rw [(exec_effect hx).writes]
  exact List.mem_append_right _ hc

theorem noted_step (hJ : Orderly G P) (hallow : (G t).Allows o)
    (hx : exec t w o P.shared = some (r, s')) {id : Uuid} {op' : Operation}
    (hop' : s'.opInProgress id = some op') (herror : op'.error ≠ .success) :
    ∃ c ∈ s'.writes, c.operationId = id ∧ c.Short := by
  rcases record_before hx hop' with rfl | ⟨op, hop, hrecord⟩
  · exact absurd hallow.2.2.2.2.1 herror
  · rcases Op.record_error hrecord with h | rfl | rfl
    · rw [h] at herror
      obtain ⟨c, hc, hid, hshort⟩ := hJ.noted id op hop herror
      exact ⟨c, writes_mono hx hc, hid, hshort⟩
    · -- The error is that of the handler's own write.
      obtain ⟨hfound, -, -, hunrecorded, -⟩ := hallow
      obtain ⟨c, hc, rfl, hshort⟩ := hJ.unnoted t hunrecorded
      refine ⟨c, writes_mono hx hc, ?_, hshort⟩
      exact Option.some.inj ((hJ.writer c hc).2.symm.trans hfound)
    · rw [insert_fresh hJ.toLatch hallow] at hop
      cases hop

theorem unnoted_step (hJ : Orderly G P) (hx : exec t w o P.shared = some (r, s')) {t' : Tid}
    (h : (Function.update G t ((G t).after o r) t').unrecorded = true) :
    ∃ c ∈ s'.writes, c.t = t' ∧ c.Short := by
  have hold : (G t').unrecorded = true → ∃ c ∈ s'.writes, c.t = t' ∧ c.Short := by
    intro h
    obtain ⟨c, hc, hct, hshort⟩ := hJ.unnoted t' h
    exact ⟨c, writes_mono hx hc, hct, hshort⟩
  by_cases he : t' = t
  · subst he
    rw [Function.update_self] at h
    cases o with
    | pwrite id fd data offset | abtIoPwrite id fd data offset =>
        refine ⟨⟨t', id, fd, offset, data.length, r⟩, ?_, rfl, ?_⟩
        · rw [(exec_effect hx).writes]
          exact List.mem_append_left _ (List.mem_singleton_self _)
        · simpa [Ghost.after, WriteCall.Short] using h
    | setError => cases h
    | _ => exact hold h
  · rw [Function.update_of_ne he] at h
    exact hold h

theorem told_step {g : Ghost} (hg : g.Valid) (htold : g.Told) (hallow : g.Allows o) :
    (g.after o r).Told := by
  intro a ha hkind
  rw [after_req] at hkind
  cases o with
  | respond b =>
      obtain rfl := Option.some.inj ha
      show g.erased = true ↔ b.ret = .errIo
      -- A handler without a record has erased none.
      have hmissed : g.missed = true → g.erased = false := by
        intro h
        by_contra hnot
        exact (hg.erased (by simpa using hnot)).1 (hg.missed h)
      cases b with
      | start => rcases hkind with h | h <;> exact absurd (hallow.1.symm.trans h) (by decide)
      | end_ => rcases hkind with h | h <;> exact absurd (hallow.1.symm.trans h) (by decide)
      | mmap ret =>
          rcases hallow.2.2 with ⟨rfl, -, h, -⟩ | ⟨rfl, h, -⟩ | ⟨rfl, -, h, -⟩ | ⟨rfl, -, h⟩
          · simp [h, Response.ret, Ret.success, Ret.errIo]
          · simp [hmissed h, Response.ret, Ret.errInvalidOpid, Ret.errIo]
          · simp [h, Response.ret]
          · simp [h, Response.ret, Ret.errMigration, Ret.errIo]
      | write ret =>
          rcases hallow.2.2 with ⟨rfl, -, -, h⟩ | ⟨rfl, h⟩ | ⟨rfl, h⟩
          · simp [h, Response.ret, Ret.success, Ret.errIo]
          · simp [hmissed h, Response.ret, Ret.errInvalidOpid, Ret.errIo]
          · simp [h, Response.ret]
  | erase id =>
      -- A record is erased before the answer.
      have hnone : g.answer = none := by
        rcases hallow.2.2 with ⟨-, -, h⟩ | ⟨-, -, h⟩ | ⟨h, -⟩
        · exact h
        · exact h
        · rcases hkind with h' | h' <;> exact absurd (h.symm.trans h') (by decide)
      have hsome : none = some a := hnone.symm.trans ha
      cases hsome
  | _ => exact htold a ha hkind

theorem unissued_bound (hJ : Orderly G P) (hx : exec t w o P.shared = some (r, s')) :
    ∃ n : Nat, ∀ id : Nat, n ≤ id → s'.issuedTo id = none := by
  obtain ⟨n, hn⟩ := hJ.fresh
  rw [(exec_effect hx).issuedTo]
  cases o with
  | newUuid =>
      refine ⟨max n (w.uuid + 1), fun id hid => ?_⟩
      have hne : id ≠ w.uuid := by omega
      simpa only [Op.issuedTo, Function.update_of_ne hne] using hn id (by omega)
  | _ => exact ⟨n, hn⟩

theorem among_update {ts : Finset Tid} (h : P.Among ts) (th : Thread Request Ans) :
    Pool.Among (insert t ts) ⟨s', Function.update P.thread t (some th)⟩ := by
  intro t' ht'
  rw [Finset.mem_insert, not_or] at ht'
  exact (Function.update_of_ne ht'.1 _ _).trans (h t' ht'.2)

theorem Orderly.step (hJ : Orderly G P) (hw : Watched strict G P)
    (ht : P.thread t = some ⟨q, .op o k⟩) (hx : exec t w o P.shared = some (r, s')) :
    Orderly (Function.update G t ((G t).after o r))
      { shared := s', thread := Function.update P.thread t (some ⟨q, k r⟩) } := by
  have hallow : (G t).Allows o := (hw.allows ht).1
  obtain ⟨ts, hts⟩ := hJ.among
  exact
    { toLatch := latch_keeps (watched_of_strict hw) hJ.toLatch ht hx
      held := fun _ _ _ hop hmutex => held_step hJ hallow hx hop hmutex
      noted := fun _ _ hop herror => noted_step hJ hallow hx hop herror
      unnoted := fun _ h => unnoted_step hJ hx h
      told := fun t' => by
        by_cases he : t' = t
        · subst he
          rw [Function.update_self]
          exact told_step (hJ.valid t') (hJ.told t') hallow
        · rw [Function.update_of_ne he]
          exact hJ.told t'
      fresh := unissued_bound hJ hx
      among := ⟨_, among_update hts _⟩ }

theorem Orderly.spawn (abtio : Bool) (hJ : Orderly G P) (ht : P.thread t = none)
    (hpermit : P.Permits t q) :
    Orderly (Function.update G t (.init q))
      { P with thread := Function.update P.thread t (some ⟨q, handle abtio q⟩) } := by
  have hG := hJ.absent t ht
  have hfound := init_field (q := q) (·.found) (fun _ _ => rfl) hG
  have hlocked := init_field (q := q) (·.locked) (fun _ _ => rfl) hG
  have hunrecorded := init_field (q := q) (·.unrecorded) (fun _ _ => rfl) hG
  obtain ⟨ts, hts⟩ := hJ.among
  exact
    { toLatch := latch_spawn abtio hJ.toLatch ht hpermit
      held := fun id op t' hop hmutex => by
        rw [hfound, hlocked]
        exact hJ.held id op t' hop hmutex
      noted := hJ.noted
      unnoted := fun t' h => hJ.unnoted t' (by rwa [hunrecorded] at h)
      told := fun t' => by
        by_cases he : t' = t
        · subst he
          rw [Function.update_self]
          exact fun a ha => by cases ha
        · rw [Function.update_of_ne he]
          exact hJ.told t'
      fresh := hJ.fresh
      among := ⟨_, among_update hts _⟩ }

end Step

theorem orderly_init (classes : ClassKey → Option MigrationClass) (fs : Fs) :
    Orderly (fun _ => .init (.end_ 0)) (.init classes fs) where
  toLatch := latch_init classes fs
  held _ _ _ hop := by cases hop
  noted _ _ hop := by cases hop
  unnoted _ h := by cases h
  told _ _ h := by cases h
  fresh := ⟨0, fun _ _ => rfl⟩
  among := ⟨∅, fun _ _ => rfl⟩

/-- A state that protocol-following clients lead to. -/
def System.Ordered (P : System) : Prop := ∃ G, Watched strict G P ∧ Orderly G P

theorem System.Ordered.step {abtio : Bool} {P P' : System} {t : Tid} {w : Outcome} (h : P.Ordered)
    (hn : System.next abtio P (.step t w) = some P') : P'.Ordered := by
  refine ghostInv_step (J := Orderly) h hn fun G q o k r s' hw hJ ht hx => ?_
  exact ⟨_, rfl, hJ.step hw ht hx⟩

theorem ordered_run (abtio : Bool) (classes : ClassKey → Option MigrationClass) (fs : Fs)
    {ls : List Step} {P : System}
    (h : System.Reaches abtio System.Protocol (.init classes fs) ls P) : P.Ordered := by
  refine ghostInv_run_from h (ghostInv_of_empty (fun _ => rfl) (orderly_init classes fs)) .init
    (handle_strict abtio) ?_ ?_
  · intro G P t q hpermit _ hJ hnone
    exact hJ.spawn abtio hnone hpermit
  · intro G P t w q o k r s' _ hw hJ ht hx
    exact ⟨_, rfl, hJ.step hw ht hx⟩

/-! ### Progress -/

section Progress
variable {abtio : Bool} {G : Tid → Ghost} {P : System} {t : Tid} {q : Request} {o : Op}
  {k : Ans o → Handler Unit}

/-- The handler has more to do. -/
def System.Busy (P : System) (t : Tid) : Prop :=
  ∃ q p, P.thread t = some ⟨q, p⟩ ∧ ¬ Over p

/-- The handler can do its next operation. -/
def System.CanMove (abtio : Bool) (P : System) (t : Tid) : Prop :=
  ∃ w P', System.next abtio P (.step t w) = some P'

/-- The record that a handler has found is there until the handler answers. -/
theorem Latch.there (hJ : Latch G P) {id : Uuid} (hfound : (G t).found = some id)
    (hanswer : (G t).answer = none) (herased : (G t).erased = false) :
    ∃ op, P.shared.opInProgress id = some op := by
  obtain ⟨t₁, hdrawn, hstored⟩ := hJ.found t id hfound
  rcases hJ.present t₁ id hdrawn hstored with h | ⟨t', hfound', herased'⟩
  · exact h
  · -- Another handler of the client that has erased it is neither an earlier nor a later one.
    exfalso
    obtain ⟨p, ht⟩ := hJ.live (t := t) (fun he => by rw [he] at hfound; cases hfound)
    obtain ⟨p', ht'⟩ := hJ.live (t := t') (fun he => by rw [he] at hfound'; cases hfound')
    obtain ⟨n, -, hn, -⟩ := hJ.owner hfound
    obtain ⟨n', -, hn', -⟩ := hJ.owner hfound'
    have hclient := hJ.same_client hfound hfound'
    obtain ⟨m, c⟩ := t
    obtain ⟨m', c'⟩ := t'
    obtain rfl : m = m' := hclient
    simp only at hn hn'
    rcases Nat.lt_trichotomy c c' with hlt | rfl | hgt
    · rcases hJ.earlier ht' (by omega) hlt with h | h
      · rw [hanswer] at h
        cases h
      · rw [hanswer] at h
        cases h
    · rw [herased] at herased'
      cases herased'
    · rw [hJ.earlier_kept ht (by omega) hgt] at herased'
      cases herased'

/-- An operation that neither throws nor waits can be done. -/
theorem Orderly.executes (hJ : Orderly G P) (hallow : (G t).Allows o) (hthrows : o.throws = false)
    (hfree : ∀ id op, o = .lock id → P.shared.opInProgress id = some op → op.mutex = none) :
    ∃ w r s', exec t w o P.shared = some (r, s') := by
  -- What a handler reads through its pointer is there.
  have hthere : ∀ id, (G t).found = some id → (G t).answer = none → (G t).erased = false →
      ∃ op, P.shared.opInProgress id = some op := fun id => hJ.there
  cases o with
  | newUuid =>
      obtain ⟨n, hn⟩ := hJ.fresh
      exact ⟨.succeed n, n, _, by simp only [exec, Outcome.succeed, hn n (Nat.le_refl n)]; rfl⟩
  | classAt key =>
      obtain ⟨classes, h, -⟩ := exec_classAt t (.succeed 0) key P.shared
      exact ⟨_, _, _, h⟩
  | openTrunc path mode =>
      refine ⟨.succeed 0, ?_⟩
      simp only [exec]
      split
      · exact ⟨_, _, rfl⟩
      · exact ⟨_, _, rfl⟩
  | mkdir path | vecAt v i | unlock id =>
      refine ⟨.succeed 0, ?_⟩
      simp only [exec]
      split
      · exact ⟨_, _, rfl⟩
      · exact ⟨_, _, rfl⟩
  | filesizeAt id i =>
      obtain ⟨op, hop⟩ := hthere id hallow.1 hallow.2.2.1 hallow.2.2.2
      refine ⟨.succeed 0, ?_⟩
      simp only [exec, hop]
      split
      · exact ⟨_, _, rfl⟩
      · exact ⟨_, _, rfl⟩
  | lock id =>
      obtain ⟨hfound, -, -, -, hanswer, herased⟩ := hallow
      obtain ⟨op, hop⟩ := hthere id hfound hanswer herased
      refine ⟨.succeed 0, ?_⟩
      simp only [exec, hop, hfree id op rfl hop, ↓reduceIte]
      exact ⟨_, _, rfl⟩
  | load id =>
      obtain ⟨op, hop⟩ := hthere id hallow.1 hallow.2.2.1 hallow.2.2.2.1
      refine ⟨.succeed 0, ?_⟩
      simp only [exec, hop, Option.map_some]
      exact ⟨_, _, rfl⟩
  | setError id e =>
      obtain ⟨hfound, -, hlocked, -, -, herased, -⟩ := hallow
      obtain ⟨op, hop, -⟩ := hJ.holder t id ⟨hfound, hlocked, herased⟩
      refine ⟨.succeed 0, ?_⟩
      simp only [exec, hop, Option.map_some]
      exact ⟨_, _, rfl⟩
  | closeFds id =>
      obtain ⟨hfound, -, -, -, hanswer, herased⟩ := hallow
      obtain ⟨op, hop⟩ := hthere id hfound hanswer herased
      refine ⟨.succeed 0, ?_⟩
      simp only [exec, hop, Option.map_some]
      exact ⟨_, _, rfl⟩
  | after id callback uargs =>
      obtain ⟨hfound, -, -, -, -, -, hanswer, herased⟩ := hallow
      obtain ⟨op, hop⟩ := hthere id hfound hanswer herased
      refine ⟨.succeed 0, ?_⟩
      simp only [exec, hop, Option.map_some]
      exact ⟨_, _, rfl⟩
  | ftruncate id fd size | mmap id fd size =>
      refine ⟨.succeed 0, ?_⟩
      simp only [exec]
      split
      · split
        · exact ⟨_, _, rfl⟩
        · exact ⟨_, _, rfl⟩
      · exact ⟨_, _, rfl⟩
  | expose segs =>
      have hsegs : segs ≠ [] := of_decide_eq_false hthrows
      refine ⟨.succeed 0, ?_⟩
      simp only [exec, hsegs, ↓reduceIte]
      exact ⟨_, _, rfl⟩
  | pull remote segs =>
      cases remote with
      | none => cases hthrows
      | some bulk =>
          have hmapped : bulk.all Mapping.isMapped ∧ segs.all (·.1.isMapped) := by
            simpa [Op.throws] using hthrows
          refine ⟨.succeed 0, ?_⟩
          simp only [exec, hmapped, and_self, ↓reduceIte]
          exact ⟨_, _, rfl⟩
  | _ => exact ⟨.succeed 0, _, _, rfl⟩

theorem canMove_of_exec (ht : P.thread t = some ⟨q, .op o k⟩)
    (hx : ∃ w r s', exec t w o P.shared = some (r, s')) : P.CanMove abtio t := by
  obtain ⟨w, r, s', hx⟩ := hx
  exact ⟨w, _, Pool.next_of_exec ht hx⟩

/-- The handler that holds the mutex of a record can go on. -/
theorem Orderly.holder_moves (abtio : Bool) (hJ : Orderly G P) (hw : Watched strict G P) {id : Uuid}
    (hfound : (G t).found = some id) (hlocked : (G t).locked = true) :
    P.Busy t ∧ P.CanMove abtio t := by
  obtain ⟨p, ht⟩ := hJ.live (t := t) (fun he => by rw [he] at hfound; cases hfound)
  have hobeys := hw t _ p ht
  cases p with
  | pure a =>
      have hdone : (G t).Done := hobeys
      rw [hdone.2.1] at hlocked
      cases hlocked
  | op o k =>
      have hallow : (G t).Allows o := hobeys.1.1
      -- Only `migrate_mmap` does what can throw, and it holds no mutex.
      have hthrows : o.throws = false := by
        cases o with
        | expose segs | pull remote segs =>
            exact absurd hallow.1 ((hJ.valid t).locked hlocked).2
        | _ => rfl
      refine ⟨⟨_, _, ht, by simp [Over, hthrows]⟩, canMove_of_exec ht ?_⟩
      refine hJ.executes hallow hthrows fun id' op ho => ?_
      subst ho
      exact absurd (hallow.2.2.1.symm.trans hlocked) (by decide)

/-- A handler that has more to do can go on, or waits for an earlier one of its client that
can. -/
theorem System.Ordered.moves (abtio : Bool) (hP : P.Ordered) (hbusy : P.Busy t) :
    P.CanMove abtio t ∨
      ∃ n < t.call, P.Busy ⟨t.client, n⟩ ∧ P.CanMove abtio ⟨t.client, n⟩ := by
  obtain ⟨G, hw, hJ⟩ := hP
  obtain ⟨q, p, ht, hover⟩ := hbusy
  cases p with
  | pure a => exact absurd trivial hover
  | op o k =>
      have hallow : (G t).Allows o := (hw.allows ht).1
      have hthrows : o.throws = false := by simpa [Over] using hover
      by_cases hfree : ∀ id op, o = .lock id → P.shared.opInProgress id = some op → op.mutex = none
      · exact Or.inl (canMove_of_exec ht (hJ.executes hallow hthrows hfree))
      · right
        push Not at hfree
        obtain ⟨id, op, rfl, hop, hmutex⟩ := hfree
        obtain ⟨t₁, hmutex⟩ := Option.ne_none_iff_exists'.mp hmutex
        obtain ⟨hfound₁, hlocked₁⟩ := hJ.held id op t₁ hop hmutex
        have hmoves := hJ.holder_moves abtio hw hfound₁ hlocked₁
        have hclient := hJ.same_client hallow.1 hfound₁
        obtain ⟨m, c⟩ := t
        obtain ⟨m₁, c₁⟩ := t₁
        obtain rfl : m = m₁ := hclient
        obtain ⟨n, -, hn, -⟩ := hJ.owner hallow.1
        obtain ⟨p₁, ht₁⟩ := hJ.live (t := ⟨m, c₁⟩)
          (fun he => by rw [he] at hfound₁; cases hfound₁)
        refine ⟨c₁, ?_, hmoves⟩
        simp only at hn
        show c₁ < c
        rcases Nat.lt_trichotomy c₁ c with hlt | rfl | hgt
        · exact hlt
        · rw [hallow.2.2.1] at hlocked₁
          cases hlocked₁
        · -- A later one is only there when this one has answered.
          rcases hJ.toLatch.earlier ht₁ (by omega) hgt with h | h
          · rw [hallow.2.2.2.2.1] at h
            cases h
          · rw [hallow.2.2.2.2.1] at h
            cases h

end Progress

/-- Steps of handlers only. -/
abbrev System.Drains (abtio : Bool) : System → List Step → System → Prop :=
  System.Reaches abtio fun _ l => l.Moves

theorem System.Ordered.drains {abtio : Bool} {P Q : System} {ls : List Step} (hP : P.Ordered)
    (h : System.Drains abtio P ls Q) : Q.Ordered := by
  refine h.invariant hP fun P l P' hP hl hn => ?_
  cases l with
  | spawn => cases hl
  | step t w => exact hP.step hn

/-- There is no deadlock, and no client waits for another one. In every state that
protocol-following clients lead to, a handler that has more to do can go on, or waits for an
earlier one of its client that can. The handlers take no infinite run of steps. Wherever none of
them can move, all are over, and there are steps that lead to such a state. -/
theorem handlers_finish (abtio : Bool) (classes : ClassKey → Option MigrationClass) (fs : Fs)
    {ls : List Step} {P : System}
    (h : System.Reaches abtio System.Protocol (.init classes fs) ls P) :
    (∀ t, P.Busy t → P.CanMove abtio t ∨
      ∃ n < t.call, P.Busy ⟨t.client, n⟩ ∧ P.CanMove abtio ⟨t.client, n⟩) ∧
    Acc (fun Q' Q => ∃ t w, System.next abtio Q (.step t w) = some Q') P ∧
    (∀ ls' Q, System.Drains abtio P ls' Q → (∀ t, ¬ Q.CanMove abtio t) → Q.AllOver) ∧
    ∃ ls' Q, System.Drains abtio P ls' Q ∧ Q.AllOver := by
  have hP := ordered_run abtio classes fs h
  have hstuck : ∀ Q : System, Q.Ordered → (∀ t, ¬ Q.CanMove abtio t) → Q.AllOver := by
    intro Q hQ hnone t q p ht
    by_contra hover
    rcases hQ.moves abtio ⟨q, p, ht, hover⟩ with hmove | ⟨n, -, -, hmove⟩
    · exact hnone _ hmove
    · exact hnone _ hmove
  obtain ⟨G, -, hJ⟩ := id hP
  obtain ⟨ts, hts⟩ := hJ.among
  refine ⟨fun t => hP.moves abtio, moves_acc hts, fun ls' Q hrun => hstuck Q (hP.drains hrun), ?_⟩
  refine Lib.drains (I := System.Ordered) hts hP (fun P t w P' hP hn => hP.step hn) ?_
  intro Q hQ hover
  by_contra hnone
  refine hover (hstuck Q hQ fun t hmove => ?_)
  obtain ⟨w, Q', hn⟩ := hmove
  exact hnone ⟨t, w, Q', hn⟩

/-- A `migrate_end` that has found its record, while the write before it holds the mutex. -/
private def contending : List Step :=
  .spawn ⟨0, 0⟩ (.start oneFile [2] [0]) ::
      List.replicate 10 (.step ⟨0, 0⟩ (.succeed 1)) ++
    .spawn ⟨0, 1⟩ (.write 1 0 0 [7, 8]) :: List.replicate 5 (.step ⟨0, 1⟩ (.succeed 0)) ++
    [.spawn ⟨0, 2⟩ (.end_ 1), .step ⟨0, 2⟩ (.succeed 0)]

theorem handlers_finish_contending : ∃ P,
    System.Reaches false System.Protocol (.init acceptAll .empty) contending P ∧
      System.next false P (.step ⟨0, 2⟩ (.succeed 0)) = none ∧
      (∀ t, P.Busy t → P.CanMove false t ∨
        ∃ n < t.call, P.Busy ⟨t.client, n⟩ ∧ P.CanMove false ⟨t.client, n⟩) ∧
      Acc (fun Q' Q => ∃ t w, System.next false Q (.step t w) = some Q') P ∧
      (∀ ls' Q, System.Drains false P ls' Q → (∀ t, ¬ Q.CanMove false t) → Q.AllOver) ∧
      ∃ ls' Q, System.Drains false P ls' Q ∧ Q.AllOver := by
  have hrun : (follow (System.next false) System.Protocol contending
      (.init acceptAll .empty)).any (fun P =>
        (System.next false P (.step ⟨0, 2⟩ (.succeed 0))).isNone) = true := by decide
  obtain ⟨P, hP, hwaits⟩ := (Option.any_eq_true _ _).mp hrun
  exact ⟨P, run_of_follow hP, Option.isNone_iff_eq_none.mp hwaits,
    handlers_finish false _ _ (run_of_follow hP)⟩

/-! ### When all handlers are over -/

/-- What is left when all handlers are over. Each has returned and answered, or is a
`migrate_mmap` that has thrown. The table has a record for exactly the operations that are in
progress. Its mutex is free, and its error says whether a write was short. -/
structure System.Drained (P : System) : Prop where
  answered : ∀ t q p, P.thread t = some ⟨q, p⟩ →
    p = .pure () ∧ P.shared.responses t ≠ none ∨ q.kind = .mmap ∧ P.shared.responses t = none
  table : ∀ id, P.shared.opInProgress id ≠ none ↔ P.InProgress id
  free : ∀ id op, P.shared.opInProgress id = some op → op.mutex = none
  error : ∀ id op, P.shared.opInProgress id = some op →
    (op.error ≠ .success ↔ ∃ c ∈ P.shared.writes, c.operationId = id ∧ c.Short)

section Over
variable {G : Tid → Ghost} {P : System} {t : Tid} {q : Request} {p : Handler Unit}

/-- A handler that is over has returned, or it is a `migrate_mmap` that has thrown before its
answer. -/
theorem over_cases (hw : Watched strict G P) (ht : P.thread t = some ⟨q, p⟩) (hover : Over p) :
    p = .pure () ∧ (G t).Done ∨
      (G t).req.kind = .mmap ∧ (G t).answer = none ∧ (G t).erased = false := by
  have hobeys := hw t q p ht
  cases p with
  | pure a => exact Or.inl ⟨rfl, hobeys⟩
  | op o k =>
      obtain ⟨hallow, hbehind⟩ := hobeys.1
      have hthrows : o.throws = true := hover
      have hnone : (G t).answer = none ∨ o.closing = true := by
        by_cases h : (G t).answer = none
        · exact Or.inl h
        · exact Or.inr (hbehind h)
      cases o with
      | expose segs | pull remote segs =>
          exact Or.inr ⟨hallow.1, hnone.resolve_right (by simp [Op.closing]), hallow.2.1⟩
      | _ => cases hthrows

/-- No handler that is over holds a mutex. -/
theorem over_unlocked (hw : Watched strict G P) (hJ : Orderly G P) (hover : P.AllOver) (t : Tid) :
    (G t).locked = false := by
  cases ht : P.thread t with
  | none =>
      rw [hJ.absent t ht]
      rfl
  | some th =>
      rcases over_cases hw ht (hover t th.req th.rest ht) with ⟨-, hdone⟩ | ⟨hkind, -⟩
      · exact hdone.2.1
      · by_contra hlocked
        exact ((hJ.valid t).locked (by simpa using hlocked)).2 hkind

/-- A handler behind a `migrate_start` that is over has erased its record exactly when its answer
says so. -/
theorem erased_iff_closes (hw : Watched strict G P) (hJ : Orderly G P) (hover : P.AllOver)
    (hstart : (G t).req.kind ≠ .start) :
    (G t).erased = true ↔ ∃ a, (G t).answer = some a ∧ a.closes := by
  cases ht : P.thread t with
  | none =>
      rw [hJ.absent t ht]
      simp [Ghost.init]
  | some th =>
      rcases over_cases hw ht (hover t th.req th.rest ht) with ⟨-, hdone⟩ | ⟨-, hanswer, herased⟩
      · obtain ⟨a, ha⟩ := Option.ne_none_iff_exists'.mp hdone.1
        have hkind := (hJ.valid t).answer_kind ha
        have htold := hJ.told t a ha
        have hsome : (∃ a', (G t).answer = some a' ∧ a'.closes) ↔ a.closes := by
          simp [ha]
        rw [hsome]
        cases a with
        | start => exact absurd hkind hstart
        | mmap ret => exact htold (Or.inr hkind)
        | write ret => exact htold (Or.inl hkind)
        | end_ ret status =>
            rcases hdone.2.2.2 hkind with hmissed | herased
            · rw [hJ.located t hkind] at hmissed
              cases hmissed
            · exact ⟨fun _ => trivial, fun _ => herased⟩
      · simp [hanswer, herased]

theorem Orderly.drained (hw : Watched strict G P) (hJ : Orderly G P) (hover : P.AllOver) :
    P.Drained where
  answered t q p ht := by
    rw [hJ.answer]
    rcases over_cases hw ht (hover t q p ht) with ⟨hp, hdone⟩ | ⟨hkind, hanswer, -⟩
    · exact Or.inl ⟨hp, hdone.1⟩
    · exact Or.inr ⟨by rw [← hJ.req t q p ht, hkind], hanswer⟩
  free id op hop := by
    by_contra hmutex
    obtain ⟨t, ht⟩ := Option.ne_none_iff_exists'.mp hmutex
    have hlocked := (hJ.held id op t hop ht).2
    rw [over_unlocked hw hJ hover t] at hlocked
    cases hlocked
  error id op hop := by
    refine ⟨hJ.noted id op hop, fun h => ?_⟩
    obtain ⟨c, hc, rfl, hshort⟩ := h
    rcases hJ.latch c hc hshort with hunrecorded | herror
    · -- What is not recorded yet belongs to a handler with the mutex.
      have hlocked := ((hJ.valid c.t).unrecorded hunrecorded).2
      rw [over_unlocked hw hJ hover c.t] at hlocked
      cases hlocked
    · rw [herror op hop]
      decide
  table id := by
    constructor
    · intro hsome
      obtain ⟨op, hop⟩ := Option.ne_none_iff_exists'.mp hsome
      obtain ⟨t, hdrawn, hstored⟩ := hJ.stored id op hop
      obtain ⟨p, ht⟩ := hJ.live (t := t) (fun he => by rw [he] at hdrawn; cases hdrawn)
      have hkind := (hJ.valid t).drawn (by simp [hdrawn])
      -- The handler that has stored the record has answered with its id.
      have hanswer : ∃ status, (G t).answer = some (.start .success status id) := by
        rcases over_cases hw ht (hover t _ p ht) with ⟨-, hdone⟩ | ⟨h, -⟩
        · obtain ⟨a, ha⟩ := Option.ne_none_iff_exists'.mp hdone.1
          obtain ⟨ret, status, id', rfl⟩ := (hJ.valid t).answer_of_start hkind ha
          obtain ⟨-, hdrawn', hret⟩ := (hJ.valid t).answerStart _ _ _ ha
          obtain rfl := Option.some.inj (hdrawn.symm.trans hdrawn')
          obtain rfl := hret.mpr hstored
          exact ⟨status, ha⟩
        · exact absurd (hkind.symm.trans h) (by decide)
      obtain ⟨status, hanswer⟩ := hanswer
      obtain ⟨m, _ | c⟩ := t
      · refine ⟨m, status, (hJ.answer _).trans hanswer, fun n a ha hcloses => ?_⟩
        rw [hJ.answer] at ha
        obtain ⟨p', ht'⟩ := hJ.live (t := ⟨m, n + 1⟩) (fun he => by rw [he] at ha; cases ha)
        have hbehind := hJ.protocol _ _ _ ht'
        have hstart : (G ⟨m, n + 1⟩).req.kind ≠ .start := by
          intro h
          obtain ⟨-, -, -, -, ⟨h', -⟩ | ⟨h', -⟩ | ⟨h', -⟩⟩ := hbehind
          all_goals exact absurd (h.symm.trans h') (by decide)
        have herased := (erased_iff_closes hw hJ hover hstart).mpr ⟨a, ha, hcloses⟩
        obtain ⟨id', hfound⟩ := Option.ne_none_iff_exists'.mp ((hJ.valid _).erased herased).1
        obtain ⟨_, _, -, hstart', -⟩ := hJ.owner hfound
        rw [hJ.answer, hanswer] at hstart'
        obtain rfl := (Response.start.inj (Option.some.inj hstart')).2.2
        rw [hJ.erased _ _ hfound herased] at hop
        cases hop
      · obtain ⟨-, -, -, -, ⟨h, -⟩ | ⟨h, -⟩ | ⟨h, -⟩⟩ := hJ.protocol _ _ _ ht
        all_goals exact absurd (hkind.symm.trans h) (by decide)
    · rintro ⟨m, status, hstart, hopen⟩
      rw [hJ.answer] at hstart
      obtain ⟨-, hdrawn, hret⟩ := (hJ.valid _).answerStart _ _ _ hstart
      rcases hJ.present _ id hdrawn (hret.mp rfl) with ⟨op, hop⟩ | ⟨t', hfound, herased⟩
      · simp [hop]
      · exfalso
        -- The handler that has erased the record has said so in its answer.
        obtain ⟨n, _, hn, -, hdrawn'⟩ := hJ.owner hfound
        have hclient : (⟨m, 0⟩ : Tid) = ⟨t'.client, 0⟩ :=
          Option.some.inj ((hJ.issued hdrawn).symm.trans (hJ.issued hdrawn'))
        obtain ⟨m', c⟩ := t'
        simp only at hn hclient
        obtain rfl := (Tid.mk.inj hclient).1
        subst hn
        have hkind : (G ⟨m, n + 1⟩).req.kind ≠ .start := by
          intro h
          have htarget := (hJ.valid _).target id hfound
          cases hq : (G ⟨m, n + 1⟩).req <;> rw [hq] at htarget h <;> cases h
          cases htarget
        obtain ⟨a, ha, hcloses⟩ := (erased_iff_closes hw hJ hover hkind).mp herased
        exact hopen n a ((hJ.answer _).trans ha) hcloses

end Over

/-- In every state that protocol-following clients lead to and in which all handlers are over, the
table has exactly the operations in progress, with free mutexes, and errors that tell of short
writes. -/
theorem drained_table (abtio : Bool) (classes : ClassKey → Option MigrationClass) (fs : Fs)
    {ls : List Step} {P : System}
    (h : System.Reaches abtio System.Protocol (.init classes fs) ls P) (hover : P.AllOver) :
    P.Drained := by
  obtain ⟨G, hw, hJ⟩ := ordered_run abtio classes fs h
  exact hJ.drained hw hover

/-- The step starts no handler but those in `ts`. -/
def startsIn (ts : List Tid) : Step → Bool
  | .spawn t _ => decide (t ∈ ts)
  | .step _ _ => true

/-- A write of which the provider makes one byte, with the migration left there. -/
private def leftShort : List Step :=
  .spawn ⟨0, 0⟩ (.start oneFile [2] [0]) ::
      List.replicate 10 (.step ⟨0, 0⟩ (.succeed 1)) ++
    .spawn ⟨0, 1⟩ (.write 1 0 0 [7, 8]) :: List.replicate 5 (.step ⟨0, 1⟩ (.succeed 0)) ++
    List.replicate 3 (.step ⟨0, 1⟩ { Outcome.succeed 0 with io := .short 1 })

theorem drained_table_leftShort : ∃ P,
    System.Reaches false System.Protocol (.init acceptAll .empty) leftShort P ∧ P.AllOver ∧
      (P.shared.opInProgress 1).isSome ∧ P.Drained := by
  have hrun : (follow (System.next false)
      (fun P l => P.Protocol l ∧ startsIn [⟨0, 0⟩, ⟨0, 1⟩] l = true) leftShort
      (.init acceptAll .empty)).any (fun P =>
        P.overIn [⟨0, 0⟩, ⟨0, 1⟩] && (P.shared.opInProgress 1).isSome) = true := by decide
  obtain ⟨P, hP, hend⟩ := (Option.any_eq_true _ _).mp hrun
  obtain ⟨hover, hrecord⟩ := Bool.and_eq_true_iff.mp hend
  have habsent := run_absent (· ∈ [(⟨0, 0⟩ : Tid), ⟨0, 1⟩]) (run_of_follow hP) (fun _ => rfl)
    fun P t q hl => of_decide_eq_true hl.2
  have hprotocol : System.Reaches false System.Protocol (.init acceptAll .empty) leftShort P :=
    (run_of_follow hP).weaken fun _ _ hl => hl.1
  have hallover := allOver_of_overIn habsent hover
  exact ⟨P, hprotocol, hallover, hrecord, drained_table false _ _ hprotocol hallover⟩

end Remi
