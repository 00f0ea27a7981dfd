import Remi.Proofs.Discipline
import Remi.Proofs.Exec
import Remi.Server.System

/-!
# `Remi.Proofs.Owned`: whose answers, ids and descriptors they are

`Owned` holds in every state of every run, and the invariants of the other modules are built
on it. The ghost states agree with the answers sent. An id belongs to the handler that has
drawn it, a descriptor to the handler that has opened it, and the descriptors of a record
belong to the handler of its id. Two records thus share no descriptor.
-/

set_option autoImplicit false

namespace Remi

open Remi.Lib

structure Owned (G : Tid → Ghost) (P : System) : Prop where
  valid : ∀ t, (G t).Valid
  absent : ∀ t, P.thread t = none → G t = .init (.end_ 0)
  req : ∀ t q p, P.thread t = some ⟨q, p⟩ → (G t).req = q
  answer : ∀ t, P.shared.responses t = (G t).answer
  drawn : ∀ t id, P.shared.issuedTo id = some t ↔ (G t).drawn = some id
  unopened : ∀ t n, P.shared.opened t ≤ n → P.shared.descriptors ⟨t, n⟩ = none
  mine : ∀ t fd, fd ∈ (G t).mine → fd.owner = t
  record : ∀ id op fd, P.shared.opInProgress id = some op → fd ∈ op.fds →
    P.shared.issuedTo id = some fd.owner

/-! ### What one operation leaves of a ghost state -/

section Ghosts
variable {g : Ghost} {o : Op} {r : Ans o}

theorem after_req : (g.after o r).req = g.req := by
  cases o <;> rfl

theorem after_drawn (hallow : g.Allows o) {id : Uuid} (h : g.drawn = some id) :
    (g.after o r).drawn = some id := by
  cases o with
  | newUuid => exact absurd (hallow.2.symm.trans h) (by simp)
  | _ => exact h

theorem after_stored (h : g.stored = true) : (g.after o r).stored = true := by
  cases o with
  | insert => rfl
  | _ => exact h

theorem after_found (hallow : g.Allows o) {id : Uuid} (h : g.found = some id) :
    (g.after o r).found = some id := by
  cases o with
  | find i => exact absurd (hallow.2.1.symm.trans h) (by simp)
  | _ => exact h

theorem after_erased (h : g.erased = true) : (g.after o r).erased = true := by
  cases o with
  | erase => rfl
  | _ => exact h

theorem after_written (h : g.written = true) : (g.after o r).written = true := by
  cases o with
  | pwrite | abtIoPwrite => rfl
  | _ => exact h

theorem after_seen {e : Ret} (h : g.seen = some e) : (g.after o r).seen = some e := by
  cases o with
  | load => simp [Ghost.after, h]
  | _ => exact h

theorem after_missed (hallow : g.Allows o) (h : g.missed = true) :
    (g.after o r).missed = true := by
  cases o with
  | find i => exact absurd (hallow.2.2.2.2.symm.trans h) (by decide)
  | _ => exact h

theorem after_closed (h : g.closed = true) : (g.after o r).closed = true := by
  cases o with
  | closeFds => rfl
  | _ => exact h

theorem after_answer (h : g.answer ≠ none) : (g.after o r).answer ≠ none := by
  cases o with
  | respond a => simp [Ghost.after]
  | _ => exact h

/-- A handler that has answered does not lock a record. -/
theorem after_unlocked (hallow : g.Allows o) (hanswer : g.answer ≠ none)
    (h : g.locked = false) : (g.after o r).locked = false := by
  cases o with
  | lock => exact absurd hallow.2.2.2.2.1 hanswer
  | unlock => rfl
  | _ => exact h

end Ghosts

section
variable {G : Tid → Ghost} {P : System} {t : Tid} {w : Outcome} {q : Request} {o : Op}
  {k : Ans o → Handler Unit} {r : Ans o} {s' : Provider}

/-- The ghost states after a step of `t`, where all of them keep `p`. -/
theorem update_keeps {p : Ghost → Prop} {t' : Tid} (h : p (G t'))
    (hstep : p (G t) → p ((G t).after o r)) :
    p (Function.update G t ((G t).after o r) t') := by
  by_cases he : t' = t
  · subst he
    rw [Function.update_self]
    exact hstep h
  · rwa [Function.update_of_ne he]

/-- The ghost state of a new handler differs from that of an absent one in its request. -/
theorem init_field {β : Type} (f : Ghost → β) (hf : ∀ q q', f (.init q) = f (.init q'))
    (hG : G t = .init (.end_ 0)) (t' : Tid) :
    f (Function.update G t (.init q) t') = f (G t') := by
  by_cases he : t' = t
  · subst he
    rw [Function.update_self, hG]
    exact hf _ _
  · rw [Function.update_of_ne he]

theorem Owned.issued (hJ : Owned G P) {id : Uuid} (h : (G t).drawn = some id) :
    P.shared.issuedTo id = some t :=
  (hJ.drawn t id).mpr h

/-- The records of two ids share no descriptor. -/
theorem Owned.record_inj (hJ : Owned G P) {id id' : Uuid} {op op' : Operation} {fd : Fd}
    (hop : P.shared.opInProgress id = some op) (hop' : P.shared.opInProgress id' = some op')
    (hfd : fd ∈ op.fds) (hfd' : fd ∈ op'.fds) : id = id' := by
  have h := (hJ.drawn _ _).mp (hJ.record id op fd hop hfd)
  have h' := (hJ.drawn _ _).mp (hJ.record id' op' fd hop' hfd')
  exact Option.some.inj (h.symm.trans h')

theorem owned_init (classes : ClassKey → Option MigrationClass) (fs : Fs) :
    Owned (fun _ => .init (.end_ 0)) (.init classes fs) where
  valid _ := Ghost.valid_init _
  absent _ _ := rfl
  req _ _ _ ht := by cases ht
  answer _ := rfl
  drawn _ _ := ⟨nofun, nofun⟩
  unopened _ _ _ := rfl
  mine _ _ h := by cases h
  record _ _ _ h := by cases h

theorem owned_spawn (abtio : Bool) (hJ : Owned G P) (ht : P.thread t = none) :
    Owned (Function.update G t (.init q))
      { P with thread := Function.update P.thread t (some ⟨q, handle abtio q⟩) } where
  valid t' := by
    by_cases he : t' = t
    · subst he
      rw [Function.update_self]
      exact Ghost.valid_init q
    · rw [Function.update_of_ne he]
      exact hJ.valid t'
  absent t' h := by
    obtain ⟨hne, hnone⟩ := thread_update_none h
    rw [Function.update_of_ne hne]
    exact hJ.absent t' hnone
  req t' q' p' ht' := by
    rcases thread_update ht' with ⟨rfl, rfl, -⟩ | ⟨hne, hold⟩
    · rw [Function.update_self]
      rfl
    · rw [Function.update_of_ne hne]
      exact hJ.req t' q' p' hold
  answer t' := by
    rw [init_field (·.answer) (fun _ _ => rfl) (hJ.absent t ht)]
    exact hJ.answer t'
  drawn t' id := by
    rw [init_field (·.drawn) (fun _ _ => rfl) (hJ.absent t ht)]
    exact hJ.drawn t' id
  unopened := hJ.unopened
  mine t' fd h := by
    rw [init_field (·.mine) (fun _ _ => rfl) (hJ.absent t ht)] at h
    exact hJ.mine t' fd h
  record := hJ.record

theorem responses_mono (hJ : Owned G P) (hallow : (G t).Allows o)
    (hx : exec t w o P.shared = some (r, s')) {t' : Tid} {a : Response}
    (h : P.shared.responses t' = some a) : s'.responses t' = some a := by
  rw [(exec_effect hx).responses]
  cases o with
  | respond response =>
      have hnone : (G t).answer = none := by
        cases response <;> exact hallow.2.1
      have hne : t' ≠ t := by
        rintro rfl
        rw [hJ.answer, hnone] at h
        cases h
      simpa only [Op.responses, Function.update_of_ne hne] using h
  | _ => exact h

theorem answer_step (hJ : Owned G P) (hx : exec t w o P.shared = some (r, s')) (t' : Tid) :
    s'.responses t' = (Function.update G t ((G t).after o r) t').answer := by
  rw [(exec_effect hx).responses]
  by_cases he : t' = t
  · subst he
    rw [Function.update_self]
    cases o with
    | respond => simp [Op.responses, Ghost.after]
    | _ => exact hJ.answer t'
  · rw [Function.update_of_ne he]
    cases o with
    | respond => simpa only [Op.responses, Function.update_of_ne he] using hJ.answer t'
    | _ => exact hJ.answer t'

/-- The ids drawn, in the ghost state and in the provider, after a step. -/
theorem Owned.drawn_step (hJ : Owned G P) (hw : Watched discipline G P)
    (ht : P.thread t = some ⟨q, .op o k⟩) (hx : exec t w o P.shared = some (r, s'))
    (t' : Tid) (id : Uuid) :
    s'.issuedTo id = some t' ↔
      (Function.update G t ((G t).after o r) t').drawn = some id := by
  have hallow : (G t).Allows o := hw.allows ht
  -- Both sides change with `newUuid` only. It gives an id that nobody has drawn to a handler that
  -- has drawn none.
  by_cases ho : o = .newUuid
  · subst ho
    have hnone : (G t).drawn = none := hallow.2
    simp only [exec] at hx
    split at hx
    · rename_i hnew
      obtain ⟨rfl, rfl⟩ := Prod.mk.inj (Option.some.inj hx)
      dsimp only
      by_cases hid : id = w.uuid
      · subst hid
        rw [Function.update_self]
        by_cases he : t' = t
        · subst he
          simp [Ghost.after]
        · rw [Function.update_of_ne he, ← hJ.drawn, hnew]
          simp [Ne.symm he]
      · rw [Function.update_of_ne hid]
        by_cases he : t' = t
        · subst he
          rw [hJ.drawn, hnone]
          simp [Ghost.after, Ne.symm hid]
        · rw [Function.update_of_ne he, hJ.drawn]
    · cases hx
  · have hissued : s'.issuedTo = P.shared.issuedTo := by
      rw [(exec_effect hx).issuedTo]
      cases o <;> first | rfl | exact absurd rfl ho
    have hsame : ((G t).after o r).drawn = (G t).drawn := by
      cases o <;> first | rfl | exact absurd rfl ho
    rw [hissued, hJ.drawn]
    by_cases he : t' = t
    · subst he
      rw [Function.update_self, hsame]
    · rw [Function.update_of_ne he]

/-- A handler gets only descriptors of its own. -/
theorem mine_step (hx : exec t w o P.shared = some (r, s')) {fd : Fd}
    (hfd : fd ∈ ((G t).after o r).mine) : fd ∈ (G t).mine ∨ fd.owner = t := by
  cases o with
  | openTrunc p mode =>
      rcases List.mem_append.mp hfd with hold | hnew
      · exact Or.inl hold
      · rcases exec_openTrunc hx with ⟨rfl, -⟩ | ⟨rfl, -⟩
        · cases hnew
        · rw [Option.toList_some, List.mem_singleton] at hnew
          subst hnew
          exact Or.inr rfl
  | close fd' => exact Or.inl (List.mem_of_mem_tail hfd)
  | insert id op => cases hfd
  | _ => exact Or.inl hfd

/-- A record keeps its descriptors, and a new one has those of its handler. -/
theorem fds_step (hw : Watched discipline G P) (ht : P.thread t = some ⟨q, .op o k⟩)
    (hx : exec t w o P.shared = some (r, s')) {id : Uuid} {op' : Operation}
    (hop' : s'.opInProgress id = some op') :
    (∃ op, P.shared.opInProgress id = some op ∧ op'.fds = op.fds) ∨
      o = .insert id op' ∧ (G t).drawn = some id ∧ op'.fds = (G t).mine := by
  have hallow : (G t).Allows o := hw.allows ht
  rw [(exec_effect hx).record] at hop'
  by_cases hins : o = .insert id op'
  · subst hins
    obtain ⟨-, hdrawn, -, -, -, -, -, hfds⟩ := hallow
    exact Or.inr ⟨rfl, hdrawn, hfds⟩
  · cases hop : P.shared.opInProgress id with
    | none =>
        rw [hop] at hop'
        exact absurd (Op.record_none hop') hins
    | some op =>
        rw [hop] at hop'
        exact Or.inl ⟨op, rfl, ((Op.record_fds hop').resolve_right hins).1⟩

theorem owned_step (hw : Watched discipline G P) (hJ : Owned G P)
    (ht : P.thread t = some ⟨q, .op o k⟩) (hx : exec t w o P.shared = some (r, s')) :
    Owned (Function.update G t ((G t).after o r))
      { shared := s', thread := Function.update P.thread t (some ⟨q, k r⟩) } where
  valid t' := update_keeps (p := Ghost.Valid) (hJ.valid t') fun h => h.after (hw.allows ht) r
  absent t' h := by
    obtain ⟨hne, hnone⟩ := thread_update_none h
    rw [Function.update_of_ne hne]
    exact hJ.absent t' hnone
  req t' q' p' ht' := by
    rcases thread_update ht' with ⟨rfl, rfl, -⟩ | ⟨hne, hold⟩
    · rw [Function.update_self, after_req]
      exact hJ.req _ _ _ ht
    · rw [Function.update_of_ne hne]
      exact hJ.req t' q' p' hold
  answer := answer_step hJ hx
  drawn := hJ.drawn_step hw ht hx
  unopened t' n hn := by
    dsimp only at hn ⊢
    cases hd : s'.descriptors ⟨t', n⟩ with
    | none => rfl
    | some p =>
        have hle : P.shared.opened t' ≤ s'.opened t' := opened_step hx t'
        rcases descriptors_step hx hd with hold | ⟨⟨path, mode, rfl, -⟩, hfd⟩
        · rw [hJ.unopened t' n (by omega)] at hold
          cases hold
        · obtain ⟨rfl, rfl⟩ := Fd.mk.inj hfd
          rcases exec_openTrunc hx with ⟨-, rfl⟩ | ⟨-, -, rfl⟩
          · rw [hJ.unopened _ _ (Nat.le_refl _)] at hd
            cases hd
          · simp only [Function.update_self] at hn
            omega
  mine t' fd h := by
    by_cases he : t' = t
    · subst he
      rw [Function.update_self] at h
      exact (mine_step hx h).elim (hJ.mine _ fd) id
    · rw [Function.update_of_ne he] at h
      exact hJ.mine t' fd h
  record id op' fd hop' hfd := by
    rcases fds_step hw ht hx hop' with ⟨op, hop, hfds⟩ | ⟨rfl, hdrawn, hfds⟩
    · rw [hfds] at hfd
      have hid := hJ.record id op fd hop hfd
      rcases issuedTo_step hx id with hsame | ⟨-, -, hnone, -⟩
      · exact hsame.trans hid
      · rw [hid] at hnone
        cases hnone
    · rw [hfds] at hfd
      rw [hJ.mine t fd hfd, (exec_effect hx).issuedTo]
      exact (hJ.drawn t id).mpr hdrawn

end

end Remi
