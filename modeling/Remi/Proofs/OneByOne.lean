import Remi.Proofs.Owned

/-!
# `Remi.Proofs.OneByOne`: handlers that run one at a time

A handler is over when it has returned or thrown. `System.Gentle` is the condition on the
steps of a run under which a provider loses nothing: a handler starts when all others are
over, the calls of `migrate_mmap` succeed, no request of `migrate_write` is refused for an
operation with files, and no id is drawn that a request has named before.

`Sequenced` is what then holds of the operation records. `Remi.Proofs.Conserved` derives
from it what becomes of the descriptors and segments.
-/

set_option autoImplicit false

namespace Remi

open Remi.Lib

/-- The operation throws. No state and no world makes it return. -/
def Op.throws : Op → Bool
  | .expose segs => segs = []
  | .pull remote segs =>
    match remote with
    | none => true
    | some bulk => !(bulk.all Mapping.isMapped && segs.all (·.1.isMapped))
  | _ => false

/-- The handler has returned or thrown. -/
def Over : Handler Unit → Prop
  | .pure _ => True
  | .op o _ => o.throws = true

/-- All handlers are over. -/
def System.AllOver (P : System) : Prop := ∀ t q rest, P.thread t = some ⟨q, rest⟩ → Over rest

/-- What a gentle step asks of an operation and its answer, in a handler of the request
`q`. -/
def System.Spares (P : System) (q : Request) : (o : Op) → Ans o → Prop
  | .newUuid, id => ∀ t q' rest, P.thread t = some ⟨q', rest⟩ → q'.target ≠ some id
  | .ftruncate _ _ _, ok => ok = true
  | .mmap _ _ _, a => a ≠ .failed
  | .pull _ _, n => ∀ id op, q.target = some id → P.shared.opInProgress id = some op →
      n % sizeModulus = op.filesizes.sum % sizeModulus
  | .msync _, ok => ok = true
  | .erase id, _ => q.kind = .write →
      ∀ op, P.shared.opInProgress id = some op → op.fds = []
  | _, _ => True

/-- The condition on a step. -/
def System.Gentle (P : System) : Step → Prop
  | .spawn _ _ => P.AllOver
  | .step t w => ∀ q o k r s', P.thread t = some ⟨q, .op o k⟩ →
      exec t w o P.shared = some (r, s') → P.Spares q o r

/-- The invariant of handlers that run one at a time. -/
structure Sequenced (G : Tid → Ghost) (P : System) : Prop extends Owned G P where
  single : ∀ t t' q q' rest rest', P.thread t = some ⟨q, rest⟩ →
    P.thread t' = some ⟨q', rest'⟩ → ¬ Over rest → ¬ Over rest' → t = t'
  /-- An id has no record before its handler stores one. -/
  unstored : ∀ t id, (G t).drawn = some id → (G t).stored = false →
    P.shared.opInProgress id = none
  unissued : ∀ id, P.shared.issuedTo id = none → P.shared.opInProgress id = none
  /-- An id that was found missing or whose record was erased gets no other record. -/
  dead : ∀ t id, (G t).req.target = some id → (G t).missed = true ∨ (G t).erased = true →
    P.shared.opInProgress id = none ∧ ∀ t', (G t').drawn = some id → (G t').answer ≠ none
  closer : ∀ t id op, P.shared.opInProgress id = some op → op.closedBy = some t →
    (G t).closed = true ∧ (G t).found = some id
  closing : ∀ t id, (G t).closed = true → (G t).found = some id → (G t).erased = false →
    ∃ op, P.shared.opInProgress id = some op ∧ op.closedBy ≠ none
  looked : ∀ t q rest id n, P.thread t = some ⟨q, rest⟩ → ¬ Over rest → q.kind = .mmap →
    (G t).found = some id → (G t).total = some n → (G t).erased = false →
    ∃ op, P.shared.opInProgress id = some op ∧ n = op.filesizes.sum % sizeModulus
  unfailed : ∀ t, (G t).failed = false

section
variable {G : Tid → Ghost} {P : System} {t : Tid} {w : Outcome} {q : Request} {o : Op}
  {k : Ans o → Handler Unit} {r : Ans o} {s' : Provider}

theorem exec_throws (h : o.throws = true) (s : Provider) : exec t w o s = none := by
  cases o with
  | expose segs =>
      have hsegs : segs = [] := of_decide_eq_true h
      simp [exec, hsegs]
  | pull remote segs =>
      cases remote with
      | none => rfl
      | some bulk =>
          simp only [Op.throws, Bool.not_eq_true', Bool.and_eq_false_iff] at h
          have hbad : ¬ (bulk.all Mapping.isMapped = true ∧ segs.all (·.1.isMapped) = true) := by
            rintro ⟨hbulk, hsegs⟩
            rcases h with h | h
            · exact absurd (h.symm.trans hbulk) (by decide)
            · exact absurd (h.symm.trans hsegs) (by decide)
          simp only [exec, if_neg hbad]
  | _ => cases h

/-- A handler that does an operation is not over. -/
theorem not_over (hx : exec t w o P.shared = some (r, s')) : ¬ Over (.op o k) := by
  intro hover
  rw [exec_throws hover] at hx
  cases hx

/-- A `migrate_start` that is over has answered, and a `migrate_end` has erased its record
or found none. -/
theorem Sequenced.over_done (hJ : Sequenced G P) (hw : Watched discipline G P)
    {rest : Handler Unit} (ht : P.thread t = some ⟨q, rest⟩) (hover : Over rest) :
    (G t).Done ∨ q.kind = .mmap := by
  cases rest with
  | pure _ => exact Or.inl (hw t q _ ht)
  | op o k =>
      have hallow : (G t).Allows o := hw.allows ht
      rw [← hJ.req t q _ ht]
      cases o with
      | expose segs => exact Or.inr hallow.1
      | pull remote segs => exact Or.inr hallow.1
      | _ => cases hover

/-- A `migrate_start` that has drawn an id has answered, when another handler moves. -/
theorem Sequenced.drawn_answered (hJ : Sequenced G P) (hw : Watched discipline G P)
    (ht : P.thread t = some ⟨q, .op o k⟩) (hx : exec t w o P.shared = some (r, s'))
    {t' : Tid} (hne : t' ≠ t) {id : Uuid} (hdrawn : (G t').drawn = some id) :
    (G t').answer ≠ none := by
  cases ht' : P.thread t' with
  | none =>
      rw [hJ.absent t' ht'] at hdrawn
      cases hdrawn
  | some th =>
      obtain ⟨q', rest'⟩ := th
      have hover : Over rest' := by
        by_contra hnot
        exact hne (hJ.single t' t q' q rest' _ ht' ht hnot (not_over hx))
      rcases hJ.over_done hw ht' hover with hdone | hkind
      · exact hdone.1
      · have hstart := (hJ.valid t').drawn (by simp [hdrawn])
        rw [hJ.req t' q' rest' ht', hkind] at hstart
        cases hstart

/-- A `migrate_end` that is not the one moving has erased the record it closed. -/
theorem Sequenced.closed_erased (hJ : Sequenced G P) (hw : Watched discipline G P)
    (ht : P.thread t = some ⟨q, .op o k⟩) (hx : exec t w o P.shared = some (r, s'))
    {t' : Tid} (hne : t' ≠ t) (hclosed : (G t').closed = true) : (G t').erased = true := by
  obtain ⟨hkind, hfound⟩ := (hJ.valid t').closed hclosed
  cases ht' : P.thread t' with
  | none =>
      rw [hJ.absent t' ht'] at hclosed
      cases hclosed
  | some th =>
      obtain ⟨q', rest'⟩ := th
      have hover : Over rest' := by
        by_contra hnot
        exact hne (hJ.single t' t q' q rest' _ ht' ht hnot (not_over hx))
      rcases hJ.over_done hw ht' hover with ⟨-, -, -, hend⟩ | hmmap
      · rcases hend hkind with hmissed | herased
        · exact absurd ((hJ.valid t').missed hmissed) hfound
        · exact herased
      · rw [hJ.req t' q' rest' ht', hmmap] at hkind
        cases hkind

/-! ### The steps -/

/-- An id that a handler has drawn after a step, it had drawn before or has just drawn. -/
theorem drawn_or_new {t₁ : Tid} {id : Uuid}
    (h : (Function.update G t ((G t).after o r) t₁).drawn = some id) :
    (G t₁).drawn = some id ∨ t₁ = t ∧ o = .newUuid ∧ HEq r id := by
  by_cases he : t₁ = t
  · subst he
    rw [Function.update_self] at h
    cases o with
    | newUuid => exact Or.inr ⟨rfl, rfl, heq_of_eq (Option.some.inj h)⟩
    | _ => exact Or.inl h
  · rw [Function.update_of_ne he] at h
    exact Or.inl h

/-- A handler that has missed or erased its record after a step had done so before, or does
so now. -/
theorem dead_or_now (hvalid : (G t).Valid) (hallow : (G t).Allows o) {t' : Tid} {id : Uuid}
    (htarget : (G t').req.target = some id)
    (h : (Function.update G t ((G t).after o r) t').missed = true ∨
      (Function.update G t ((G t).after o r) t').erased = true) :
    ((G t').missed = true ∨ (G t').erased = true) ∨
      t' = t ∧ (o = .find id ∧ HEq r false ∨ o = .erase id) := by
  by_cases he : t' = t
  · subst he
    rw [Function.update_self] at h
    cases o with
    | find i =>
        obtain rfl : i = id := Option.some.inj (hallow.1.symm.trans htarget)
        cases r
        · exact Or.inr ⟨rfl, Or.inl ⟨rfl, HEq.rfl⟩⟩
        · rcases h with h | h
          · cases h
          · exact Or.inl (Or.inr h)
    | erase i =>
        rcases h with h | -
        · exact Or.inl (Or.inl h)
        · obtain rfl : i = id :=
            Option.some.inj ((hvalid.target i hallow.1).symm.trans htarget)
          exact Or.inr ⟨rfl, Or.inr rfl⟩
    | _ => exact Or.inl h
  · rw [Function.update_of_ne he] at h
    exact Or.inl h

theorem Sequenced.dead_step (hJ : Sequenced G P) (hw : Watched discipline G P)
    (hspares : P.Spares q o r) (ht : P.thread t = some ⟨q, .op o k⟩)
    (hx : exec t w o P.shared = some (r, s')) {t' : Tid} {id : Uuid}
    (htarget : (G t').req.target = some id)
    (h : (Function.update G t ((G t).after o r) t').missed = true ∨
      (Function.update G t ((G t).after o r) t').erased = true) :
    s'.opInProgress id = none ∧
      ∀ t₁, (Function.update G t ((G t).after o r) t₁).drawn = some id →
        (Function.update G t ((G t).after o r) t₁).answer ≠ none := by
  have hallow : (G t).Allows o := hw.allows ht
  have hkeep : ∀ t₁, (G t₁).answer ≠ none →
      (Function.update G t ((G t).after o r) t₁).answer ≠ none :=
    fun t₁ h₁ => update_keeps (p := fun g => g.answer ≠ none) h₁ after_answer
  rcases dead_or_now (hJ.valid t) hallow htarget h with hbefore | ⟨rfl, hnow⟩
  · obtain ⟨hnone, hanswered⟩ := hJ.dead t' id htarget hbefore
    refine ⟨?_, fun t₁ h₁ => ?_⟩
    · rw [(exec_effect hx).record, hnone]
      cases hop : o.record t w id none with
      | none => rfl
      | some op =>
          -- Only the handler of the id could store a record, and it has answered.
          obtain rfl := Op.record_none hop
          exact absurd hallow.2.2.2.1 (hanswered t hallow.2.1)
    · rcases drawn_or_new h₁ with hold | ⟨rfl, rfl, hr⟩
      · exact hkeep t₁ (hanswered t₁ hold)
      · -- The id that is drawn would be one that a request has named.
        exfalso
        obtain rfl := eq_of_heq hr
        cases ht' : P.thread t' with
        | none =>
            rw [hJ.absent t' ht'] at hbefore
            rcases hbefore with h' | h' <;> cases h'
        | some th =>
            obtain ⟨q', rest'⟩ := th
            rw [hJ.req t' q' rest' ht'] at htarget
            exact hspares t' q' rest' ht' htarget
  · -- The handler finds no record, or erases it, in this step.
    have hgone : s'.opInProgress id = none := by
      rcases hnow with ⟨rfl, hr⟩ | rfl
      · obtain ⟨hsome, rfl⟩ := Prod.mk.inj (Option.some.inj hx)
        obtain rfl := eq_of_heq hr
        exact Option.isSome_eq_false_iff.mp hsome |> Option.isNone_iff_eq_none.mp
      · rw [(exec_effect hx).record]
        simp [Op.record]
    refine ⟨hgone, fun t₁ h₁ => hkeep t₁ ?_⟩
    have hdrawn : (G t₁).drawn = some id := by
      rcases drawn_or_new h₁ with hold | ⟨-, rfl, -⟩
      · exact hold
      · rcases hnow with ⟨h', -⟩ | h' <;> cases h'
    refine hJ.drawn_answered hw ht hx ?_ hdrawn
    -- The handler is no `migrate_start`, because its request names an id.
    rintro rfl
    have hstart := (hJ.valid t₁).drawn (by simp [hdrawn])
    cases hreq : (G t₁).req <;> simp [hreq, Request.kind, Request.target] at hstart htarget

/-- An id without a record gets one only from its handler. -/
theorem unrecorded_step (hx : exec t w o P.shared = some (r, s')) {id : Uuid}
    (h : P.shared.opInProgress id = none) :
    s'.opInProgress id = none ∨ ∃ op, o = .insert id op := by
  rw [(exec_effect hx).record, h]
  cases hop : o.record t w id none with
  | none => exact Or.inl rfl
  | some op => exact Or.inr ⟨op, Op.record_none hop⟩

theorem Sequenced.unstored_step (hJ : Sequenced G P) (hw : Watched discipline G P)
    (ht : P.thread t = some ⟨q, .op o k⟩) (hx : exec t w o P.shared = some (r, s'))
    {t' : Tid} {id : Uuid}
    (hdrawn : (Function.update G t ((G t).after o r) t').drawn = some id)
    (hstored : (Function.update G t ((G t).after o r) t').stored = false) :
    s'.opInProgress id = none := by
  have hallow : (G t).Allows o := hw.allows ht
  -- There is no record yet, neither of an id drawn before nor of a new one.
  have hnone : P.shared.opInProgress id = none := by
    rcases drawn_or_new hdrawn with hold | ⟨rfl, rfl, hr⟩
    · refine hJ.unstored t' id hold ?_
      cases hst : (G t').stored with
      | false => rfl
      | true =>
          have hkept : (Function.update G t ((G t).after o r) t').stored = true :=
            update_keeps (p := fun g => g.stored = true) hst after_stored
          exact absurd (hkept.symm.trans hstored) (by decide)
    · simp only [exec] at hx
      split at hx
      · rename_i hnew
        obtain ⟨rfl, -⟩ := Prod.mk.inj (Option.some.inj hx)
        obtain rfl := eq_of_heq hr
        exact hJ.unissued _ hnew
      · cases hx
  rcases unrecorded_step hx hnone with h | ⟨op, rfl⟩
  · exact h
  · -- The handler that stores the record is the one that has drawn the id.
    have hold := (drawn_or_new hdrawn).resolve_right (by simp)
    have hsame := (hJ.issued hold).symm.trans (hJ.issued hallow.2.1)
    obtain rfl := Option.some.inj hsame
    rw [Function.update_self] at hstored
    cases hstored

theorem Sequenced.unissued_step (hJ : Sequenced G P) (hw : Watched discipline G P)
    (ht : P.thread t = some ⟨q, .op o k⟩) (hx : exec t w o P.shared = some (r, s'))
    {id : Uuid} (h : s'.issuedTo id = none) : s'.opInProgress id = none := by
  have hbefore : P.shared.issuedTo id = none := by
    rcases issuedTo_step hx id with hsame | ⟨-, -, hnone, -⟩
    · exact hsame.symm.trans h
    · exact hnone
  rcases unrecorded_step hx (hJ.unissued id hbefore) with hnone | ⟨op, rfl⟩
  · exact hnone
  · have hallow : (G t).Allows (.insert id op) := hw.allows ht
    rw [hJ.issued hallow.2.1] at hbefore
    cases hbefore

theorem Sequenced.closer_step (hJ : Sequenced G P) (hw : Watched discipline G P)
    (ht : P.thread t = some ⟨q, .op o k⟩) (hx : exec t w o P.shared = some (r, s'))
    {t' : Tid} {id : Uuid} {op' : Operation} (hop' : s'.opInProgress id = some op')
    (hclosed : op'.closedBy = some t') :
    (Function.update G t ((G t).after o r) t').closed = true ∧
      (Function.update G t ((G t).after o r) t').found = some id := by
  have hallow : (G t).Allows o := hw.allows ht
  have hkeep : (G t').closed = true ∧ (G t').found = some id →
      (Function.update G t ((G t).after o r) t').closed = true ∧
        (Function.update G t ((G t).after o r) t').found = some id := fun h =>
    ⟨update_keeps (p := fun g => g.closed = true) h.1 after_closed,
      update_keeps (p := fun g => g.found = some id) h.2 (after_found hallow)⟩
  rw [(exec_effect hx).record] at hop'
  cases hop : P.shared.opInProgress id with
  | none =>
      rw [hop] at hop'
      obtain rfl := Op.record_none hop'
      rw [hallow.2.2.2.2.2.2.1] at hclosed
      cases hclosed
  | some op =>
      rw [hop] at hop'
      rcases Op.record_closedBy hop' with hsame | ⟨rfl, hnow⟩ | rfl
      · exact hkeep (hJ.closer t' id op hop (hsame.symm.trans hclosed))
      · obtain rfl := Option.some.inj (hclosed.symm.trans hnow)
        rw [Function.update_self]
        exact ⟨rfl, hallow.1⟩
      · rw [hallow.2.2.2.2.2.2.1] at hclosed
        cases hclosed

theorem Sequenced.closing_step (hJ : Sequenced G P) (hw : Watched discipline G P)
    (ht : P.thread t = some ⟨q, .op o k⟩) (hx : exec t w o P.shared = some (r, s'))
    {t' : Tid} {id : Uuid}
    (hclosed : (Function.update G t ((G t).after o r) t').closed = true)
    (hfound : (Function.update G t ((G t).after o r) t').found = some id)
    (herased : (Function.update G t ((G t).after o r) t').erased = false) :
    ∃ op, s'.opInProgress id = some op ∧ op.closedBy ≠ none := by
  have hallow : (G t).Allows o := hw.allows ht
  by_cases he : t' = t
  · subst he
    rw [Function.update_self] at hclosed hfound herased
    by_cases ho : o = .closeFds id
    · subst ho
      obtain ⟨op, hop, heq⟩ := Option.map_eq_some_iff.mp hx
      obtain ⟨-, rfl⟩ := Prod.mk.inj heq
      exact ⟨_, Function.update_self _ _ _, by simp⟩
    · -- The record has been closed before, and stays in the map until it is erased.
      have hbefore : (G t').closed = true ∧ (G t').found = some id ∧ (G t').erased = false := by
        cases o with
        | closeFds i =>
            exact absurd (congrArg Op.closeFds
              (Option.some.inj (hallow.1.symm.trans hfound))) ho
        | find i => exact absurd hallow.2.2.1 (by simp [show (G t').closed = true from hclosed])
        | erase i => cases herased
        | _ => exact ⟨hclosed, hfound, herased⟩
      obtain ⟨op, hop, hby⟩ := hJ.closing t' id hbefore.1 hbefore.2.1 hbefore.2.2
      have hnoerase : o ≠ .erase id := by
        rintro rfl
        cases herased
      obtain ⟨op', hop'⟩ := Op.record_some t' w op hnoerase
      refine ⟨op', by rw [(exec_effect hx).record, hop, hop'], ?_⟩
      rcases Op.record_closedBy hop' with hsame | ⟨hnow, -⟩ | rfl
      · rwa [hsame]
      · exact absurd hnow ho
      · have hkind := ((hJ.valid t').closed hbefore.1).1
        exact absurd (hallow.1.symm.trans hkind) (by decide)
  · rw [Function.update_of_ne he] at hclosed herased
    exact absurd (herased.symm.trans (hJ.closed_erased hw ht hx he hclosed)) (by decide)

theorem Sequenced.looked_step (hJ : Sequenced G P) (hw : Watched discipline G P)
    (ht : P.thread t = some ⟨q, .op o k⟩) (hx : exec t w o P.shared = some (r, s'))
    {t' : Tid} {q' : Request} {rest' : Handler Unit} {id : Uuid} {n : Nat}
    (ht' : Function.update P.thread t (some ⟨q, k r⟩) t' = some ⟨q', rest'⟩)
    (hover : ¬ Over rest') (hkind : q'.kind = .mmap)
    (hfound : (Function.update G t ((G t).after o r) t').found = some id)
    (htotal : (Function.update G t ((G t).after o r) t').total = some n)
    (herased : (Function.update G t ((G t).after o r) t').erased = false) :
    ∃ op, s'.opInProgress id = some op ∧ n = op.filesizes.sum % sizeModulus := by
  have hallow : (G t).Allows o := hw.allows ht
  rcases thread_update ht' with ⟨rfl, rfl, rfl⟩ | ⟨hne, hold⟩
  · rw [Function.update_self] at hfound htotal herased
    have hreq : (G t').req.kind = .mmap := by rw [hJ.req _ _ _ ht, hkind]
    by_cases ho : o = .load id
    · subst ho
      obtain ⟨op, hop, heq⟩ := Option.map_eq_some_iff.mp hx
      obtain ⟨rfl, rfl⟩ := Prod.mk.inj heq
      exact ⟨op, hop, (Option.some.inj htotal).symm⟩
    · have hbefore : (G t').found = some id ∧ (G t').total = some n ∧
          (G t').erased = false := by
        cases o with
        | load i =>
            exact absurd (congrArg Op.load (Option.some.inj (hallow.1.symm.trans hfound))) ho
        | find i =>
            exact absurd hallow.2.1 ((hJ.valid t').looked (by
              rw [show (G t').total = some n from htotal]
              simp))
        | erase i => cases herased
        | _ => exact ⟨hfound, htotal, herased⟩
      obtain ⟨op, hop, hn⟩ := hJ.looked t' q' _ id n ht (not_over hx) hkind hbefore.1
        hbefore.2.1 hbefore.2.2
      have hnoerase : o ≠ .erase id := by
        rintro rfl
        cases herased
      obtain ⟨op', hop'⟩ := Op.record_some t' w op hnoerase
      refine ⟨op', by rw [(exec_effect hx).record, hop, hop'], ?_⟩
      rcases Op.record_fds hop' with ⟨-, hsizes⟩ | rfl
      · rwa [hsizes]
      · exact absurd (hallow.1.symm.trans hreq) (by decide)
  · -- All other handlers are over.
    exact absurd (hJ.single t' t q' q rest' _ hold ht hover (not_over hx)) hne

theorem Sequenced.unfailed_step (hJ : Sequenced G P) (hw : Watched discipline G P)
    (hspares : P.Spares q o r) (ht : P.thread t = some ⟨q, .op o k⟩)
    (hx : exec t w o P.shared = some (r, s')) : ((G t).after o r).failed = false := by
  have hallow : (G t).Allows o := hw.allows ht
  have hunfailed := hJ.unfailed t
  cases o with
  | ftruncate id fd size =>
      obtain rfl : r = true := hspares
      exact hunfailed
  | msync a =>
      obtain rfl : r = true := hspares
      exact hunfailed
  | mmap id fd size =>
      rcases exec_mmap hx with rfl | rfl
      · exact absurd rfl hspares
      · simpa [Ghost.after] using hunfailed
  | pull remote segs =>
      obtain ⟨hkind, herased, -, hfound, htotal⟩ := hallow
      obtain ⟨id, hid⟩ := Option.ne_none_iff_exists'.mp hfound
      obtain ⟨n, hn⟩ := Option.ne_none_iff_exists'.mp htotal
      have hreq := hJ.req t q _ ht
      obtain ⟨op, hop, rfl⟩ := hJ.looked t q _ id n ht (not_over hx) (by rw [← hreq, hkind])
        hid hn herased
      have htarget : q.target = some id := by
        rw [← hreq]
        exact (hJ.valid t).target id hid
      simp only [Ghost.after, hn, hspares id op htarget hop, hunfailed]
      simp
  | _ => exact hunfailed

theorem Sequenced.step (hJ : Sequenced G P) (hw : Watched discipline G P)
    (hspares : P.Spares q o r) (ht : P.thread t = some ⟨q, .op o k⟩)
    (hx : exec t w o P.shared = some (r, s')) :
    Sequenced (Function.update G t ((G t).after o r))
      { shared := s', thread := Function.update P.thread t (some ⟨q, k r⟩) } where
  toOwned := owned_step hw hJ.toOwned ht hx
  single t₁ t₂ q₁ q₂ rest₁ rest₂ ht₁ ht₂ h₁ h₂ := by
    -- The handler that moves is the one that is not over.
    have hmoving : ∀ {t' q' rest'}, Function.update P.thread t (some ⟨q, k r⟩) t' =
        some ⟨q', rest'⟩ → ¬ Over rest' → t' = t := by
      intro t' q' rest' ht' hnot
      rcases thread_update ht' with ⟨rfl, -, -⟩ | ⟨-, hold⟩
      · rfl
      · exact hJ.single t' t q' q rest' _ hold ht hnot (not_over hx)
    rw [hmoving ht₁ h₁, hmoving ht₂ h₂]
  unstored t' id hdrawn hstored := hJ.unstored_step hw ht hx hdrawn hstored
  unissued id h := hJ.unissued_step hw ht hx h
  dead t' id htarget h := by
    refine hJ.dead_step hw hspares ht hx ?_ h
    by_cases he : t' = t
    · subst he
      rwa [Function.update_self, after_req] at htarget
    · rwa [Function.update_of_ne he] at htarget
  closer t' id op hop hclosed := hJ.closer_step hw ht hx hop hclosed
  closing t' id hclosed hfound herased := hJ.closing_step hw ht hx hclosed hfound herased
  looked t' q' rest' id n ht' hover hkind hfound htotal herased :=
    hJ.looked_step hw ht hx ht' hover hkind hfound htotal herased
  unfailed t' := by
    by_cases he : t' = t
    · subst he
      rw [Function.update_self]
      exact hJ.unfailed_step hw hspares ht hx
    · rw [Function.update_of_ne he]
      exact hJ.unfailed t'

theorem Sequenced.spawn (abtio : Bool) (hJ : Sequenced G P) (hover : P.AllOver)
    (ht : P.thread t = none) :
    Sequenced (Function.update G t (.init q))
      { P with thread := Function.update P.thread t (some ⟨q, handle abtio q⟩) } := by
  have hG := hJ.absent t ht
  have hdrawn := init_field (q := q) (·.drawn) (fun _ _ => rfl) hG
  have hstored := init_field (q := q) (·.stored) (fun _ _ => rfl) hG
  have hanswer := init_field (q := q) (·.answer) (fun _ _ => rfl) hG
  have hmissed := init_field (q := q) (·.missed) (fun _ _ => rfl) hG
  have herased := init_field (q := q) (·.erased) (fun _ _ => rfl) hG
  have hclosed := init_field (q := q) (·.closed) (fun _ _ => rfl) hG
  have hfound := init_field (q := q) (·.found) (fun _ _ => rfl) hG
  have htotal := init_field (q := q) (·.total) (fun _ _ => rfl) hG
  have hfailed := init_field (q := q) (·.failed) (fun _ _ => rfl) hG
  exact
    { toOwned := owned_spawn abtio hJ.toOwned ht
      single := fun t₁ t₂ q₁ q₂ rest₁ rest₂ ht₁ ht₂ h₁ h₂ => by
        -- The handlers that are there are over.
        have hnew : ∀ {t' q' rest'}, Function.update P.thread t (some ⟨q, handle abtio q⟩) t' =
            some ⟨q', rest'⟩ → ¬ Over rest' → t' = t := by
          intro t' q' rest' ht' hnot
          rcases thread_update ht' with ⟨rfl, -, -⟩ | ⟨-, hold⟩
          · rfl
          · exact absurd (hover t' q' rest' hold) hnot
        rw [hnew ht₁ h₁, hnew ht₂ h₂]
      unstored := fun t' id h₁ h₂ => by
        rw [hdrawn] at h₁
        rw [hstored] at h₂
        exact hJ.unstored t' id h₁ h₂
      unissued := hJ.unissued
      dead := fun t' id htarget h => by
        rw [hmissed, herased] at h
        have he : t' ≠ t := by
          rintro rfl
          rw [hG] at h
          rcases h with h | h <;> cases h
        rw [Function.update_of_ne he] at htarget
        simp only [hdrawn, hanswer]
        exact hJ.dead t' id htarget h
      closer := fun t' id op hop h => by
        rw [hclosed, hfound]
        exact hJ.closer t' id op hop h
      closing := fun t' id h₁ h₂ h₃ => by
        rw [hclosed] at h₁
        rw [hfound] at h₂
        rw [herased] at h₃
        exact hJ.closing t' id h₁ h₂ h₃
      looked := fun t' q' rest' id n ht' hnot hkind h₁ h₂ h₃ => by
        rw [hfound] at h₁
        rw [htotal] at h₂
        rw [herased] at h₃
        rcases thread_update ht' with ⟨rfl, -, -⟩ | ⟨-, hold⟩
        · rw [hG] at h₁
          cases h₁
        · exact hJ.looked t' q' rest' id n hold hnot hkind h₁ h₂ h₃
      unfailed := fun t' => by
        rw [hfailed]
        exact hJ.unfailed t' }

end

theorem sequenced_init (classes : ClassKey → Option MigrationClass) (fs : Fs) :
    Sequenced (fun _ => .init (.end_ 0)) (.init classes fs) where
  toOwned := owned_init classes fs
  single _ _ _ _ _ _ ht := by cases ht
  unstored _ _ h := by cases h
  unissued _ _ := rfl
  dead _ _ _ h := by rcases h with h | h <;> cases h
  closer _ _ _ h := by cases h
  closing _ _ h := by cases h
  looked _ _ _ _ _ ht := by cases ht
  unfailed _ := rfl

end Remi
