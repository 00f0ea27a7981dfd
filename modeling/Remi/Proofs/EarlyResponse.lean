import Remi.Proofs.Owned
import Remi.Proofs.Client
import Remi.Server.System

/-!
# `Remi.Proofs.EarlyResponse`: the early answer of `migrate_write`

`migrate_write` answers before it writes, and leaves a failed write in the record. What
makes this sound is the mutex of the record. A handler that has answered and not yet noted
how its write ended holds it, so when `migrate_end` holds it to test the error there is no
such handler. `Latch` is the invariant of the runs in which clients follow the protocol.
-/

set_option autoImplicit false

namespace Remi

open Remi.Lib

/-- The write is shorter than what it was asked for, or has failed. -/
def WriteCall.Short (c : WriteCall) : Prop := c.result ≠ c.requested

/-- The handler has the mutex of a record that it has not erased. -/
def Ghost.Holds (g : Ghost) (id : Uuid) : Prop :=
  g.found = some id ∧ g.locked = true ∧ g.erased = false

/-- The handler of a `migrate_end` has had the mutex of its record. -/
def Ghost.passed (g : Ghost) : Prop :=
  g.req.kind = .end_ ∧ (g.locked = true ∨ g.closed = true)

/-- The invariant of protocol-following runs. -/
structure Latch (G : Tid → Ghost) (P : System) : Prop extends Owned G P where
  protocol : ∀ t q p, P.thread t = some ⟨q, p⟩ → P.Permits t q
  stored : ∀ id op, P.shared.opInProgress id = some op →
    ∃ t, (G t).drawn = some id ∧ (G t).stored = true
  present : ∀ t id, (G t).drawn = some id → (G t).stored = true →
    (∃ op, P.shared.opInProgress id = some op) ∨
      ∃ t', (G t').found = some id ∧ (G t').erased = true
  found : ∀ t id, (G t).found = some id → ∃ t', (G t').drawn = some id ∧ (G t').stored = true
  located : ∀ t, (G t).req.kind = .end_ → (G t).missed = false
  holder : ∀ t id, (G t).Holds id → ∃ op, P.shared.opInProgress id = some op ∧ op.mutex = some t
  erased : ∀ t id, (G t).found = some id → (G t).erased = true →
    P.shared.opInProgress id = none
  error : ∀ id op, P.shared.opInProgress id = some op →
    op.error = .success ∨ op.error = .errIo
  settled : ∀ m n k, (G ⟨m, n⟩).passed → k < n → (G ⟨m, k⟩).locked = false
  logged : ∀ t, (G t).written = true → ∃ c ∈ P.shared.writes, c.t = t
  writer : ∀ c ∈ P.shared.writes, (G c.t).written = true ∧ (G c.t).found = some c.operationId
  latch : ∀ c ∈ P.shared.writes, c.Short → (G c.t).unrecorded = true ∨
    ∀ op, P.shared.opInProgress c.operationId = some op → op.error = .errIo
  seen : ∀ t id, (G t).found = some id → (G t).seen = some .success →
    ∀ c ∈ P.shared.writes, c.operationId = id → ¬ c.Short
  tested : ∀ t e, (G t).seen = some e → e = .success ∨ e = .errIo
  called : ∀ t id callback uargs fileset,
    .after t id callback uargs fileset ∈ P.shared.callbacks →
      (G t).found = some id ∧ (G t).seen = some .success

/-- What a client may send depends on the answers it has, and these stay. -/
theorem permits_mono {P P' : System} {t : Tid} (h : ∀ n r,
    P.shared.responses ⟨t.client, n⟩ = some r → P'.shared.responses ⟨t.client, n⟩ = some r)
    {q : Request} (hp : P.Permits t q) : P'.Permits t q := by
  obtain ⟨m, _ | n⟩ := t
  · exact hp
  · obtain ⟨status, id, hstart, htarget, hkind⟩ := hp
    have hwritten : P.Written m n → P'.Written m n := fun hw j hj => h _ _ (hw j hj)
    exact ⟨status, id, h _ _ hstart, htarget,
      hkind.imp (And.imp_right hwritten) (Or.imp_right (And.imp_right
        (Or.imp hwritten (And.imp_right (h _ _)))))⟩

/-! ### Handlers of one operation -/

section Client
variable {G : Tid → Ghost} {P : System}

theorem Latch.live (hJ : Latch G P) {t : Tid} (h : G t ≠ .init (.end_ 0)) :
    ∃ p, P.thread t = some ⟨(G t).req, p⟩ := by
  cases ht : P.thread t with
  | none => exact absurd (hJ.absent t ht) h
  | some th =>
      obtain ⟨q, p⟩ := th
      exact ⟨p, by rw [hJ.req t q p ht]⟩

/-- A handler that has found a record serves a request behind the `migrate_start` that has
drawn the id. -/
theorem Latch.owner (hJ : Latch G P) {t : Tid} {id : Uuid} (h : (G t).found = some id) :
    ∃ n status, t.call = n + 1 ∧
      P.shared.responses ⟨t.client, 0⟩ = some (.start .success status id) ∧
      (G ⟨t.client, 0⟩).drawn = some id := by
  obtain ⟨p, ht⟩ := hJ.live (t := t) (fun he => by rw [he] at h; cases h)
  have hp := hJ.protocol t _ p ht
  have htarget := (hJ.valid t).target id h
  obtain ⟨m, _ | n⟩ := t
  · -- The first request of a client names no operation.
    change (G ⟨m, 0⟩).req.kind = .start at hp
    cases hq : (G ⟨m, 0⟩).req <;> rw [hq] at hp htarget <;> cases hp
    cases htarget
  · obtain ⟨status, id', hstart, htarget', -⟩ := hp
    obtain rfl : id' = id := Option.some.inj (htarget'.symm.trans htarget)
    refine ⟨n, status, rfl, hstart, ?_⟩
    rw [hJ.answer] at hstart
    exact ((hJ.valid _).answerStart _ _ _ hstart).2.1

/-- Two handlers that have found one record serve requests of one client. -/
theorem Latch.same_client (hJ : Latch G P) {t t' : Tid} {id : Uuid}
    (h : (G t).found = some id) (h' : (G t').found = some id) : t.client = t'.client := by
  obtain ⟨_, _, _, _, hd⟩ := hJ.owner h
  obtain ⟨_, _, _, _, hd'⟩ := hJ.owner h'
  simpa using (hJ.issued hd).symm.trans (hJ.issued hd')

/-- A request of a client is sent when the earlier ones have been answered. -/
theorem Latch.earlier (hJ : Latch G P) {m n k : Nat} {q : Request} {p : Handler Unit}
    (ht : P.thread ⟨m, n⟩ = some ⟨q, p⟩) (hk : 0 < k) (hkn : k < n) :
    (G ⟨m, k⟩).answer = some (.write .success) ∨ (G ⟨m, k⟩).answer = some (.mmap .success) := by
  obtain ⟨j, rfl⟩ := Nat.exists_eq_succ_of_ne_zero (by omega : k ≠ 0)
  obtain ⟨i, rfl⟩ := Nat.exists_eq_succ_of_ne_zero (by omega : n ≠ 0)
  obtain ⟨-, -, -, -, ⟨-, hw⟩ | ⟨-, rfl⟩ | ⟨-, hw | ⟨rfl, hm⟩⟩⟩ := hJ.protocol _ q p ht
  · exact Or.inl ((hJ.answer _).symm.trans (hw j (by omega)))
  · omega
  · exact Or.inl ((hJ.answer _).symm.trans (hw j (by omega)))
  · obtain rfl : j = 0 := by omega
    exact Or.inr ((hJ.answer _).symm.trans hm)

/-- After a `migrate_end` a client sends nothing. -/
theorem Latch.end_last (hJ : Latch G P) {m n k : Nat} {q : Request} {p : Handler Unit}
    (ht : P.thread ⟨m, n⟩ = some ⟨q, p⟩) (hkind : (G ⟨m, k⟩).req.kind = .end_) (hk : 0 < k) :
    n ≤ k := by
  by_contra hlt
  rcases hJ.earlier ht hk (by omega) with h | h
  · exact absurd (((hJ.valid _).answerWrite _ h).1.symm.trans hkind) (by decide)
  · exact absurd (((hJ.valid _).answerMmap _ h).1.symm.trans hkind) (by decide)

/-- A handler that has answered success has not erased its record. -/
theorem Latch.earlier_kept (hJ : Latch G P) {m n k : Nat} {q : Request} {p : Handler Unit}
    (ht : P.thread ⟨m, n⟩ = some ⟨q, p⟩) (hk : 0 < k) (hkn : k < n) :
    (G ⟨m, k⟩).erased = false := by
  rcases hJ.earlier ht hk hkn with h | h
  · exact (((hJ.valid _).answerWrite _ h).2 rfl).2.1
  · exact (((hJ.valid _).answerMmap _ h).2.1 rfl).2

end Client

/-! ### One step -/

section Step
variable {G : Tid → Ghost} {P : System} {t : Tid} {w : Outcome} {q : Request} {o : Op}
  {k : Ans o → Handler Unit} {r : Ans o} {s' : Provider}

/-- A handler that inserts a record does so for an id that has none. -/
theorem insert_fresh (hJ : Latch G P) {id : Uuid} {op : Operation}
    (hallow : (G t).Allows (.insert id op)) : P.shared.opInProgress id = none := by
  cases hop : P.shared.opInProgress id with
  | none => rfl
  | some op₀ =>
      obtain ⟨t', hdrawn, hstored⟩ := hJ.stored id op₀ hop
      have h := (hJ.issued hallow.2.1).symm.trans (hJ.issued hdrawn)
      obtain rfl := Option.some.inj h
      rw [hallow.2.2.1] at hstored
      cases hstored

/-- A record after a step has been there before it, or is new. -/
theorem record_before (hx : exec t w o P.shared = some (r, s')) {id : Uuid} {op' : Operation}
    (h : s'.opInProgress id = some op') :
    o = .insert id op' ∨ ∃ op, P.shared.opInProgress id = some op ∧
      o.record t w id (some op) = some op' := by
  rw [(exec_effect hx).record] at h
  cases hop : P.shared.opInProgress id with
  | none =>
      rw [hop] at h
      exact Or.inl (Op.record_none h)
  | some op =>
      rw [hop] at h
      exact Or.inr ⟨op, rfl, h⟩

/-- Nobody else has the mutex of a record that a handler holds. -/
theorem Latch.holds_unique (hJ : Latch G P) {t₁ t₂ : Tid} {id : Uuid} (h₁ : (G t₁).Holds id)
    (h₂ : (G t₂).Holds id) : t₁ = t₂ := by
  obtain ⟨op₁, hop₁, hm₁⟩ := hJ.holder t₁ id h₁
  obtain ⟨op₂, hop₂, hm₂⟩ := hJ.holder t₂ id h₂
  obtain rfl := Option.some.inj (hop₁.symm.trans hop₂)
  exact Option.some.inj (hm₁.symm.trans hm₂)

/-- No handler has found a record that is still to be inserted. -/
theorem insert_unfound (hJ : Latch G P) {id : Uuid} {op : Operation}
    (hallow : (G t).Allows (.insert id op)) (t' : Tid) : (G t').found ≠ some id := by
  intro hfound
  obtain ⟨t₁, hdrawn, hstored⟩ := hJ.found t' id hfound
  have h := (hJ.issued hallow.2.1).symm.trans (hJ.issued hdrawn)
  obtain rfl := Option.some.inj h
  rw [hallow.2.2.1] at hstored
  cases hstored

/-- A handler that has passed the mutex of its record is the last one of its client, and
the earlier ones do not hold it. -/
theorem Latch.passed_alone (hJ : Latch G P) {t₁ t₂ : Tid} {id : Uuid}
    (h₁ : (G t₁).found = some id) (hpassed : (G t₁).passed) (h₂ : (G t₂).found = some id)
    (hlocked : (G t₂).locked = true) : t₂ = t₁ := by
  have hclient := hJ.same_client h₁ h₂
  obtain ⟨n₁, -, hn₁, -⟩ := hJ.owner h₁
  obtain ⟨p₂, ht₂⟩ := hJ.live (t := t₂) (fun he => by rw [he] at h₂; cases h₂)
  obtain ⟨m, c₁⟩ := t₁
  obtain ⟨m₂, c₂⟩ := t₂
  obtain rfl : m = m₂ := hclient
  have hle : c₂ ≤ c₁ := hJ.end_last ht₂ hpassed.1 (by simp only at hn₁; omega)
  rcases Nat.lt_or_eq_of_le hle with hlt | rfl
  · rw [hJ.settled m c₁ c₂ hpassed hlt] at hlocked
    cases hlocked
  · rfl

theorem holds_before (hJ : Latch G P) (hallow : (G t).Allows o) {t' : Tid} {id : Uuid}
    (h : (Function.update G t ((G t).after o r) t').Holds id) :
    (G t').Holds id ∧ (t' = t → o ≠ .erase id ∧ o ≠ .unlock id) ∨ t' = t ∧ o = .lock id := by
  by_cases he : t' = t
  · subst he
    rw [Function.update_self] at h
    obtain ⟨hfound, hlocked, herased⟩ := h
    cases o with
    | find i => exact absurd hallow.2.1 ((hJ.valid t').locked hlocked).1
    | lock i =>
        obtain rfl : i = id := Option.some.inj (hallow.1.symm.trans hfound)
        exact Or.inr ⟨rfl, rfl⟩
    | unlock => cases hlocked
    | erase => cases herased
    | _ => exact Or.inl ⟨⟨hfound, hlocked, herased⟩, fun _ => ⟨by simp, by simp⟩⟩
  · rw [Function.update_of_ne he] at h
    exact Or.inl ⟨h, fun h' => absurd h' he⟩

/-- A record is not erased while another handler holds it. -/
theorem Latch.not_erased (hJ : Latch G P) {t' : Tid} {id : Uuid} (hne : t' ≠ t)
    (h : (G t').Holds id) : ¬ (G t).Allows (.erase id) := by
  rintro ⟨hfound, herased, ⟨-, hlocked, -⟩ | ⟨hkind, -, hanswer⟩ | ⟨hkind, hclosed, -⟩⟩
  · exact hne (hJ.holds_unique h ⟨hfound, hlocked, herased⟩)
  · -- The only request that a client sends after `migrate_mmap` waits for its answer.
    have hclient := hJ.same_client hfound h.1
    obtain ⟨p, ht⟩ := hJ.live (t := t) (fun he => by rw [he] at hfound; cases hfound)
    obtain ⟨p', ht'⟩ := hJ.live (t := t') (fun he => by rw [he] at h; cases h.1)
    obtain ⟨n, -, hn, -⟩ := hJ.owner hfound
    obtain ⟨n', -, hn', -⟩ := hJ.owner h.1
    obtain ⟨m, c⟩ := t
    obtain ⟨m', c'⟩ := t'
    obtain rfl : m = m' := hclient
    simp only at hn hn'
    subst hn hn'
    obtain ⟨-, -, -, -, ⟨hk, -⟩ | ⟨-, rfl⟩ | ⟨hk, -⟩⟩ := hJ.protocol _ _ _ ht
    · exact absurd (hk.symm.trans hkind) (by decide)
    · have hlt : 0 + 1 < n' + 1 := by
        rcases Nat.eq_zero_or_pos n' with rfl | hpos
        · exact absurd rfl hne
        · omega
      rcases hJ.earlier ht' Nat.one_pos hlt with h | h
      · rw [hanswer] at h
        cases h
      · rw [hanswer] at h
        cases h
    · exact absurd (hk.symm.trans hkind) (by decide)
  · exact hne (hJ.passed_alone hfound ⟨hkind, Or.inr hclosed⟩ h.1 h.2.1)

theorem holder_step (hJ : Latch G P) (hallow : (G t).Allows o)
    (hx : exec t w o P.shared = some (r, s')) {t' : Tid} {id : Uuid}
    (h : (Function.update G t ((G t).after o r) t').Holds id) :
    ∃ op, s'.opInProgress id = some op ∧ op.mutex = some t' := by
  have heff := exec_effect hx
  rcases holds_before hJ hallow h with ⟨hbefore, hown⟩ | ⟨rfl, rfl⟩
  · obtain ⟨op, hop, hmutex⟩ := hJ.holder t' id hbefore
    have hnoerase : o ≠ .erase id := by
      rintro rfl
      by_cases he : t' = t
      · exact (hown he).1 rfl
      · exact hJ.not_erased he hbefore hallow
    obtain ⟨op', hop'⟩ := Op.record_some t w op hnoerase
    refine ⟨op', by rw [heff.record, hop, hop'], ?_⟩
    rcases Op.record_mutex hop' with hsame | ⟨rfl, -⟩ | ⟨rfl, -⟩ | rfl
    · rw [hsame, hmutex]
    · simp [exec, hop, hmutex] at hx
    · by_cases herased : (G t).erased = true
      · rw [hJ.erased t id hallow.1 herased] at hop
        cases hop
      · have hholds : (G t).Holds id := ⟨hallow.1, hallow.2.1, by simpa using herased⟩
        exact absurd rfl (hown (hJ.holds_unique hbefore hholds)).2
    · rw [insert_fresh hJ hallow] at hop
      cases hop
  · simp only [exec] at hx
    split at hx
    · rename_i op hop
      split at hx
      · obtain ⟨-, rfl⟩ := Prod.mk.inj (Option.some.inj hx)
        exact ⟨{ op with mutex := some t' }, by simp [Provider.modifyOp], rfl⟩
      · cases hx
    · cases hx

theorem erased_step (hJ : Latch G P) (hallow : (G t).Allows o)
    (hx : exec t w o P.shared = some (r, s')) {t' : Tid} {id : Uuid}
    (hfound : (Function.update G t ((G t).after o r) t').found = some id)
    (herased : (Function.update G t ((G t).after o r) t').erased = true) :
    s'.opInProgress id = none := by
  have hcases : (G t').found = some id ∧ ((G t').erased = true ∨ o = .erase id) := by
    by_cases he : t' = t
    · subst he
      rw [Function.update_self] at hfound herased
      cases o with
      | find i => exact absurd hallow.2.1 ((hJ.valid t').erased herased).1
      | erase i =>
          obtain rfl : i = id := Option.some.inj (hallow.1.symm.trans hfound)
          exact ⟨hfound, Or.inr rfl⟩
      | _ => exact ⟨hfound, Or.inl herased⟩
    · rw [Function.update_of_ne he] at hfound herased
      exact ⟨hfound, Or.inl herased⟩
  obtain ⟨hbefore, hold | rfl⟩ := hcases
  · cases hop' : s'.opInProgress id with
    | none => rfl
    | some op' =>
        rcases record_before hx hop' with rfl | ⟨op, hop, -⟩
        · exact absurd hbefore (insert_unfound hJ hallow t')
        · rw [hJ.erased t' id hbefore hold] at hop
          cases hop
  · rw [(exec_effect hx).record]
    simp [Op.record]

theorem settled_step (hJ : Latch G P) (ht : P.thread t = some ⟨q, .op o k⟩)
    (hallow : (G t).Allows o) (hx : exec t w o P.shared = some (r, s')) {m n j : Nat}
    (hpassed : (Function.update G t ((G t).after o r) ⟨m, n⟩).passed) (hj : j < n) :
    (Function.update G t ((G t).after o r) ⟨m, j⟩).locked = false := by
  -- The end has passed the mutex before, or locks it in this step.
  have hcases : (G ⟨m, n⟩).passed ∨ t = ⟨m, n⟩ ∧ (∃ id, o = .lock id) ∧
      (G ⟨m, n⟩).req.kind = .end_ := by
    by_cases he : (⟨m, n⟩ : Tid) = t
    · subst he
      rw [Function.update_self] at hpassed
      cases o with
      | lock id => exact Or.inr ⟨rfl, ⟨id, rfl⟩, hpassed.1⟩
      | unlock => exact Or.inl ⟨hpassed.1, Or.inl hallow.2.1⟩
      | closeFds => exact Or.inl ⟨hallow.2.1, Or.inl hallow.2.2.1⟩
      | _ => exact Or.inl hpassed
    · rw [Function.update_of_ne he] at hpassed
      exact Or.inl hpassed
  have hlive : ∃ q' p', P.thread ⟨m, n⟩ = some ⟨q', p'⟩ := by
    rcases hcases with h | ⟨rfl, -⟩
    · obtain ⟨p', ht'⟩ := hJ.live (t := ⟨m, n⟩) (fun he => by
        rw [he] at h
        rcases h.2 with h | h <;> cases h)
      exact ⟨_, p', ht'⟩
    · exact ⟨_, _, ht⟩
  obtain ⟨q', p', ht'⟩ := hlive
  have hanswer : (G ⟨m, j⟩).answer ≠ none := by
    rcases Nat.eq_zero_or_pos j with rfl | hpos
    · obtain ⟨i, rfl⟩ := Nat.exists_eq_succ_of_ne_zero (by omega : n ≠ 0)
      obtain ⟨_, _, hstart, -⟩ := hJ.protocol _ _ _ ht'
      rw [hJ.answer] at hstart
      rw [hstart]
      simp
    · rcases hJ.earlier ht' hpos hj with h | h <;> rw [h] <;> simp
  have hold : (G ⟨m, j⟩).locked = false := by
    rcases hcases with h | ⟨rfl, ⟨id, rfl⟩, hkind⟩
    · exact hJ.settled m n j h hj
    · by_contra hlocked
      have hlocked : (G ⟨m, j⟩).locked = true := by simpa using hlocked
      obtain ⟨hne, -⟩ := (hJ.valid _).locked hlocked
      obtain ⟨id', hfound'⟩ := Option.ne_none_iff_exists'.mp hne
      obtain ⟨i, status, hi, hstart, -⟩ := hJ.owner hfound'
      obtain ⟨_, status', _, hstart', -⟩ := hJ.owner hallow.1
      obtain rfl : id' = id := by
        have := hstart.symm.trans hstart'
        simp only [Option.some.injEq, Response.start.injEq] at this
        exact this.2.2
      have hkept := hJ.earlier_kept ht (by simp only at hi; omega) hj
      obtain ⟨op, hop, hmutex⟩ := hJ.holder ⟨m, j⟩ id' ⟨hfound', hlocked, hkept⟩
      simp [exec, hop, hmutex] at hx
  by_cases he : (⟨m, j⟩ : Tid) = t
  · subst he
    rw [Function.update_self]
    exact after_unlocked hallow hanswer hold
  · rwa [Function.update_of_ne he]

theorem stored_step (hJ : Latch G P) (hallow : (G t).Allows o)
    (hx : exec t w o P.shared = some (r, s')) {id : Uuid} {op : Operation}
    (hop : s'.opInProgress id = some op) :
    ∃ t', (Function.update G t ((G t).after o r) t').drawn = some id ∧
      (Function.update G t ((G t).after o r) t').stored = true := by
  rcases record_before hx hop with rfl | ⟨op₀, hop₀, -⟩
  · refine ⟨t, ?_, ?_⟩ <;> rw [Function.update_self]
    · exact hallow.2.1
    · rfl
  · obtain ⟨t', hdrawn, hstored⟩ := hJ.stored id op₀ hop₀
    exact ⟨t', update_keeps (p := fun g => g.drawn = some id) hdrawn (after_drawn hallow),
      update_keeps (p := fun g => g.stored = true) hstored after_stored⟩

theorem present_keeps (hJ : Latch G P) (hallow : (G t).Allows o)
    (hx : exec t w o P.shared = some (r, s')) {t' : Tid} {id : Uuid}
    (hdrawn : (Function.update G t ((G t).after o r) t').drawn = some id)
    (hstored : (Function.update G t ((G t).after o r) t').stored = true) :
    (∃ op, s'.opInProgress id = some op) ∨
      ∃ t₁, (Function.update G t ((G t).after o r) t₁).found = some id ∧
        (Function.update G t ((G t).after o r) t₁).erased = true := by
  -- The record has been stored before, or is stored in this step.
  have hcases : (G t').drawn = some id ∧ (G t').stored = true ∨ ∃ op, o = .insert id op := by
    by_cases he : t' = t
    · subst he
      rw [Function.update_self] at hdrawn hstored
      cases o with
      | newUuid => exact absurd hallow.2 ((hJ.valid t').stored hstored).1
      | insert i op =>
          obtain rfl : i = id := Option.some.inj (hallow.2.1.symm.trans hdrawn)
          exact Or.inr ⟨op, rfl⟩
      | _ => exact Or.inl ⟨hdrawn, hstored⟩
    · rw [Function.update_of_ne he] at hdrawn hstored
      exact Or.inl ⟨hdrawn, hstored⟩
  rcases hcases with ⟨hd, hs⟩ | ⟨op, rfl⟩
  · rcases hJ.present t' id hd hs with ⟨op, hop⟩ | ⟨t₁, hf, he⟩
    · by_cases herase : o = .erase id
      · subst herase
        refine Or.inr ⟨t, ?_, ?_⟩ <;> rw [Function.update_self]
        · exact hallow.1
        · rfl
      · obtain ⟨op', hop'⟩ := Op.record_some t w op herase
        exact Or.inl ⟨op', by rw [(exec_effect hx).record, hop, hop']⟩
    · exact Or.inr ⟨t₁, update_keeps (p := fun g => g.found = some id) hf (after_found hallow),
        update_keeps (p := fun g => g.erased = true) he after_erased⟩
  · exact Or.inl ⟨op, by rw [(exec_effect hx).record]; simp [Op.record]⟩

theorem found_step (hJ : Latch G P) (hallow : (G t).Allows o)
    (hx : exec t w o P.shared = some (r, s')) {t' : Tid} {id : Uuid}
    (h : (Function.update G t ((G t).after o r) t').found = some id) :
    ∃ t₁, (Function.update G t ((G t).after o r) t₁).drawn = some id ∧
      (Function.update G t ((G t).after o r) t₁).stored = true := by
  have hkeep : (∃ t₁, (G t₁).drawn = some id ∧ (G t₁).stored = true) →
      ∃ t₁, (Function.update G t ((G t).after o r) t₁).drawn = some id ∧
        (Function.update G t ((G t).after o r) t₁).stored = true := by
    rintro ⟨t₁, hd, hs⟩
    exact ⟨t₁, update_keeps (p := fun g => g.drawn = some id) hd (after_drawn hallow),
      update_keeps (p := fun g => g.stored = true) hs after_stored⟩
  refine hkeep ?_
  by_cases he : t' = t
  · subst he
    rw [Function.update_self] at h
    cases o with
    | find i =>
        simp only [Ghost.after] at h
        split at h
        · rename_i hr
          obtain rfl := Option.some.inj h
          simp only [exec, Option.some.injEq, Prod.mk.injEq] at hx
          obtain ⟨op, hop⟩ := Option.isSome_iff_exists.mp (hx.1.trans hr)
          exact hJ.stored i op hop
        · cases h
    | _ => exact hJ.found t' id h
  · rw [Function.update_of_ne he] at h
    exact hJ.found t' id h

/-- A `migrate_end` finds its record: only handlers of earlier requests, which have answered
success, could have erased it. -/
theorem located_step (hJ : Latch G P) (ht : P.thread t = some ⟨q, .op o k⟩)
    (hallow : (G t).Allows o) (hx : exec t w o P.shared = some (r, s')) {t' : Tid}
    (hkind : (Function.update G t ((G t).after o r) t').req.kind = .end_) :
    (Function.update G t ((G t).after o r) t').missed = false := by
  by_cases he : t' = t
  · subst he
    rw [Function.update_self] at hkind ⊢
    rw [after_req] at hkind
    cases o with
    -- The request follows a `migrate_start` that has stored the record.
    | find id =>
        obtain ⟨htarget, hfound, -, -⟩ := hallow
        simp only [exec, Option.some.injEq, Prod.mk.injEq] at hx
        obtain ⟨m, _ | n⟩ := t'
        · have h : q.kind = .start := hJ.protocol _ _ _ ht
          rw [← hJ.req _ _ _ ht, hkind] at h
          cases h
        · obtain ⟨status, id', hstart, htarget', -⟩ := hJ.protocol _ _ _ ht
          rw [← hJ.req _ _ _ ht, htarget] at htarget'
          obtain rfl := Option.some.inj htarget'
          rw [hJ.answer] at hstart
          obtain ⟨-, hdrawn, hstored⟩ := (hJ.valid _).answerStart _ _ _ hstart
          rcases hJ.present _ id hdrawn (hstored.mp rfl) with ⟨op, hop⟩ | ⟨t₁, hf, herased⟩
          · simp [Ghost.after, ← hx.1, hop]
          · -- Nobody can have erased the record.
            obtain ⟨i, -, hi, -, hd⟩ := hJ.owner hf
            have hclient := (hJ.issued hdrawn).symm.trans (hJ.issued hd)
            simp only [Option.some.injEq, Tid.mk.injEq, and_true] at hclient
            obtain ⟨p₁, ht₁⟩ := hJ.live (t := t₁) (fun he => by rw [he] at hf; cases hf)
            obtain ⟨m₁, c₁⟩ := t₁
            simp only at hi hclient
            subst hi hclient
            have hle := hJ.end_last ht₁ hkind (Nat.succ_pos n)
            rcases Nat.lt_or_eq_of_le hle with hlt | heq
            · rw [hJ.earlier_kept ht (Nat.succ_pos i) hlt] at herased
              cases herased
            · rw [heq, hfound] at hf
              cases hf
    | _ => exact hJ.located t' hkind
  · rw [Function.update_of_ne he] at hkind ⊢
    exact hJ.located t' hkind

theorem error_step (hJ : Latch G P) (hallow : (G t).Allows o)
    (hx : exec t w o P.shared = some (r, s')) {id : Uuid} {op' : Operation}
    (h : s'.opInProgress id = some op') : op'.error = .success ∨ op'.error = .errIo := by
  rcases record_before hx h with rfl | ⟨op, hop, hrec⟩
  · exact Or.inl hallow.2.2.2.2.1
  · rcases Op.record_error hrec with hsame | hset | rfl
    · rw [hsame]
      exact hJ.error id op hop
    · rw [hset] at hallow
      exact Or.inr hallow.2.2.2.2.2.2
    · exact Or.inl hallow.2.2.2.2.1

/-- A failed write that is in the record stays there. -/
theorem errIo_keeps (hJ : Latch G P) (hallow : (G t).Allows o)
    (hx : exec t w o P.shared = some (r, s')) {t' : Tid} {id : Uuid}
    (hfound : (G t').found = some id)
    (h : ∀ op, P.shared.opInProgress id = some op → op.error = .errIo) :
    ∀ op, s'.opInProgress id = some op → op.error = .errIo := by
  intro op' hop'
  rcases record_before hx hop' with rfl | ⟨op, hop, hrec⟩
  · exact absurd hfound (insert_unfound hJ hallow t')
  · rcases Op.record_error hrec with hsame | hset | rfl
    · rw [hsame]
      exact h op hop
    · rw [hset] at hallow
      exact hallow.2.2.2.2.2.2
    · exact absurd hfound (insert_unfound hJ hallow t')

/-- What the write log gains in a step. -/
theorem writes_step (hallow : (G t).Allows o) (hx : exec t w o P.shared = some (r, s'))
    {c : WriteCall} (hc : c ∈ s'.writes) :
    c ∈ P.shared.writes ∨ c.t = t ∧ (G t).Holds c.operationId ∧ (G t).req.kind = .write ∧
      (G t).written = false ∧ ((G t).after o r).written = true ∧
      (((G t).after o r).unrecorded = true ↔ c.Short) := by
  rw [(exec_effect hx).writes, List.mem_append] at hc
  rcases hc with hc | hc
  · cases o with
    | pwrite id fd data offset | abtIoPwrite id fd data offset =>
        obtain rfl := List.mem_singleton.mp hc
        obtain ⟨hfound, hkind, hlocked, -, -, hwritten, herased⟩ := hallow
        exact Or.inr ⟨rfl, ⟨hfound, hlocked, herased⟩, hkind, hwritten, rfl,
          by simp [Ghost.after, WriteCall.Short]⟩
    | _ => cases hc
  · exact Or.inl hc

theorem writer_step (hJ : Latch G P) (hallow : (G t).Allows o)
    (hx : exec t w o P.shared = some (r, s')) {c : WriteCall} (hc : c ∈ s'.writes) :
    (Function.update G t ((G t).after o r) c.t).written = true ∧
      (Function.update G t ((G t).after o r) c.t).found = some c.operationId := by
  rcases writes_step hallow hx hc with hold | ⟨rfl, hholds, -, -, hwritten, -⟩
  · obtain ⟨hw, hf⟩ := hJ.writer c hold
    exact ⟨update_keeps (p := fun g => g.written = true) hw after_written,
      update_keeps (p := fun g => g.found = some c.operationId) hf (after_found hallow)⟩
  · rw [Function.update_self]
    exact ⟨hwritten, after_found hallow hholds.1⟩

theorem logged_step (hJ : Latch G P) (hx : exec t w o P.shared = some (r, s')) {t' : Tid}
    (h : (Function.update G t ((G t).after o r) t').written = true) :
    ∃ c ∈ s'.writes, c.t = t' := by
  rw [(exec_effect hx).writes]
  have hold : (G t').written = true → ∃ c ∈ o.writes t r ++ P.shared.writes, c.t = t' := by
    intro hw
    obtain ⟨c, hc, hct⟩ := hJ.logged t' hw
    exact ⟨c, List.mem_append_right _ hc, hct⟩
  by_cases he : t' = t
  · subst he
    rw [Function.update_self] at h
    cases o with
    | pwrite | abtIoPwrite => exact ⟨_, List.mem_append_left _ List.mem_cons_self, rfl⟩
    | _ => exact hold h
  · rw [Function.update_of_ne he] at h
    exact hold h

theorem latch_step (hJ : Latch G P) (hallow : (G t).Allows o)
    (hx : exec t w o P.shared = some (r, s')) {c : WriteCall} (hc : c ∈ s'.writes)
    (hshort : c.Short) :
    (Function.update G t ((G t).after o r) c.t).unrecorded = true ∨
      ∀ op, s'.opInProgress c.operationId = some op → op.error = .errIo := by
  rcases writes_step hallow hx hc with hold | ⟨rfl, -, -, -, -, hiff⟩
  · obtain ⟨hwritten, hfound⟩ := hJ.writer c hold
    rcases hJ.latch c hold hshort with hunrec | herr
    · by_cases he : c.t = t
      · subst he
        rw [Function.update_self]
        cases o with
        | setError i e =>
            -- The handler leaves its failure in the record.
            obtain rfl : i = c.operationId := Option.some.inj (hallow.1.symm.trans hfound)
            right
            intro op' hop'
            rw [(exec_effect hx).record] at hop'
            simp only [Op.record, ↓reduceIte] at hop'
            obtain ⟨op, -, rfl⟩ := Option.map_eq_some_iff.mp hop'
            exact hallow.2.2.2.2.2.2
        | pwrite | abtIoPwrite =>
            rw [hallow.2.2.2.2.2.1] at hwritten
            cases hwritten
        | _ => exact Or.inl hunrec
      · rw [Function.update_of_ne he]
        exact Or.inl hunrec
    · exact Or.inr (errIo_keeps hJ hallow hx hfound herr)
  · -- A write that is made in this step is not in the record yet.
    rw [Function.update_self]
    exact Or.inl (hiff.mpr hshort)

theorem seen_step (hJ : Latch G P) (hallow : (G t).Allows o)
    (hx : exec t w o P.shared = some (r, s')) {t' : Tid} {id : Uuid}
    (hfound : (Function.update G t ((G t).after o r) t').found = some id)
    (hseen : (Function.update G t ((G t).after o r) t').seen = some .success)
    {c : WriteCall} (hc : c ∈ s'.writes) (hid : c.operationId = id) : ¬ c.Short := by
  intro hshort
  -- The handler has tested the error before, or tests it in this step.
  have hcases : (G t').found = some id ∧ ((G t').seen = some .success ∨
      t' = t ∧ (G t').req.kind = .end_ ∧ (G t').Holds id ∧ c ∈ P.shared.writes ∧
        ∃ op, P.shared.opInProgress id = some op ∧ op.error = .success) := by
    by_cases he : t' = t
    · subst he
      rw [Function.update_self] at hfound hseen
      cases o with
      | find i =>
          have hclosed := (hJ.valid t').seen (show (G t').seen ≠ none by
            rw [show (G t').seen = some .success from hseen]; simp)
          exact absurd hallow.2.1 ((hJ.valid t').closed hclosed).2
      | load i =>
          obtain rfl : i = id := Option.some.inj (hallow.1.symm.trans hfound)
          simp only [Ghost.after] at hseen
          split at hseen
          · rename_i htest
            obtain ⟨op, hop, heq⟩ := Option.map_eq_some_iff.mp hx
            obtain ⟨rfl, rfl⟩ := Prod.mk.inj heq
            obtain ⟨-, hlocked, -, herased, -⟩ := hallow
            have hlocked : (G t').locked = true := by
              rcases hlocked with hm | hl
              · exact absurd (hm.symm.trans htest.1) (by decide)
              · exact hl
            exact ⟨hfound, Or.inr ⟨rfl, htest.1, ⟨hfound, hlocked, herased⟩, hc, op, hop,
              Option.some.inj hseen⟩⟩
          · exact ⟨hfound, Or.inl hseen⟩
      | _ => exact ⟨hfound, Or.inl hseen⟩
    · rw [Function.update_of_ne he] at hfound hseen
      exact ⟨hfound, Or.inl hseen⟩
  obtain ⟨hf', hbefore | ⟨rfl, hkind, hholds, hc, op, hop, hok⟩⟩ := hcases
  · rcases writes_step hallow hx hc with hold | ⟨rfl, hholds, hkind, -⟩
    · exact hJ.seen t' id hf' hbefore c hold hid hshort
    · have hclosed := (hJ.valid t').seen (by rw [hbefore]; simp)
      have hend := ((hJ.valid t').closed hclosed).1
      rw [hid] at hholds
      -- A write of another handler would have to hold the record now.
      have heq := hJ.passed_alone hf' ⟨hend, Or.inr hclosed⟩ hholds.1 hholds.2.1
      rw [heq, hend] at hkind
      cases hkind
  · obtain ⟨hwritten, hf⟩ := hJ.writer c hc
    rw [hid] at hf
    have hwrite := (hJ.valid _).written hwritten
    rcases hJ.latch c hc hshort with hunrec | herr
    · have hkept := ((hJ.valid _).answerWrite _ hwrite.2).2 rfl
      -- The writer has left its failure, since it does not hold the record any more.
      have heq := hJ.holds_unique hholds ⟨hf, ((hJ.valid _).unrecorded hunrec).2, hkept.2.1⟩
      rw [← heq, hkind] at hwrite
      cases hwrite.1
    · rw [hid] at herr
      rw [herr op hop] at hok
      exact absurd hok (by decide)

theorem tested_step (hJ : Latch G P) (hx : exec t w o P.shared = some (r, s')) {t' : Tid}
    {e : Ret} (h : (Function.update G t ((G t).after o r) t').seen = some e) :
    e = .success ∨ e = .errIo := by
  by_cases he : t' = t
  · subst he
    rw [Function.update_self] at h
    cases o with
    | load i =>
        obtain ⟨op, hop, heq⟩ := Option.map_eq_some_iff.mp hx
        obtain ⟨rfl, -⟩ := Prod.mk.inj heq
        simp only [Ghost.after] at h
        split at h
        · obtain rfl := Option.some.inj h
          exact hJ.error i op hop
        · exact hJ.tested t' e h
    | _ => exact hJ.tested t' e h
  · rw [Function.update_of_ne he] at h
    exact hJ.tested t' e h

theorem called_keeps (hJ : Latch G P) (hallow : (G t).Allows o)
    (hx : exec t w o P.shared = some (r, s')) {t' : Tid} {id : Uuid} {callback : Nat}
    {uargs : Option Nat} {fileset : Fileset}
    (h : .after t' id callback uargs fileset ∈ s'.callbacks) :
    (Function.update G t ((G t).after o r) t').found = some id ∧
      (Function.update G t ((G t).after o r) t').seen = some .success := by
  rw [(exec_effect hx).callbacks, List.mem_append] at h
  rcases h with h | h
  · cases o with
    | after i callback' uargs' =>
        simp only [Op.callbacks, Option.mem_toList] at h
        obtain ⟨op, -, heq⟩ := Option.map_eq_some_iff.mp h
        simp only [CallbackCall.after.injEq] at heq
        obtain ⟨rfl, rfl, -⟩ := heq
        rw [Function.update_self]
        exact ⟨hallow.1, hallow.2.2.2.2.1⟩
    | before callback' uargs' fileset' => simp [Op.callbacks] at h
    | _ => cases h
  · obtain ⟨hf, hs⟩ := hJ.called t' id callback uargs fileset h
    exact ⟨update_keeps (p := fun g => g.found = some id) hf (after_found hallow),
      update_keeps (p := fun g => g.seen = some .success) hs after_seen⟩

/-- A step of a handler keeps the invariant. -/
theorem latch_keeps (hw : Watched discipline G P) (hJ : Latch G P)
    (ht : P.thread t = some ⟨q, .op o k⟩) (hx : exec t w o P.shared = some (r, s')) :
    Latch (Function.update G t ((G t).after o r))
      { shared := s', thread := Function.update P.thread t (some ⟨q, k r⟩) } := by
  have hallow : (G t).Allows o := hw.allows ht
  exact
    { toOwned := owned_step hw hJ.toOwned ht hx
      protocol := fun t' q' p' ht' => by
        have hmono : ∀ t₁ a, P.shared.responses t₁ = some a → s'.responses t₁ = some a :=
          fun t₁ a ha => responses_mono hJ.toOwned hallow hx ha
        rcases thread_update ht' with ⟨rfl, rfl, -⟩ | ⟨-, hold⟩
        · exact permits_mono (fun _ _ => hmono _ _) (hJ.protocol _ _ _ ht)
        · exact permits_mono (fun _ _ => hmono _ _) (hJ.protocol t' q' p' hold)
      stored := fun _ _ hop => stored_step hJ hallow hx hop
      present := fun _ _ hd hs => present_keeps hJ hallow hx hd hs
      found := fun _ _ h => found_step hJ hallow hx h
      located := fun _ h => located_step hJ ht hallow hx h
      holder := fun _ _ h => holder_step hJ hallow hx h
      erased := fun _ _ hf he => erased_step hJ hallow hx hf he
      error := fun _ _ hop => error_step hJ hallow hx hop
      settled := fun _ _ _ hp hj => settled_step hJ ht hallow hx hp hj
      logged := fun _ h => logged_step hJ hx h
      writer := fun _ hc => writer_step hJ hallow hx hc
      latch := fun _ hc hs => latch_step hJ hallow hx hc hs
      seen := fun _ _ hf hs _ hc hid => seen_step hJ hallow hx hf hs hc hid
      tested := fun _ _ h => tested_step hJ hx h
      called := fun _ _ _ _ _ h => called_keeps hJ hallow hx h }

end Step

/-! ### A new request -/

section Spawn
variable {G : Tid → Ghost} {P : System} {t : Tid} {q : Request}

theorem latch_spawn (abtio : Bool) (hJ : Latch G P) (ht : P.thread t = none)
    (hpermit : P.Permits t q) :
    Latch (Function.update G t (.init q))
      { P with thread := Function.update P.thread t (some ⟨q, handle abtio q⟩) } := by
  have hG := hJ.absent t ht
  -- A handler that begins remembers nothing, like one that is not there.
  have hfield : ∀ {β : Type} (f : Ghost → β), (∀ q q', f (.init q) = f (.init q')) →
      ∀ t', f (Function.update G t (.init q) t') = f (G t') :=
    fun f hf => init_field f hf hG
  have hdrawn := hfield (·.drawn) fun _ _ => rfl
  have hstored := hfield (·.stored) fun _ _ => rfl
  have hfound := hfield (·.found) fun _ _ => rfl
  have hmissed := hfield (·.missed) fun _ _ => rfl
  have hlocked := hfield (·.locked) fun _ _ => rfl
  have hclosed := hfield (·.closed) fun _ _ => rfl
  have herased := hfield (·.erased) fun _ _ => rfl
  have hanswer := hfield (·.answer) fun _ _ => rfl
  have hwritten := hfield (·.written) fun _ _ => rfl
  have hunrec := hfield (·.unrecorded) fun _ _ => rfl
  have hseen := hfield (·.seen) fun _ _ => rfl
  have hreq : ∀ t', (Function.update G t (.init q) t').req.kind = .end_ →
      (Function.update G t (.init q) t').locked = true ∨
        (Function.update G t (.init q) t').closed = true →
      (G t').req.kind = .end_ := by
    intro t' hkind h
    by_cases he : t' = t
    · subst he
      rw [hlocked, hclosed, hG] at h
      rcases h with h | h <;> cases h
    · rwa [Function.update_of_ne he] at hkind
  exact
    { toOwned := owned_spawn abtio hJ.toOwned ht
      protocol := fun t' q' p' ht' => by
        rcases thread_update ht' with ⟨rfl, rfl, -⟩ | ⟨-, hold⟩
        · exact hpermit
        · exact hJ.protocol t' q' p' hold
      stored := fun id op hop => by
        simp only [hdrawn, hstored]
        exact hJ.stored id op hop
      present := fun t' id hd hs => by
        rw [hdrawn] at hd
        rw [hstored] at hs
        simp only [hfound, herased]
        exact hJ.present t' id hd hs
      found := fun t' id h => by
        rw [hfound] at h
        simp only [hdrawn, hstored]
        exact hJ.found t' id h
      located := fun t' h => by
        rw [hmissed]
        by_cases he : t' = t
        · subst he
          rw [hG]
          rfl
        · rw [Function.update_of_ne he] at h
          exact hJ.located t' h
      holder := fun t' id h => by
        obtain ⟨h₁, h₂, h₃⟩ := h
        rw [hfound] at h₁
        rw [hlocked] at h₂
        rw [herased] at h₃
        exact hJ.holder t' id ⟨h₁, h₂, h₃⟩
      erased := fun t' id hf he => by
        rw [hfound] at hf
        rw [herased] at he
        exact hJ.erased t' id hf he
      error := hJ.error
      settled := fun m n j hp hj => by
        rw [hlocked]
        refine hJ.settled m n j ⟨hreq _ hp.1 hp.2, ?_⟩ hj
        have h := hp.2
        rwa [hlocked, hclosed] at h
      logged := fun t' h => hJ.logged t' (by rwa [hwritten] at h)
      writer := fun c hc => by
        rw [hwritten, hfound]
        exact hJ.writer c hc
      latch := fun c hc hs => by
        rw [hunrec]
        exact hJ.latch c hc hs
      seen := fun t' id hf hs => by
        rw [hfound] at hf
        rw [hseen] at hs
        exact hJ.seen t' id hf hs
      tested := fun t' e h => hJ.tested t' e (by rwa [hseen] at h)
      called := fun t' id callback uargs fileset h => by
        rw [hfound, hseen]
        exact hJ.called t' id callback uargs fileset h }

end Spawn

theorem latch_init (classes : ClassKey → Option MigrationClass) (fs : Fs) :
    Latch (fun _ => .init (.end_ 0)) (.init classes fs) where
  toOwned := owned_init classes fs
  protocol _ _ _ ht := by cases ht
  stored _ _ hop := by cases hop
  present _ _ hd := by cases hd
  found _ _ h := by cases h
  located _ _ := rfl
  holder _ _ h := by cases h.1
  erased _ _ hf := by cases hf
  error _ _ hop := by cases hop
  settled _ _ _ _ _ := rfl
  logged _ h := by cases h
  writer _ hc := by cases hc
  latch _ hc := by cases hc
  seen _ _ hf := by cases hf
  tested _ _ h := by cases h
  called _ _ _ _ _ h := by cases h

/-- The invariant holds in every state that protocol-following clients lead to. -/
theorem latch_run (abtio : Bool) (classes : ClassKey → Option MigrationClass) (fs : Fs)
    {ls : List Step} {P : System}
    (h : System.Reaches abtio System.Protocol (.init classes fs) ls P) :
    ∃ G, Watched discipline G P ∧ Latch G P := by
  refine ghostInv_run_from h (ghostInv_of_empty (fun _ => rfl) (latch_init classes fs)) .init
    (handle_follows abtio) ?_ ?_
  · intro G P t q hpermit _ hJ hnone
    exact latch_spawn abtio hJ hnone hpermit
  · intro G P t w q o k r s' _ hw hJ ht hx
    exact ⟨_, rfl, latch_keeps hw hJ ht hx⟩

/-! ### What the invariant says of the states of a run -/

/-- When a `migrate_end` tests the error or runs the "after" callback, every write of its
operation that has been answered with success is over: its handler has returned, the write
has been made, and if it was short the record says so. -/
def System.WritesSettled (P : System) : Prop :=
  ∀ t id o k, P.thread t = some ⟨.end_ id, .op o k⟩ →
    (o = .load id ∨ ∃ callback uargs, o = .after id callback uargs) →
    ∀ t' i offset data p', P.thread t' = some ⟨.write id i offset data, p'⟩ →
      P.shared.responses t' = some (.write .success) →
      p' = .pure () ∧ (∃ c ∈ P.shared.writes, c.t = t') ∧
        ∀ c ∈ P.shared.writes, c.t = t' → c.Short →
          ∃ op, P.shared.opInProgress id = some op ∧ op.error = .errIo

/-- An operation with a failed or short write has no "after" callback, and its `migrate_end`
answers `REMI_ERR_IO`. -/
def System.FailuresReported (P : System) : Prop :=
  ∀ c ∈ P.shared.writes, c.Short →
    P.shared.afterCalls c.operationId = 0 ∧
    ∀ t p r, P.thread t = some ⟨.end_ c.operationId, p⟩ → P.shared.responses t = some r →
      ∃ status, r = .end_ .errIo status

section Final
variable {G : Tid → Ghost} {P : System}

/-- A write handler that has answered and released the mutex has returned. -/
theorem finished_of_settled {g : Ghost} {p : Handler Unit} {Q : Ghost → Unit → Prop}
    (hp : Follows p g Q) (hkind : g.req.kind = .write) (hanswer : g.answer ≠ none)
    (hlocked : g.locked = false) : p = .pure () := by
  cases p with
  | pure _ => rfl
  | op o k =>
      have hallow : g.Allows o := hp.1
      exfalso
      cases o with
      | respond r => cases r <;> simp_all [Ghost.Allows]
      | _ => simp_all [Ghost.Allows]

theorem Latch.writesSettled (hw : Watched discipline G P) (hJ : Latch G P) :
    P.WritesSettled := by
  intro t id o k ht ho t' i offset data p' ht' hanswer
  have hallow : (G t).Allows o := hw.allows ht
  have hkind : (G t).req.kind = .end_ := by rw [hJ.req _ _ _ ht]; rfl
  have hkind' : (G t').req.kind = .write := by rw [hJ.req _ _ _ ht']; rfl
  rw [hJ.answer] at hanswer
  -- The `migrate_end` holds the record.
  have hholds : (G t).Holds id := by
    rcases ho with rfl | ⟨callback, uargs, rfl⟩
    · obtain ⟨hfound, hlocked | hlocked, -, herased, -⟩ := hallow
      · exact absurd (hkind.symm.trans hlocked) (by decide)
      · exact ⟨hfound, hlocked, herased⟩
    · exact ⟨hallow.1, hallow.2.2.1, hallow.2.2.2.2.2.2.2⟩
  obtain ⟨hfound', -, hphase⟩ := ((hJ.valid t').answerWrite _ hanswer).2 rfl
  obtain ⟨id', hfound'⟩ := Option.ne_none_iff_exists'.mp hfound'
  obtain rfl : id' = id := by
    have h := (hJ.valid t').target id' hfound'
    rw [hJ.req _ _ _ ht'] at h
    exact (Option.some.inj h).symm
  -- So no writer holds it.
  have hlocked' : (G t').locked = false := by
    by_contra h
    have heq := hJ.passed_alone hholds.1 ⟨hkind, Or.inl hholds.2.1⟩ hfound' (by simpa using h)
    rw [heq, hkind] at hkind'
    cases hkind'
  rw [hlocked'] at hphase
  obtain ⟨hwritten, hrecorded⟩ := hphase.resolve_left Bool.false_ne_true
  refine ⟨finished_of_settled (hw t' _ p' ht') hkind' (by simp [hanswer]) hlocked',
    hJ.logged t' hwritten, fun c hc hct hshort => ?_⟩
  subst hct
  obtain ⟨op, hop, -⟩ := hJ.holder t id' hholds
  have hid : c.operationId = id' := by
    have h := (hJ.writer c hc).2
    rw [hfound'] at h
    exact (Option.some.inj h).symm
  rcases hJ.latch c hc hshort with h | h
  · rw [hrecorded] at h
    cases h
  · rw [hid] at h
    exact ⟨op, hop, h op hop⟩

theorem Latch.failuresReported (hJ : Latch G P) : P.FailuresReported := by
  intro c hc hshort
  constructor
  · -- The callback runs behind a test that has seen no error.
    unfold Provider.afterCalls
    rw [List.countP_eq_zero]
    intro call hcall
    cases call with
    | before => simp [CallbackCall.isAfter]
    | after t id callback uargs fileset =>
        simp only [CallbackCall.isAfter, decide_eq_true_eq]
        rintro rfl
        obtain ⟨hfound, hseen⟩ := hJ.called _ _ _ _ _ hcall
        exact hJ.seen t _ hfound hseen c hc rfl hshort
  · intro t p r ht hr
    have hkind : (G t).req.kind = .end_ := by rw [hJ.req _ _ _ ht]; rfl
    rw [hJ.answer] at hr
    cases r with
    | start => exact absurd (((hJ.valid t).answerStart _ _ _ hr).1.symm.trans hkind) (by decide)
    | mmap => exact absurd (((hJ.valid t).answerMmap _ hr).1.symm.trans hkind) (by decide)
    | write => exact absurd (((hJ.valid t).answerWrite _ hr).1.symm.trans hkind) (by decide)
    | end_ ret status =>
        rcases ((hJ.valid t).answerEnd _ _ hr).2 with ⟨hmissed, -⟩ | ⟨hfound, -, hseen⟩
        · rw [hJ.located t hkind] at hmissed
          cases hmissed
        · obtain ⟨id, hfound⟩ := Option.ne_none_iff_exists'.mp hfound
          have hid : id = c.operationId := by
            have h := (hJ.valid t).target id hfound
            rw [hJ.req _ _ _ ht] at h
            exact (Option.some.inj h).symm
          have hnot : (G t).seen ≠ some .success := fun h =>
            hJ.seen t id hfound h c hc hid.symm hshort
          have hseen := hseen.resolve_right hnot
          rcases hJ.tested t ret hseen with rfl | rfl
          · exact absurd hseen hnot
          · exact ⟨status, rfl⟩

end Final

/-- The early answer of `migrate_write` hides no failure. In every state that
protocol-following clients lead to, `migrate_end` tests the error only when the writes
answered before are settled, and an operation with a failed or short write ends with
`REMI_ERR_IO` and without the "after" callback. A client whose `migrate_end` gets such an
answer returns an error and removes nothing. -/
theorem early_response_hides_nothing (abtio : Bool)
    (classes : ClassKey → Option MigrationClass) (fs : Fs) {ls : List Step} {P : System}
    (h : System.Reaches abtio System.Protocol (.init classes fs) ls P) :
    P.WritesSettled ∧ P.FailuresReported ∧
      ∀ c ∈ P.shared.writes, c.Short → ∀ {σ : Type} (rpc : Rpc σ),
        (∀ id s, ∃ t p status, P.thread t = some ⟨.end_ c.operationId, p⟩ ∧
          P.shared.responses t = some (.end_ (rpc.end_ id s).1.1 status)) →
        ∀ io T ph fileset remoteRoot removeSource mode status st,
          (remiFilesetMigrate rpc io T ph fileset remoteRoot removeSource mode status st).ret ≠
              .success ∧
            (remiFilesetMigrate rpc io T ph fileset remoteRoot removeSource mode status
              st).source = ⟨T, []⟩ := by
  obtain ⟨G, hw, hJ⟩ := latch_run abtio classes fs h
  have hreported := hJ.failuresReported
  refine ⟨hJ.writesSettled hw, hreported, ?_⟩
  intro c hc hshort σ rpc hend io T ph fileset remoteRoot removeSource mode status st
  refine migrate_source_kept fun id s hok => ?_
  obtain ⟨t, p, status', ht, hr⟩ := hend id s
  obtain ⟨_, heq⟩ := (hreported c hc hshort).2 t p _ ht hr
  rw [hok] at heq
  cases heq

/-- Calls that succeed, with 1 as the id that is drawn. -/
private def done : Outcome := ⟨.full, 1, fun f => (0, f)⟩

/-- A migration of a file with two bytes, of which the provider writes one. -/
private def shortWrite : List Step :=
  .spawn ⟨0, 0⟩ (.start ⟨['c'], 0, ['/'], .empty, .ofList [['f']], .empty, defaultXferSize⟩
      [2] [0]) :: List.replicate 10 (.step ⟨0, 0⟩ done) ++
    .spawn ⟨0, 1⟩ (.write 1 0 0 [7, 8]) :: List.replicate 5 (.step ⟨0, 1⟩ done) ++
    .spawn ⟨0, 2⟩ (.end_ 1) :: .step ⟨0, 1⟩ { done with io := .short 1 } ::
      List.replicate 2 (.step ⟨0, 1⟩ done) ++ List.replicate 7 (.step ⟨0, 2⟩ done)

theorem early_response_short_write : ∃ P,
    System.Reaches false System.Protocol
      (.init (fun _ => some ⟨some 0, none, none, none⟩) .empty) shortWrite P ∧
      P.shared.responses ⟨0, 1⟩ = some (.write .success) ∧
      P.shared.responses ⟨0, 2⟩ = some (.end_ .errIo 0) ∧
      P.WritesSettled ∧ P.FailuresReported := by
  have hrun : (follow (System.next false) System.Protocol shortWrite
      (.init (fun _ => some ⟨some 0, none, none, none⟩) .empty)).any (fun P =>
        P.shared.responses ⟨0, 1⟩ = some (.write .success) ∧
          P.shared.responses ⟨0, 2⟩ = some (.end_ .errIo 0)) = true := by decide
  obtain ⟨P, hP, hanswers⟩ := (Option.any_eq_true _ _).mp hrun
  obtain ⟨hwrite, hend⟩ := of_decide_eq_true hanswers
  have hsafe := early_response_hides_nothing false _ _ (run_of_follow hP)
  exact ⟨P, run_of_follow hP, hwrite, hend, hsafe.1, hsafe.2.1⟩

end Remi
