import Remi.Proofs.Owned

/-!
# `Remi.Proofs.Forgotten`: an operation that has failed stays unknown

A refused write erases the record of its operation before it answers, and a write that finds no
record is answered so. Either way the map has no record of the id when the answer is there
(`forgotten_of_error`). Only `migrate_start` inserts a record. It does so before it answers, for
an id that nobody else draws. So a client that names an id after `migrate_start` has answered it
finds no record ever after, and neither does one that names an id that is not drawn
(`System.Fresh`).

A handler that finds no record waits for nothing: two operations lead to its answer
(`findsNone_answers`).
-/

set_option autoImplicit false

namespace Remi

open Remi.Lib

namespace System

/-- A `migrate_start` has answered with the id. -/
def Answered (P : System) (id : Uuid) : Prop :=
  ∃ t ret status, P.shared.responses t = some (.start ret status id)

/-- The id is a fresh one for those who name it between `P₁` and `P₂`. It has been answered
before, or nobody draws it until the end. -/
def Fresh (id : Uuid) (P₁ P₂ : System) : Prop :=
  P₁.Answered id ∨ P₂.shared.issuedTo id = none

/-- The step puts no record of `id` into the map. -/
def NoInsert (id : Uuid) (P : System) : Step → Prop
  | .spawn _ _ => True
  | .step t _ => ∀ q op k, P.thread t ≠ some ⟨q, .op (.insert id op) k⟩

/-- A write of `id` that was sent after `P₁` has been answered with an error in `P₂`. -/
def Refused (id : Uuid) (P₁ P₂ : System) : Prop :=
  ∃ t i offset data rest a, P₁.thread t = none ∧
    P₂.thread t = some ⟨.write id i offset data, rest⟩ ∧
    P₂.shared.responses t = some a ∧ a.ret ≠ .success

/-- The condition that no step fails. -/
abbrev Any (_ : System) (_ : Step) : Prop := True

/-- The handler `t` answers `errInvalidOpid`, after two more operations of its own at most,
whatever the world decides in them. -/
def AnswersInvalid (abtio : Bool) (P : System) (t : Tid) : Prop :=
  ∃ n ≤ 2, ∀ ws : List Outcome, ws.length = n → ∃ P' a,
    Reaches abtio Any P (ws.map (.step t)) P' ∧ P'.shared.responses t = some a ∧
      a.ret = .errInvalidOpid

end System

/-! ### No record is inserted -/

section
variable {abtio : Bool} {P P' P₁ P₂ : System} {l : Step} {ls : List Step} {id : Uuid}

theorem owned_next (hP : GhostInv discipline Owned P) (hn : System.next abtio P l = some P') :
    GhostInv discipline Owned P' := by
  refine ghostInv_next (C := System.Any) hP trivial hn .init (handle_follows abtio) ?_ ?_
  · intro G P t q _ _ hJ hnone
    exact owned_spawn abtio hJ hnone
  · intro G P t w q o k r s' _ hw hJ ht hx
    exact ⟨_, rfl, owned_step hw hJ ht hx⟩

theorem owned_run (h : System.Reaches abtio System.Any P₁ ls P₂)
    (h₁ : GhostInv discipline Owned P₁) : GhostInv discipline Owned P₂ :=
  h.invariant h₁ fun _ _ _ hP _ hn => owned_next hP hn

theorem answered_next (hP : GhostInv discipline Owned P) (hn : System.next abtio P l = some P')
    (h : P.Answered id) : P'.Answered id := by
  obtain ⟨G, hw, hJ⟩ := hP
  obtain ⟨t, ret, status, ht⟩ := h
  refine ⟨t, ret, status, ?_⟩
  cases l with
  | spawn t₁ q =>
      obtain ⟨-, rfl⟩ := Pool.next_spawn hn
      exact ht
  | step t₁ w =>
      obtain ⟨q, o, k, r, s', ht₁, hx, rfl⟩ := Pool.next_step hn
      exact responses_mono hJ (hw.allows ht₁) hx ht

theorem issuedTo_back (hn : System.next abtio P l = some P')
    (h : P'.shared.issuedTo id = none) : P.shared.issuedTo id = none := by
  cases l with
  | spawn t q =>
      obtain ⟨-, rfl⟩ := Pool.next_spawn hn
      exact h
  | step t w =>
      obtain ⟨q, o, k, r, s', -, hx, rfl⟩ := Pool.next_step hn
      rcases issuedTo_step hx id with hsame | ⟨-, -, hnone, -⟩
      · exact hsame.symm.trans h
      · exact hnone

/-- The handler that inserts the record of an id has drawn the id, and has not answered. -/
theorem noInsert_of_fresh (hP : GhostInv discipline Owned P)
    (h : P.Answered id ∨ P.shared.issuedTo id = none) (l : Step) : P.NoInsert id l := by
  cases l with
  | spawn t q => trivial
  | step t w =>
      intro q op k ht
      obtain ⟨G, hw, hJ⟩ := hP
      obtain ⟨-, hdrawn, -, hanswer, -⟩ := hw.allows ht
      have hissued := hJ.issued hdrawn
      rcases h with ⟨t₀, ret, status, ht₀⟩ | hnone
      · -- An id has one drawer, so the one that has answered it is this one.
        rw [hJ.answer] at ht₀
        have hdrawn₀ := hJ.issued ((hJ.valid t₀).answerStart ret status id ht₀).2.1
        obtain rfl : t₀ = t := Option.some.inj (hdrawn₀.symm.trans hissued)
        rw [hanswer] at ht₀
        cases ht₀
      · rw [hissued] at hnone
        cases hnone

/-- Nobody inserts a record of a fresh id. -/
theorem fresh_run (h₁ : GhostInv discipline Owned P₁)
    (h : System.Reaches abtio System.Any P₁ ls P₂) (hfresh : System.Fresh id P₁ P₂) :
    System.Reaches abtio (fun P l => GhostInv discipline Owned P ∧ P.NoInsert id l) P₁ ls P₂ := by
  -- An answered id stays answered, so this goes with the run. An id that is not drawn at the end
  -- has not been drawn before, so that goes against it.
  have hforward := h.strengthen
    (I := fun P : System => GhostInv discipline Owned P ∧ (P₁.Answered id → P.Answered id))
    ⟨h₁, fun ha => ha⟩ fun _ _ _ hI _ hn =>
      ⟨owned_next hI.1 hn, fun ha => answered_next hI.1 hn (hI.2 ha)⟩
  obtain ⟨-, hback⟩ := hforward.backward
    (I := fun P : System => P₁.Answered id ∨ P.shared.issuedTo id = none)
    (fun _ _ _ _ hn hI => hI.imp_right fun hnone => issuedTo_back hn hnone) hfresh
  refine hback.weaken fun P l hP => ?_
  obtain ⟨hI, ⟨howned, hanswered⟩, -⟩ := hP
  exact ⟨howned, noInsert_of_fresh howned (hI.imp_left hanswered) l⟩

/-- A fresh id is one for the parts of a run. -/
theorem fresh_split {ls' : List Step} {P₃ : System} (h₁ : GhostInv discipline Owned P₁)
    (h : System.Reaches abtio System.Any P₁ ls P₂)
    (h' : System.Reaches abtio System.Any P₂ ls' P₃) (hfresh : System.Fresh id P₁ P₃) :
    System.Fresh id P₁ P₂ ∧ System.Fresh id P₂ P₃ := by
  rcases hfresh with hanswered | hnone
  · have hlater := h.invariant
      (I := fun P : System => GhostInv discipline Owned P ∧ P.Answered id) ⟨h₁, hanswered⟩
      fun _ _ _ hI _ hn => ⟨owned_next hI.1 hn, answered_next hI.1 hn hI.2⟩
    exact ⟨Or.inl hanswered, Or.inl hlater.2⟩
  · obtain ⟨hnone', -⟩ := h'.backward (I := fun P : System => P.shared.issuedTo id = none)
      (fun _ _ _ _ hn hI => issuedTo_back hn hI) hnone
    exact ⟨Or.inr hnone', Or.inr hnone⟩

/-! ### An error means that the record is gone -/

/-- A missing record is not inserted. -/
theorem record_none_step {t : Tid} {w : Outcome} {q : Request} {o : Op}
    {k : Ans o → Handler Unit} {r : Ans o} {s' : Provider}
    (hC : P.NoInsert id (.step t w)) (ht : P.thread t = some ⟨q, .op o k⟩)
    (hx : exec t w o P.shared = some (r, s')) (h : P.shared.opInProgress id = none) :
    s'.opInProgress id = none := by
  rw [(exec_effect hx).record, h]
  cases hnew : o.record t w id none with
  | none => rfl
  | some op =>
      obtain rfl := Op.record_none hnew
      exact absurd ht (hC q op k)

theorem record_none_run (h : System.Reaches abtio (System.NoInsert id) P₁ ls P₂)
    (h₁ : P₁.shared.opInProgress id = none) : P₂.shared.opInProgress id = none := by
  refine h.invariant (I := fun P : System => P.shared.opInProgress id = none) h₁ ?_
  intro P l P' hI hC hn
  cases l with
  | spawn t q =>
      obtain ⟨-, rfl⟩ := Pool.next_spawn hn
      exact hI
  | step t w =>
      obtain ⟨q, o, k, r, s', ht, hx, rfl⟩ := Pool.next_step hn
      exact record_none_step hC ht hx hI

/-- The handler is one for a write of `id`. -/
def Ghost.writes (g : Ghost) (id : Uuid) : Prop := g.req.kind = .write ∧ g.req.target = some id

/-- Nothing has happened to a handler that makes it answer with an error. -/
def Ghost.clean (g : Ghost) : Prop := g.missed = false ∧ g.erased = false ∧ g.failed = false

theorem Ghost.not_clean {g : Ghost} {a : Response} (hg : g.Valid) (hkind : g.req.kind = .write)
    (ha : g.answer = some a) (hret : a.ret ≠ .success) : ¬ g.clean := by
  intro hclean
  obtain ⟨hmissed, herased, hfailed⟩ := hclean
  rcases hg.error a ha hret (Or.inr hkind) with h | h | h
  · exact absurd (hmissed.symm.trans h) (by decide)
  · exact absurd (herased.symm.trans h) (by decide)
  · exact absurd (hfailed.symm.trans h) (by decide)

/-- A write stays clean as long as the record is there. -/
theorem clean_after {g : Ghost} {t : Tid} {w : Outcome} {o : Op} {r : Ans o} {s s' : Provider}
    (hg : g.Valid) (hallow : g.Allows o) (hx : exec t w o s = some (r, s'))
    (hwrites : g.writes id) (hclean : g.clean) (hrecord : s.opInProgress id ≠ none)
    (hrecord' : s'.opInProgress id ≠ none) : (g.after o r).clean := by
  obtain ⟨hkind, htarget⟩ := hwrites
  obtain ⟨hmissed, herased, hfailed⟩ := hclean
  have hmmap : g.req.kind ≠ .mmap := by
    rw [hkind]
    decide
  -- Only a look at the record and its erasure can make a write unclean. The calls that can fail
  -- are those of a `migrate_mmap`.
  cases o with
  | find i =>
      obtain rfl : i = id := Option.some.inj (hallow.1.symm.trans htarget)
      obtain ⟨rfl, -⟩ := Prod.mk.inj (Option.some.inj hx)
      refine ⟨?_, herased, hfailed⟩
      show (!(s.opInProgress i).isSome) = false
      simpa [Option.isSome_iff_ne_none] using hrecord
  | erase i =>
      obtain rfl : i = id := Option.some.inj ((hg.target i hallow.1).symm.trans htarget)
      obtain ⟨-, rfl⟩ := Prod.mk.inj (Option.some.inj hx)
      exact absurd (Function.update_self i none s.opInProgress) hrecord'
  | ftruncate | mmap => exact absurd hallow.2.1 hmmap
  | pull | msync => exact absurd hallow.1 hmmap
  | _ => exact ⟨hmissed, herased, hfailed⟩

/-- The invariant of a run from `P₁`: the record of `id` is gone, or the writes of `id` that have
come in since are clean. -/
structure Intact (id : Uuid) (P₁ : System) (G : Tid → Ghost) (P : System) : Prop
    extends Owned G P where
  clean : P.shared.opInProgress id = none ∨
    ∀ t, P₁.thread t = none → (G t).writes id → (G t).clean

theorem intact_init {G : Tid → Ghost} (hJ : Owned G P₁) : Intact id P₁ G P₁ where
  toOwned := hJ
  clean := by
    refine Or.inr fun t ht _ => ?_
    rw [hJ.absent t ht]
    exact ⟨rfl, rfl, rfl⟩

theorem intact_spawn (abtio : Bool) {G : Tid → Ghost} {t : Tid} {q : Request}
    (hJ : Intact id P₁ G P) (hnone : P.thread t = none) :
    Intact id P₁ (Function.update G t (.init q))
      { P with thread := Function.update P.thread t (some ⟨q, handle abtio q⟩) } where
  toOwned := owned_spawn abtio hJ.toOwned hnone
  clean := by
    refine hJ.clean.imp_right fun hclean t' ht' hwrites => ?_
    by_cases he : t' = t
    · subst he
      rw [Function.update_self]
      exact ⟨rfl, rfl, rfl⟩
    · rw [Function.update_of_ne he] at hwrites ⊢
      exact hclean t' ht' hwrites

theorem intact_step {G : Tid → Ghost} {t : Tid} {w : Outcome} {q : Request} {o : Op}
    {k : Ans o → Handler Unit} {r : Ans o} {s' : Provider} (hC : P.NoInsert id (.step t w))
    (hw : Watched discipline G P) (hJ : Intact id P₁ G P)
    (ht : P.thread t = some ⟨q, .op o k⟩) (hx : exec t w o P.shared = some (r, s')) :
    Intact id P₁ (Function.update G t ((G t).after o r))
      { shared := s', thread := Function.update P.thread t (some ⟨q, k r⟩) } where
  toOwned := owned_step hw hJ.toOwned ht hx
  clean := by
    by_cases hgone : s'.opInProgress id = none
    · exact Or.inl hgone
    · -- The record was there before, since nobody inserts it.
      have hthere : P.shared.opInProgress id ≠ none := fun hnone =>
        hgone (record_none_step hC ht hx hnone)
      refine Or.inr fun t' ht' => ?_
      refine update_keeps (p := fun g => g.writes id → g.clean)
        (hJ.clean.resolve_left hthere t' ht') fun hclean hwrites => ?_
      rw [Ghost.writes, after_req] at hwrites
      exact clean_after (hJ.valid t) (hw.allows ht) hx hwrites (hclean hwrites) hthere hgone

/-- After an error that answers a write there is no record of its id. -/
theorem forgotten_of_error (h₁ : GhostInv discipline Owned P₁)
    (h : System.Reaches abtio (System.NoInsert id) P₁ ls P₂)
    (hrefused : System.Refused id P₁ P₂) : P₂.shared.opInProgress id = none := by
  have hinv : GhostInv discipline (Intact id P₁) P₂ := by
    obtain ⟨G₁, hw₁, hJ₁⟩ := h₁
    refine ghostInv_run_from h ⟨G₁, hw₁, intact_init hJ₁⟩ .init (handle_follows abtio) ?_ ?_
    · intro G P t q _ _ hJ hnone
      exact intact_spawn abtio hJ hnone
    · intro G P t w q o k r s' hC hw hJ ht hx
      exact ⟨_, rfl, intact_step hC hw hJ ht hx⟩
  obtain ⟨G, -, hJ⟩ := hinv
  obtain ⟨t, i, offset, data, rest, a, ht₁, ht, ha, hret⟩ := hrefused
  have hwrites : (G t).writes id := by
    rw [Ghost.writes, hJ.req t _ _ ht]
    exact ⟨rfl, rfl⟩
  -- The write is not clean, so the record is gone.
  have hanswer : (G t).answer = some a := (hJ.answer t).symm.trans ha
  refine hJ.clean.resolve_right fun hclean => ?_
  exact Ghost.not_clean (hJ.valid t) hwrites.1 hanswer hret (hclean t ht₁ hwrites)

/-! ### A handler that finds no record -/

/-- A handler for a record looks it up first, and answers `errInvalidOpid` when there is none. -/
theorem handle_looks (abtio : Bool) {q : Request} (h : q.target = some id) :
    ∃ (a : Response) (k : Bool → Handler Unit), a.ret = .errInvalidOpid ∧
      handle abtio q = .op (.find id) k ∧ k false = issue (.respond a) := by
  cases q with
  | start fileset filesizes theModes => cases h
  | mmap i remoteBulk =>
      obtain rfl := Option.some.inj h
      exact ⟨.mmap .errInvalidOpid, _, rfl, rfl, rfl⟩
  | write i fileNumber writeOffset data =>
      obtain rfl := Option.some.inj h
      exact ⟨.write .errInvalidOpid, _, rfl, rfl, rfl⟩
  | end_ i =>
      obtain rfl := Option.some.inj h
      exact ⟨.end_ .errInvalidOpid 0, _, rfl, rfl, rfl⟩

/-- A handler that has found no record: it is about to look it up, about to answer, or has
answered. -/
def FindsNone (abtio : Bool) (q : Request) (p : Handler Unit) (answer : Option Response) : Prop :=
  p = handle abtio q ∧ answer = none ∨
    ∃ a : Response, a.ret = .errInvalidOpid ∧
      (p = issue (.respond a) ∧ answer = none ∨ p = .pure () ∧ answer = some a)

theorem findsNone_step {t : Tid} {w : Outcome} {q : Request} {o : Op} {k : Ans o → Handler Unit}
    {r : Ans o} {s s' : Provider} (htarget : q.target = some id)
    (hnone : s.opInProgress id = none) (h : FindsNone abtio q (.op o k) (s.responses t))
    (hx : exec t w o s = some (r, s')) : FindsNone abtio q (k r) (s'.responses t) := by
  rcases h with ⟨hp, hanswer⟩ | ⟨a, ha, ⟨hp, -⟩ | ⟨hp, -⟩⟩
  · -- The record is looked up, and is not there.
    obtain ⟨a, k', ha, hhandle, hfalse⟩ := handle_looks abtio htarget
    rw [hhandle] at hp
    cases hp
    obtain ⟨rfl, rfl⟩ := Prod.mk.inj (Option.some.inj hx)
    rw [hnone]
    exact Or.inr ⟨a, ha, Or.inl ⟨hfalse, hanswer⟩⟩
  · -- The answer is sent.
    cases hp
    obtain ⟨rfl, rfl⟩ := Prod.mk.inj (Option.some.inj hx)
    exact Or.inr ⟨a, ha, Or.inr ⟨rfl, Function.update_self _ _ _⟩⟩
  · -- There is no operation left.
    cases hp

/-- The answer of a handler is its own. -/
theorem responses_of_ne {t t' : Tid} {w : Outcome} {o : Op} {r : Ans o} {s s' : Provider}
    (hx : exec t w o s = some (r, s')) (hne : t' ≠ t) : s'.responses t' = s.responses t' := by
  rw [(exec_effect hx).responses]
  cases o with
  | respond a => exact Function.update_of_ne hne _ _
  | _ => rfl

/-- The requests that come in while there is no record of `id` find none. -/
theorem findsNone_run (h : System.Reaches abtio
      (fun P l => GhostInv discipline Owned P ∧ P.NoInsert id l) P₁ ls P₂)
    (h₁ : P₁.shared.opInProgress id = none) {t : Tid} {q : Request} {p : Handler Unit}
    (ht₁ : P₁.thread t = none) (ht : P₂.thread t = some ⟨q, p⟩) (htarget : q.target = some id) :
    FindsNone abtio q p (P₂.shared.responses t) := by
  have hinv : P₂.shared.opInProgress id = none ∧
      ∀ p, P₂.thread t = some ⟨q, p⟩ → FindsNone abtio q p (P₂.shared.responses t) := by
    refine h.invariant (I := fun P : System => P.shared.opInProgress id = none ∧
      ∀ p, P.thread t = some ⟨q, p⟩ → FindsNone abtio q p (P.shared.responses t)) ⟨h₁, ?_⟩ ?_
    · intro p hp
      rw [ht₁] at hp
      cases hp
    · intro P l P' hI hC hn
      obtain ⟨hnone, hlost⟩ := hI
      obtain ⟨⟨G, -, hJ⟩, hnew⟩ := hC
      cases l with
      | spawn t' q' =>
          obtain ⟨hfree, rfl⟩ := Pool.next_spawn hn
          refine ⟨hnone, fun p hp => ?_⟩
          rcases thread_update hp with ⟨rfl, rfl, rfl⟩ | ⟨-, hold⟩
          · -- A handler that begins has not answered.
            refine Or.inl ⟨rfl, ?_⟩
            show P.shared.responses t = none
            rw [hJ.answer, hJ.absent t hfree]
            rfl
          · exact hlost p hold
      | step t' w =>
          obtain ⟨q', o, k, r, s', ht', hx, rfl⟩ := Pool.next_step hn
          refine ⟨record_none_step hnew ht' hx hnone, fun p hp => ?_⟩
          rcases thread_update hp with ⟨rfl, rfl, rfl⟩ | ⟨hne, hold⟩
          · exact findsNone_step htarget hnone (hlost _ ht') hx
          · show FindsNone abtio q p (s'.responses t)
            rw [responses_of_ne hx hne]
            exact hlost p hold
  exact hinv.2 p ht

/-- An answer of such a handler is `errInvalidOpid`. -/
theorem FindsNone.ret_eq {q : Request} {p : Handler Unit} {answer : Option Response}
    (h : FindsNone abtio q p answer) {a : Response} (ha : answer = some a) :
    a.ret = .errInvalidOpid := by
  rcases h with ⟨-, hnone⟩ | ⟨b, hb, ⟨-, hnone⟩ | ⟨-, hsome⟩⟩
  · rw [hnone] at ha
    cases ha
  · rw [hnone] at ha
    cases ha
  · obtain rfl := Option.some.inj (hsome.symm.trans ha)
    exact hb

theorem respond_next (abtio : Bool) {t : Tid} {q : Request} {a : Response}
    (ht : P.thread t = some ⟨q, issue (.respond a)⟩) (w : Outcome) :
    ∃ P', System.next abtio P (.step t w) = some P' ∧ P'.shared.responses t = some a :=
  ⟨_, Pool.next_of_exec ht rfl, Function.update_self _ _ _⟩

/-- Such a handler waits for nothing. -/
theorem findsNone_answers {t : Tid} {q : Request} {p : Handler Unit}
    (hnone : P.shared.opInProgress id = none) (ht : P.thread t = some ⟨q, p⟩)
    (htarget : q.target = some id) (h : FindsNone abtio q p (P.shared.responses t)) :
    P.AnswersInvalid abtio t := by
  rcases h with ⟨rfl, -⟩ | ⟨a, ha, ⟨rfl, -⟩ | ⟨rfl, hanswer⟩⟩
  · obtain ⟨a, k, ha, hhandle, hfalse⟩ := handle_looks abtio htarget
    rw [hhandle] at ht
    refine ⟨2, Nat.le_refl 2, fun ws hws => ?_⟩
    obtain ⟨w₁, w₂, rfl⟩ := List.length_eq_two.mp hws
    -- The record is looked up.
    have hfind : exec t w₁ (.find id) P.shared = some (false, P.shared) := by
      simp [exec, hnone]
    have hlooked : System.next abtio P (.step t w₁) = some _ := Pool.next_of_exec ht hfind
    rw [hfalse] at hlooked
    -- The answer is sent.
    obtain ⟨P', hsent, hanswer⟩ := respond_next abtio
      (P := { P with thread := Function.update P.thread t (some ⟨q, issue (.respond a)⟩) })
      (Function.update_self t (some ⟨q, issue (.respond a)⟩) P.thread) w₂
    exact ⟨P', a, .cons trivial hlooked (.cons trivial hsent .nil), hanswer, ha⟩
  · refine ⟨1, by decide, fun ws hws => ?_⟩
    obtain ⟨w, rfl⟩ := List.length_eq_one_iff.mp hws
    obtain ⟨P', hsent, hanswer⟩ := respond_next abtio ht w
    exact ⟨P', a, .cons trivial hsent .nil, hanswer, ha⟩
  · refine ⟨0, Nat.zero_le 2, fun ws hws => ?_⟩
    obtain rfl := List.length_eq_zero_iff.mp hws
    exact ⟨P, a, .nil, hanswer, ha⟩

end

end Remi
