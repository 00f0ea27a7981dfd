import Remi.Proofs.OneByOne

/-!
# `Remi.Proofs.Conserved`: what becomes of errors, descriptors and segments

`System.Conserved` says what a provider owes for its resources when handlers run one at a
time, and `System.ErrorsFinal` that an id with an error stays out of use. The error exits of
`migrate_mmap` and `migrate_write` break both: they leave descriptors open, segments mapped
or the record in the map. `conserved_of_gentle` shows that nothing else does.

The proof is a balance. A descriptor that has been opened has been closed once, or its
handler still keeps it, alone or in the record of its id. A segment that has been mapped has
been unmapped once, or its handler still has it.
-/

set_option autoImplicit false

namespace Remi

open Remi.Lib

/-- What a provider owes for the resources of its handlers. -/
structure System.Conserved (P : System) : Prop where
  /-- An operation with an error is gone. -/
  error_gone : ∀ t q a id, P.thread t = some ⟨q, .pure ()⟩ →
    P.shared.responses t = some a → a.ret ≠ .success → q.target = some id →
    P.shared.opInProgress id = none
  /-- A `migrate_start` that has failed has closed each of its descriptors once. -/
  closed_failed : ∀ t q, P.thread t = some ⟨q, .pure ()⟩ →
    (∀ status id, P.shared.responses t ≠ some (.start .success status id)) →
    ∀ n < P.shared.opened t, P.shared.closes ⟨t, n⟩ = 1
  /-- The descriptors of an operation that has left the map have been closed once. -/
  closed_left : ∀ t status id, P.shared.responses t = some (.start .success status id) →
    P.shared.opInProgress id = none → ∀ n < P.shared.opened t, P.shared.closes ⟨t, n⟩ = 1
  /-- A handler that has returned has unmapped each of its segments once. -/
  unmapped : ∀ t q, P.thread t = some ⟨q, .pure ()⟩ →
    ∀ n < P.shared.mapped t, P.shared.unmaps (.mapped ⟨t, n⟩) = 1
  /-- A failed mapping is not used, and its handler answers an error. -/
  failed_unused : P.shared.exposes .failed = 0 ∧ P.shared.syncs .failed = 0 ∧
    P.shared.unmaps .failed = 0
  failed_error : ∀ t q a, P.thread t = some ⟨q, .pure ()⟩ → P.shared.mapFailures t ≠ 0 →
    P.shared.responses t = some a → a.ret ≠ .success

/-- The requests that have come since `P` for an id with an error in `P` have been answered
with `REMI_ERR_INVALID_OPID`. -/
def System.ErrorsFinal (P P' : System) : Prop :=
  ∀ t q a id, P.thread t = some ⟨q, .pure ()⟩ → P.shared.responses t = some a →
    a.ret ≠ .success → q.target = some id →
    ∀ t' q' rest a', P.thread t' = none → P'.thread t' = some ⟨q', rest⟩ →
      q'.target = some id → P'.shared.responses t' = some a' → a'.ret = .errInvalidOpid

/-! ### The balance -/

/-- The descriptors that the record of an id holds open. -/
def Provider.openFds (s : Provider) (id : Uuid) : List Fd :=
  match s.opInProgress id with
  | some op => if op.closedBy = none then op.fds else []
  | none => []

/-- The descriptors that a handler keeps, where `openFds` gives those of a record. -/
def Ghost.keeps (g : Ghost) (openFds : Uuid → List Fd) : List Fd :=
  g.mine ++ (g.drawn.map openFds).getD []

/-- 1 for a descriptor that has been opened, and 0 for any other. -/
def Provider.everOpened (s : Provider) (fd : Fd) : Nat :=
  if fd.index < s.opened fd.owner then 1 else 0

/-- 1 for a segment that has been mapped, and 0 for any other. -/
def Provider.everMapped (s : Provider) (seg : Seg) : Nat :=
  if seg.index < s.mapped seg.owner then 1 else 0

/-- The invariant of gentle runs. -/
structure Conserving (G : Tid → Ghost) (P : System) : Prop extends Sequenced G P where
  descriptors : ∀ fd, P.shared.closes fd + ((G fd.owner).keeps P.shared.openFds).count fd =
    P.shared.everOpened fd
  segments : ∀ seg, P.shared.unmaps (.mapped seg) + (G seg.owner).maps.count (.mapped seg) =
    P.shared.everMapped seg
  maps : ∀ t a, a ∈ (G t).maps → ∃ n, a = .mapped ⟨t, n⟩
  unused : P.shared.exposes .failed = 0 ∧ P.shared.syncs .failed = 0 ∧
    P.shared.unmaps .failed = 0
  mapFailures : ∀ t, P.shared.mapFailures t = 0

section
variable {G : Tid → Ghost} {P : System} {t : Tid} {w : Outcome} {q : Request} {o : Op}
  {k : Ans o → Handler Unit} {r : Ans o} {s' : Provider}

/-- The operation gives and takes no descriptor of a record. -/
def Op.leavesFds (id : Uuid) : Op → Bool
  | .insert i _ => i ≠ id
  | .erase i => i ≠ id
  | .closeFds i => i ≠ id
  | _ => true

theorem openFds_step (hx : exec t w o P.shared = some (r, s')) {id : Uuid}
    (ho : o.leavesFds id = true) : s'.openFds id = P.shared.openFds id := by
  have hne : (∀ op, o ≠ .insert id op) ∧ o ≠ .erase id ∧ o ≠ .closeFds id := by
    refine ⟨fun op h => ?_, fun h => ?_, fun h => ?_⟩ <;>
      · subst h
        simp [Op.leavesFds] at ho
  unfold Provider.openFds
  rw [(exec_effect hx).record]
  cases hop : P.shared.opInProgress id with
  | none =>
      cases hop' : o.record t w id none with
      | none => rfl
      | some op' => exact absurd (Op.record_none hop') (hne.1 op')
  | some op =>
      obtain ⟨op', hop'⟩ := Op.record_some t w op hne.2.1
      have hfds := ((Op.record_fds hop').resolve_right (hne.1 op')).1
      have hclosed : op'.closedBy = op.closedBy := by
        rcases Op.record_closedBy hop' with h | ⟨h, -⟩ | h
        · exact h
        · exact absurd h hne.2.2
        · exact absurd h (hne.1 op')
      simp only [hop', hfds, hclosed]

theorem keeps_congr {g : Ghost} {f f' : Uuid → List Fd}
    (h : ∀ id, g.drawn = some id → f id = f' id) : g.keeps f = g.keeps f' := by
  unfold Ghost.keeps
  cases hd : g.drawn with
  | none => rfl
  | some id => simp only [Option.map_some, h id hd]

/-- A step that leaves the own descriptors of its handler, and those of the record of `t'`,
leaves what `t'` keeps. -/
theorem keeps_step (hmine : ((G t).after o r).mine = (G t).mine)
    (hdrawn : ((G t).after o r).drawn = (G t).drawn) {t' : Tid}
    (hopen : ∀ id, (G t').drawn = some id → s'.openFds id = P.shared.openFds id) :
    (Function.update G t ((G t).after o r) t').keeps s'.openFds =
      (G t').keeps P.shared.openFds := by
  have hsame : (Function.update G t ((G t).after o r) t').keeps s'.openFds =
      (G t').keeps s'.openFds := by
    by_cases he : t' = t
    · subst he
      rw [Function.update_self]
      unfold Ghost.keeps
      rw [hmine, hdrawn]
    · rw [Function.update_of_ne he]
  rw [hsame]
  exact keeps_congr hopen

/-- A record that is erased holds no descriptor open. -/
theorem Conserving.erased_openFds (hJ : Conserving G P) {id : Uuid}
    (hallow : (G t).Allows (.erase id)) (hspares : P.Spares q (.erase id) ())
    (hreq : (G t).req = q) : P.shared.openFds id = [] := by
  unfold Provider.openFds
  cases hop : P.shared.opInProgress id with
  | none => rfl
  | some op =>
      obtain ⟨hfound, herased, ⟨hkind, -⟩ | ⟨-, hfailed, -⟩ | ⟨-, hclosed, -⟩⟩ := hallow
      · dsimp only
        rw [hspares (by rw [← hreq, hkind]) op hop]
        split <;> rfl
      · exact absurd ((hJ.unfailed t).symm.trans hfailed) (by decide)
      · obtain ⟨op', hop', hby⟩ := hJ.closing t id hclosed hfound herased
        obtain rfl := Option.some.inj (hop.symm.trans hop')
        exact if_neg hby

/-- The descriptors of a record are closed once. -/
theorem Conserving.unclosed (hJ : Conserving G P) (hw : Watched discipline G P) {id : Uuid}
    {k : Unit → Handler Unit} (ht : P.thread t = some ⟨q, .op (.closeFds id) k⟩)
    (hx : exec t w (.closeFds id) P.shared = some ((), s')) {op : Operation}
    (hop : P.shared.opInProgress id = some op) : op.closedBy = none := by
  have hallow : (G t).Allows (.closeFds id) := hw.allows ht
  cases hby : op.closedBy with
  | none => rfl
  | some t₁ =>
      exfalso
      obtain ⟨hclosed, hfound⟩ := hJ.closer t₁ id op hop hby
      have hne : t₁ ≠ t := by
        rintro rfl
        exact absurd (hallow.2.2.2.1.symm.trans hclosed) (by decide)
      have herased := hJ.closed_erased hw ht hx hne hclosed
      have hnone := (hJ.dead t₁ id ((hJ.valid t₁).target id hfound) (Or.inr herased)).1
      rw [hop] at hnone
      cases hnone

theorem everOpened_step (hx : exec t w o P.shared = some (r, s'))
    (ho : ∀ path mode, o ≠ .openTrunc path mode) (fd : Fd) :
    s'.everOpened fd = P.shared.everOpened fd := by
  unfold Provider.everOpened
  simp only [((exec_effect hx).files ho).2.1]

theorem Conserving.descriptors_open (hJ : Conserving G P) {path : Str} {mode : Nat}
    {r : Option Fd} (hx : exec t w (.openTrunc path mode) P.shared = some (r, s')) (fd : Fd) :
    s'.closes fd + ((Function.update G t ((G t).after (.openTrunc path mode) r) fd.owner).keeps
      s'.openFds).count fd = s'.everOpened fd := by
  have hb := hJ.descriptors fd
  have hopen : s'.openFds = P.shared.openFds := funext fun id => openFds_step hx rfl
  rw [(exec_effect hx).closes, hopen]
  rcases exec_openTrunc hx with ⟨rfl, rfl⟩ | ⟨rfl, -, hs⟩
  · rwa [keeps_step (by simp [Ghost.after]) rfl fun _ _ => rfl]
  · by_cases he : fd.owner = t
    · -- The handler keeps one more descriptor, the one with the next index.
      obtain ⟨owner, index⟩ := fd
      obtain rfl : owner = t := he
      have hbound : s'.everOpened ⟨owner, index⟩ = P.shared.everOpened ⟨owner, index⟩ +
          if index = P.shared.opened owner then 1 else 0 := by
        simp only [hs, Provider.everOpened, Function.update_self]
        split <;> split <;> split <;> omega
      rw [hbound, ← hb]
      simp only [Function.update_self, Ghost.keeps, Ghost.after, Option.toList_some,
        List.count_append, List.count_singleton, beq_iff_eq, Fd.mk.injEq, true_and, Op.closed,
        List.count_nil, eq_comm (a := index)]
      omega
    · have hbound : s'.everOpened fd = P.shared.everOpened fd := by
        simp only [hs, Provider.everOpened, Function.update_of_ne he]
      rw [Function.update_of_ne he, hbound, ← hb]
      rfl

theorem Conserving.descriptors_close (hJ : Conserving G P) {fd₀ : Fd}
    (hallow : (G t).Allows (.close fd₀))
    (hx : exec t w (.close fd₀) P.shared = some ((), s')) (fd : Fd) :
    s'.closes fd + ((Function.update G t ((G t).after (.close fd₀) ()) fd.owner).keeps
      s'.openFds).count fd = s'.everOpened fd := by
  have hopen : s'.openFds = P.shared.openFds := funext fun id => openFds_step hx rfl
  rw [(exec_effect hx).closes, hopen, everOpened_step hx (by simp), ← hJ.descriptors fd]
  obtain ⟨-, hhead⟩ := hallow
  obtain ⟨rest, hmine⟩ : ∃ rest, (G t).mine = fd₀ :: rest := by
    cases hm : (G t).mine with
    | nil =>
        rw [hm] at hhead
        cases hhead
    | cons fd₁ rest =>
        rw [hm] at hhead
        exact ⟨rest, by rw [Option.some.inj hhead]⟩
  by_cases he : fd.owner = t
  · subst he
    simp only [Function.update_self, Ghost.keeps, Ghost.after, hmine, List.tail_cons,
      List.count_append, List.count_cons, List.count_nil, Op.closed]
    omega
  · -- The descriptor that is closed is one of `t`.
    have hother : fd₀ ≠ fd := by
      rintro rfl
      exact he (hJ.mine t fd₀ (by simp [hmine]))
    simp [Function.update_of_ne he, Op.closed, hother]

theorem Conserving.descriptors_insert (hJ : Conserving G P) {id : Uuid} {op : Operation}
    (hallow : (G t).Allows (.insert id op))
    (hx : exec t w (.insert id op) P.shared = some ((), s')) (fd : Fd) :
    s'.closes fd + ((Function.update G t ((G t).after (.insert id op) ()) fd.owner).keeps
      s'.openFds).count fd = s'.everOpened fd := by
  rw [(exec_effect hx).closes, everOpened_step hx (by simp), ← hJ.descriptors fd]
  obtain ⟨-, hdrawn, hstored, -, -, -, hclosed, hfds⟩ := hallow
  have hnew : s'.openFds id = (G t).mine := by
    unfold Provider.openFds
    rw [(exec_effect hx).record]
    simp [Op.record, hclosed, hfds]
  have hold : P.shared.openFds id = [] := by
    simp [Provider.openFds, hJ.unstored t id hdrawn hstored]
  by_cases he : fd.owner = t
  · subst he
    simp [Ghost.keeps, Ghost.after, hdrawn, hnew, hold, Op.closed]
  · have hleft : ∀ i, (G fd.owner).drawn = some i → s'.openFds i = P.shared.openFds i := by
      intro i hi
      refine openFds_step hx ?_
      have hne : id ≠ i := by
        rintro rfl
        exact he (Option.some.inj ((hJ.issued hi).symm.trans (hJ.issued hdrawn)))
      simpa [Op.leavesFds] using hne
    rw [Function.update_of_ne he, keeps_congr hleft]
    rfl

theorem Conserving.descriptors_closeFds (hJ : Conserving G P) (hw : Watched discipline G P)
    {id : Uuid} {k : Unit → Handler Unit} (ht : P.thread t = some ⟨q, .op (.closeFds id) k⟩)
    (hx : exec t w (.closeFds id) P.shared = some ((), s')) (fd : Fd) :
    s'.closes fd + ((Function.update G t ((G t).after (.closeFds id) ()) fd.owner).keeps
      s'.openFds).count fd = s'.everOpened fd := by
  obtain ⟨op, hop, -⟩ := Option.map_eq_some_iff.mp hx
  -- The record is the one that `migrate_end` has found, and nobody has closed its descriptors
  -- before.
  have hold : P.shared.openFds id = op.fds := by
    simp [Provider.openFds, hop, hJ.unclosed hw ht hx hop]
  have hnew : s'.openFds id = [] := by
    unfold Provider.openFds
    rw [(exec_effect hx).record, hop]
    simp [Op.record]
  have hcloses : s'.closes fd = P.shared.closes fd + op.fds.count fd := by
    rw [(exec_effect hx).closes fd]
    simp [Op.closed, hop]
  have hsame : (Function.update G t ((G t).after (.closeFds id) ()) fd.owner).keeps s'.openFds =
      (G fd.owner).keeps s'.openFds := by
    by_cases he : fd.owner = t
    · subst he
      rw [Function.update_self]
      rfl
    · rw [Function.update_of_ne he]
  rw [hcloses, hsame, everOpened_step hx (by simp), ← hJ.descriptors fd]
  by_cases hd : (G fd.owner).drawn = some id
  · -- The handler of the record: what it kept there has been closed now.
    simp only [Ghost.keeps, hd, Option.map_some, Option.getD_some, hnew, hold,
      List.append_nil, List.count_append]
    omega
  · have hleft : ∀ i, (G fd.owner).drawn = some i → s'.openFds i = P.shared.openFds i := by
      intro i hi
      refine openFds_step hx ?_
      have hne : id ≠ i := by
        rintro rfl
        exact hd hi
      simpa [Op.leavesFds] using hne
    have hnot : fd ∉ op.fds := fun hfd =>
      hd ((hJ.drawn _ id).mp (hJ.record id op fd hop hfd))
    rw [keeps_congr hleft, List.count_eq_zero_of_not_mem hnot]
    rfl

theorem Conserving.descriptors_step (hJ : Conserving G P) (hw : Watched discipline G P)
    (hspares : P.Spares q o r) (ht : P.thread t = some ⟨q, .op o k⟩)
    (hx : exec t w o P.shared = some (r, s')) (fd : Fd) :
    s'.closes fd + ((Function.update G t ((G t).after o r) fd.owner).keeps s'.openFds).count fd =
      s'.everOpened fd := by
  have hallow : (G t).Allows o := hw.allows ht
  -- The rest of the operations close nothing and change nothing that is kept.
  have hquiet : (∀ path mode, o ≠ .openTrunc path mode) → o.closed P.shared = [] →
      ((G t).after o r).mine = (G t).mine → ((G t).after o r).drawn = (G t).drawn →
      (∀ id, s'.openFds id = P.shared.openFds id) →
      s'.closes fd + ((Function.update G t ((G t).after o r) fd.owner).keeps s'.openFds).count fd
        = s'.everOpened fd := by
    intro ho hnone hmine hdrawn hopen
    rw [(exec_effect hx).closes, hnone, everOpened_step hx ho,
      keeps_step hmine hdrawn fun id _ => hopen id]
    exact hJ.descriptors fd
  cases o with
  | openTrunc path mode => exact hJ.descriptors_open hx fd
  | close fd₀ => exact hJ.descriptors_close hallow hx fd
  | insert id op => exact hJ.descriptors_insert hallow hx fd
  | closeFds id => exact hJ.descriptors_closeFds hw ht hx fd
  -- A record that is erased has no open descriptor, which is where `Spares` is used.
  | erase id =>
      refine hquiet (by simp) rfl rfl rfl fun i => ?_
      by_cases hi : id = i
      · subst hi
        have hnone : s'.openFds id = [] := by
          unfold Provider.openFds
          rw [(exec_effect hx).record]
          simp [Op.record]
        rw [hnone, hJ.erased_openFds hallow hspares (hJ.req t q _ ht)]
      · exact openFds_step hx (by simpa [Op.leavesFds] using hi)
  | newUuid =>
      have hopen : s'.openFds = P.shared.openFds := funext fun id => openFds_step hx rfl
      rw [(exec_effect hx).closes, everOpened_step hx (by simp), hopen, ← hJ.descriptors fd]
      by_cases he : fd.owner = t
      · -- A new id has no record.
        subst he
        have hnew : P.shared.openFds r = [] := by
          simp only [exec] at hx
          split at hx
          · rename_i hnone
            obtain ⟨rfl, -⟩ := Prod.mk.inj (Option.some.inj hx)
            simp [Provider.openFds, hJ.unissued _ hnone]
          · cases hx
        have hnone : (G fd.owner).drawn = none := hallow.2
        simp [Ghost.keeps, Ghost.after, hnew, hnone, Op.closed]
      · rw [Function.update_of_ne he]
        rfl
  | _ => exact hquiet (by simp) rfl rfl rfl fun id => openFds_step hx rfl

/-! ### Segments -/

/-- A mapping that succeeds gives the next segment of its handler. -/
theorem mmap_segment {id : Uuid} {fd : Fd} {size : Nat} {a : Addr}
    (hspares : P.Spares q (.mmap id fd size) a)
    (hx : exec t w (.mmap id fd size) P.shared = some (a, s')) :
    a = .mapped ⟨t, P.shared.mapped t⟩ :=
  (exec_mmap hx).resolve_left hspares

theorem Conserving.maps_step (hJ : Conserving G P) (hspares : P.Spares q o r)
    (hx : exec t w o P.shared = some (r, s')) {a : Addr} (ha : a ∈ ((G t).after o r).maps) :
    ∃ n, a = .mapped ⟨t, n⟩ := by
  cases o with
  | mmap id fd size =>
      obtain rfl := mmap_segment hspares hx
      rcases List.mem_append.mp ha with hold | hnew
      · exact hJ.maps t a hold
      · exact ⟨_, List.mem_singleton.mp hnew⟩
  | munmap b => exact hJ.maps t a (List.mem_of_mem_tail ha)
  | _ => exact hJ.maps t a ha

/-- A failed mapping is in no handler's list. -/
theorem Conserving.failed_not_mem (hJ : Conserving G P) (t : Tid) : .failed ∉ (G t).maps := by
  intro h
  obtain ⟨n, hn⟩ := hJ.maps t _ h
  cases hn

theorem Conserving.unused_step (hJ : Conserving G P) (hallow : (G t).Allows o)
    (hx : exec t w o P.shared = some (r, s')) :
    s'.exposes .failed = 0 ∧ s'.syncs .failed = 0 ∧ s'.unmaps .failed = 0 := by
  have heff := exec_effect hx
  obtain ⟨hexposes, hsyncs, hunmaps⟩ := hJ.unused
  have hnot := hJ.failed_not_mem t
  rw [heff.exposes, heff.syncs, heff.unmaps, hexposes, hsyncs, hunmaps]
  cases o with
  | expose segs =>
      refine ⟨?_, rfl, rfl⟩
      rw [Op.exposed, hallow.2.2.1, List.count_eq_zero_of_not_mem hnot]
  | msync a =>
      refine ⟨rfl, ?_, rfl⟩
      rw [Op.synced, List.count_eq_zero_of_not_mem]
      rintro h
      rw [List.mem_singleton.mp h] at hnot
      exact hnot hallow.2.2.1
  | munmap a =>
      refine ⟨rfl, rfl, ?_⟩
      rw [Op.unmapped, List.count_eq_zero_of_not_mem]
      rintro h
      rw [List.mem_singleton.mp h] at hnot
      exact hnot (List.mem_of_mem_head? hallow.2.2)
  | _ => exact ⟨rfl, rfl, rfl⟩

theorem Conserving.segments_step (hJ : Conserving G P) (hallow : (G t).Allows o)
    (hspares : P.Spares q o r) (hx : exec t w o P.shared = some (r, s')) (seg : Seg) :
    s'.unmaps (.mapped seg) +
        (Function.update G t ((G t).after o r) seg.owner).maps.count (.mapped seg) =
      s'.everMapped seg := by
  have hb := hJ.segments seg
  have heff := exec_effect hx
  rw [heff.unmaps]
  have hquiet : o.unmapped = [] → ((G t).after o r).maps = (G t).maps →
      s'.mapped = P.shared.mapped →
      P.shared.unmaps (.mapped seg) + o.unmapped.count (.mapped seg) +
          (Function.update G t ((G t).after o r) seg.owner).maps.count (.mapped seg) =
        s'.everMapped seg := by
    intro hnone hmaps hmapped
    have hsame : (Function.update G t ((G t).after o r) seg.owner).maps = (G seg.owner).maps := by
      by_cases he : seg.owner = t
      · subst he
        rw [Function.update_self, hmaps]
      · rw [Function.update_of_ne he]
    simp only [hnone, hsame, Provider.everMapped, hmapped, List.count_nil, Nat.add_zero]
    exact hb
  cases o with
  | mmap id fd size =>
      obtain rfl := mmap_segment hspares hx
      have hmapped : s'.mapped = Function.update P.shared.mapped t (P.shared.mapped t + 1) :=
        heff.mapped
      by_cases he : seg.owner = t
      · -- The handler has one more segment, the one with the next index.
        obtain ⟨owner, index⟩ := seg
        obtain rfl : owner = t := he
        have hbound : s'.everMapped ⟨owner, index⟩ = P.shared.everMapped ⟨owner, index⟩ +
            if index = P.shared.mapped owner then 1 else 0 := by
          simp only [hmapped, Provider.everMapped, Function.update_self]
          split <;> split <;> split <;> omega
        rw [hbound, ← hb]
        simp only [Function.update_self, Ghost.after, reduceCtorEq, if_false, List.count_append,
          List.count_singleton, beq_iff_eq, Mapping.mapped.injEq, Seg.mk.injEq, true_and,
          Op.unmapped, List.count_nil, eq_comm (a := index)]
        omega
      · have hbound : s'.everMapped seg = P.shared.everMapped seg := by
          simp only [hmapped, Provider.everMapped, Function.update_of_ne he]
        rw [Function.update_of_ne he, hbound, ← hb]
        rfl
  -- What is unmapped is the first of the segments that are still mapped.
  | munmap a =>
      obtain ⟨-, -, hhead⟩ := hallow
      obtain ⟨rest, hmaps⟩ : ∃ rest, (G t).maps = a :: rest := by
        cases hm : (G t).maps with
        | nil =>
            rw [hm] at hhead
            cases hhead
        | cons b rest =>
            rw [hm] at hhead
            exact ⟨rest, by rw [Option.some.inj hhead]⟩
      have hbound : s'.everMapped seg = P.shared.everMapped seg := by
        simp only [Provider.everMapped, heff.mapped, Op.mapped]
      rw [hbound, ← hb]
      by_cases he : seg.owner = t
      · subst he
        simp only [Function.update_self, Ghost.after, hmaps, List.tail_cons, Op.unmapped,
          List.count_cons, List.count_nil]
        omega
      · -- The segment that is unmapped is one of `t`.
        obtain ⟨n, rfl⟩ := hJ.maps t a (by simp [hmaps])
        have hother : seg ≠ ⟨t, n⟩ := by
          rintro rfl
          exact he rfl
        simp [Function.update_of_ne he, Op.unmapped, hother.symm]
  | _ => exact hquiet rfl rfl heff.mapped

theorem Conserving.mapFailures_step (hJ : Conserving G P) (hspares : P.Spares q o r)
    (hx : exec t w o P.shared = some (r, s')) (t' : Tid) : s'.mapFailures t' = 0 := by
  rw [(exec_effect hx).mapFailures]
  cases o with
  | mmap id fd size =>
      obtain rfl := mmap_segment hspares hx
      exact hJ.mapFailures t'
  | _ => exact hJ.mapFailures t'

/-! ### The invariant holds -/

theorem Conserving.step (hJ : Conserving G P) (hw : Watched discipline G P)
    (hspares : P.Spares q o r) (ht : P.thread t = some ⟨q, .op o k⟩)
    (hx : exec t w o P.shared = some (r, s')) :
    Conserving (Function.update G t ((G t).after o r))
      { shared := s', thread := Function.update P.thread t (some ⟨q, k r⟩) } where
  toSequenced := hJ.toSequenced.step hw hspares ht hx
  descriptors := hJ.descriptors_step hw hspares ht hx
  segments := hJ.segments_step (hw.allows ht) hspares hx
  maps t' a ha := by
    by_cases he : t' = t
    · subst he
      rw [Function.update_self] at ha
      exact hJ.maps_step hspares hx ha
    · rw [Function.update_of_ne he] at ha
      exact hJ.maps t' a ha
  unused := hJ.unused_step (hw.allows ht) hx
  mapFailures := hJ.mapFailures_step hspares hx

theorem Conserving.spawn (abtio : Bool) (hJ : Conserving G P) (hover : P.AllOver)
    (ht : P.thread t = none) :
    Conserving (Function.update G t (.init q))
      { P with thread := Function.update P.thread t (some ⟨q, handle abtio q⟩) } where
  toSequenced := hJ.toSequenced.spawn abtio hover ht
  descriptors fd := by
    have hkeeps := init_field (q := q) (·.keeps P.shared.openFds) (fun _ _ => rfl)
      (hJ.absent t ht)
    dsimp only at hkeeps ⊢
    rw [hkeeps]
    exact hJ.descriptors fd
  segments seg := by
    rw [init_field (·.maps) (fun _ _ => rfl) (hJ.absent t ht)]
    exact hJ.segments seg
  maps t' a ha := by
    rw [init_field (·.maps) (fun _ _ => rfl) (hJ.absent t ht)] at ha
    exact hJ.maps t' a ha
  unused := hJ.unused
  mapFailures := hJ.mapFailures

theorem conserving_init (classes : ClassKey → Option MigrationClass) (fs : Fs) :
    Conserving (fun _ => .init (.end_ 0)) (.init classes fs) where
  toSequenced := sequenced_init classes fs
  descriptors _ := rfl
  segments _ := rfl
  maps _ _ h := by cases h
  unused := ⟨rfl, rfl, rfl⟩
  mapFailures _ := rfl

/-! ### What the invariant says -/

/-- A handler that has answered an error has missed or erased its record. -/
theorem Conserving.error_dead (hJ : Conserving G P) (hw : Watched discipline G P) {a : Response}
    {id : Uuid} (ht : P.thread t = some ⟨q, .pure ()⟩) (ha : P.shared.responses t = some a)
    (herror : a.ret ≠ .success) (htarget : q.target = some id) :
    (G t).req.target = some id ∧ ((G t).missed = true ∨ (G t).erased = true) := by
  have hreq := hJ.req t q _ ht
  have hdone : (G t).Done := hw t q _ ht
  rw [hJ.answer] at ha
  refine ⟨by rw [hreq, htarget], ?_⟩
  cases hkind : (G t).req.kind with
  | start =>
      rw [hreq] at hkind
      cases q <;> simp [Request.kind, Request.target] at hkind htarget
  | end_ => exact hdone.2.2.2 hkind
  | mmap | write =>
      rcases (hJ.valid t).error a ha herror (by simp [hkind]) with h | h | h
      · exact Or.inl h
      · exact Or.inr h
      · exact absurd ((hJ.unfailed t).symm.trans h) (by decide)

/-- A handler keeps nothing that its record does not hold. -/
theorem Conserving.closed_once (hJ : Conserving G P) (hmine : (G t).mine = [])
    (hopen : ∀ id, (G t).drawn = some id → P.shared.openFds id = []) {n : Nat}
    (hn : n < P.shared.opened t) : P.shared.closes ⟨t, n⟩ = 1 := by
  have hb := hJ.descriptors ⟨t, n⟩
  have hkeeps : (G t).keeps P.shared.openFds = [] := by
    unfold Ghost.keeps
    rw [hmine]
    cases hd : (G t).drawn with
    | none => rfl
    | some id => exact hopen id hd
  simpa [hkeeps, Provider.everOpened, hn] using hb

theorem Conserving.conserved (hJ : Conserving G P) (hw : Watched discipline G P) :
    P.Conserved where
  error_gone t q a id ht ha herror htarget := by
    obtain ⟨hreq, hdead⟩ := hJ.error_dead hw ht ha herror htarget
    exact (hJ.dead t id hreq hdead).1
  -- A `migrate_start` that did not succeed has stored no record.
  closed_failed t q ht hnot n hn := by
    have hdone : (G t).Done := hw t q _ ht
    refine hJ.closed_once hdone.2.2.1 (fun id hid => ?_) hn
    have hstored : (G t).stored = false := by
      cases hst : (G t).stored with
      | false => rfl
      | true =>
          obtain ⟨a, ha⟩ := Option.ne_none_iff_exists'.mp hdone.1
          have hkind := (hJ.valid t).drawn (by simp [hid])
          obtain ⟨ret, status, i, rfl⟩ := (hJ.valid t).answer_of_start hkind ha
          obtain ⟨-, -, hret⟩ := (hJ.valid t).answerStart ret status i ha
          obtain rfl := hret.mpr hst
          exact absurd ((hJ.answer t).trans ha) (hnot status i)
    simp [Provider.openFds, hJ.unstored t id hid hstored]
  closed_left t status id ha hnone n hn := by
    rw [hJ.answer] at ha
    obtain ⟨-, hdrawn, hstored⟩ := (hJ.valid t).answerStart _ _ _ ha
    refine hJ.closed_once ((hJ.valid t).stored (hstored.mp rfl)).2 (fun i hi => ?_) hn
    obtain rfl := Option.some.inj (hi.symm.trans hdrawn)
    simp [Provider.openFds, hnone]
  -- A handler that is done has no mapping left.
  unmapped t q ht n hn := by
    have hdone : (G t).Done := hw t q _ ht
    have hb := hJ.segments ⟨t, n⟩
    have hmaps : (G t).maps = [] := by
      by_cases hkind : (G t).req.kind = .mmap
      · obtain ⟨a, ha⟩ := Option.ne_none_iff_exists'.mp hdone.1
        obtain ⟨ret, rfl⟩ := (hJ.valid t).answer_of_mmap hkind ha
        exact ((hJ.valid t).answerMmap ret ha).2.2 (hJ.unfailed t)
      · exact (hJ.valid t).maps hkind
    simpa [hmaps, Provider.everMapped, hn] using hb
  failed_unused := hJ.unused
  failed_error t q a _ hfailed := absurd (hJ.mapFailures t) hfailed

/-! ### Errors are final -/

/-- The invariant of the runs from `P₀`, where the ids in `D` are out of use. -/
structure Banning (D : Uuid → Prop) (P₀ : System) (G : Tid → Ghost) (P : System) : Prop
    extends Conserving G P where
  banned : ∀ id, D id → ∃ t, (G t).req.target = some id ∧
    ((G t).missed = true ∨ (G t).erased = true)
  newcomer : ∀ id t, D id → P₀.thread t = none → (G t).found ≠ some id

section Banning
variable {D : Uuid → Prop} {P₀ : System}

theorem Banning.step (hJ : Banning D P₀ G P) (hw : Watched discipline G P)
    (hspares : P.Spares q o r) (ht : P.thread t = some ⟨q, .op o k⟩)
    (hx : exec t w o P.shared = some (r, s')) :
    Banning D P₀ (Function.update G t ((G t).after o r))
      { shared := s', thread := Function.update P.thread t (some ⟨q, k r⟩) } where
  toConserving := hJ.toConserving.step hw hspares ht hx
  banned id hid := by
    have hallow : (G t).Allows o := hw.allows ht
    obtain ⟨t₁, htarget, hdead⟩ := hJ.banned id hid
    refine ⟨t₁, ?_, ?_⟩
    · exact update_keeps (p := fun g => g.req.target = some id) htarget fun h => by
        rwa [after_req]
    · exact update_keeps (p := fun g => g.missed = true ∨ g.erased = true) hdead fun h =>
        h.imp (after_missed hallow) after_erased
  newcomer id t' hid hnew := by
    intro hfound
    have hold := hJ.newcomer id t' hid hnew
    by_cases he : t' = t
    · subst he
      rw [Function.update_self] at hfound
      cases o with
      | find i =>
          cases r with
          | false => cases hfound
          | true =>
              -- The record of the id has gone, so it is not found.
              obtain rfl := Option.some.inj hfound
              obtain ⟨t₁, htarget, hdead⟩ := hJ.banned i hid
              obtain ⟨hsome, -⟩ := Prod.mk.inj (Option.some.inj hx)
              rw [(hJ.dead t₁ i htarget hdead).1] at hsome
              cases hsome
      | _ => exact hold hfound
    · rw [Function.update_of_ne he] at hfound
      exact hold hfound

theorem Banning.spawn (abtio : Bool) (hJ : Banning D P₀ G P) (hover : P.AllOver)
    (ht : P.thread t = none) :
    Banning D P₀ (Function.update G t (.init q))
      { P with thread := Function.update P.thread t (some ⟨q, handle abtio q⟩) } where
  toConserving := hJ.toConserving.spawn abtio hover ht
  banned id hid := by
    obtain ⟨t₁, htarget, hdead⟩ := hJ.banned id hid
    have hne : t₁ ≠ t := by
      rintro rfl
      rw [hJ.absent t₁ ht] at hdead
      rcases hdead with h | h <;> cases h
    exact ⟨t₁, by rwa [Function.update_of_ne hne], by rwa [Function.update_of_ne hne]⟩
  newcomer id t' hid hnew := by
    rw [init_field (·.found) (fun _ _ => rfl) (hJ.absent t ht)]
    exact hJ.newcomer id t' hid hnew

end Banning

/-- The ids for which a request has been answered with an error. -/
def System.HasError (P : System) (id : Uuid) : Prop :=
  ∃ t q a, P.thread t = some ⟨q, .pure ()⟩ ∧ P.shared.responses t = some a ∧
    a.ret ≠ .success ∧ q.target = some id

theorem Conserving.banning (hJ : Conserving G P) (hw : Watched discipline G P) :
    Banning P.HasError P G P where
  toConserving := hJ
  banned id := by
    rintro ⟨t, q, a, ht, ha, herror, htarget⟩
    exact ⟨t, hJ.error_dead hw ht ha herror htarget⟩
  newcomer id t _ hnew := by
    rw [hJ.absent t hnew]
    simp [Ghost.init]

theorem Banning.errorsFinal {P₀ : System} (hJ : Banning P₀.HasError P₀ G P) :
    P₀.ErrorsFinal P := by
  intro t q a id ht ha herror htarget t' q' rest a' hnew ht' htarget' ha'
  have hreq := hJ.req t' q' rest ht'
  rw [hJ.answer] at ha'
  refine (hJ.valid t').refused a' ha' ?_ ?_
  · rw [hreq]
    cases q' <;> simp [Request.kind, Request.target] at htarget' ⊢
  · cases hfound : (G t').found with
    | none => rfl
    | some i =>
        have hsame := (hJ.valid t').target i hfound
        rw [hreq, htarget'] at hsame
        obtain rfl := Option.some.inj hsame
        exact absurd hfound (hJ.newcomer id t' ⟨t, q, a, ht, ha, herror, htarget⟩ hnew)

end

/-- In a gentle run every descriptor and every segment is given back once, and an id with an
error stays out of use. -/
theorem conserved_of_gentle (abtio : Bool) (classes : ClassKey → Option MigrationClass)
    (fs : Fs) {ls : List Step} {P : System}
    (h : System.Reaches abtio System.Gentle (.init classes fs) ls P) :
    P.Conserved ∧
      ∀ ls' P', System.Reaches abtio System.Gentle P ls' P' → P.ErrorsFinal P' := by
  have hinv : GhostInv discipline Conserving P := by
    refine ghostInv_run_from h (ghostInv_of_empty (fun _ => rfl) (conserving_init classes fs))
      .init (handle_follows abtio) ?_ ?_
    · intro G P t q hover _ hJ hnone
      exact hJ.spawn abtio hover hnone
    · intro G P t w q o k r s' hgentle hw hJ ht hx
      exact ⟨_, rfl, hJ.step hw (hgentle q o k r s' ht hx) ht hx⟩
  obtain ⟨G, hw, hJ⟩ := hinv
  refine ⟨hJ.conserved hw, fun ls' P' h' => ?_⟩
  have hinv' : GhostInv discipline (Banning P.HasError P) P' := by
    refine ghostInv_run_from h' ⟨G, hw, hJ.banning hw⟩ .init (handle_follows abtio) ?_ ?_
    · intro G P t q hover _ hJ hnone
      exact hJ.spawn abtio hover hnone
    · intro G P t w q o k r s' hgentle hw hJ ht hx
      exact ⟨_, rfl, hJ.step hw (hgentle q o k r s' ht hx) ht hx⟩
  obtain ⟨G', -, hJ'⟩ := hinv'
  exact hJ'.errorsFinal

/-! ### Runs of a few handlers -/

instance (rest : Handler Unit) : Decidable (Over rest) :=
  match rest with
  | .pure _ => .isTrue trivial
  | .op o _ => inferInstanceAs (Decidable (o.throws = true))

/-- The handlers in `ts` are over. -/
def System.overIn (ts : List Tid) (P : System) : Bool :=
  ts.all fun t =>
    match P.thread t with
    | some ⟨_, rest⟩ => decide (Over rest)
    | none => true

/-- `Spares`, when the handlers are those in `ts`. -/
def System.sparesIn (ts : List Tid) (P : System) (q : Request) : (o : Op) → Ans o → Bool
  | .newUuid, id => ts.all fun t =>
    match P.thread t with
    | some ⟨q', _⟩ => decide (q'.target ≠ some id)
    | none => true
  | .ftruncate _ _ _, ok => ok
  | .mmap _ _ _, a => decide (a ≠ .failed)
  | .pull _ _, n => (q.target.bind P.shared.opInProgress).all fun op =>
      n % sizeModulus = op.filesizes.sum % sizeModulus
  | .msync _, ok => ok
  | .erase id, _ => decide (q.kind ≠ .write) || (P.shared.opInProgress id).all (·.fds = [])
  | _, _ => true

/-- `Gentle`, when the handlers are those in `ts`. -/
def System.gentleIn (ts : List Tid) (P : System) : Step → Bool
  | .spawn t _ => decide (t ∈ ts) && P.overIn ts
  | .step t w =>
    match P.thread t with
    | some ⟨q, .op o _⟩ => (exec t w o P.shared).all fun rs => P.sparesIn ts q o rs.1
    | _ => true

section
variable {ts : List Tid} {P : System}

theorem allOver_of_overIn (hts : ∀ t, t ∉ ts → P.thread t = none) (h : P.overIn ts = true) :
    P.AllOver := by
  intro t q rest ht
  by_cases hmem : t ∈ ts
  · have hover := List.all_eq_true.mp h t hmem
    rw [ht] at hover
    exact of_decide_eq_true hover
  · rw [hts t hmem] at ht
    cases ht

theorem spares_of_sparesIn (hts : ∀ t, t ∉ ts → P.thread t = none) {q : Request} {o : Op}
    {r : Ans o} (h : P.sparesIn ts q o r = true) : P.Spares q o r := by
  cases o with
  | newUuid =>
      intro t q' rest ht
      by_cases hmem : t ∈ ts
      · have hnew := List.all_eq_true.mp h t hmem
        rw [ht] at hnew
        exact of_decide_eq_true hnew
      · rw [hts t hmem] at ht
        cases ht
  | mmap id fd size =>
      have hmapped : r ≠ .failed := of_decide_eq_true h
      exact hmapped
  | pull remote segs =>
      intro id op hid hop
      simpa [System.sparesIn, hid, hop] using h
  | erase id =>
      intro hkind op hop
      simpa [System.sparesIn, hkind, hop] using h
  | ftruncate | msync => exact h
  | _ => trivial

theorem gentle_of_gentleIn {abtio : Bool} {classes : ClassKey → Option MigrationClass} {fs : Fs}
    {ls : List Step}
    (h : System.Reaches abtio (fun P l => P.gentleIn ts l = true) (.init classes fs) ls P) :
    System.Reaches abtio System.Gentle (.init classes fs) ls P := by
  have hconfined := run_confined (· ∈ ts) h (fun _ => rfl) fun P t q hl =>
    of_decide_eq_true (Bool.and_eq_true_iff.mp hl).1
  refine hconfined.weaken ?_
  rintro s (⟨t, q⟩ | ⟨t, w⟩) ⟨hts, hl⟩
  · exact allOver_of_overIn hts (Bool.and_eq_true_iff.mp hl).2
  · intro q o k r s' ht hx
    simp only [System.gentleIn, ht, hx, Option.all_some] at hl
    exact spares_of_sparesIn hts hl

end

/-- A file of one byte is migrated by `migrate_mmap`. -/
private def mmapOne : List Step :=
  .spawn ⟨0, 0⟩ (.start oneFile [1] [0]) :: List.replicate 10 (.step ⟨0, 0⟩ (.succeed 1)) ++
    .spawn ⟨0, 1⟩ (.mmap 1 (some [.mapped [7]])) ::
      List.replicate 10 (.step ⟨0, 1⟩ (.succeed 1)) ++
    .spawn ⟨0, 2⟩ (.end_ 1) :: List.replicate 9 (.step ⟨0, 2⟩ (.succeed 1))

theorem conserved_of_gentle_mmapOne : ∃ P,
    System.Reaches false System.Gentle (.init acceptAll .empty) mmapOne P ∧
      P.shared.responses ⟨0, 2⟩ = some (.end_ .success 0) ∧
      P.shared.closes ⟨⟨0, 0⟩, 0⟩ = 1 ∧ P.shared.unmaps (.mapped ⟨⟨0, 1⟩, 0⟩) = 1 ∧
      P.Conserved ∧
      ∀ ls' P', System.Reaches false System.Gentle P ls' P' → P.ErrorsFinal P' := by
  have hrun : (follow (System.next false)
      (fun P l => P.gentleIn [⟨0, 0⟩, ⟨0, 1⟩, ⟨0, 2⟩] l = true) mmapOne
      (.init acceptAll .empty)).any (fun P =>
        P.shared.responses ⟨0, 2⟩ = some (.end_ .success 0) ∧
          P.shared.closes ⟨⟨0, 0⟩, 0⟩ = 1 ∧
          P.shared.unmaps (.mapped ⟨⟨0, 1⟩, 0⟩) = 1) = true := by decide
  obtain ⟨P, hP, hend⟩ := (Option.any_eq_true _ _).mp hrun
  obtain ⟨hanswer, hcloses, hunmaps⟩ := of_decide_eq_true hend
  have hgentle := gentle_of_gentleIn (run_of_follow hP)
  obtain ⟨hconserved, hfinal⟩ := conserved_of_gentle false acceptAll .empty hgentle
  exact ⟨P, hgentle, hanswer, hcloses, hunmaps, hconserved, hfinal⟩

/-- Handlers start one at a time. -/
def System.OneByOne (P : System) : Step → Prop
  | .spawn _ _ => P.AllOver
  | .step _ _ => True

/-- `OneByOne`, when the handlers are those in `ts`. -/
def System.oneByOneIn (ts : List Tid) (P : System) : Step → Bool
  | .spawn t _ => decide (t ∈ ts) && P.overIn ts
  | .step _ _ => true

/-- The bulk transfer of a migration moves no byte. -/
private def shortTransfer : List Step :=
  .spawn ⟨0, 0⟩ (.start oneFile [1] [0]) :: List.replicate 10 (.step ⟨0, 0⟩ (.succeed 1)) ++
    .spawn ⟨0, 1⟩ (.mmap 1 (some [.mapped [7]])) ::
      List.replicate 6 (.step ⟨0, 1⟩ (.succeed 1)) ++
    [.step ⟨0, 1⟩ { Outcome.succeed 1 with io := .short 0 }, .step ⟨0, 1⟩ (.succeed 1)]

/-- The handler `t` has returned with an error for an operation that is still in the map. -/
def System.leavesError (t : Tid) (P : System) : Bool :=
  match P.thread t with
  | some ⟨q, .pure _⟩ => (P.shared.responses t).any (·.ret ≠ .success) &&
      q.target.any fun id => (P.shared.opInProgress id).isSome
  | _ => false

theorem not_conserved_of_leavesError {P : System} {t : Tid} (h : P.leavesError t = true) :
    ¬ P.Conserved := by
  intro hconserved
  unfold System.leavesError at h
  split at h
  · rename_i q u ht
    obtain ⟨hanswer, htarget⟩ := Bool.and_eq_true_iff.mp h
    obtain ⟨a, ha, herror⟩ := (Option.any_eq_true _ _).mp hanswer
    obtain ⟨id, hid, hsome⟩ := (Option.any_eq_true _ _).mp htarget
    have hnone := hconserved.error_gone t q a id ht ha (of_decide_eq_true herror) hid
    rw [hnone] at hsome
    cases hsome
  · cases h

theorem not_conserved_shortTransfer : ∃ P,
    System.Reaches false System.OneByOne (.init acceptAll .empty) shortTransfer P ∧
      ¬ P.Conserved := by
  have hrun : (follow (System.next false)
      (fun P l => P.oneByOneIn [⟨0, 0⟩, ⟨0, 1⟩] l = true) shortTransfer
      (.init acceptAll .empty)).any (·.leavesError ⟨0, 1⟩) = true := by decide
  obtain ⟨P, hP, hleaves⟩ := (Option.any_eq_true _ _).mp hrun
  refine ⟨P, ?_, not_conserved_of_leavesError hleaves⟩
  have hconfined := run_confined (· ∈ [⟨0, 0⟩, ⟨0, 1⟩]) (run_of_follow hP) (fun _ => rfl)
    fun P t q hl => of_decide_eq_true (Bool.and_eq_true_iff.mp hl).1
  refine hconfined.weaken ?_
  rintro s (⟨t, q⟩ | ⟨t, w⟩) ⟨hts, hl⟩
  · exact allOver_of_overIn hts (Bool.and_eq_true_iff.mp hl).2
  · trivial

end Remi
