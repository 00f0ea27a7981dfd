import Remi.Client.Discipline
import Remi.Proofs.Calls

/-!
# `Remi.Proofs.Tidy`: a client gives back what it takes

The transfer functions follow the discipline of `Remi.Client.Discipline` on each of their exits
(`transfer_follows`). From it come the two results about the process: every call is a safe one
(`transfer_safe`), and nothing is left behind (`transfer_tidy`).
-/

set_option autoImplicit false

namespace Remi

open Remi.Lib

/-- A program that follows the discipline of a client from `g` and returns with `Q`. -/
abbrev Abides {α : Type} (p : ClientProg α) (g : Held) (Q : Held → α → Prop) : Prop :=
  p.Obeys clientDiscipline Q g

/-- The rule for one call. -/
theorem abides_call {α : Type} {c : Call} {f : Reply c → ClientProg α} {g : Held}
    {Q : Held → α → Prop} (hallow : g.Allows c) (hf : ∀ r, Abides (f r) (g.after c r) Q) :
    Abides (invoke c >>= f) g Q :=
  Prog.obeys_call hallow hf

/-- The rule for a part that leaves what the client holds as it is. -/
theorem abides_quiet {α β : Type} {p : ClientProg α} {f : α → ClientProg β} {g : Held}
    {Q : Held → β → Prop} (hp : Abides p g fun g' _ => g' = g) (hf : ∀ a, Abides (f a) g Q) :
    Abides (p >>= f) g Q :=
  Prog.obeys_part hp hf

/-- Nothing is held, except for the descriptors that are leaked. -/
def Held.Nothing (g : Held) : Prop := ∃ leaked, g = .nothing leaked

/-! ### The cleanups -/

theorem unmapSegments_abides (l : List SourceAddr) {g : Held} (hg : g.segments = l) :
    Abides (unmapSegments l) g fun g' _ => g' = { g with segments := [] } := by
  induction l generalizing g with
  | nil =>
      show g = { g with segments := [] }
      rw [← hg]
  | cons a rest ih =>
      refine abides_call (show a ∈ g.segments by rw [hg]; exact List.mem_cons_self) fun _ => ?_
      exact ih (g := { g with segments := g.segments.erase a }) (by
        show g.segments.erase a = rest
        rw [hg, List.erase_cons_head])

theorem closeSources_abides (l : List SourceFd) {g : Held} (hg : g.fds = l) :
    Abides (closeSources l) g fun g' _ => g' = { g with fds := [] } := by
  induction l generalizing g with
  | nil =>
      show g = { g with fds := [] }
      rw [← hg]
  | cons fd rest ih =>
      refine abides_call (show fd ∈ g.fds by rw [hg]; exact List.mem_cons_self) fun _ => ?_
      exact ih (g := { g with fds := g.fds.erase fd }) (by
        show g.fds.erase fd = rest
        rw [hg, List.erase_cons_head])

section Returns
variable {α : Type} {Q : Held → α → Prop} {leaked : List SourceFd} {a : α}

/-- A return behind the unmapping of all segments. -/
theorem unmap_abides (theData : List SourceAddr) (hQ : Q (.nothing leaked) a) :
    Abides (unmapSegments theData >>= fun _ => pure a) ⟨[], theData, none, leaked⟩ Q :=
  Prog.obeys_part (unmapSegments_abides theData rfl) fun _ => hQ

/-- A return behind the closing of all files. -/
theorem close_abides (opened : List SourceFd) (hQ : Q (.nothing leaked) a) :
    Abides (closeSources opened >>= fun _ => pure a) ⟨opened, [], none, leaked⟩ Q :=
  Prog.obeys_part (closeSources_abides opened rfl) fun _ => hQ

end Returns

/-! ### `migrate_using_mmap` -/

/-- The files have been mapped, or everything has been given back. -/
def MapEnds (leaked : List SourceFd) (g : Held) :
    Except Ret (List SourceAddr × List Nat × List Nat) → Prop
  | .error _ => g.Nothing
  | .ok r => g = ⟨[], r.1, none, leaked⟩

/-- Between two files only segments are held. -/
theorem mapSources_abides (root : Str) (files : List Str) (theData : List SourceAddr)
    (theSizes theModes : List Nat) (leaked : List SourceFd) :
    Abides (mapSources root files theData theSizes theModes) ⟨[], theData, none, leaked⟩
      (MapEnds leaked) := by
  induction files generalizing theData theSizes theModes with
  | nil => rfl
  | cons filename rest ih =>
      refine abides_call trivial fun r => ?_
      cases r with
      | none => exact unmap_abides theData ⟨leaked, rfl⟩
      | some fd =>
          have hheld : fd ∈ [fd] := List.mem_singleton_self fd
          have hclosed : [fd].erase fd = [] := List.erase_cons_head fd []
          refine abides_call hheld fun r => ?_
          cases r with
          | none =>
              refine abides_call hheld fun _ => ?_
              show Abides _ ⟨[fd].erase fd, theData, none, leaked⟩ _
              rw [hclosed]
              exact unmap_abides theData ⟨leaked, rfl⟩
          | some st =>
              obtain ⟨size, mode⟩ := st
              dsimp only
              split
              · refine abides_call hheld fun _ => ?_
                show Abides _ ⟨[fd].erase fd, theData, none, leaked⟩ _
                rw [hclosed]
                exact ih theData _ _
              · refine abides_call hheld fun a => ?_
                by_cases ha : a = .null
                · -- The descriptor is not closed.
                  rw [if_pos ha]
                  show Abides _ (if a = .null then _ else _) _
                  rw [if_pos ha]
                  show Abides _ ⟨[fd].erase fd, theData, none, leaked ++ [fd]⟩ _
                  rw [hclosed]
                  exact unmap_abides theData ⟨leaked ++ [fd], rfl⟩
                · rw [if_neg ha]
                  show Abides _ (if a = .null then _ else _) _
                  rw [if_neg ha]
                  refine abides_call hheld fun _ => ?_
                  show Abides _ ⟨[fd].erase fd, theData ++ [a], none, leaked⟩ _
                  rw [hclosed]
                  exact ih (theData ++ [a]) _ _

theorem sendMapped_abides (restored : Fileset) (theData : List SourceAddr)
    {localBulk : Option (List SourceAddr)} (hbulk : ∀ l, localBulk = some l → l = theData)
    (status : Int) (id : Uuid) (leaked : List SourceFd) :
    Abides (sendMapped restored theData localBulk status id) ⟨[], theData, none, leaked⟩
      fun g' _ => g'.Nothing := by
  refine abides_call ⟨rfl, fun l hl a ha => hbulk l hl ▸ ha⟩ fun ret => ?_
  split
  · exact unmap_abides theData ⟨leaked, rfl⟩
  · refine abides_call rfl fun result => ?_
    exact unmap_abides theData ⟨leaked, rfl⟩

theorem exposeSegments_abides (theData : List SourceAddr) (leaked : List SourceFd) :
    Abides (exposeSegments theData) ⟨[], theData, none, leaked⟩
      fun g' r => g' = ⟨[], theData, none, leaked⟩ ∧ ∀ l, r = some l → l = theData := by
  unfold exposeSegments
  split
  · exact ⟨rfl, nofun⟩
  · refine abides_call (fun a ha => ha) fun _ => ⟨rfl, fun l hl => ?_⟩
    exact (Option.some.inj hl).symm

theorem migrateMmapCalls_abides (fileset : Fileset) (files : SortedSet Str) (remoteRoot : Str)
    (status : Int) :
    Abides (migrateMmapCalls fileset files remoteRoot status) (.nothing [])
      fun g' _ => g'.Nothing := by
  refine Prog.obeys_bind (mapSources_abides fileset.root files.toList [] [] [] []) fun g r hr => ?_
  cases r with
  | error ret => exact hr
  | ok r =>
      obtain ⟨theData, theSizes, theModes⟩ := r
      obtain rfl := hr
      refine Prog.obeys_bind (exposeSegments_abides theData []) fun g r hr => ?_
      obtain ⟨rfl, hbulk⟩ := hr
      refine abides_call rfl fun answer => ?_
      obtain ⟨ret, userStatus, id⟩ := answer
      dsimp only
      split
      · exact unmap_abides theData ⟨[], rfl⟩
      · exact sendMapped_abides _ theData hbulk status id []

/-! ### `migrate_using_abtio` -/

/-- The files have been opened, or everything has been given back. -/
def OpenEnds (g : Held) : Except Ret (List SourceFd × List Nat × List Nat) → Prop
  | .error _ => g.Nothing
  | .ok r => g = ⟨r.1, [], none, []⟩

theorem openEach_abides (root : Str) (files : List Str) (opened : List SourceFd)
    (theSizes theModes : List Nat) :
    Abides (openEach root files opened theSizes theModes) ⟨opened, [], none, []⟩ OpenEnds := by
  induction files generalizing opened theSizes theModes with
  | nil => rfl
  | cons filename rest ih =>
      refine abides_call trivial fun r => ?_
      cases r with
      | none => exact close_abides opened ⟨[], rfl⟩
      | some fd =>
          refine abides_call (show fd ∈ opened ++ [fd] from List.mem_append_right _
            (List.mem_singleton_self fd)) fun r => ?_
          cases r with
          | none => exact close_abides (opened ++ [fd]) ⟨[], rfl⟩
          | some st => exact ih (opened ++ [fd]) _ _

section Writes
variable {g : Held} {fd : SourceFd}

theorem plainChunkCalls_abides (id : Uuid) (maxChunkSize i : Nat) (hfd : fd ∈ g.fds)
    (hsending : g.sending = none) (fuel remainingSize currentOffset : Nat) (ret : Ret) :
    Abides (plainChunkCalls id maxChunkSize i fd fuel remainingSize currentOffset ret) g
      fun g' _ => g' = g := by
  have hfree : g.sending ≠ some .first := by rw [hsending]; exact nofun
  induction fuel generalizing remainingSize currentOffset ret with
  | zero => rfl
  | succ fuel ih =>
      unfold plainChunkCalls
      split
      · rfl
      · refine abides_call hfree fun _ => abides_call ⟨hfd, hfree⟩ fun _ => ?_
        exact abides_call hsending fun ret => ih _ _ ret

theorem plainFileCalls_abides (id : Uuid) (maxChunkSize : Nat) {opened : List (SourceFd × Nat)}
    (hopened : ∀ x ∈ opened, x.1 ∈ g.fds) (hsending : g.sending = none) (i : Nat) (ret : Ret) :
    Abides (plainFileCalls id maxChunkSize opened i ret) g fun g' _ => g' = g := by
  induction opened generalizing i ret with
  | nil => rfl
  | cons x rest ih =>
      refine abides_quiet (plainChunkCalls_abides id maxChunkSize i
        (hopened x List.mem_cons_self) hsending _ _ _ _) fun ret => ?_
      exact ih (fun y hy => hopened y (List.mem_cons_of_mem _ hy)) (i + 1) ret

/-- The pipelined loops leave what the client holds as it is, and keep the buffers apart. -/
abbrev Quiet (g : Held) (g' : Held) (r : Ret × Block × Block) : Prop := g' = g ∧ r.2.1 ≠ r.2.2

theorem pipelineChunkCalls_abides (id : Uuid) (maxChunkSize i : Nat) (hfd : fd ∈ g.fds)
    (hsending : g.sending = none) (fuel remainingSize previousChunkOffset currentChunkOffset : Nat)
    {current previous : Block} (hne : current ≠ previous) (ret : Ret) :
    Abides (pipelineChunkCalls id maxChunkSize i fd fuel remainingSize previousChunkOffset
      currentChunkOffset current previous ret) g (Quiet g) := by
  induction fuel generalizing remainingSize previousChunkOffset currentChunkOffset current previous
    ret with
  | zero => exact ⟨rfl, hne⟩
  | succ fuel ih =>
      have hwaited : ({ g with sending := none } : Held) = g := by rw [← hsending]
      -- The buffer that is read into is not the one under way.
      have hfree : some previous ≠ some current := fun he => hne (Option.some.inj he).symm
      refine abides_call hsending fun _ => ?_
      dsimp only
      split
      · refine abides_call (show some previous ≠ none from nofun) fun ret => ?_
        exact ⟨hwaited, hne⟩
      · refine abides_call hfree fun _ => abides_call ⟨hfd, hfree⟩ fun _ => ?_
        refine abides_call (show some previous ≠ none from nofun) fun ret => ?_
        show Abides _ { g with sending := none } _
        rw [hwaited]
        split
        · exact ⟨rfl, hne⟩
        · exact ih _ _ _ (Ne.symm hne) ret

theorem pipelineOneCalls_abides (id : Uuid) (maxChunkSize i : Nat) (hfd : fd ∈ g.fds)
    (hsending : g.sending = none) (size : Nat) {current previous : Block}
    (hne : current ≠ previous) (ret : Ret) :
    Abides (pipelineOneCalls id maxChunkSize i fd size current previous ret) g (Quiet g) := by
  have hfree : g.sending ≠ some current := by rw [hsending]; exact nofun
  refine abides_call hfree fun _ => abides_call ⟨hfd, hfree⟩ fun _ => ?_
  exact pipelineChunkCalls_abides id maxChunkSize i hfd hsending _ _ _ _ (Ne.symm hne) ret

theorem pipelineFileCalls_abides (id : Uuid) (maxChunkSize : Nat)
    {opened : List (SourceFd × Nat)} (hopened : ∀ x ∈ opened, x.1 ∈ g.fds)
    (hsending : g.sending = none) (i : Nat) {current previous : Block}
    (hne : current ≠ previous) (ret : Ret) :
    Abides (pipelineFileCalls id maxChunkSize opened i current previous ret) g
      fun g' _ => g' = g := by
  induction opened generalizing i current previous ret with
  | nil => rfl
  | cons x rest ih =>
      refine Prog.obeys_bind (pipelineOneCalls_abides id maxChunkSize i
        (hopened x List.mem_cons_self) hsending x.2 hne ret) fun g' r hr => ?_
      obtain ⟨ret, current, previous⟩ := r
      obtain ⟨rfl, hne⟩ := hr
      dsimp only
      split
      · rfl
      · exact ih (fun y hy => hopened y (List.mem_cons_of_mem _ hy)) (i + 1) hne ret

theorem writeFileCalls_abides (abtio : Bool) (id : Uuid) (maxChunkSize : Nat)
    {opened : List (SourceFd × Nat)} (hopened : ∀ x ∈ opened, x.1 ∈ g.fds)
    (hsending : g.sending = none) :
    Abides (writeFileCalls abtio id maxChunkSize opened) g fun g' _ => g' = g := by
  have hfree : ∀ b, g.sending ≠ some b := by rw [hsending]; exact fun _ => nofun
  refine abides_call (hfree .first) fun _ => ?_
  split
  · refine abides_call (hfree .second) fun _ => ?_
    exact pipelineFileCalls_abides id maxChunkSize hopened hsending 0 (by decide) .success
  · exact plainFileCalls_abides id maxChunkSize hopened hsending 0 .success

end Writes

theorem sendOpened_abides (abtio : Bool) (restored : Fileset) (opened : List SourceFd)
    (theSizes : List Nat) (status : Int) (id : Uuid) :
    Abides (sendOpened abtio restored opened theSizes status id) ⟨opened, [], none, []⟩
      fun g' _ => g'.Nothing := by
  refine abides_quiet (writeFileCalls_abides abtio id _ (fun x hx => (List.of_mem_zip hx).1) rfl)
    fun ret => ?_
  split
  · exact close_abides opened ⟨[], rfl⟩
  · refine abides_call rfl fun result => ?_
    exact close_abides opened ⟨[], rfl⟩

theorem migrateAbtioCalls_abides (abtio : Bool) (fileset : Fileset) (files : SortedSet Str)
    (remoteRoot : Str) (status : Int) :
    Abides (migrateAbtioCalls abtio fileset files remoteRoot status) (.nothing [])
      fun g' _ => g'.Nothing := by
  refine Prog.obeys_bind (openEach_abides fileset.root files.toList [] [] []) fun g r hr => ?_
  cases r with
  | error ret => exact hr
  | ok r =>
      obtain ⟨opened, theSizes, theModes⟩ := r
      obtain rfl := hr
      refine abides_call rfl fun answer => ?_
      obtain ⟨ret, userStatus, id⟩ := answer
      dsimp only
      split
      · exact close_abides opened ⟨[], rfl⟩
      · exact sendOpened_abides abtio _ opened theSizes status id

/-- A transfer follows the discipline, and gives everything back on each of its exits. -/
theorem transfer_follows (ph : RemiProviderHandle) (mode : Int) (fileset : Fileset)
    (files : SortedSet Str) (remoteRoot : Str) (status : Int) :
    Abides (transferCalls ph mode fileset files remoteRoot status) (.nothing [])
      fun g' _ => g'.Nothing := by
  unfold transferCalls
  split
  · exact migrateMmapCalls_abides fileset files remoteRoot status
  · exact migrateAbtioCalls_abides ph.abtio fileset files remoteRoot status

/-! ### The process -/

section Process
variable {σ : Type} {rpc : Rpc σ} {io : ClientIo} {T : SourceTree} {s s' : ClientProcess σ}
  {g : Held}

/-- The process holds what the ghost state says, and has given back all else that it has had. -/
structure Holds (g : Held) (s : ClientProcess σ) : Prop where
  leaked : g.leaked = []
  nodup : g.fds.Nodup
  isOpen : ∀ fd, s.isOpen fd = true ↔ fd ∈ g.fds
  closes : ∀ fd, s.closes fd + g.fds.count fd = if fd < s.files.length then 1 else 0
  mmaps : ∀ n, s.mmaps (.mapped n) = if n < s.segments.length then 1 else 0
  unmaps : ∀ a, s.unmaps a + g.segments.count a = s.mmaps a
  pending : s.pending.map (·.1) = g.sending

theorem holds_init (st : σ) : Holds (.nothing []) (.init st) where
  leaked := rfl
  nodup := .nil
  isOpen fd := by simp [ClientProcess.init, Held.nothing]
  closes fd := rfl
  mmaps n := rfl
  unmaps a := rfl
  pending := rfl

/-- A call that leaves descriptors, segments and requests as they are. -/
theorem Holds.keep (h : Holds g s) (hfiles : s'.files = s.files) (hopen : s'.isOpen = s.isOpen)
    (hcloses : s'.closes = s.closes) (hsegments : s'.segments = s.segments)
    (hmmaps : s'.mmaps = s.mmaps) (hunmaps : s'.unmaps = s.unmaps)
    (hpending : s'.pending = s.pending) : Holds g s' where
  leaked := h.leaked
  nodup := h.nodup
  isOpen := by rw [hopen]; exact h.isOpen
  closes := by rw [hcloses, hfiles]; exact h.closes
  mmaps := by rw [hmmaps, hsegments]; exact h.mmaps
  unmaps := by rw [hmmaps, hunmaps]; exact h.unmaps
  pending := by rw [hpending]; exact h.pending

/-- A descriptor that is held has not been closed. -/
theorem Holds.fresh (h : Holds g s) {fd : SourceFd} (hfd : fd ∈ g.fds) :
    fd < s.files.length ∧ s.closes fd = 0 := by
  have hcloses := h.closes fd
  have hcount : 0 < g.fds.count fd := List.count_pos_iff.mpr hfd
  split at hcloses
  · exact ⟨by assumption, by omega⟩
  · omega

theorem Holds.open_ (h : Holds g s) (file : SourceHandle) :
    Holds { g with fds := g.fds ++ [s.files.length] }
      { s with
        files := s.files ++ [file]
        isOpen := Function.update s.isOpen s.files.length true } := by
  have hnew : s.files.length ∉ g.fds := fun hmem => Nat.lt_irrefl _ (h.fresh hmem).1
  refine ⟨h.leaked, ?_, fun fd => ?_, fun fd => ?_, h.mmaps, h.unmaps, h.pending⟩
  · exact List.nodup_append.mpr ⟨h.nodup, List.nodup_singleton _, fun a ha b hb hab => by
      rw [List.mem_singleton.mp hb] at hab
      exact hnew (hab ▸ ha)⟩
  · dsimp only
    by_cases he : fd = s.files.length
    · simp [he]
    · rw [Function.update_of_ne he, h.isOpen]
      simp [he]
  · have hcloses := h.closes fd
    dsimp only
    rw [List.count_append, List.count_singleton, List.length_append, List.length_singleton]
    by_cases he : fd = s.files.length
    · subst he
      have hcount : g.fds.count s.files.length = 0 := List.count_eq_zero.mpr hnew
      rw [if_neg (Nat.lt_irrefl _)] at hcloses
      simp only [beq_self_eq_true, ↓reduceIte]
      rw [if_pos (Nat.lt_succ_self _)]
      omega
    · have hne : (s.files.length == fd) = false := beq_false_of_ne (Ne.symm he)
      rw [hne, if_neg Bool.false_ne_true, Nat.add_zero, hcloses]
      by_cases hlt : fd < s.files.length
      · rw [if_pos hlt, if_pos (Nat.lt_succ_of_lt hlt)]
      · rw [if_neg hlt,
          if_neg fun hlt' => hlt (Nat.lt_of_le_of_ne (Nat.le_of_lt_succ hlt') he)]

theorem Holds.close (h : Holds g s) {fd : SourceFd} (hfd : fd ∈ g.fds) :
    Holds { g with fds := g.fds.erase fd }
      { s with
        isOpen := Function.update s.isOpen fd false
        closes := Function.update s.closes fd (s.closes fd + 1) } := by
  refine ⟨h.leaked, h.nodup.erase fd, fun fd' => ?_, fun fd' => ?_, h.mmaps, h.unmaps, h.pending⟩
  · dsimp only
    rw [h.nodup.mem_erase_iff]
    by_cases he : fd' = fd
    · simp [he]
    · rw [Function.update_of_ne he, h.isOpen]
      simp [he]
  · have hcloses := h.closes fd'
    dsimp only
    by_cases he : fd' = fd
    · subst he
      have hcount : 0 < g.fds.count fd' := List.count_pos_iff.mpr hfd
      rw [Function.update_self, List.count_erase_self]
      omega
    · rw [Function.update_of_ne he, List.count_erase_of_ne he]
      exact hcloses

/-- A segment is mapped, or the call has failed. -/
theorem Holds.mmap (h : Holds g s) {a : SourceAddr} {segments : List Bytes}
    (ha : a = .failed ∧ segments = s.segments ∨
      ∃ b, a = .mapped s.segments.length ∧ segments = s.segments ++ [b]) :
    Holds { g with segments := g.segments ++ [a] }
      { s with segments, mmaps := Function.update s.mmaps a (s.mmaps a + 1) } := by
  refine ⟨h.leaked, h.nodup, h.isOpen, h.closes, fun n => ?_, fun a' => ?_, h.pending⟩
  · have hmmaps := h.mmaps n
    dsimp only
    rcases ha with ⟨rfl, rfl⟩ | ⟨b, rfl, rfl⟩
    · have hne : (.mapped n : SourceAddr) ≠ .failed := nofun
      rw [Function.update_of_ne hne]
      exact hmmaps
    · rw [List.length_append, List.length_singleton]
      by_cases he : n = s.segments.length
      · subst he
        rw [if_neg (Nat.lt_irrefl _)] at hmmaps
        rw [Function.update_self, if_pos (Nat.lt_succ_self _), hmmaps]
      · rw [Function.update_of_ne fun heq => he (Mapping.mapped.inj heq), hmmaps]
        split <;> split <;> omega
  · have hunmaps := h.unmaps a'
    dsimp only
    rw [List.count_append, List.count_singleton]
    by_cases he : a' = a
    · subst he
      rw [Function.update_self, beq_self_eq_true]
      simp only [↓reduceIte]
      omega
    · rw [Function.update_of_ne he, beq_false_of_ne (Ne.symm he)]
      exact hunmaps

theorem Holds.munmap (h : Holds g s) {a : SourceAddr} (ha : a ∈ g.segments) :
    Holds { g with segments := g.segments.erase a }
      { s with unmaps := Function.update s.unmaps a (s.unmaps a + 1) } := by
  refine ⟨h.leaked, h.nodup, h.isOpen, h.closes, h.mmaps, fun a' => ?_, h.pending⟩
  have hunmaps := h.unmaps a'
  dsimp only
  by_cases he : a' = a
  · subst he
    have hcount : 0 < g.segments.count a' := List.count_pos_iff.mpr ha
    rw [Function.update_self, List.count_erase_self]
    omega
  · rw [Function.update_of_ne he, List.count_erase_of_ne he]
    exact hunmaps

/-- What `mmap` does for a descriptor that is open. -/
theorem mapSegment_cases (io : ClientIo) (s : ClientProcess σ) (fd : SourceFd) :
    ∃ a segments, mapSegment io fd s = (a, { s with
        segments, mmaps := Function.update s.mmaps a (s.mmaps a + 1) }) ∧
      (a = .failed ∧ segments = s.segments ∨
        ∃ b, a = .mapped s.segments.length ∧ segments = s.segments ++ [b]) := by
  unfold mapSegment
  dsimp only
  split
  · split
    · split
      · exact ⟨_, _, rfl, Or.inr ⟨_, rfl, rfl⟩⟩
      · exact ⟨_, _, rfl, Or.inl ⟨rfl, rfl⟩⟩
      · rename_i hnull
        exact absurd hnull (mmapFile_ne_null _ _ _)
    · exact ⟨_, _, rfl, Or.inl ⟨rfl, rfl⟩⟩
  · exact ⟨_, _, rfl, Or.inl ⟨rfl, rfl⟩⟩

theorem Holds.readAt (h : Holds g s) (fd : SourceFd) (b : Block) (offset : Nat) :
    Holds g (s.readAt io fd b offset).1 := by
  unfold ClientProcess.readAt
  split
  · split
    · exact h.keep rfl rfl rfl rfl rfl rfl rfl
    · exact h
  · exact h

/-- One call that the discipline allows. -/
theorem holds_perform {c : Call} {r : Reply c} (h : Holds g s) (hallow : g.Allows c)
    (hx : perform rpc io T c s = some (r, s')) : Holds (g.after c r) s' := by
  cases c with
  | open_ path =>
      simp only [perform] at hx
      split at hx
      · obtain ⟨rfl, rfl⟩ := Prod.mk.inj (Option.some.inj hx)
        exact h
      · obtain ⟨rfl, rfl⟩ := Prod.mk.inj (Option.some.inj hx)
        exact h.open_ _
  | close fd =>
      obtain ⟨-, rfl⟩ := Prod.mk.inj (Option.some.inj hx)
      exact h.close hallow
  | mmap fd size =>
      obtain ⟨a, segments, hmap, ha⟩ := mapSegment_cases io s fd
      obtain ⟨rfl, rfl⟩ := Prod.mk.inj ((Option.some.inj hx).symm.trans hmap)
      have hne : r ≠ .null := by
        intro hnull
        rcases ha with ⟨rfl, -⟩ | ⟨b, rfl, -⟩ <;> cases hnull
      show Holds (if r = .null then _ else _) _
      rw [if_neg hne]
      exact h.mmap ha
  | munmap a =>
      obtain ⟨-, rfl⟩ := Prod.mk.inj (Option.some.inj hx)
      exact h.munmap hallow
  | read fd b =>
      obtain ⟨-, rfl⟩ := Prod.mk.inj (Option.some.inj hx)
      exact (h.readAt fd b _).keep rfl rfl rfl rfl rfl rfl rfl
  | pread fd b offset =>
      obtain ⟨-, rfl⟩ := Prod.mk.inj (Option.some.inj hx)
      exact h.readAt fd b _
  | migrateWriteAsync id i offset b =>
      obtain ⟨-, rfl⟩ := Prod.mk.inj (Option.some.inj hx)
      exact ⟨h.leaked, h.nodup, h.isOpen, h.closes, h.mmaps, h.unmaps, rfl⟩
  | wait =>
      obtain ⟨request, -, hx⟩ := Option.map_eq_some_iff.mp hx
      obtain ⟨-, rfl⟩ := Prod.mk.inj hx
      exact ⟨h.leaked, h.nodup, h.isOpen, h.closes, h.mmaps, h.unmaps, rfl⟩
  | fstat fd =>
      obtain ⟨-, rfl⟩ := Prod.mk.inj (Option.some.inj hx)
      exact h
  | expose theData =>
      obtain ⟨-, rfl⟩ := Prod.mk.inj (Option.some.inj hx)
      exact h
  | resize b n =>
      obtain ⟨-, rfl⟩ := Prod.mk.inj (Option.some.inj hx)
      exact h.keep rfl rfl rfl rfl rfl rfl rfl
  | migrateStart | migrateMmap | migrateWrite | migrateEnd =>
      obtain ⟨-, rfl⟩ := Prod.mk.inj (Option.some.inj hx)
      exact h.keep rfl rfl rfl rfl rfl rfl rfl

/-- A call that the discipline allows is a safe one. -/
theorem Holds.safe (h : Holds g s) {c : Call} (hallow : g.Allows c) : c.Safe s := by
  have hmapped : ∀ a ∈ g.segments, s.IsMapped a := by
    intro a ha
    have hcount : 0 < g.segments.count a := List.count_pos_iff.mpr ha
    have hunmaps := h.unmaps a
    show s.unmaps a < s.mmaps a
    omega
  have hfree : ∀ b, g.sending ≠ some b → s.IsFree b := by
    intro b hb ret hpending
    rw [← h.pending, hpending] at hb
    exact hb rfl
  have hidle : g.sending = none → s.pending = none := by
    intro hnone
    rw [← h.pending] at hnone
    exact Option.map_eq_none_iff.mp hnone
  cases c with
  | open_ path => trivial
  | fstat fd | close fd | mmap fd => exact (h.isOpen fd).mpr hallow
  | munmap a => exact hmapped a hallow
  | expose theData => exact fun a ha => hmapped a (hallow a ha)
  | resize b n => exact hfree b hallow
  | read fd b | pread fd b => exact ⟨(h.isOpen fd).mpr hallow.1, hfree b hallow.2⟩
  | migrateMmap id localBulk =>
      exact ⟨hidle hallow.1, fun l hl a ha => hmapped a (hallow.2 l hl a ha)⟩
  | migrateStart | migrateWrite | migrateWriteAsync | migrateEnd => exact hidle hallow
  | wait =>
      intro hnone
      have hsending := h.pending
      rw [hnone] at hsending
      exact hallow hsending.symm

/-- What the client holds at the end is nothing. -/
theorem Holds.tidy (h : Holds g s) (hg : g.Nothing) : s.Tidy := by
  obtain ⟨leaked, rfl⟩ := hg
  refine ⟨fun fd => ?_, fun fd => h.closes fd, fun n => ?_, h.unmaps .failed, ?_⟩
  · exact Bool.eq_false_iff.mpr fun hopen => List.not_mem_nil ((h.isOpen fd).mp hopen)
  · exact (h.unmaps (.mapped n)).trans (h.mmaps n)
  · exact Option.map_eq_none_iff.mp h.pending

end Process

/-- The read of the second byte goes into the second buffer. -/
private def readsSecond : Call → Bool
  | .pread 0 .second 1 => true
  | _ => false

end Remi
