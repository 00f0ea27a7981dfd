import Remi.Proofs.Owned

/-!
# `Remi.Proofs.Overwrite`: when a migration overwrites nothing

`migrate_start` looks whether its files exist, calls the "before" callback, and then creates
the files with `O_TRUNC`. Nothing ties the creation to the check: the callback may change
the fileset, another handler may create a file in between, and two names may lead to one
place.

`noOverwrite_of_clear` gives the condition, `System.Clear`, on the moment at which a
callback accepts a fileset: the places of its files are distinct and free, and no other
handler is on its way to one of them. `WillOpen place p rest` says that: `rest` may open the
place `p` without another callback.

The argument follows the paths a handler has still to open. `creation` is the monitor that
remembers them.
-/

set_option autoImplicit false

namespace Remi

open Remi.Lib

/-- The places of the files of an operation. -/
def Provider.targets (s : Provider) (op : Operation) : List Path := op.fds.filterMap s.descriptors

/-- No file has been overwritten, and the operations in progress have different files. -/
structure System.NoOverwrite (P : System) : Prop where
  fresh : P.shared.overwritten = []
  apart : ∀ id id' op op', id ≠ id' → P.shared.opInProgress id = some op →
    P.shared.opInProgress id' = some op' →
    ∀ p ∈ P.shared.targets op, p ∉ P.shared.targets op'

/-- The rest of a handler may open the place `p` before the next callback. -/
inductive WillOpen (place : Str → Path) (p : Path) : Handler Unit → Prop
  | here {path : Str} {mode : Nat} {k : Option Fd → Handler Unit} :
      place path = p → WillOpen place p (.op (.openTrunc path mode) k)
  | later {o : Op} {k : Ans o → Handler Unit} (r : Ans o) :
      (∀ callback uargs fileset, o ≠ .before callback uargs fileset) →
      WillOpen place p (k r) → WillOpen place p (.op o k)

/-- The places of the files of a fileset. -/
def Provider.places (s : Provider) (fileset : Fileset) : List Path :=
  fileset.fullNames.map s.fs.place

/-- The handler `t` may create the files of the fileset. -/
structure System.Free (P : System) (t : Tid) (fileset : Fileset) : Prop where
  distinct : (P.shared.places fileset).Nodup
  absent : ∀ p ∈ P.shared.places fileset, ¬ P.shared.fs.HasFile p
  unclaimed : ∀ p ∈ P.shared.places fileset, ∀ t' q rest, t' ≠ t →
    P.thread t' = some ⟨q, rest⟩ → ¬ WillOpen P.shared.fs.place p rest

/-- The condition on a step: a callback accepts only a fileset whose files may be
created. -/
def System.Clear (P : System) : Step → Prop
  | .spawn _ _ => True
  | .step t w => ∀ q callback uargs fileset k,
      P.thread t = some ⟨q, .op (.before callback uargs fileset) k⟩ →
      (w.callback fileset).1 = 0 → P.Free t (w.callback fileset).2

/-! ### The paths a handler has still to open -/

/-- The ghost state is the list of paths still to be opened. -/
def Creation.Allows (pending : List Str) : Op → Prop
  | .openTrunc path _ => pending.head? = some path
  | _ => True

def Creation.after (pending : List Str) : (o : Op) → Ans o → List Str
  | .before _ _ _, r => if r.1 = 0 then r.2.fullNames else []
  | .openTrunc _ _, r => if r = none then [] else pending.tail
  | _, _ => pending

/-- The order in which a handler creates its files. -/
def creation : Monitor Ans (List Str) := .computed Creation.Allows Creation.after fun _ => True

/-- A program that opens the pending paths in their order, and only these. -/
abbrev Creates {α : Type} (p : Handler α) (pending : List Str) (Q : List Str → α → Prop) : Prop :=
  p.Obeys creation Q pending

theorem mkdirAll_creates (dirs : List Str) (pending : List Str) :
    Creates (mkdirAll dirs) pending fun pending' _ => pending' = pending := by
  induction dirs with
  | nil => rfl
  | cons d rest ih => exact Prog.obeys_call trivial fun _ => ih

theorem anyExists_creates (root : Str) (files : List Str) (pending : List Str) :
    Creates (anyExists root files) pending fun pending' _ => pending' = pending := by
  induction files with
  | nil => rfl
  | cons filename rest ih =>
      refine Prog.obeys_call trivial fun r => ?_
      cases r
      · exact ih
      · rfl

theorem closeEach_creates (fds : List Fd) (pending : List Str) :
    Creates (closeEach fds) pending fun pending' _ => pending' = pending := by
  induction fds with
  | nil => rfl
  | cons fd rest ih => exact Prog.obeys_call trivial fun _ => ih

/-- The creating loop opens the files it is given and has none left at its end. -/
theorem openFiles_creates (root : Str) (theModes : List Nat) (files : List Str) (i : Nat)
    (opened : List Fd) :
    Creates (openFiles root theModes files i opened) (files.map (root ++ ·))
      fun pending' _ => pending' = [] := by
  induction files generalizing i opened with
  | nil => rfl
  | cons filename rest ih =>
      refine Prog.obeys_part (mkdirAll_creates _ _) fun _ => ?_
      refine Prog.obeys_call trivial fun mode => Prog.obeys_call rfl fun r => ?_
      cases r with
      | none => exact Prog.obeys_part (closeEach_creates _ _) fun _ => rfl
      | some fd => exact ih _ _

theorem createOperation_creates (fileset : Fileset) (filesizes theModes : List Nat)
    (operationId : Uuid) :
    Creates (createOperation fileset filesizes theModes operationId) fileset.fullNames
      fun _ _ => True := by
  refine Prog.obeys_part (openFiles_creates _ _ _ _ _) fun fds => ?_
  cases fds with
  | none => exact Prog.obeys_last trivial fun _ => trivial
  | some fds => exact Prog.obeys_call trivial fun _ => Prog.obeys_last trivial fun _ => trivial

theorem migrateStart_creates (fileset : Fileset) (filesizes theModes : List Nat) :
    Creates (migrateStart fileset filesizes theModes) [] fun _ _ => True := by
  refine Prog.obeys_call trivial fun operationId => Prog.obeys_call trivial fun known => ?_
  cases known
  · exact Prog.obeys_last trivial fun _ => trivial
  · refine Prog.obeys_part (anyExists_creates _ _ _) fun present => ?_
    cases present
    · refine Prog.obeys_call trivial fun klass => ?_
      have hcall : Creates (callBefore klass fileset) [] fun pending' r =>
          pending' = if r.1 = 0 then r.2.fullNames else [] := by
        unfold callBefore
        cases klass.beforeCallback with
        | none => rfl
        | some callback => exact Prog.obeys_call trivial fun _ => rfl
      refine Prog.obeys_part hcall fun called => ?_
      obtain ⟨status, fileset'⟩ := called
      by_cases hstatus : status = 0
      · subst hstatus
        exact createOperation_creates fileset' filesizes theModes operationId
      · simp only [ne_eq, hstatus, not_false_eq_true, ↓reduceIte]
        exact Prog.obeys_last trivial fun _ => trivial
    · exact Prog.obeys_last trivial fun _ => trivial

/-- A handler that is no `migrate_start` opens nothing. -/
theorem creates_of_follows {rest : Handler Unit} {g : Ghost} (h : Completes rest g)
    (hkind : g.req.kind ≠ .start) (pending : List Str) :
    Creates rest pending fun _ _ => True := by
  induction rest generalizing g pending with
  | pure _ => trivial
  | op o k ih =>
      have hallow : g.Allows o := h.1
      have hreq : ∀ r, (g.after o r).req = g.req := fun r => by cases o <;> rfl
      refine ⟨?_, fun r pending' _ => ih r (h.2 r _ rfl) (by rwa [hreq]) pending'⟩
      cases o with
      | openTrunc path mode => exact absurd hallow.1 hkind
      | _ => trivial

theorem handle_creates (abtio : Bool) (q : Request) :
    Creates (handle abtio q) [] fun _ _ => True := by
  cases q with
  | start fileset filesizes theModes => exact migrateStart_creates fileset filesizes theModes
  | mmap | write | end_ =>
      exact creates_of_follows (handle_follows abtio _) (by simp [Ghost.init, Request.kind]) []

/-- A place that will be opened is the place of a pending path. -/
theorem WillOpen.pending {place : Str → Path} {p : Path} {rest : Handler Unit}
    (h : WillOpen place p rest) {pending : List Str}
    (hc : Creates rest pending fun _ _ => True) : p ∈ pending.map place := by
  induction h generalizing pending with
  | @here path mode k hp =>
      rw [← hp]
      exact List.mem_map_of_mem (List.mem_of_mem_head? hc.1)
  | @later o k r hne _ ih =>
      have hnext := ih (hc.2 r _ rfl)
      cases o with
      | before callback uargs fileset => exact absurd rfl (hne callback uargs fileset)
      | openTrunc path mode =>
          simp only [Creation.after] at hnext
          split at hnext
          · cases hnext
          · rw [List.map_tail] at hnext
            exact List.mem_of_mem_tail hnext
      | _ => exact hnext

/-! ### The invariant -/

/-- The invariant of runs within the condition. -/
structure Untouched (G : Tid → Ghost) (P : System) : Prop where
  owned : Owned G P
  /-- No place is pending twice in one handler. -/
  creates : ∀ t q rest, P.thread t = some ⟨q, rest⟩ →
    ∃ pending : List Str, (pending.map P.shared.fs.place).Nodup ∧
      Creates rest pending fun _ _ => True
  absent : ∀ t q rest p, P.thread t = some ⟨q, rest⟩ → WillOpen P.shared.fs.place p rest →
    ¬ P.shared.fs.HasFile p
  apart : ∀ t t' q q' rest rest' p, P.thread t = some ⟨q, rest⟩ →
    P.thread t' = some ⟨q', rest'⟩ → WillOpen P.shared.fs.place p rest →
    WillOpen P.shared.fs.place p rest' → t = t'
  fresh : P.shared.overwritten = []
  present : ∀ fd p, P.shared.descriptors fd = some p → P.shared.fs.HasFile p
  inj : ∀ fd fd' p, P.shared.descriptors fd = some p → P.shared.descriptors fd' = some p →
    fd = fd'

section
variable {G : Tid → Ghost} {P : System} {t : Tid} {w : Outcome} {q : Request} {o : Op}
  {k : Ans o → Handler Unit} {r : Ans o} {s' : Provider}

/-- The invariant rules out what `NoOverwrite` forbids. -/
theorem Untouched.noOverwrite (hJ : Untouched G P) : P.NoOverwrite where
  fresh := hJ.fresh
  apart id id' op op' hne hop hop' p hp hp' := by
    obtain ⟨fd, hfd, hpath⟩ := List.mem_filterMap.mp hp
    obtain ⟨fd', hfd', hpath'⟩ := List.mem_filterMap.mp hp'
    have hsame : fd = fd' := hJ.inj fd fd' p hpath hpath'
    subst hsame
    exact hne (hJ.owned.record_inj hop hop' hfd hfd')

/-- A handler that will open a place after a step would do so before it, or its callback
has just accepted the place. -/
theorem willOpen_before (hJ : Untouched G P) (hclear : P.Clear (.step t w))
    (ht : P.thread t = some ⟨q, .op o k⟩) (hx : exec t w o P.shared = some (r, s'))
    {t' : Tid} {q' : Request} {rest' : Handler Unit} {p : Path}
    (ht' : Function.update P.thread t (some ⟨q, k r⟩) t' = some ⟨q', rest'⟩)
    (hwill : WillOpen P.shared.fs.place p rest') :
    (∃ rest, P.thread t' = some ⟨q', rest⟩ ∧ WillOpen P.shared.fs.place p rest) ∨
      t' = t ∧ (∃ fileset, P.Free t fileset ∧ p ∈ P.shared.places fileset) ∧
        s'.fs = P.shared.fs := by
  rcases thread_update ht' with ⟨rfl, rfl, rfl⟩ | ⟨-, hold⟩
  · cases o with
    | before callback uargs fileset =>
        obtain ⟨rfl, rfl⟩ := Prod.mk.inj (Option.some.inj hx)
        obtain ⟨pending, -, hc⟩ := hJ.creates _ _ _ ht
        have hmem := hwill.pending (hc.2 _ _ rfl)
        simp only [Creation.after] at hmem
        split at hmem
        · rename_i hstatus
          exact Or.inr ⟨rfl, ⟨_, hclear _ _ _ _ _ ht hstatus, hmem⟩, rfl⟩
        · cases hmem
    | _ => exact Or.inl ⟨_, ht, .later r (by simp) hwill⟩
  · exact Or.inl ⟨rest', hold, hwill⟩

/-- A place that has just been opened will not be opened again. -/
theorem not_willOpen_opened (hJ : Untouched G P) {path : Str} {mode : Nat} {r : Option Fd}
    {k : Option Fd → Handler Unit} (ht : P.thread t = some ⟨q, .op (.openTrunc path mode) k⟩)
    (hr : r ≠ none) {t' : Tid} {q' : Request} {rest' : Handler Unit}
    (ht' : Function.update P.thread t (some ⟨q, k r⟩) t' = some ⟨q', rest'⟩) :
    ¬ WillOpen P.shared.fs.place (P.shared.fs.place path) rest' := by
  intro hwill
  rcases thread_update ht' with ⟨rfl, rfl, rfl⟩ | ⟨hne, hold⟩
  · obtain ⟨pending, hnodup, hc⟩ := hJ.creates _ _ _ ht
    have hhead : pending.head? = some path := hc.1
    have hmem := hwill.pending (hc.2 r _ rfl)
    simp only [Creation.after, hr, if_false] at hmem
    -- The path is the head of a list without repetition, so its place is not in the tail.
    obtain ⟨rest, rfl⟩ : ∃ rest, pending = path :: rest := by
      cases pending with
      | nil => cases hhead
      | cons path' rest => exact ⟨rest, by rw [Option.some.inj hhead]⟩
    exact (List.nodup_cons.mp hnodup).1 hmem
  · exact hne (hJ.apart _ _ _ _ _ _ _ hold ht hwill (.here rfl))

/-- The place that is about to be opened is free. -/
theorem Untouched.free (hJ : Untouched G P) {path : Str} {mode : Nat}
    {k : Option Fd → Handler Unit} (ht : P.thread t = some ⟨q, .op (.openTrunc path mode) k⟩) :
    ¬ P.shared.fs.HasFile (P.shared.fs.place path) :=
  hJ.absent t q _ _ ht (.here rfl)

/-- A step keeps the files there are. -/
theorem hasFile_step (hx : exec t w o P.shared = some (r, s')) {p : Path}
    (h : P.shared.fs.HasFile p) : s'.fs.HasFile p := by
  by_cases ho : ∃ path mode, o = .openTrunc path mode
  · obtain ⟨path, mode, rfl⟩ := ho
    rcases exec_openTrunc hx with ⟨-, rfl⟩ | ⟨-, -, rfl⟩
    · exact h
    · exact (Fs.hasFile_create _ _ _ _).mpr (Or.inr h)
  · exact (((exec_effect hx).files fun path mode ho' => ho ⟨path, mode, ho'⟩).2.2 p).mpr h

theorem creates_step (hJ : Untouched G P) (hclear : P.Clear (.step t w))
    (ht : P.thread t = some ⟨q, .op o k⟩) (hx : exec t w o P.shared = some (r, s')) :
    ∃ pending : List Str, (pending.map P.shared.fs.place).Nodup ∧
      Creates (k r) pending fun _ _ => True := by
  obtain ⟨pending, hnodup, hc⟩ := hJ.creates _ _ _ ht
  refine ⟨Creation.after pending o r, ?_, hc.2 r _ rfl⟩
  cases o with
  | before callback uargs fileset =>
      obtain ⟨rfl, rfl⟩ := Prod.mk.inj (Option.some.inj hx)
      simp only [Creation.after]
      split
      · rename_i hstatus
        exact (hclear _ _ _ _ _ ht hstatus).distinct
      · exact List.nodup_nil
  | openTrunc path mode =>
      simp only [Creation.after]
      split
      · exact List.nodup_nil
      · rw [List.map_tail]
        exact hnodup.sublist (List.tail_sublist _)
  | _ => exact hnodup

theorem absent_step (hJ : Untouched G P) (hclear : P.Clear (.step t w))
    (ht : P.thread t = some ⟨q, .op o k⟩) (hx : exec t w o P.shared = some (r, s'))
    {t' : Tid} {q' : Request} {rest' : Handler Unit} {p : Path}
    (ht' : Function.update P.thread t (some ⟨q, k r⟩) t' = some ⟨q', rest'⟩)
    (hwill : WillOpen P.shared.fs.place p rest') : ¬ s'.fs.HasFile p := by
  rcases willOpen_before hJ hclear ht hx ht' hwill with ⟨rest, hold, hwill₀⟩ | ⟨-, hfree, hfs⟩
  · have habsent : ¬ P.shared.fs.HasFile p := hJ.absent _ _ _ _ hold hwill₀
    by_cases ho : ∃ path mode, o = .openTrunc path mode
    · obtain ⟨path, mode, rfl⟩ := ho
      rcases exec_openTrunc hx with ⟨-, rfl⟩ | ⟨rfl, -, rfl⟩
      · exact habsent
      · intro hfile
        rcases (Fs.hasFile_create _ _ _ _).mp hfile with rfl | hbefore
        · exact not_willOpen_opened hJ ht (Option.some_ne_none _) ht' hwill
        · exact habsent hbefore
    · rwa [((exec_effect hx).files fun path mode ho' => ho ⟨path, mode, ho'⟩).2.2 p]
  · obtain ⟨fileset, hfree, hmem⟩ := hfree
    rw [hfs]
    exact hfree.absent p hmem

theorem apart_step (hJ : Untouched G P) (hclear : P.Clear (.step t w))
    (ht : P.thread t = some ⟨q, .op o k⟩) (hx : exec t w o P.shared = some (r, s'))
    {t₁ t₂ : Tid} {q₁ q₂ : Request} {rest₁ rest₂ : Handler Unit} {p : Path}
    (ht₁ : Function.update P.thread t (some ⟨q, k r⟩) t₁ = some ⟨q₁, rest₁⟩)
    (ht₂ : Function.update P.thread t (some ⟨q, k r⟩) t₂ = some ⟨q₂, rest₂⟩)
    (h₁ : WillOpen P.shared.fs.place p rest₁) (h₂ : WillOpen P.shared.fs.place p rest₂) :
    t₁ = t₂ := by
  rcases willOpen_before hJ hclear ht hx ht₁ h₁ with ⟨rest, hold₁, hwill₁⟩ | ⟨rfl, hfree₁, -⟩
  · rcases willOpen_before hJ hclear ht hx ht₂ h₂ with ⟨rest', hold₂, hwill₂⟩ | ⟨rfl, hfree₂, -⟩
    · exact hJ.apart _ _ _ _ _ _ _ hold₁ hold₂ hwill₁ hwill₂
    · obtain ⟨fileset, hfree, hmem⟩ := hfree₂
      by_contra hne
      exact hfree.unclaimed p hmem _ _ _ hne hold₁ hwill₁
  · rcases willOpen_before hJ hclear ht hx ht₂ h₂ with ⟨rest', hold₂, hwill₂⟩ | ⟨rfl, -, -⟩
    · obtain ⟨fileset, hfree, hmem⟩ := hfree₁
      by_contra hne
      exact hfree.unclaimed p hmem _ _ _ (Ne.symm hne) hold₂ hwill₂
    · rfl

theorem fresh_step (hJ : Untouched G P) (ht : P.thread t = some ⟨q, .op o k⟩)
    (hx : exec t w o P.shared = some (r, s')) : s'.overwritten = [] := by
  by_cases ho : ∃ path mode, o = .openTrunc path mode
  · obtain ⟨path, mode, rfl⟩ := ho
    rcases exec_openTrunc hx with ⟨-, rfl⟩ | ⟨-, hdir, rfl⟩
    · exact hJ.fresh
    · have hnone : P.shared.fs.node (P.shared.fs.place path) = none := by
        cases hnode : P.shared.fs.node (P.shared.fs.place path) with
        | none => rfl
        | some n =>
            cases n with
            | file b => exact absurd ⟨b, hnode⟩ (hJ.free ht)
            | dir => exact absurd hnode hdir
      dsimp only
      rw [if_pos hnone, hJ.fresh]
  · rw [((exec_effect hx).files fun path mode ho' => ho ⟨path, mode, ho'⟩).1, hJ.fresh]

theorem present_of_step (hJ : Untouched G P) (hx : exec t w o P.shared = some (r, s'))
    {fd : Fd} {p : Path} (hfd : s'.descriptors fd = some p) : s'.fs.HasFile p := by
  rcases descriptors_step hx hfd with hold | ⟨⟨path, mode, rfl, rfl⟩, rfl⟩
  · exact hasFile_step hx (hJ.present fd p hold)
  · rcases exec_openTrunc hx with ⟨-, rfl⟩ | ⟨-, -, rfl⟩
    · exact hJ.present _ _ hfd
    · exact (Fs.hasFile_create _ _ _ _).mpr (Or.inl rfl)

theorem inj_step (hJ : Untouched G P) (ht : P.thread t = some ⟨q, .op o k⟩)
    (hx : exec t w o P.shared = some (r, s')) {fd fd' : Fd} {p : Path}
    (hfd : s'.descriptors fd = some p) (hfd' : s'.descriptors fd' = some p) : fd = fd' := by
  rcases descriptors_step hx hfd with hold | ⟨⟨path, mode, rfl, rfl⟩, rfl⟩
  · rcases descriptors_step hx hfd' with hold' | ⟨⟨path, mode, rfl, rfl⟩, -⟩
    · exact hJ.inj fd fd' p hold hold'
    · exact absurd (hJ.present fd _ hold) (hJ.free ht)
  · rcases descriptors_step hx hfd' with hold' | ⟨-, rfl⟩
    · exact absurd (hJ.present fd' _ hold') (hJ.free ht)
    · rfl

theorem untouched_step (hw : Watched discipline G P) (hJ : Untouched G P)
    (hclear : P.Clear (.step t w)) (ht : P.thread t = some ⟨q, .op o k⟩)
    (hx : exec t w o P.shared = some (r, s')) :
    Untouched (Function.update G t ((G t).after o r))
      { shared := s', thread := Function.update P.thread t (some ⟨q, k r⟩) } where
  owned := owned_step hw hJ.owned ht hx
  creates t' q' rest' ht' := by
    dsimp only
    rw [place_step hx]
    rcases thread_update ht' with ⟨rfl, rfl, rfl⟩ | ⟨-, hold⟩
    · exact creates_step hJ hclear ht hx
    · exact hJ.creates t' q' rest' hold
  absent t' q' rest' p ht' hwill := by
    dsimp only at hwill
    rw [place_step hx] at hwill
    exact absent_step hJ hclear ht hx ht' hwill
  apart t₁ t₂ q₁ q₂ rest₁ rest₂ p ht₁ ht₂ h₁ h₂ := by
    dsimp only at h₁ h₂
    rw [place_step hx] at h₁ h₂
    exact apart_step hJ hclear ht hx ht₁ ht₂ h₁ h₂
  fresh := fresh_step hJ ht hx
  present fd p hfd := present_of_step hJ hx hfd
  inj fd fd' p hfd hfd' := inj_step hJ ht hx hfd hfd'

theorem untouched_spawn (abtio : Bool) (hJ : Untouched G P) (ht : P.thread t = none) :
    Untouched (Function.update G t (.init q))
      { P with thread := Function.update P.thread t (some ⟨q, handle abtio q⟩) } := by
  have hquiet : ∀ p, ¬ WillOpen P.shared.fs.place p (handle abtio q) := fun p h => by
    have hmem := h.pending (handle_creates abtio q)
    cases hmem
  refine ⟨owned_spawn abtio hJ.owned ht, ?_, ?_, ?_, hJ.fresh, hJ.present, hJ.inj⟩
  · intro t' q' rest' ht'
    rcases thread_update ht' with ⟨rfl, rfl, rfl⟩ | ⟨-, hold⟩
    · exact ⟨[], List.nodup_nil, handle_creates abtio _⟩
    · exact hJ.creates t' q' rest' hold
  · intro t' q' rest' p ht' hwill
    rcases thread_update ht' with ⟨rfl, rfl, rfl⟩ | ⟨-, hold⟩
    · exact absurd hwill (hquiet p)
    · exact hJ.absent t' q' rest' p hold hwill
  · intro t₁ t₂ q₁ q₂ rest₁ rest₂ p ht₁ ht₂ h₁ h₂
    rcases thread_update ht₁ with ⟨rfl, rfl, rfl⟩ | ⟨-, hold₁⟩
    · exact absurd h₁ (hquiet p)
    · rcases thread_update ht₂ with ⟨rfl, rfl, rfl⟩ | ⟨-, hold₂⟩
      · exact absurd h₂ (hquiet p)
      · exact hJ.apart t₁ t₂ q₁ q₂ rest₁ rest₂ p hold₁ hold₂ h₁ h₂

end

theorem untouched_init (classes : ClassKey → Option MigrationClass) (fs : Fs) :
    Untouched (fun _ => .init (.end_ 0)) (.init classes fs) where
  owned := owned_init classes fs
  creates _ _ _ ht := by cases ht
  absent _ _ _ _ ht := by cases ht
  apart _ _ _ _ _ _ _ ht := by cases ht
  fresh := rfl
  present _ _ h := by cases h
  inj _ _ _ h := by cases h

/-- The step is one of `t`. A callback accepts only a fileset with distinct and free
places. -/
def System.clearAlone (t : Tid) (P : System) : Step → Bool
  | .spawn t' _ => t' = t
  | .step t' w => decide (t' = t) &&
      match P.thread t' with
      | some ⟨_, .op (.before _ _ fileset) _⟩ => (w.callback fileset).1 = 0 →
          (P.shared.places (w.callback fileset).2).Nodup ∧
            ∀ p ∈ P.shared.places (w.callback fileset).2, ¬ P.shared.fs.HasFile p
      | _ => true

/-- A run with one handler is clear when the places are free. -/
theorem clear_of_clearAlone {abtio : Bool} {classes : ClassKey → Option MigrationClass} {fs : Fs}
    {t : Tid} {ls : List Step} {P : System}
    (h : System.Reaches abtio (fun P l => P.clearAlone t l = true) (.init classes fs) ls P) :
    System.Reaches abtio System.Clear (.init classes fs) ls P := by
  have halone := run_confined (fun t' => t' = t) h (fun _ => rfl)
    fun _ _ _ hl => of_decide_eq_true hl
  refine halone.weaken ?_
  rintro s (⟨_, _⟩ | ⟨t₁, w⟩) ⟨hI, hC⟩
  · trivial
  · intro q callback uargs fileset k ht hstatus
    obtain ⟨hsame, hfree⟩ := Bool.and_eq_true_iff.mp hC
    obtain rfl : t₁ = t := of_decide_eq_true hsame
    rw [ht] at hfree
    obtain ⟨hnodup, habsent⟩ := of_decide_eq_true hfree hstatus
    refine ⟨hnodup, habsent, fun p _ t' q' rest hne ht' => ?_⟩
    rw [hI t' hne] at ht'
    cases ht'

/-- Two handlers check for the same file before either of them creates it. -/
private def twoStarts : List Step :=
  [.spawn ⟨0, 0⟩ (.start oneFile [5] [0]), .spawn ⟨1, 0⟩ (.start oneFile [5] [0])] ++
    List.replicate 3 (.step ⟨0, 0⟩ (.succeed 1)) ++ List.replicate 3 (.step ⟨1, 0⟩ (.succeed 2)) ++
    List.replicate 7 (.step ⟨0, 0⟩ (.succeed 1)) ++ List.replicate 7 (.step ⟨1, 0⟩ (.succeed 2))

end Remi
