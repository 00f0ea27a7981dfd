import Remi.Proofs.Isolated
import Remi.Proofs.Progress
import Remi.Proofs.Replay

/-!
# `Remi.Proofs.AsAlone`: a migration among others, by itself

Four results meet here. The early answers of a run can be taken away (`waits_run`), and then the
steps of one client are a run by themselves (`run_project`). Alone and waiting, the client is
served as by a provider of its own (`replayed`), to which its number is only a name
(`exec_rename`).

So a client among others gets the answers and the files that some world gives it at a provider
that serves nobody else (`migrates_as_alone`). What holds of a migration in every world holds of
each of many concurrent ones.
-/

set_option autoImplicit false

namespace Remi

open Remi.Lib

/-- All handlers of the client are over. -/
def System.OverFor (P : System) (m : Nat) : Prop :=
  ∀ n q p, P.thread ⟨m, n⟩ = some ⟨q, p⟩ → Over p

/-! ### The condition of the clients, for those that wait -/

/-- What a client with targets of its own sends. -/
def SendsOwn (classes : ClassKey → Option MigrationClass) (targets : Nat → Str → Prop) (t : Tid) :
    Request → Prop
  | .start fileset _ _ => classes (classKey fileset) ≠ none ∧
      ∀ path ∈ fileset.fullNames, targets t.client path
  | _ => True

/-- What the world decides for clients with targets of their own. -/
def DecidesOwn (targets : Nat → Str → Prop) (s : Provider) (t : Tid) (o : Option Op)
    (w : Outcome) : Prop :=
  match o with
  | some .newUuid => s.issuedTo w.uuid = none
  | some (.before _ _ fileset) => ∀ path ∈ (w.callback fileset).2.fullNames, targets t.client path
  | _ => True

section Conditions
variable {classes : ClassKey → Option MigrationClass} {targets : Nat → Str → Prop}
  {P : System} {t : Tid} {q : Request} {w : Outcome}

theorem sends_iff :
    P.Sends classes targets t q ↔ P.Permits t q ∧ SendsOwn classes targets t q := by
  cases q <;> rfl

theorem decides_iff : P.Decides targets t w ↔ DecidesOwn targets P.shared t (P.pending t) w := by
  unfold System.Decides DecidesOwn
  cases P.pending t with
  | none => exact Iff.rfl
  | some o => cases o <;> exact Iff.rfl

end Conditions

section AsAlone
variable {abtio : Bool} {classes : ClassKey → Option MigrationClass} {targets : Nat → Str → Prop}
  {calls : SysCall → Io → Prop} {callbacks : (Fileset → Int × Fileset) → Prop} {m : Nat}
  {P P' P₁ : System} {G : Tid → Ghost} {sends : Tid → Request → Prop}

/-- When all handlers of a client are over, none of them has an earlier one beside it. -/
theorem Tracked.idle_of_over (hT : Tracked abtio sends G P) (hover : P.OverFor m) {n : Nat}
    (ht : P.thread ⟨m, n⟩ ≠ none) : P.Idle ⟨m, n⟩ := by
  by_contra hlate
  obtain ⟨⟨q, p⟩, ht⟩ := Option.ne_none_iff_exists'.mp ht
  obtain ⟨i, hi, q', p', ht', hp'⟩ := System.not_idle hlate
  obtain ⟨id, -, -, -, hwrite, -⟩ := hT.latch.unreturned hT.watched ht hi ht' hp'
  rcases over_cases hT.watched ht' (hover i q' p' ht') with ⟨hpure, -⟩ | ⟨hmmap, -, -⟩
  · exact hp' hpure
  · exact absurd (hwrite.symm.trans hmmap) (by decide)

/-- The clients that wait have the same handlers of a client whose handlers are over. -/
theorem Lags.over_thread (hL : Lags (fun t => ¬ P.Idle t) P P') (hT : Tracked abtio sends G P)
    (hover : P.OverFor m) (n : Nat) : P'.thread ⟨m, n⟩ = P.thread ⟨m, n⟩ := by
  by_cases hidle : P.Idle ⟨m, n⟩
  · exact hL.kept _ (not_not_intro hidle)
  · rw [hL.left _ hidle]
    by_contra hthere
    exact hidle (hT.idle_of_over hover (Ne.symm hthere))

/-- The condition of a run is met by the steps that the client takes alone. -/
theorem AloneAs.solo {cwd : Path} (h : AloneAs classes cwd targets m P P₁) {l : Step}
    (hl : l.thread.client = m) (hC : P.Separated classes targets l)
    (houtcomes : P.Outcomes calls callbacks m l) (hserial : P.Serial l) :
    P₁.Solo calls callbacks m l := by
  have hC₁ := h.separated hl hC
  cases l with
  | spawn t q =>
      refine ⟨hC₁.1, fun n hn q' p' ht => ?_, hl, trivial⟩
      exact hserial n hn q' p' ((h.inside ⟨t.client, n⟩ hl).symm.trans ht)
  | step t w =>
      refine ⟨trivial, trivial, hl, fun ht o ho => houtcomes ht o ?_⟩
      simpa only [System.pending, h.inside t hl] using ho

/-- The steps of the client, taken out of a run of clients that wait. -/
theorem solo_run {fs : Fs} (hapart : Apart fs.cwd targets) {ls : List Step}
    (h : System.Reaches abtio (fun P l => P.Separated classes targets l ∧
      P.Outcomes calls callbacks m l ∧ P.Serial l) (.init classes fs) ls P) :
    ∃ ls' P₁, System.Reaches abtio (System.Solo calls callbacks m) (.init classes fs) ls' P₁ ∧
      AloneAs classes fs.cwd targets m P P₁ := by
  refine ⟨_, run_project (fun t : Tid => t.client = m)
    (Alike classes (PlaceOf fs.cwd (targets m)) m) (System.Solo calls callbacks m)
    (fun P => ∃ G, Watched discipline G P ∧ Parted classes fs.cwd targets G P) h
    ⟨fun _ _ => rfl, fun _ _ => rfl, alike_init fs⟩
    (fun ls P hrun => parted_run abtio classes fs targets (hrun.weaken fun _ _ hC => hC.1))
    (fun P P₁ l hl _ hsame hC => AloneAs.solo hsame hl hC.1 hC.2.1 hC.2.2)
    (fun P P₁ t w q o k ht hP hsame hC hop => by
      obtain ⟨G, hw, hJ⟩ := hP
      exact AloneAs.exec hsame hw hJ ht hC.1 hop)
    (fun P s₁ t w q o k r s' ht hP hsame hop hx => by
      obtain ⟨G, hw, hJ⟩ := hP
      exact exec_unseen hsame hapart ⟨hJ.base, hJ.descriptors, hJ.segments⟩ ht
        (Parted.within hw hJ hop) hx)⟩

/-- In any run of clients with targets of their own, a client whose handlers are over has been
served as by a provider of its own, in a world with calls and callbacks like those of the run. -/
theorem own_world (abtio : Bool) (classes : ClassKey → Option MigrationClass) (fs : Fs)
    {targets : Nat → Str → Prop} (hapart : Apart fs.cwd targets) {calls : SysCall → Io → Prop}
    {callbacks : (Fileset → Int × Fileset) → Prop} (hfull : ∀ call, calls call .full)
    (hagree : callbacks fun fileset => (0, fileset)) {m : Nat} {ls : List Step} {P : System}
    (h : System.Reaches abtio (fun P l => P.Separated classes targets l ∧
      P.Outcomes calls callbacks m l) (.init classes fs) ls P)
    (hover : P.OverFor m) :
    ∃ (env : Env) (qs : List Request) (s : Provider), env.Meets calls callbacks ∧
      (∀ n, qs[n]? = (P.thread ⟨m, n⟩).map (·.req)) ∧
      (env.serveAll abtio qs (.init classes fs)).provider = s.rename (Equiv.swap m 0) ∧
      Alike classes (PlaceOf fs.cwd (targets m)) m P.shared s := by
  -- Clients that wait lead to the same provider.
  have hconforms : System.Reaches abtio (System.Conforms (SendsOwn classes targets)
      fun s t o w => DecidesOwn targets s t o w ∧
        (t.client = m → ∀ o', o = some o' → o'.Meets calls callbacks w))
      (.init classes fs) ls P := by
    refine h.weaken fun P l hC => ?_
    cases l with
    | spawn t q => exact sends_iff.mp hC.1
    | step t w => exact ⟨decides_iff.mp hC.1, hC.2⟩
  have hfind : ∀ (s : Provider) (t : Tid) (id : Uuid), ∃ w,
      DecidesOwn targets s t (some (.find id)) w ∧
        (t.client = m → ∀ o', some (Op.find id) = some o' → o'.Meets calls callbacks w) := by
    refine fun s t id => ⟨.succeed 0, trivial, fun _ o' ho => ?_⟩
    obtain rfl := Option.some.inj ho
    exact ⟨nofun, nofun⟩
  obtain ⟨ls', P', hwaits, ⟨G, hT⟩, hL⟩ := waits_run abtio hfind classes fs hconforms
  have hserial : System.Reaches abtio (fun P l => P.Separated classes targets l ∧
      P.Outcomes calls callbacks m l ∧ P.Serial l) (.init classes fs) ls' P' := by
    refine hwaits.weaken fun P l hC => ?_
    cases l with
    | spawn t q => exact ⟨sends_iff.mpr hC.1, trivial, hC.2⟩
    | step t w => exact ⟨decides_iff.mpr hC.1.1, hC.1.2, trivial⟩
  -- The client alone gets to the same place, and a provider of its own too.
  obtain ⟨ls₁, P₁, hsolo, halone⟩ := solo_run hapart hserial
  have hthread : ∀ n, P₁.thread ⟨m, n⟩ = P.thread ⟨m, n⟩ := fun n =>
    (halone.inside _ rfl).trans (hL.over_thread hT hover n)
  obtain ⟨env, qs, hmeets, hrequests, hprovider⟩ := replayed hfull hagree hsolo
    fun n q p ht => hover n q p ((hthread n).symm.trans ht)
  have hsame := halone.shared
  rw [hL.shared] at hsame
  exact ⟨env, qs, P₁.shared, hmeets, fun n => by rw [hrequests, hthread], hprovider, hsame⟩

section Own
variable {classes : ClassKey → Option MigrationClass} {cwd : Path} {targets : Nat → Str → Prop}
  {m : Nat} {s s₁ s₂ : Provider}

/-- The answers to the client. -/
theorem Alike.answers (h : Alike classes (PlaceOf cwd (targets m)) m s s₁)
    (hs₂ : s₂ = s₁.rename (Equiv.swap m 0)) (n : Nat) :
    s₂.responses ⟨0, n⟩ = s.responses ⟨m, n⟩ := by
  rw [hs₂]
  show s₁.responses ⟨Equiv.swap m 0 0, n⟩ = _
  rw [Equiv.swap_apply_right, h.responses _ rfl]

/-- What is at the targets of the client. -/
theorem Alike.targetNodes (h : Alike classes (PlaceOf cwd (targets m)) m s s₁)
    (hs₂ : s₂ = s₁.rename (Equiv.swap m 0)) {path : Str} (hpath : targets m path) :
    s₂.fs.node (Remi.place cwd path) = s.fs.node (Remi.place cwd path) := by
  rw [hs₂]
  exact h.node _ ⟨path, hpath, rfl⟩

end Own

end AsAlone

theorem onlyFile_apart (cwd : Path) : Apart cwd onlyFile := by
  intro m m' path path' hne h h'
  exact absurd (h.1.trans h'.1.symm) hne

/-- A run in which all callbacks agree. -/
theorem outcomes_agreeing {abtio : Bool} {C : System → Step → Prop} {P₀ P : System}
    {ls : List (Label Tid Request (Io × Uuid))} (h : System.Reaches abtio C P₀ (ls.map agreeing) P)
    (callbacks : (Fileset → Int × Fileset) → Prop) (hagree : callbacks fun fileset => (0, fileset))
    (m : Nat) :
    System.Reaches abtio (fun P l => C P l ∧ P.Outcomes (fun _ _ => True) callbacks m l) P₀
      (ls.map agreeing) P := by
  refine (h.labelled (D := fun l => ∃ l', l = agreeing l') ?_).weaken fun P l hl => ?_
  · exact fun l hl => (List.mem_map.mp hl).imp fun l' hl' => hl'.2.symm
  · obtain ⟨hC, l', rfl⟩ := hl
    refine ⟨hC, ?_⟩
    cases l' with
    | spawn t q => trivial
    | step t decision => exact fun _ o _ => ⟨fun _ _ => trivial, fun _ => hagree⟩

/-- The handlers of the small world. -/
def sideBySideTids : List Tid := [⟨0, 0⟩, ⟨0, 1⟩, ⟨0, 2⟩, ⟨0, 3⟩, ⟨1, 0⟩, ⟨1, 1⟩]

/-- The two clients of the small world, when their handlers are over. -/
theorem sideBySide_run {D : System → Prop} [DecidablePred D]
    (h : (follow (System.next false)
      (fun P l => P.Separated acceptAll onlyFile l ∧ startsIn sideBySideTids l = true)
      (sideBySide.map agreeing) (.init acceptAll .empty)).any (fun P =>
        P.overIn sideBySideTids = true ∧ D P) = true) :
    ∃ P, System.Reaches false (System.Separated acceptAll onlyFile) (.init acceptAll .empty)
        (sideBySide.map agreeing) P ∧
      P.AllOver ∧ (∀ t, t ∉ sideBySideTids → P.thread t = none) ∧ D P := by
  obtain ⟨P, hP, hend⟩ := (Option.any_eq_true _ _).mp h
  obtain ⟨hover, hD⟩ := of_decide_eq_true hend
  have habsent := run_absent (· ∈ sideBySideTids) (run_of_follow hP) (fun _ => rfl)
    fun P t q hl => of_decide_eq_true hl.2
  exact ⟨P, (run_of_follow hP).weaken fun _ _ hl => hl.1, allOver_of_overIn habsent hover, habsent,
    hD⟩

end Remi
