import Remi.Lib.Prog

/-!
# `Remi.Lib.Threads`: programs that run side by side

A `Pool` is a shared state and any number of threads. A thread serves a request: it
starts as the program `handler q` of its request `q`, and one step of it issues the
first operation of what is left of the program. A `Label` says which thread moves, and
carries what the world answers in that step (`w`). Every order of steps is a list of
labels, and `Run` holds of the lists that can be followed.

The rule of this module is `ghostInv_run_from`. Each thread obeys a monitor from a ghost
state `G t`, and `J G P` ties the ghost states of all threads to each other and to the pool. If
every step that the monitor allows keeps `J`, then `J` holds of every pool that a run
reaches.
-/

set_option autoImplicit false

namespace Remi.Lib

/-! ### Runs of a labelled transition function -/

/-- `Run next C s₀ ls s`: the labels `ls` lead from `s₀` to `s`, and every step meets the
condition `C` in the state before it. -/
inductive Run {S L : Type} (next : S → L → Option S) (C : S → L → Prop) (s₀ : S) :
    List L → S → Prop
  | nil : Run next C s₀ [] s₀
  | snoc {ls : List L} {s s' : S} {l : L} :
      Run next C s₀ ls s → C s l → next s l = some s' → Run next C s₀ (ls ++ [l]) s'

/-- A property of the first state that every step keeps holds in every state reached. -/
theorem Run.invariant {S L : Type} {next : S → L → Option S} {C : S → L → Prop} {s₀ : S}
    {I : S → Prop} (h0 : I s₀)
    (hstep : ∀ s l s', I s → C s l → next s l = some s' → I s')
    {ls : List L} {s : S} (h : Run next C s₀ ls s) : I s := by
  induction h with
  | nil => exact h0
  | snoc _ hC hn ih => exact hstep _ _ _ ih hC hn

/-- A run with a stronger condition is a run with a weaker one. -/
theorem Run.weaken {S L : Type} {next : S → L → Option S} {C D : S → L → Prop} {s₀ : S}
    (hCD : ∀ s l, C s l → D s l) {ls : List L} {s : S} (h : Run next C s₀ ls s) :
    Run next D s₀ ls s := by
  induction h with
  | nil => exact .nil
  | snoc _ hC hn ih => exact .snoc ih (hCD _ _ hC) hn

/-- An invariant of a run holds in the state before each of its steps. -/
theorem Run.strengthen {S L : Type} {next : S → L → Option S} {C : S → L → Prop} {s₀ : S}
    {I : S → Prop} (h0 : I s₀)
    (hstep : ∀ s l s', I s → C s l → next s l = some s' → I s')
    {ls : List L} {s : S} (h : Run next C s₀ ls s) : Run next (fun s l => I s ∧ C s l) s₀ ls s := by
  induction h with
  | nil => exact .nil
  | snoc hrun hC hn ih => exact .snoc ih ⟨hrun.invariant h0 hstep, hC⟩ hn

/-- A property of all labels of a run holds at each of its steps. -/
theorem Run.labelled {S L : Type} {next : S → L → Option S} {C : S → L → Prop} {s₀ : S}
    {D : L → Prop} {ls : List L} {s : S} (h : Run next C s₀ ls s) (hD : ∀ l ∈ ls, D l) :
    Run next (fun s l => C s l ∧ D l) s₀ ls s := by
  induction h with
  | nil => exact .nil
  | @snoc ls s s' l _ hC hn ih =>
      refine .snoc (ih fun l' hl' => hD l' (List.mem_append_left _ hl')) ⟨hC, hD l ?_⟩ hn
      exact List.mem_append_right _ (List.mem_singleton_self l)

/-- A property of the last state that goes back along every step holds in the first state, and
in the state before each step. -/
theorem Run.backward {S L : Type} {next : S → L → Option S} {C : S → L → Prop} {s₀ : S}
    {I : S → Prop} (hstep : ∀ s l s', C s l → next s l = some s' → I s' → I s)
    {ls : List L} {s : S} (h : Run next C s₀ ls s) (hs : I s) :
    I s₀ ∧ Run next (fun s l => I s ∧ C s l) s₀ ls s := by
  induction h with
  | nil => exact ⟨hs, .nil⟩
  | snoc _ hC hn ih =>
      have hbefore := hstep _ _ _ hC hn hs
      obtain ⟨h₀, hrun⟩ := ih hbefore
      exact ⟨h₀, .snoc hrun ⟨hbefore, hC⟩ hn⟩

/-- The state that a list of labels leads to, when every step meets `C`. -/
def follow {S L : Type} (next : S → L → Option S) (C : S → L → Prop)
    [∀ s l, Decidable (C s l)] : List L → S → Option S
  | [], s => some s
  | l :: ls, s => if C s l then (next s l).bind (follow next C ls) else none

/-- A run can be put before another one. -/
theorem Run.cons {S L : Type} {next : S → L → Option S} {C : S → L → Prop} {s₀ s₁ s : S}
    {l : L} {ls : List L} (hC : C s₀ l) (hn : next s₀ l = some s₁)
    (h : Run next C s₁ ls s) : Run next C s₀ (l :: ls) s := by
  induction h with
  | nil => exact .snoc .nil hC hn
  | snoc _ hC' hn' ih => exact .snoc ih hC' hn'

/-- A run can be put behind another one. -/
theorem Run.append {S L : Type} {next : S → L → Option S} {C : S → L → Prop} {s₀ s₁ s : S}
    {ls ls' : List L} (h : Run next C s₀ ls s₁) (h' : Run next C s₁ ls' s) :
    Run next C s₀ (ls ++ ls') s := by
  induction h' with
  | nil => rwa [List.append_nil]
  | snoc _ hC hn ih =>
      rw [← List.append_assoc]
      exact .snoc ih hC hn

/-- A list of labels that can be followed is a run. -/
theorem run_of_follow {S L : Type} {next : S → L → Option S} {C : S → L → Prop}
    [∀ s l, Decidable (C s l)] {s₀ s : S} {ls : List L} (h : follow next C ls s₀ = some s) :
    Run next C s₀ ls s := by
  induction ls generalizing s₀ with
  | nil =>
      obtain rfl : s₀ = s := Option.some.inj h
      exact .nil
  | cons l ls ih =>
      simp only [follow] at h
      split at h
      · rename_i hC
        obtain ⟨s₁, hn, hrest⟩ := Option.bind_eq_some_iff.mp h
        exact .cons hC hn (ih hrest)
      · cases h

/-! ### Pools of threads -/

section Pool

variable {Op T Req W σ : Type} {Ans : Op → Type}

/-- A thread: the request it serves and the rest of its program. -/
structure Thread (Req : Type) {Op : Type} (Ans : Op → Type) where
  req : Req
  rest : Prog Ans Unit

/-- A shared state and the threads started so far. -/
structure Pool (T Req σ : Type) {Op : Type} (Ans : Op → Type) where
  shared : σ
  thread : T → Option (Thread Req Ans)

/-- One step of a pool: a new thread starts on a request, or a thread issues its next
operation and `w` is what the world decides in it. -/
inductive Label (T Req W : Type) where
  | spawn (t : T) (q : Req)
  | step (t : T) (w : W)

variable [DecidableEq T] (handler : Req → Prog Ans Unit)
  (exec : T → W → (o : Op) → σ → Option (Ans o × σ))

/-- The pool after a step, or `none` when the step is not possible: a thread starts
once, and a thread whose next operation does not return does not move. -/
def Pool.next (P : Pool T Req σ Ans) : Label T Req W → Option (Pool T Req σ Ans)
  | .spawn t q =>
    match P.thread t with
    | none => some { P with thread := Function.update P.thread t (some ⟨q, handler q⟩) }
    | some _ => none
  | .step t w =>
    match P.thread t with
    | some ⟨q, .op o k⟩ =>
      (exec t w o P.shared).map fun rs =>
        { shared := rs.2, thread := Function.update P.thread t (some ⟨q, k rs.1⟩) }
    | _ => none

variable {handler exec}

/-- All that a `spawn` step does. -/
theorem Pool.next_spawn {P P' : Pool T Req σ Ans} {t : T} {q : Req}
    (h : Pool.next handler exec P (.spawn t q) = some P') :
    P.thread t = none ∧
      P' = { P with thread := Function.update P.thread t (some ⟨q, handler q⟩) } := by
  simp only [Pool.next] at h
  cases ht : P.thread t with
  | none =>
      simp only [ht, Option.some.injEq] at h
      exact ⟨rfl, h.symm⟩
  | some _ => simp [ht] at h

/-- All that a `step` step does. -/
theorem Pool.next_step {P P' : Pool T Req σ Ans} {t : T} {w : W}
    (h : Pool.next handler exec P (.step t w) = some P') :
    ∃ q o k r s', P.thread t = some ⟨q, .op o k⟩ ∧ exec t w o P.shared = some (r, s') ∧
      P' = { shared := s', thread := Function.update P.thread t (some ⟨q, k r⟩) } := by
  simp only [Pool.next] at h
  split at h
  · rename_i q o k ht
    obtain ⟨⟨r, s'⟩, hx, rfl⟩ := Option.map_eq_some_iff.mp h
    exact ⟨q, o, k, r, s', ht, hx, rfl⟩
  · exact absurd h (by simp)

/-- A thread moves when its next operation returns. -/
theorem Pool.next_of_exec {P : Pool T Req σ Ans} {t : T} {w : W} {q : Req} {o : Op}
    {k : Ans o → Prog Ans Unit} {r : Ans o} {s' : σ} (ht : P.thread t = some ⟨q, .op o k⟩)
    (hx : exec t w o P.shared = some (r, s')) :
    Pool.next handler exec P (.step t w) =
      some { shared := s', thread := Function.update P.thread t (some ⟨q, k r⟩) } := by
  simp [Pool.next, ht, hx]

omit handler exec in
/-- The threads after a step of `t`. -/
theorem thread_update {P : Pool T Req σ Ans} {t t' : T} {q q' : Req} {p p' : Prog Ans Unit}
    (h : Function.update P.thread t (some ⟨q, p⟩) t' = some ⟨q', p'⟩) :
    t' = t ∧ q' = q ∧ p' = p ∨ t' ≠ t ∧ P.thread t' = some ⟨q', p'⟩ := by
  by_cases he : t' = t
  · subst he
    simp only [Function.update_self, Option.some.injEq, Thread.mk.injEq] at h
    exact Or.inl ⟨rfl, h.1.symm, h.2.symm⟩
  · rw [Function.update_of_ne he] at h
    exact Or.inr ⟨he, h⟩

omit handler exec in
/-- A thread that has not been started after a step of `t` is another one. -/
theorem thread_update_none {P : Pool T Req σ Ans} {t t' : T} {th : Thread Req Ans}
    (h : Function.update P.thread t (some th) t' = none) : t' ≠ t ∧ P.thread t' = none := by
  have hne : t' ≠ t := by
    rintro rfl
    rw [Function.update_self] at h
    cases h
  rw [Function.update_of_ne hne] at h
  exact ⟨hne, h⟩

/-- A thread stays with its request. -/
theorem run_thread {C : Pool T Req σ Ans → Label T Req W → Prop} {P₀ P : Pool T Req σ Ans}
    {ls : List (Label T Req W)} (h : Run (Pool.next handler exec) C P₀ ls P) {t : T} {q : Req}
    (h₀ : ∃ p, P₀.thread t = some ⟨q, p⟩) : ∃ p, P.thread t = some ⟨q, p⟩ := by
  refine h.invariant (I := fun P => ∃ p, P.thread t = some ⟨q, p⟩) h₀ ?_
  intro P l P' hI _ hn
  obtain ⟨p, hp⟩ := hI
  cases l with
  | spawn t₁ q₁ =>
      obtain ⟨hnone, rfl⟩ := Pool.next_spawn hn
      have hne : t ≠ t₁ := by
        intro he
        rw [he, hnone] at hp
        cases hp
      exact ⟨p, by simpa only [Function.update_of_ne hne] using hp⟩
  | step t₁ w =>
      obtain ⟨q₁, o, k, r, s', ht₁, -, rfl⟩ := Pool.next_step hn
      by_cases he : t = t₁
      · subst he
        rw [hp] at ht₁
        cases ht₁
        exact ⟨k r, Function.update_self _ _ _⟩
      · exact ⟨p, by simpa only [Function.update_of_ne he] using hp⟩

/-- A step within a condition that lets only threads in `ts` start leaves the others absent. -/
theorem absent_next {C : Pool T Req σ Ans → Label T Req W → Prop} {P P' : Pool T Req σ Ans}
    {l : Label T Req W} (ts : T → Prop) (hC : ∀ P t q, C P (.spawn t q) → ts t)
    (hI : ∀ t, ¬ ts t → P.thread t = none) (hl : C P l)
    (hn : Pool.next handler exec P l = some P') : ∀ t, ¬ ts t → P'.thread t = none := by
  intro t hnot
  cases l with
  | spawn t₁ q =>
      obtain ⟨-, rfl⟩ := Pool.next_spawn hn
      have hne : t ≠ t₁ := fun he => hnot (he ▸ hC P t₁ q hl)
      simpa only [Function.update_of_ne hne] using hI t hnot
  | step t₁ w =>
      obtain ⟨q, o, k, r, s', ht₁, -, rfl⟩ := Pool.next_step hn
      have hne : t ≠ t₁ := by
        rintro rfl
        rw [hI t hnot] at ht₁
        cases ht₁
      simpa only [Function.update_of_ne hne] using hI t hnot

/-- When only threads in `ts` start, the others are absent at the end. -/
theorem run_absent {C : Pool T Req σ Ans → Label T Req W → Prop} {P₀ P : Pool T Req σ Ans}
    {ls : List (Label T Req W)} (ts : T → Prop)
    (h : Run (Pool.next handler exec) C P₀ ls P) (h₀ : ∀ t, P₀.thread t = none)
    (hC : ∀ P t q, C P (.spawn t q) → ts t) : ∀ t, ¬ ts t → P.thread t = none :=
  h.invariant (I := fun P => ∀ t, ¬ ts t → P.thread t = none) (fun t _ => h₀ t)
    fun _ _ _ hI hl hn => absent_next ts hC hI hl hn

/-- When only threads in `ts` start, the others are absent before each step. -/
theorem run_confined {C : Pool T Req σ Ans → Label T Req W → Prop} {P₀ P : Pool T Req σ Ans}
    {ls : List (Label T Req W)} (ts : T → Prop)
    (h : Run (Pool.next handler exec) C P₀ ls P) (h₀ : ∀ t, P₀.thread t = none)
    (hC : ∀ P t q, C P (.spawn t q) → ts t) :
    Run (Pool.next handler exec) (fun P l => (∀ t, ¬ ts t → P.thread t = none) ∧ C P l)
      P₀ ls P :=
  h.strengthen (fun t _ => h₀ t) fun _ _ _ hI hl hn => absent_next ts hC hI hl hn

/-! ### Invariants with ghost states -/

variable {γ : Type} {M : Monitor Ans γ} {J : (T → γ) → Pool T Req σ Ans → Prop}

/-- Every thread obeys the monitor from its ghost state, and returns in one that the
monitor allows. -/
def Watched (M : Monitor Ans γ) (G : T → γ) (P : Pool T Req σ Ans) : Prop :=
  ∀ t q p, P.thread t = some ⟨q, p⟩ → p.Obeys M (fun g _ => M.returns g) (G t)

/-- The invariant of a pool: there are ghost states that watch the threads and that `J`
ties to each other and to the pool. -/
def GhostInv (M : Monitor Ans γ) (J : (T → γ) → Pool T Req σ Ans → Prop)
    (P : Pool T Req σ Ans) : Prop :=
  ∃ G : T → γ, Watched M G P ∧ J G P

omit [DecidableEq T] in
theorem Watched.allows {G : T → γ} {P : Pool T Req σ Ans} (h : Watched M G P) {t : T}
    {q : Req} {o : Op} {k : Ans o → Prog Ans Unit} (ht : P.thread t = some ⟨q, .op o k⟩) :
    M.allows (G t) o :=
  (h t q _ ht).1

/-- A new thread keeps the invariant when its handler obeys the monitor. -/
theorem ghostInv_spawn {P P' : Pool T Req σ Ans} {t : T} {q : Req}
    (hP : GhostInv M J P) (h : Pool.next handler exec P (.spawn t q) = some P')
    (g : γ) (hobeys : (handler q).Obeys M (fun g _ => M.returns g) g)
    (hJ : ∀ G, Watched M G P → J G P → P.thread t = none → J (Function.update G t g)
      { P with thread := Function.update P.thread t (some ⟨q, handler q⟩) }) :
    GhostInv M J P' := by
  obtain ⟨G, hwatch, hG⟩ := hP
  obtain ⟨hnone, rfl⟩ := Pool.next_spawn h
  refine ⟨Function.update G t g, fun t' q' p' ht' => ?_, hJ G hwatch hG hnone⟩
  rcases thread_update ht' with ⟨rfl, rfl, rfl⟩ | ⟨hne, hold⟩
  · rwa [Function.update_self]
  · rw [Function.update_of_ne hne]
    exact hwatch t' q' p' hold

/-- A thread step keeps the invariant when the monitor has a ghost state for its answer
that keeps `J`. The step is one that the monitor allows. -/
theorem ghostInv_step {P P' : Pool T Req σ Ans} {t : T} {w : W}
    (hP : GhostInv M J P) (h : Pool.next handler exec P (.step t w) = some P')
    (hJ : ∀ G q o k r s', Watched M G P → J G P → P.thread t = some ⟨q, .op o k⟩ →
      exec t w o P.shared = some (r, s') →
      ∃ g', M.next (G t) o r g' ∧ J (Function.update G t g')
        { shared := s', thread := Function.update P.thread t (some ⟨q, k r⟩) }) :
    GhostInv M J P' := by
  obtain ⟨G, hwatch, hG⟩ := hP
  obtain ⟨q, o, k, r, s', ht, hx, rfl⟩ := Pool.next_step h
  obtain ⟨g', hg', hJ'⟩ := hJ G q o k r s' hwatch hG ht hx
  refine ⟨Function.update G t g', fun t' q' p' ht' => ?_, hJ'⟩
  rcases thread_update ht' with ⟨rfl, rfl, rfl⟩ | ⟨hne, hold⟩
  · rw [Function.update_self]
    exact (hwatch t' q' _ ht).2 r g' hg'
  · rw [Function.update_of_ne hne]
    exact hwatch t' q' p' hold

/-- One step within the condition keeps an invariant that new threads and steps keep. -/
theorem ghostInv_next {C : Pool T Req σ Ans → Label T Req W → Prop}
    {P P' : Pool T Req σ Ans} {l : Label T Req W} (hP : GhostInv M J P) (hC : C P l)
    (hnext : Pool.next handler exec P l = some P') (init : Req → γ)
    (hobeys : ∀ q, (handler q).Obeys M (fun g _ => M.returns g) (init q))
    (hspawn : ∀ G P t q, C P (.spawn t q) → Watched M G P → J G P → P.thread t = none →
      J (Function.update G t (init q))
        { P with thread := Function.update P.thread t (some ⟨q, handler q⟩) })
    (hstep : ∀ G P t w q o k r s', C P (.step t w) → Watched M G P → J G P →
      P.thread t = some ⟨q, .op o k⟩ → exec t w o P.shared = some (r, s') →
      ∃ g', M.next (G t) o r g' ∧ J (Function.update G t g')
        { shared := s', thread := Function.update P.thread t (some ⟨q, k r⟩) }) :
    GhostInv M J P' := by
  cases l with
  | spawn t q =>
      exact ghostInv_spawn hP hnext (init q) (hobeys q) fun G hw hJ hnone =>
        hspawn G P t q hC hw hJ hnone
  | step t w =>
      exact ghostInv_step hP hnext fun G q o k r s' hw hJ ht hx =>
        hstep G P t w q o k r s' hC hw hJ ht hx

/-- The rule for runs: an invariant that new threads and steps within the condition keep
holds of every pool that a run reaches from a pool where it holds. -/
theorem ghostInv_run_from {C : Pool T Req σ Ans → Label T Req W → Prop}
    {P₀ P : Pool T Req σ Ans} {ls : List (Label T Req W)}
    (h : Run (Pool.next handler exec) C P₀ ls P) (h₀ : GhostInv M J P₀) (init : Req → γ)
    (hobeys : ∀ q, (handler q).Obeys M (fun g _ => M.returns g) (init q))
    (hspawn : ∀ G P t q, C P (.spawn t q) → Watched M G P → J G P → P.thread t = none →
      J (Function.update G t (init q))
        { P with thread := Function.update P.thread t (some ⟨q, handler q⟩) })
    (hstep : ∀ G P t w q o k r s', C P (.step t w) → Watched M G P → J G P →
      P.thread t = some ⟨q, .op o k⟩ → exec t w o P.shared = some (r, s') →
      ∃ g', M.next (G t) o r g' ∧ J (Function.update G t g')
        { shared := s', thread := Function.update P.thread t (some ⟨q, k r⟩) }) :
    GhostInv M J P :=
  h.invariant h₀ fun _ _ _ hP hC hnext => ghostInv_next hP hC hnext init hobeys hspawn hstep

omit [DecidableEq T] in
/-- A pool without threads meets the invariant when its ghost states meet `J`. -/
theorem ghostInv_of_empty {P : Pool T Req σ Ans} {G : T → γ} (hempty : ∀ t, P.thread t = none)
    (hJ : J G P) : GhostInv M J P := by
  refine ⟨G, fun t q p ht => ?_, hJ⟩
  rw [hempty t] at ht
  cases ht

end Pool

end Remi.Lib
