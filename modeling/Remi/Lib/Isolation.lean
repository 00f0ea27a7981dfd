import Remi.Lib.Threads

/-!
# `Remi.Lib.Isolation`: what a group of threads sees of a run

`ts` is a group of threads of a pool, and `E` relates two shared states that look the same to
the group. `Alone` relates a pool to one in which only the group has been started. Two
conditions say that the group is isolated: an operation of a thread of the group has the same
result in related states, and an operation of any other thread leaves them related. Then the
steps of the group are a run by themselves, and the two pools stay related (`run_project`).
-/

set_option autoImplicit false

namespace Remi.Lib

variable {Op T Req W σ : Type} {Ans : Op → Type}

/-- The thread that moves. -/
def Label.thread : Label T Req W → T
  | .spawn t _ => t
  | .step t _ => t

/-- The two results are the same, with states that are related. -/
def SameResult {α : Type} (E : σ → σ → Prop) (x y : Option (α × σ)) : Prop :=
  Option.Rel (fun a b => a.1 = b.1 ∧ E a.2 b.2) x y

section
variable {α : Type} {E : σ → σ → Prop} {x y : Option (α × σ)}

theorem sameResult_some {a : α} {s s₁ : σ} (h : E s s₁) :
    SameResult E (some (a, s)) (some (a, s₁)) :=
  .some ⟨rfl, h⟩

theorem sameResult_none : SameResult E (none : Option (α × σ)) none :=
  .none

theorem SameResult.isSome (h : SameResult E x y) : x.isSome = y.isSome := by
  cases h <;> rfl

/-- The other result, when one is known. -/
theorem SameResult.of_some {a : α} {s : σ} (h : SameResult E (some (a, s)) y) :
    ∃ s₁, y = some (a, s₁) ∧ E s s₁ := by
  cases h with
  | some hres =>
      obtain ⟨rfl, hE⟩ := hres
      exact ⟨_, rfl, hE⟩

end

/-- In `P₁` only threads of the group have been started. They are where they are in `P`, and
the shared states look the same to them. -/
structure Alone (ts : T → Prop) (E : σ → σ → Prop) (P P₁ : Pool T Req σ Ans) : Prop where
  inside : ∀ t, ts t → P₁.thread t = P.thread t
  outside : ∀ t, ¬ ts t → P₁.thread t = none
  shared : E P.shared P₁.shared

section
variable [DecidableEq T] {ts : T → Prop} {E : σ → σ → Prop} {P P₁ : Pool T Req σ Ans} {t : T}
  {s s₁ : σ} {th : Thread Req Ans}

/-- A thread of the group moves in both pools. -/
theorem Alone.both (h : Alone ts E P P₁) (ht : ts t) (hs : E s s₁) :
    Alone ts E { shared := s, thread := Function.update P.thread t (some th) }
      { shared := s₁, thread := Function.update P₁.thread t (some th) } where
  inside t' ht' := by
    by_cases he : t' = t
    · subst he
      simp only [Function.update_self]
    · simpa only [Function.update_of_ne he] using h.inside t' ht'
  outside t' ht' := by
    have hne : t' ≠ t := fun he => ht' (he ▸ ht)
    simpa only [Function.update_of_ne hne] using h.outside t' ht'
  shared := hs

/-- Another thread moves, in the one pool only. -/
theorem Alone.other (h : Alone ts E P P₁) (ht : ¬ ts t) (hs : E s P₁.shared) :
    Alone ts E { shared := s, thread := Function.update P.thread t (some th) } P₁ where
  inside t' ht' := by
    have hne : t' ≠ t := fun he => ht (he ▸ ht')
    simpa only [Function.update_of_ne hne] using h.inside t' ht'
  outside := h.outside
  shared := hs

variable {handler : Req → Prog Ans Unit} {exec : T → W → (o : Op) → σ → Option (Ans o × σ)}

/-- The next step of a thread of the group is possible in both pools or in none. -/
theorem Alone.next_isSome (h : Alone ts E P P₁) {l : Label T Req W} (hl : ts l.thread)
    (hown : ∀ t w q o k, l = .step t w → P.thread t = some ⟨q, .op o k⟩ →
      SameResult E (exec t w o P.shared) (exec t w o P₁.shared)) :
    (Pool.next handler exec P l).isSome = (Pool.next handler exec P₁ l).isSome := by
  cases l with
  | spawn t q =>
      simp only [Pool.next, h.inside t hl]
      cases P.thread t <;> rfl
  | step t w =>
      simp only [Pool.next, h.inside t hl]
      cases ht : P.thread t with
      | none => rfl
      | some th =>
          obtain ⟨q, p⟩ := th
          cases p with
          | pure a => rfl
          | op o k =>
              simp only [Option.isSome_map]
              exact (hown t w q o k rfl ht).isSome

/-- The steps of an isolated group are a run by themselves. `Inv` is an invariant of the
runs of the pool, `C` is the condition on its steps and `D` the one on the steps of the group
alone. -/
theorem run_project (ts : T → Prop) [DecidablePred ts] (E : σ → σ → Prop)
    {C : Pool T Req σ Ans → Label T Req W → Prop} (D : Pool T Req σ Ans → Label T Req W → Prop)
    (Inv : Pool T Req σ Ans → Prop) {P₀ : Pool T Req σ Ans} {ls : List (Label T Req W)}
    (h : Run (Pool.next handler exec) C P₀ ls P) (h₀ : Alone ts E P₀ P₀)
    (hInv : ∀ ls P, Run (Pool.next handler exec) C P₀ ls P → Inv P)
    (hD : ∀ P P₁ l, ts l.thread → Inv P → Alone ts E P P₁ → C P l → D P₁ l)
    (hown : ∀ P P₁ t w q o k, ts t → Inv P → Alone ts E P P₁ → C P (.step t w) →
      P.thread t = some ⟨q, .op o k⟩ → SameResult E (exec t w o P.shared) (exec t w o P₁.shared))
    (hframe : ∀ P s₁ t w q o k r s', ¬ ts t → Inv P → E P.shared s₁ →
      P.thread t = some ⟨q, .op o k⟩ → exec t w o P.shared = some (r, s') → E s' s₁) :
    ∃ P₁, Run (Pool.next handler exec) D P₀ (ls.filter fun l => ts l.thread) P₁ ∧
      Alone ts E P P₁ := by
  -- By induction on the run. The run alone is kept with it, and agrees with it on the group.
  induction h with
  | nil => exact ⟨P₀, .nil, h₀⟩
  | @snoc ls P P' l hrun hC hn ih =>
      obtain ⟨P₁, hrun₁, hsame⟩ := ih
      have hP : Inv P := hInv _ _ hrun
      rw [List.filter_append]
      by_cases hl : ts l.thread
      · -- The step is also made alone.
        have hsingle : [l].filter (fun l => ts l.thread) = [l] := by simp [hl]
        rw [hsingle]
        have hl₁ : D P₁ l := hD P P₁ l hl hP hsame hC
        cases l with
        | spawn t q =>
            obtain ⟨hnone, rfl⟩ := Pool.next_spawn hn
            have hn₁ : Pool.next handler exec P₁ (.spawn t q : Label T Req W) =
                some { P₁ with thread := Function.update P₁.thread t (some ⟨q, handler q⟩) } := by
              simp only [Pool.next, hsame.inside t hl, hnone]
            exact ⟨_, .snoc hrun₁ hl₁ hn₁, hsame.both hl hsame.shared⟩
        | step t w =>
            obtain ⟨q, o, k, r, s', ht, hx, rfl⟩ := Pool.next_step hn
            -- The answer is the same alone, because the operation is one of the group.
            have hres := hown P P₁ t w q o k hl hP hsame hC ht
            rw [hx] at hres
            obtain ⟨s₁, hx₁, hE⟩ := hres.of_some
            have hn₁ : Pool.next handler exec P₁ (.step t w) = some
                { shared := s₁, thread := Function.update P₁.thread t (some ⟨q, k r⟩) } := by
              simp only [Pool.next, hsame.inside t hl, ht, hx₁, Option.map_some]
            exact ⟨_, .snoc hrun₁ hl₁ hn₁, hsame.both hl hE⟩
      · -- The step is one of another thread.
        have hempty : [l].filter (fun l => ts l.thread) = [] := by simp [hl]
        rw [hempty, List.append_nil]
        refine ⟨P₁, hrun₁, ?_⟩
        cases l with
        | spawn t q =>
            obtain ⟨-, rfl⟩ := Pool.next_spawn hn
            exact hsame.other hl hsame.shared
        | step t w =>
            obtain ⟨q, o, k, r, s', ht, hx, rfl⟩ := Pool.next_step hn
            exact hsame.other hl (hframe P _ t w q o k r s' hl hP hsame.shared ht hx)

end

end Remi.Lib
