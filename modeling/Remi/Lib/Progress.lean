import Mathlib.Data.Finset.Basic
import Mathlib.Logic.Hydra
import Remi.Lib.Threads

/-!
# `Remi.Lib.Progress`: pools that come to rest

A program is a well-founded tree, and each step of a thread goes down one level in its own. So a
pool with finitely many threads cannot take steps for ever when no thread is started
(`moves_acc`), however the threads take turns and whatever the world answers. There is no bound on
the number of steps, because a node may have infinitely many answers.

`drains` is the rule that follows. When every pool with the invariant `I` is final or has a thread
that can move, steps lead from each such pool to a final one.
-/

set_option autoImplicit false

namespace Remi.Lib

variable {Op T Req W σ : Type} {Ans : Op → Type}

/-- What is left of a program after its first operation. -/
inductive Prog.Rest {α : Type} : Prog Ans α → Prog Ans α → Prop
  | op (o : Op) (k : Ans o → Prog Ans α) (r : Ans o) : Rest (k r) (.op o k)

theorem Prog.rest_wf {α : Type} :
    WellFounded (Prog.Rest : Prog Ans α → Prog Ans α → Prop) := by
  refine ⟨fun p => ?_⟩
  induction p with
  | pure a =>
      refine ⟨_, fun p' h => ?_⟩
      cases h
  | op o k ih =>
      refine ⟨_, fun p' h => ?_⟩
      cases h with
      | op _ _ r => exact ih r

/-- The label is not that of a new thread. -/
def Label.Moves : Label T Req W → Prop
  | .spawn _ _ => False
  | .step _ _ => True

variable [DecidableEq T]

section Rests
variable {P : Pool T Req σ Ans} {ts : Finset T} {t : T} {q : Req} {o : Op}
  {k : Ans o → Prog Ans Unit} {s' : σ}

/-- What is left to do for the threads in `ts`. -/
def Pool.rests (ts : Finset T) (P : Pool T Req σ Ans) : Multiset (Prog Ans Unit) :=
  ts.val.map fun t => ((P.thread t).map (·.rest)).getD (.pure ())

/-- Only the threads in `ts` have been started. -/
def Pool.Among (ts : Finset T) (P : Pool T Req σ Ans) : Prop := ∀ t, t ∉ ts → P.thread t = none

theorem Pool.rests_update (s' : σ) (ht : t ∈ ts) (th : Thread Req Ans) :
    Pool.rests ts ⟨s', Function.update P.thread t (some th)⟩ =
      th.rest ::ₘ Pool.rests (ts.erase t) P := by
  have hrest : Pool.rests (ts.erase t) ⟨s', Function.update P.thread t (some th)⟩ =
      Pool.rests (ts.erase t) P := by
    refine Multiset.map_congr rfl fun t' ht' => ?_
    have hne : t' ≠ t := (Finset.mem_erase.mp ht').1
    simp only [Function.update_of_ne hne]
  rw [← hrest, Pool.rests, ← Multiset.cons_erase (Finset.mem_def.mp ht), Multiset.map_cons]
  simp only [Function.update_self, Option.map_some, Option.getD_some]
  rfl

theorem Pool.rests_thread (ht : t ∈ ts) {th : Thread Req Ans} (h : P.thread t = some th) :
    Pool.rests ts P = th.rest ::ₘ Pool.rests (ts.erase t) P := by
  have hsame : (⟨P.shared, Function.update P.thread t (some th)⟩ : Pool T Req σ Ans) = P := by
    rw [← h, Function.update_eq_self]
  rw [← Pool.rests_update P.shared ht th, hsame]

/-- A step replaces what is left of one thread by less. -/
theorem Pool.rests_step (ht : t ∈ ts) (h : P.thread t = some ⟨q, .op o k⟩) (r : Ans o) :
    Relation.CutExpand Prog.Rest
      (Pool.rests ts ⟨s', Function.update P.thread t (some ⟨q, k r⟩)⟩) (Pool.rests ts P) := by
  rw [Pool.rests_update s' ht, Pool.rests_thread ht h, ← Multiset.singleton_add,
    ← Multiset.singleton_add]
  exact Relation.cutExpand_single_add (.op o k r) _

end Rests

variable {handler : Req → Prog Ans Unit} {exec : T → W → (o : Op) → σ → Option (Ans o × σ)}

/-- A pool with finitely many threads takes no infinite run of steps. -/
theorem moves_acc {P : Pool T Req σ Ans} {ts : Finset T} (hP : P.Among ts) :
    Acc (fun P' P => ∃ t w, Pool.next handler exec P (.step t w) = some P') P := by
  -- By induction on what is left of all threads together.
  suffices h : ∀ m, Acc (Relation.CutExpand Prog.Rest) m → ∀ P : Pool T Req σ Ans, P.Among ts →
      P.rests ts = m →
      Acc (fun P' P => ∃ t w, Pool.next handler exec P (.step t w) = some P') P from
    h _ (Prog.rest_wf.cutExpand.apply _) P hP rfl
  intro m hm
  induction hm with
  | intro m _ ih =>
      intro P hP hrests
      refine ⟨_, fun P' hP' => ?_⟩
      obtain ⟨t, w, hn⟩ := hP'
      obtain ⟨q, o, k, r, s', ht, -, rfl⟩ := Pool.next_step hn
      have hmem : t ∈ ts := by
        by_contra hnot
        rw [hP t hnot] at ht
        cases ht
      refine ih _ (hrests ▸ Pool.rests_step hmem ht r) _ (fun t' hnot => ?_) rfl
      have hne : t' ≠ t := by
        rintro rfl
        exact hnot hmem
      exact (Function.update_of_ne hne _ _).trans (hP t' hnot)

/-- Steps lead to a final pool when each pool with the invariant is final or can move. -/
theorem drains {I F : Pool T Req σ Ans → Prop} {P : Pool T Req σ Ans} {ts : Finset T}
    (hts : P.Among ts) (hP : I P)
    (hkeep : ∀ P t w P', I P → Pool.next handler exec P (.step t w) = some P' → I P')
    (hmove : ∀ P, I P → ¬ F P → ∃ t w P', Pool.next handler exec P (.step t w) = some P') :
    ∃ ls P', Run (Pool.next handler exec) (fun _ l => l.Moves) P ls P' ∧ F P' := by
  have hacc : Acc (fun P' P => ∃ t w, Pool.next handler exec P (.step t w) = some P') P :=
    moves_acc hts
  clear hts
  induction hacc with
  | intro P _ ih =>
      by_cases hF : F P
      · exact ⟨[], P, .nil, hF⟩
      · obtain ⟨t, w, P₁, hn⟩ := hmove P hP hF
        obtain ⟨ls, P', hrun, hF'⟩ := ih P₁ ⟨t, w, hn⟩ (hkeep P t w P₁ hP hn)
        have hmoves : (Label.step t w : Label T Req W).Moves := trivial
        exact ⟨_, P', .cons hmoves hn hrun, hF'⟩

end Remi.Lib
