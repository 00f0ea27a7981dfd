import Remi.Lib.Prog

/-!
# `Remi.Lib.Renaming`: programs that differ in names

`op` renames what an operation speaks of, and `ans` renames its answer. `Renamed` relates two
programs when the second one is the first with all names changed: it issues the renamed
operations, and goes on in the same way behind renamed answers. Results are related by `R`. The
rules follow the programs (`renamed_call`, `renamed_bind`), and `Renamed.run` says that a
semantics that respects names runs both to the same state, up to the names.
-/

set_option autoImplicit false

namespace Remi.Lib.Prog

variable {Op : Type} {Ans : Op → Type} (op : Op → Op) (ans : (o : Op) → Ans o → Ans (op o))
  {α β γ δ σ : Type}

/-- The second program is the first one with other names. -/
def Renamed (R : α → β → Prop) : Prog Ans α → Prog Ans β → Prop
  | .pure a, p' => ∃ b, p' = .pure b ∧ R a b
  | .op o k, p' => ∃ k', p' = .op (op o) k' ∧ ∀ r, Renamed R (k r) (k' (ans o r))

variable {op ans} {R : α → β → Prop} {S : γ → δ → Prop}

theorem renamed_pure {a : α} {b : β} (h : R a b) :
    Renamed op ans R (.pure a : Prog Ans α) (.pure b) :=
  ⟨b, rfl, h⟩

/-- The rule for one operation. -/
theorem renamed_call {o : Op} {f : Ans o → Prog Ans γ} {f' : Ans (op o) → Prog Ans δ}
    (hf : ∀ r, Renamed op ans S (f r) (f' (ans o r))) :
    Renamed op ans S (call o >>= f) (call (op o) >>= f') :=
  ⟨f', rfl, hf⟩

/-- The rule for the last operation. -/
theorem renamed_last {o : Op} {R : Ans o → Ans (op o) → Prop} (h : ∀ r, R r (ans o r)) :
    Renamed op ans R (call o) (call (op o)) :=
  ⟨.pure, rfl, fun r => ⟨ans o r, rfl, h r⟩⟩

/-- Sequencing. -/
theorem renamed_bind {p : Prog Ans α} {p' : Prog Ans β} {f : α → Prog Ans γ}
    {f' : β → Prog Ans δ} (hp : Renamed op ans R p p')
    (hf : ∀ a b, R a b → Renamed op ans S (f a) (f' b)) :
    Renamed op ans S (p >>= f) (p' >>= f') := by
  induction p generalizing p' with
  | pure a =>
      obtain ⟨b, rfl, hR⟩ := hp
      exact hf a b hR
  | op o k ih =>
      obtain ⟨k', rfl, hk⟩ := hp
      exact ⟨fun r => k' r >>= f', rfl, fun r => ih r (hk r)⟩

/-- When the semantics respects names, both programs run to the same state up to the names. -/
theorem Renamed.run {step step' : (o : Op) → σ → Option (Ans o × σ)} {f : σ → σ}
    (hstep : ∀ o s, step' (op o) (f s) = (step o s).map fun rs => (ans o rs.1, f rs.2))
    {p : Prog Ans α} {p' : Prog Ans β} (hp : Renamed op ans R p p') (s : σ) :
    (p'.run step' (f s)).2 = f (p.run step s).2 := by
  induction p generalizing p' s with
  | pure a =>
      obtain ⟨b, rfl, -⟩ := hp
      rfl
  | op o k ih =>
      obtain ⟨k', rfl, hk⟩ := hp
      cases hs : step o s with
      | none =>
          have hs' : step' (op o) (f s) = none := by rw [hstep, hs, Option.map_none]
          rw [run_op_none step hs, run_op_none step' hs']
      | some w =>
          have hs' : step' (op o) (f s) = some (ans o w.1, f w.2) := by
            rw [hstep, hs, Option.map_some]
          rw [run_op_some step hs, run_op_some step' hs']
          exact ih w.1 (hk w.1) w.2

end Remi.Lib.Prog
