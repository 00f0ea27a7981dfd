import Remi.Lib.Threads

/-!
# `Remi.Lib.Simulation`: runs that follow other runs

A relation `R` between the states of two systems is a forward simulation when every step of the
first system is matched by a run of the second one, which may have no step at all. A run of the
first system then has a run of the second one beside it (`Run.simulate`).
-/

set_option autoImplicit false

namespace Remi.Lib

/-- Every step is matched by a run. -/
def Simulates {S S' L L' : Type} (next : S → L → Option S) (C : S → L → Prop)
    (next' : S' → L' → Option S') (C' : S' → L' → Prop) (R : S → S' → Prop) : Prop :=
  ∀ s t l s', R s t → C s l → next s l = some s' →
    ∃ ls t', Run next' C' t ls t' ∧ R s' t'

/-- A run of the first system has a run of the second one beside it. -/
theorem Run.simulate {S S' L L' : Type} {next : S → L → Option S} {C : S → L → Prop}
    {next' : S' → L' → Option S'} {C' : S' → L' → Prop} {R : S → S' → Prop}
    (hsim : Simulates next C next' C' R) {s₀ s : S} {t₀ : S'} (h₀ : R s₀ t₀) {ls : List L}
    (h : Run next C s₀ ls s) : ∃ ls' t, Run next' C' t₀ ls' t ∧ R s t := by
  induction h with
  | nil => exact ⟨[], t₀, .nil, h₀⟩
  | snoc _ hC hn ih =>
      obtain ⟨ls', t, hrun, hR⟩ := ih
      obtain ⟨more, t', hmore, hR'⟩ := hsim _ _ _ _ hR hC hn
      exact ⟨ls' ++ more, t', hrun.append hmore, hR'⟩

/-- A run of one step. -/
theorem Run.single {S L : Type} {next : S → L → Option S} {C : S → L → Prop} {s s' : S} {l : L}
    (hC : C s l) (hn : next s l = some s') : Run next C s [l] s' :=
  .snoc .nil hC hn

end Remi.Lib
