import Mathlib.Logic.Function.Basic

/-!
# `Remi.Lib.Prog`: programs over a set of operations

A `Prog Ans α` is a finite tree. A node issues one operation `o` and continues
with the answer, of type `Ans o`. A leaf returns a value of type `α`. The
operations have no meaning of their own. A semantics `step` gives one, either to
a whole program at once (`Prog.run`) or to its first operation only
(`Remi.Lib.Threads`, where programs run side by side). `Prog.trace` lists the operations
that a whole program issues, with the state before each.

`Prog.Obeys` is the program logic. A `Monitor` watches the operations of a program
and keeps a ghost state of its own. `p.Obeys M Q g` says that `p`, watched from the
ghost state `g`, issues only operations that `M` allows, and that it returns in a
ghost state where `Q` holds. The rules are `obeys_bind` and `Obeys.mono`. `p.Issues P` is the
special case without a ghost state: all operations of `p` have the property `P`.
-/

set_option autoImplicit false

namespace Remi.Lib

/-- A program over the operations `Op`. `Ans o` is the type of the answers to `o`. -/
inductive Prog {Op : Type} (Ans : Op → Type) (α : Type) : Type where
  | pure (a : α) : Prog Ans α
  | op (o : Op) (k : Ans o → Prog Ans α) : Prog Ans α

namespace Prog

variable {Op : Type} {Ans : Op → Type} {α β σ γ : Type}

/-- Sequencing: the leaves of the first program continue with the second. -/
protected def bind : Prog Ans α → (α → Prog Ans β) → Prog Ans β
  | .pure a, f => f a
  | .op o k, f => .op o fun r => (k r).bind f

instance : Monad (Prog Ans) where
  pure := Prog.pure
  bind := Prog.bind

/-- The program that issues `o` and returns its answer. -/
def call (o : Op) : Prog Ans (Ans o) := .op o .pure

@[simp] theorem pure_eq (a : α) : (Pure.pure a : Prog Ans α) = .pure a := rfl

@[simp] theorem pure_bind (a : α) (f : α → Prog Ans β) : (Prog.pure a >>= f) = f a := rfl

@[simp] theorem op_bind (o : Op) (k : Ans o → Prog Ans α) (f : α → Prog Ans β) :
    (Prog.op o k >>= f) = .op o fun r => k r >>= f := rfl

@[simp] theorem call_bind (o : Op) (f : Ans o → Prog Ans β) :
    ((call o : Prog Ans (Ans o)) >>= f) = .op o f := rfl

theorem bind_assoc (p : Prog Ans α) (f : α → Prog Ans β) (g : β → Prog Ans γ) :
    ((p >>= f) >>= g) = p >>= fun a => f a >>= g := by
  induction p with
  | pure a => rfl
  | op o k ih => simp only [op_bind, ih]

/-! ### Running a program alone -/

/-- The run of a program by itself. `step o s` is the answer to `o` in the state `s`,
with the state after it, or `none` when `o` does not return there. The run then stops
with the state it has reached and without a value. -/
def run (step : (o : Op) → σ → Option (Ans o × σ)) : Prog Ans α → σ → Option α × σ
  | .pure a, s => (some a, s)
  | .op o k, s =>
    match step o s with
    | some (r, s') => (k r).run step s'
    | none => (none, s)

section Run
variable (step : (o : Op) → σ → Option (Ans o × σ))

@[simp] theorem run_pure (a : α) (s : σ) : (Prog.pure a : Prog Ans α).run step s = (some a, s) :=
  rfl

theorem run_op_some {o : Op} {k : Ans o → Prog Ans α} {s s' : σ} {r : Ans o}
    (h : step o s = some (r, s')) : (Prog.op o k).run step s = (k r).run step s' := by
  simp only [run, h]

theorem run_op_none {o : Op} {k : Ans o → Prog Ans α} {s : σ} (h : step o s = none) :
    (Prog.op o k).run step s = (none, s) := by
  simp only [run, h]

theorem run_bind_some {p : Prog Ans α} {f : α → Prog Ans β} {s s' : σ} {a : α}
    (h : p.run step s = (some a, s')) : (p >>= f).run step s = (f a).run step s' := by
  induction p generalizing s with
  | pure b =>
      simp only [run_pure, Prod.mk.injEq, Option.some.injEq] at h
      obtain ⟨rfl, rfl⟩ := h
      rfl
  | op o k ih =>
      cases hs : step o s with
      | none =>
          rw [run_op_none step hs] at h
          exact absurd h (by simp)
      | some w =>
          obtain ⟨r, t⟩ := w
          rw [run_op_some step hs] at h
          rw [op_bind, run_op_some step hs]
          exact ih r h

/-- A run that returns has had an answer to its first operation. -/
theorem run_op_returns {o : Op} {k : Ans o → Prog Ans α} {s s' : σ} {a : α}
    (h : (Prog.op o k).run step s = (some a, s')) :
    ∃ r t, step o s = some (r, t) ∧ (k r).run step t = (some a, s') := by
  cases hs : step o s with
  | none =>
      rw [run_op_none step hs] at h
      exact absurd h (by simp)
  | some w =>
      rw [run_op_some step hs] at h
      exact ⟨w.1, w.2, rfl, h⟩

/-- A result that is changed at the end. -/
theorem run_bind_pure (p : Prog Ans α) (f : α → β) (s : σ) :
    (p >>= fun a => Prog.pure (f a)).run step s = ((p.run step s).1.map f, (p.run step s).2) := by
  induction p generalizing s with
  | pure a => rfl
  | op o k ih =>
      cases hs : step o s with
      | none => rw [op_bind, run_op_none step hs, run_op_none step hs, Option.map_none]
      | some w => rw [op_bind, run_op_some step hs, run_op_some step hs, ih]

/-- A property of states that every operation keeps holds after the run. -/
theorem run_invariant {I : σ → Prop}
    (hI : ∀ o s r s', I s → step o s = some (r, s') → I s') (p : Prog Ans α) (s : σ)
    (hs : I s) : I (p.run step s).2 := by
  induction p generalizing s with
  | pure a => exact hs
  | op o k ih =>
      cases h : step o s with
      | none => rw [run_op_none step h]; exact hs
      | some w =>
          rw [run_op_some step h]
          exact ih w.1 w.2 (hI o s w.1 w.2 hs h)

/-- A property that goes back along every operation goes back along a run. -/
theorem run_backward {I : σ → Prop}
    (hI : ∀ o s r s', step o s = some (r, s') → I s' → I s) (p : Prog Ans α) (s : σ)
    (hs : I (p.run step s).2) : I s := by
  by_contra hnot
  exact run_invariant step (I := fun s => ¬ I s)
    (fun o s r s' hs hx hs' => hs (hI o s r s' hx hs')) p s hnot hs

/-- Two semantics that agree along a run. `L` is a property of the last state that goes back along
every operation, so it holds in each state on the way, and `R` relates the states of the two. -/
theorem run_agrees {τ : Type} {step' : (o : Op) → τ → Option (Ans o × τ)} {L : σ → Prop}
    {R : σ → τ → Prop} (hL : ∀ o s r s', step o s = some (r, s') → L s' → L s)
    (hR : ∀ o s t r s', R s t → step o s = some (r, s') → L s' →
      ∃ t', step' o t = some (r, t') ∧ R s' t')
    {p : Prog Ans α} {s s' : σ} {t : τ} {a : α} (h : p.run step s = (some a, s')) (hs' : L s')
    (hst : R s t) : ∃ t', p.run step' t = (some a, t') ∧ R s' t' := by
  induction p generalizing s t with
  | pure b =>
      simp only [run_pure, Prod.mk.injEq, Option.some.injEq] at h
      obtain ⟨rfl, rfl⟩ := h
      exact ⟨t, rfl, hst⟩
  | op o k ih =>
      obtain ⟨r, s₁, hstep, hrest⟩ := run_op_returns step h
      have hs₁ : L s₁ := run_backward step hL (k r) s₁ (by rwa [hrest])
      obtain ⟨t₁, hstep', hst₁⟩ := hR o s t r s₁ hst hstep hs₁
      obtain ⟨t', hrun, hst'⟩ := ih r hrest hst₁
      exact ⟨t', by rw [run_op_some step' hstep', hrun], hst'⟩

end Run

/-- The operations of a run, each with the state in which it is issued. -/
def trace (step : (o : Op) → σ → Option (Ans o × σ)) : Prog Ans α → σ → List (Op × σ)
  | .pure _, _ => []
  | .op o k, s =>
    (o, s) ::
      match step o s with
      | some (r, s') => (k r).trace step s'
      | none => []

section Trace
variable (step : (o : Op) → σ → Option (Ans o × σ))

theorem trace_op_some {o : Op} {k : Ans o → Prog Ans α} {s s' : σ} {r : Ans o}
    (h : step o s = some (r, s')) :
    (Prog.op o k).trace step s = (o, s) :: (k r).trace step s' := by
  simp only [trace, h]

theorem trace_op_none {o : Op} {k : Ans o → Prog Ans α} {s : σ} (h : step o s = none) :
    (Prog.op o k).trace step s = [(o, s)] := by
  simp only [trace, h]

theorem mem_trace_call (o : Op) (f : Ans o → Prog Ans β) (s : σ) :
    (o, s) ∈ (call o >>= f).trace step s := by
  rw [call_bind, trace]
  exact List.mem_cons_self

/-- Sequencing: the operations of the first program come before those of the second. -/
theorem trace_bind_some {p : Prog Ans α} {f : α → Prog Ans β} {s s' : σ} {a : α}
    (h : p.run step s = (some a, s')) :
    (p >>= f).trace step s = p.trace step s ++ (f a).trace step s' := by
  induction p generalizing s with
  | pure b =>
      simp only [run_pure, Prod.mk.injEq, Option.some.injEq] at h
      obtain ⟨rfl, rfl⟩ := h
      rfl
  | op o k ih =>
      cases hs : step o s with
      | none =>
          rw [run_op_none step hs] at h
          exact absurd h (by simp)
      | some w =>
          obtain ⟨r, t⟩ := w
          rw [run_op_some step hs] at h
          rw [op_bind, trace_op_some step hs, trace_op_some step hs, ih r h, List.cons_append]

end Trace

/-! ### The program logic -/

/-- Every operation that the program may issue has the property `P`. -/
def Issues (P : Op → Prop) : Prog Ans α → Prop
  | .pure _ => True
  | .op o k => P o ∧ ∀ r, (k r).Issues P

section Issues
variable {P : Op → Prop}

theorem issues_call {o : Op} {f : Ans o → Prog Ans β} (h : P o) (hf : ∀ r, (f r).Issues P) :
    (call o >>= f).Issues P :=
  ⟨h, hf⟩

theorem issues_last {o : Op} (h : P o) : (call o : Prog Ans (Ans o)).Issues P :=
  ⟨h, fun _ => trivial⟩

theorem issues_bind {p : Prog Ans α} {f : α → Prog Ans β} (h : p.Issues P)
    (hf : ∀ a, (f a).Issues P) : (p >>= f).Issues P := by
  induction p with
  | pure a => exact hf a
  | op o k ih => exact ⟨h.1, fun r => ih r (h.2 r)⟩

theorem Issues.trace {p : Prog Ans α} (h : p.Issues P)
    (step : (o : Op) → σ → Option (Ans o × σ)) (s : σ) : ∀ x ∈ p.trace step s, P x.1 := by
  induction p generalizing s with
  | pure a => exact fun x hx => absurd hx List.not_mem_nil
  | op o k ih =>
      intro x hx
      cases hstep : step o s with
      | none =>
          rw [trace_op_none step hstep] at hx
          obtain rfl := List.mem_singleton.mp hx
          exact h.1
      | some w =>
          rw [trace_op_some step hstep] at hx
          rcases List.mem_cons.mp hx with rfl | hx
          · exact h.1
          · exact ih w.1 (h.2 w.1) w.2 x hx

end Issues

end Prog

/-- A monitor over the operations `Op`, with a ghost state of type `γ`. `allows g o`:
the operation `o` may be issued in the ghost state `g`. `next g o r g'`: after the
answer `r` the ghost state is `g'`. A `next` that relates `r` to no `g'` says that the
answer `r` does not occur. `returns g`: a thread may end in the ghost state `g`. -/
structure Monitor {Op : Type} (Ans : Op → Type) (γ : Type) where
  allows : γ → Op → Prop
  next : γ → (o : Op) → Ans o → γ → Prop
  returns : γ → Prop

/-- The monitor that computes its ghost state from the answers. -/
def Monitor.computed {Op : Type} {Ans : Op → Type} {γ : Type} (allows : γ → Op → Prop)
    (after : γ → (o : Op) → Ans o → γ) (returns : γ → Prop) : Monitor Ans γ where
  allows := allows
  next g o r g' := g' = after g o r
  returns := returns

/-- Two monitors side by side. -/
def Monitor.both {Op : Type} {Ans : Op → Type} {γ δ : Type} (M : Monitor Ans γ)
    (N : Monitor Ans δ) : Monitor Ans (γ × δ) where
  allows g o := M.allows g.1 o ∧ N.allows g.2 o
  next g o r g' := M.next g.1 o r g'.1 ∧ N.next g.2 o r g'.2
  returns g := M.returns g.1 ∧ N.returns g.2

namespace Prog

variable {Op : Type} {Ans : Op → Type} {α β γ : Type}

/-- Every operation of the program is allowed by `M` at its turn, and every value is
returned in a ghost state that satisfies `Q`. -/
def Obeys (M : Monitor Ans γ) (Q : γ → α → Prop) : Prog Ans α → γ → Prop
  | .pure a, g => Q g a
  | .op o k, g => M.allows g o ∧ ∀ r g', M.next g o r g' → (k r).Obeys M Q g'

section Obeys
variable {M : Monitor Ans γ} {Q R : γ → α → Prop} {S : γ → β → Prop}

@[simp] theorem obeys_pure (a : α) (g : γ) : (Prog.pure a : Prog Ans α).Obeys M Q g ↔ Q g a :=
  Iff.rfl

@[simp] theorem obeys_op (o : Op) (k : Ans o → Prog Ans α) (g : γ) :
    (Prog.op o k).Obeys M Q g ↔
      M.allows g o ∧ ∀ r g', M.next g o r g' → (k r).Obeys M Q g' :=
  Iff.rfl

/-- A weaker postcondition. -/
theorem Obeys.mono {p : Prog Ans α} {g : γ} (h : p.Obeys M Q g)
    (hQ : ∀ g a, Q g a → R g a) : p.Obeys M R g := by
  induction p generalizing g with
  | pure a => exact hQ g a h
  | op o k ih => exact ⟨h.1, fun r g' hn => ih r (h.2 r g' hn)⟩

/-- Sequencing: the second program starts where the first one returns. -/
theorem obeys_bind {p : Prog Ans α} {f : α → Prog Ans β} {g : γ}
    (h : p.Obeys M Q g) (hf : ∀ g' a, Q g' a → (f a).Obeys M S g') :
    (p >>= f).Obeys M S g := by
  induction p generalizing g with
  | pure a => exact hf g a h
  | op o k ih => exact ⟨h.1, fun r g' hn => ih r (h.2 r g' hn)⟩

/-- The rule for a program that runs alone: what relates the ghost state to the state, and is
kept by every operation that the monitor allows, holds at the end of the run. -/
theorem Obeys.run {σ : Type} {step : (o : Op) → σ → Option (Ans o × σ)} {I : γ → σ → Prop}
    {p : Prog Ans α} {g : γ} {s : σ} (h : p.Obeys M Q g) (hs : I g s)
    (hI : ∀ g s o r s', M.allows g o → I g s → step o s = some (r, s') →
      ∃ g', M.next g o r g' ∧ I g' s') :
    ∃ g', I g' (p.run step s).2 ∧ ∀ a, (p.run step s).1 = some a → Q g' a := by
  induction p generalizing g s with
  | pure a =>
      refine ⟨g, hs, fun b hb => ?_⟩
      obtain rfl : a = b := Option.some.inj hb
      exact h
  | op o k ih =>
      cases hstep : step o s with
      | none =>
          rw [run_op_none step hstep]
          exact ⟨g, hs, fun _ hb => absurd hb (by simp)⟩
      | some w =>
          obtain ⟨r, s'⟩ := w
          rw [run_op_some step hstep]
          obtain ⟨g', hg', hs'⟩ := hI g s o r s' h.1 hs hstep
          exact ih r (h.2 r g' hg') hs'

/-- The rule for a program that issues operations only that are allowed in every ghost
state. -/
theorem Issues.obeys {P : Op → Prop} {p : Prog Ans α} (h : p.Issues P)
    (hP : ∀ g o, P o → M.allows g o) (g : γ) : p.Obeys M (fun _ _ => True) g := by
  induction p generalizing g with
  | pure a => trivial
  | op o k ih => exact ⟨hP g o h.1, fun r g' _ => ih r (h.2 r) g'⟩

/-- The rule for the operations of a program that runs alone: each is allowed in a ghost state
that is related to the state in which it is issued. -/
theorem Obeys.trace {σ : Type} {step : (o : Op) → σ → Option (Ans o × σ)} {I : γ → σ → Prop}
    {p : Prog Ans α} {g : γ} {s : σ} (h : p.Obeys M Q g) (hs : I g s)
    (hI : ∀ g s o r s', M.allows g o → I g s → step o s = some (r, s') →
      ∃ g', M.next g o r g' ∧ I g' s') :
    ∀ x ∈ p.trace step s, ∃ g', M.allows g' x.1 ∧ I g' x.2 := by
  induction p generalizing g s with
  | pure a => exact fun x hx => absurd hx List.not_mem_nil
  | op o k ih =>
      intro x hx
      cases hstep : step o s with
      | none =>
          rw [trace_op_none step hstep] at hx
          obtain rfl := List.mem_singleton.mp hx
          exact ⟨g, h.1, hs⟩
      | some w =>
          obtain ⟨r, s'⟩ := w
          rw [trace_op_some step hstep] at hx
          rcases List.mem_cons.mp hx with rfl | hx
          · exact ⟨g, h.1, hs⟩
          · obtain ⟨g', hnext, hs'⟩ := hI g s o r s' h.1 hs hstep
            exact ih r (h.2 r g' hnext) hs' x hx

/-- A program that obeys two monitors obeys them side by side. -/
theorem Obeys.both {δ : Type} {N : Monitor Ans δ} {R : δ → α → Prop} {p : Prog Ans α} {g : γ}
    {d : δ} (h : p.Obeys M Q g) (h' : p.Obeys N R d) :
    p.Obeys (M.both N) (fun x a => Q x.1 a ∧ R x.2 a) (g, d) := by
  induction p generalizing g d with
  | pure a => exact ⟨h, h'⟩
  | op o k ih =>
      exact ⟨⟨h.1, h'.1⟩, fun r x hx => ih r (h.2 r x.1 hx.1) (h'.2 r x.2 hx.2)⟩

/-! ### Rules for a computed ghost state -/

variable {allows : γ → Op → Prop} {after : γ → (o : Op) → Ans o → γ} {returns : γ → Prop}

/-- The rule for one operation. -/
theorem obeys_call {o : Op} {f : Ans o → Prog Ans β} {g : γ} (hallow : allows g o)
    (hf : ∀ r, (f r).Obeys (.computed allows after returns) S (after g o r)) :
    (call o >>= f).Obeys (.computed allows after returns) S g :=
  ⟨hallow, fun r g' hg' => by
    obtain rfl := hg'
    exact hf r⟩

/-- The rule for the last operation. -/
theorem obeys_last {o : Op} {Q : γ → Ans o → Prop} {g : γ} (hallow : allows g o)
    (hQ : ∀ r, Q (after g o r) r) :
    (call o : Prog Ans (Ans o)).Obeys (.computed allows after returns) Q g :=
  ⟨hallow, fun r g' hg' => by
    obtain rfl := hg'
    exact hQ r⟩

/-- The rule for a part whose ghost state at the end is known. -/
theorem obeys_part {p : Prog Ans α} {f : α → Prog Ans β} {g : γ} {G : α → γ}
    (hp : p.Obeys M (fun g' a => g' = G a) g) (hf : ∀ a, (f a).Obeys M S (G a)) :
    (p >>= f).Obeys M S g :=
  obeys_bind hp fun g' a hg' => by
    obtain rfl := hg'
    exact hf a

/-- The rule for operations that keep a property of the ghost state, and are allowed where it
holds. -/
theorem Issues.obeys_keep {P : Op → Prop} {I : γ → Prop} {p : Prog Ans α} {g : γ}
    (h : p.Issues P) (hg : I g) (hallow : ∀ g o, I g → P o → allows g o)
    (hafter : ∀ g o r, I g → P o → I (after g o r)) :
    p.Obeys (.computed allows after returns) (fun g' _ => I g') g := by
  induction p generalizing g with
  | pure a => exact hg
  | op o k ih =>
      refine ⟨hallow g o hg h.1, fun r g' hg' => ?_⟩
      obtain rfl := hg'
      exact ih r (h.2 r) (hafter g o r hg h.1)

/-- The rule for the operations of a program that obeys a monitor: they have the property `P` when
the monitor allows no other in the ghost states from here on. -/
theorem Obeys.issues {P : Op → Prop} {I : γ → Prop} {p : Prog Ans α} {g : γ}
    (h : p.Obeys (.computed allows after returns) Q g) (hg : I g)
    (hallow : ∀ g o, I g → allows g o → P o) (hafter : ∀ g o r, I g → I (after g o r)) :
    p.Issues P := by
  induction p generalizing g with
  | pure a => trivial
  | op o k ih => exact ⟨hallow g o hg h.1, fun r => ih r (h.2 r _ rfl) (hafter g o r hg)⟩

/-- Two monitors with the same ghost state are obeyed together. -/
theorem Obeys.and {allows' : γ → Op → Prop} {returns' : γ → Prop} {p : Prog Ans α} {g : γ}
    (h : p.Obeys (.computed allows after returns) Q g)
    (h' : p.Obeys (.computed allows' after returns') R g) :
    p.Obeys (.computed (fun g o => allows g o ∧ allows' g o) after returns)
      (fun g a => Q g a ∧ R g a) g := by
  induction p generalizing g with
  | pure a => exact ⟨h, h'⟩
  | op o k ih => exact ⟨⟨h.1, h'.1⟩, fun r g' hg' => ih r (h.2 r g' hg') (h'.2 r g' hg')⟩

/-- The part of a monitor. -/
theorem Obeys.weaken {allows' : γ → Op → Prop} {returns' : γ → Prop} {p : Prog Ans α} {g : γ}
    (h : p.Obeys (.computed allows after returns) Q g) (hallow : ∀ g o, allows g o → allows' g o) :
    p.Obeys (.computed allows' after returns') Q g := by
  induction p generalizing g with
  | pure a => exact h
  | op o k ih => exact ⟨hallow g o h.1, fun r g' hg' => ih r (h.2 r g' hg')⟩

end Obeys

end Prog

end Remi.Lib
