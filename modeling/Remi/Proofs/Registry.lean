import Remi.Lib.Threads
import Remi.Server.Registry

/-!
# `Remi.Proofs.Registry`: what `remi_provider_registered` finds

The table of a process has, under each provider id, the provider that has been constructed
last, unless one with this id has been destroyed since. The margo instance plays no part in it,
so what is found for an instance is right in exactly the cases of `registered_iff`.
-/

set_option autoImplicit false

namespace Remi

open Remi.Lib

/-! ### The table follows the changes -/

section Changes
variable (s : Process) (p : Ptr) (c : Construction) (providerId : UInt16)

theorem lastChange_register :
    (remiProviderRegister s p c.mid c.abtio c.providerId c.pool).lastChange providerId =
      if c.providerId = providerId then some (.constructed p c) else s.lastChange providerId := by
  show ((Change.constructed p c) :: s.history).find? (·.providerId = providerId) = _
  by_cases hid : c.providerId = providerId <;> simp [Process.lastChange, Change.providerId, hid]

/-- The process after the destruction of the provider `c` at `p`. -/
def Process.destroyed : Process :=
  { registry := Function.update s.registry c.providerId none
    object := Function.update s.object p none
    history := .destroyed p c :: s.history }

theorem lastChange_destroyed :
    (s.destroyed p c).lastChange providerId =
      if c.providerId = providerId then some (.destroyed p c) else s.lastChange providerId := by
  by_cases hid : c.providerId = providerId <;>
    simp [Process.lastChange, Process.destroyed, Change.providerId, hid]

end Changes

theorem lastChange_providerId {s : Process} {providerId : UInt16} {change : Change}
    (h : s.lastChange providerId = some change) : change.providerId = providerId := by
  have hfind := List.find?_some h
  exact of_decide_eq_true hfind

/-- The invariant of a process. -/
structure Process.Inv (s : Process) : Prop where
  table : ∀ providerId, s.registry providerId = (s.lastChange providerId).bind Change.entry
  alive : ∀ providerId p c, s.lastChange providerId = some (.constructed p c) →
    ∃ abtio, s.object p = some { c with abtio }
  known : ∀ p c, s.object p = some c → s.lastChange c.providerId ≠ none
  unique : ∀ p q c d, s.object p = some c → s.object q = some d → c.mid = d.mid →
    c.providerId = d.providerId → p = q

theorem inv_init : Process.init.Inv where
  table _ := rfl
  alive _ _ _ h := by cases h
  known _ _ h := by cases h
  unique _ _ _ _ h := by cases h

theorem inv_register {s : Process} (h : s.Inv) {p : Ptr} {c : Construction}
    (hallows : s.Allows (.register p c)) :
    (remiProviderRegister s p c.mid c.abtio c.providerId c.pool).Inv := by
  obtain ⟨hfree, hpair⟩ := hallows
  have hobject : ∀ q, (remiProviderRegister s p c.mid c.abtio c.providerId c.pool).object q =
      if q = p then some c else s.object q := fun q => Function.update_apply _ _ _ _
  constructor
  case table =>
    intro providerId
    rw [lastChange_register]
    show Function.update s.registry c.providerId (some p) providerId = _
    by_cases hid : c.providerId = providerId
    · subst hid
      simp [Change.entry]
    · rw [if_neg hid, Function.update_of_ne (Ne.symm hid)]
      exact h.table providerId
  case alive =>
    intro providerId q d hlast
    rw [lastChange_register] at hlast
    rw [hobject]
    split at hlast
    · obtain ⟨rfl, rfl⟩ := Change.constructed.inj (Option.some.inj hlast)
      exact ⟨c.abtio, by simp⟩
    · obtain ⟨abtio, hq⟩ := h.alive providerId q d hlast
      have hqp : q ≠ p := by
        rintro rfl
        rw [hfree] at hq
        cases hq
      exact ⟨abtio, by rw [if_neg hqp, hq]⟩
  case known =>
    intro q d hq
    rw [lastChange_register]
    split
    · simp
    · rename_i hid
      rw [hobject] at hq
      split at hq
      · exact absurd (congrArg Construction.providerId (Option.some.inj hq)) hid
      · exact h.known q d hq
  case unique =>
    -- One of the two is the new provider, or none: `hpair` excludes an older one with its id.
    intro q r d e hq hr hmid hid
    rw [hobject] at hq hr
    split at hq <;> split at hr
    · rename_i hqp hrp
      rw [hqp, hrp]
    · obtain rfl := Option.some.inj hq
      exact absurd ⟨hr, hmid.symm, hid.symm⟩ (hpair r e)
    · obtain rfl := Option.some.inj hr
      exact absurd ⟨hq, hmid, hid⟩ (hpair q d)
    · exact h.unique q r d e hq hr hmid hid

theorem inv_destroyed {s : Process} (h : s.Inv) {p : Ptr} {c : Construction}
    (hp : s.object p = some c) : (s.destroyed p c).Inv := by
  have hobject : ∀ q, (s.destroyed p c).object q = if q = p then none else s.object q :=
    fun q => Function.update_apply _ _ _ _
  constructor
  case table =>
    intro providerId
    rw [lastChange_destroyed]
    show Function.update s.registry c.providerId none providerId = _
    by_cases hid : c.providerId = providerId
    · subst hid
      simp [Change.entry]
    · rw [if_neg hid, Function.update_of_ne (Ne.symm hid)]
      exact h.table providerId
  case alive =>
    intro providerId q d hlast
    rw [lastChange_destroyed] at hlast
    split at hlast
    · cases hlast
    · rename_i hid
      obtain ⟨abtio, hq⟩ := h.alive providerId q d hlast
      -- The provider at `q` has another id, so it is not the one that is destroyed.
      have hqid : d.providerId = providerId := lastChange_providerId hlast
      have hqp : q ≠ p := by
        rintro rfl
        rw [hp] at hq
        exact hid ((congrArg Construction.providerId (Option.some.inj hq)).trans hqid)
      exact ⟨abtio, by rw [hobject, if_neg hqp, hq]⟩
  case known =>
    intro q d hq
    rw [lastChange_destroyed]
    split
    · simp
    · rw [hobject] at hq
      split at hq
      · cases hq
      · exact h.known q d hq
  case unique =>
    intro q r d e hq hr hmid hid
    rw [hobject] at hq hr
    split at hq
    · cases hq
    · split at hr
      · cases hr
      · exact h.unique q r d e hq hr hmid hid

theorem inv_setAbtio {s : Process} (h : s.Inv) {p : Ptr} {c : Construction} (abtio : Option Nat)
    (hp : s.object p = some c) :
    Process.Inv { s with object := Function.update s.object p (some { c with abtio }) } := by
  -- Every object keeps all but its ABT-IO instance.
  have hobject : ∀ q d, Function.update s.object p (some { c with abtio }) q = some d →
      ∃ d', s.object q = some d' ∧ d'.mid = d.mid ∧ d'.providerId = d.providerId := by
    intro q d hq
    rw [Function.update_apply] at hq
    split at hq
    · rename_i hqp
      obtain rfl := Option.some.inj hq
      exact ⟨c, by rw [hqp, hp], rfl, rfl⟩
    · exact ⟨d, hq, rfl, rfl⟩
  constructor
  case table => exact h.table
  case alive =>
    intro providerId q d hlast
    obtain ⟨abtio', hq⟩ := h.alive providerId q d hlast
    show ∃ abtio', Function.update s.object p (some { c with abtio }) q =
      some { d with abtio := abtio' }
    by_cases hqp : q = p
    · subst hqp
      obtain rfl := Option.some.inj (hp.symm.trans hq)
      exact ⟨abtio, by simp⟩
    · exact ⟨abtio', by rw [Function.update_of_ne hqp, hq]⟩
  case known =>
    intro q d hq
    obtain ⟨d', hd', -, hid⟩ := hobject q d hq
    rw [← hid]
    exact h.known q d' hd'
  case unique =>
    intro q r d e hq hr hmid hid
    obtain ⟨d', hd', hdmid, hdid⟩ := hobject q d hq
    obtain ⟨e', he', hemid, heid⟩ := hobject r e hr
    exact h.unique q r d' e' hd' he' (by rw [hdmid, hemid, hmid]) (by rw [hdid, heid, hid])

theorem inv_next {s s' : Process} {call : ProcessCall} (h : s.Inv) (hallows : s.Allows call)
    (hnext : s.next call = some s') : s'.Inv := by
  cases call with
  | register p c =>
      obtain rfl := Option.some.inj hnext
      exact inv_register h hallows
  | destroy p =>
      obtain ⟨c, hp, rfl⟩ := Option.map_eq_some_iff.mp hnext
      exact inv_destroyed h hp
  | setAbtIoInstance p abtio =>
      obtain ⟨c, hp, rfl⟩ := Option.map_eq_some_iff.mp hnext
      exact inv_setAbtio h abtio hp

/-! ### What is found -/

/-- What is found for `mid` and `providerId` reflects the live providers: the one that is live
for them with its ABT-IO instance and its pool, and nothing when there is none. -/
structure Process.Reflects (s : Process) (mid : Nat) (providerId : UInt16)
    (found : Option OutArgs) : Prop where
  live : ∀ p c, s.Live mid providerId p c → found = some ⟨1, c.abtio, c.pool, some p⟩
  absent : (∀ p c, ¬ s.Live mid providerId p c) →
    ∃ out, found = some out ∧ out.flag = 0 ∧ out.provider = none

/-- The last change of a provider with this id has been one on the margo instance `mid`, or has
left no provider there. -/
def Process.Settled (s : Process) (mid : Nat) (providerId : UInt16) : Prop :=
  match s.lastChange providerId with
  | none => True
  | some (.constructed _ c) => c.mid = mid
  | some (.destroyed _ _) => ∀ p c, ¬ s.Live mid providerId p c

/-- In every process that registrations and destructions lead to, what is found is right
exactly when the last registration or destruction of a provider with this id, on whatever
instance, was a registration on `mid`, or has left none with this id on `mid`, and the memory
that `m_pool` refers to happens to contain the pool. -/
theorem registered_iff {calls : List ProcessCall} {s : Process}
    (hrun : Run Process.next Process.Allows .init calls s) (memory : Option Nat) (mid : Nat)
    (providerId : UInt16) (out : OutArgs) :
    s.Reflects mid providerId
        (remiProviderRegistered s memory mid providerId true true true out) ↔
      s.Settled mid providerId ∧ ∀ p c, s.Live mid providerId p c → c.pool = memory := by
  have h : s.Inv := hrun.invariant inv_init fun _ _ _ => inv_next
  have htable := h.table providerId
  unfold Process.Settled
  cases hlast : s.lastChange providerId with
  -- No provider has had this id: nothing is found and nothing is live.
  | none =>
      have hnone : ∀ p c, ¬ s.Live mid providerId p c := by
        rintro p c ⟨hp, -, hid⟩
        exact h.known p c hp (hid ▸ hlast)
      rw [hlast] at htable
      have hfound : remiProviderRegistered s memory mid providerId true true true out =
          some ⟨0, out.abtio, none, none⟩ := by simp [remiProviderRegistered, htable]
      rw [hfound]
      exact iff_of_true ⟨fun p c hp => absurd hp (hnone p c), fun _ => ⟨_, rfl, rfl, rfl⟩⟩
        ⟨trivial, fun p c hp => absurd hp (hnone p c)⟩
  | some change =>
      rw [hlast] at htable
      cases change with
      | constructed p c =>
          obtain ⟨abtio, hp⟩ := h.alive providerId p c hlast
          have hid : c.providerId = providerId := lastChange_providerId hlast
          have hfound : remiProviderRegistered s memory mid providerId true true true out =
              some ⟨1, abtio, memory, some p⟩ := by
            simp [remiProviderRegistered, htable, Change.entry, hp]
          rw [hfound]
          by_cases hmid : c.mid = mid
          · -- The provider that is found is the live one.
            have hlive : s.Live mid providerId p { c with abtio } := ⟨hp, hmid, hid⟩
            have hsame : ∀ q d, s.Live mid providerId q d → q = p ∧ d = { c with abtio } := by
              rintro q d ⟨hq, hdmid, hdid⟩
              obtain rfl := h.unique q p d _ hq hp (hdmid.trans hmid.symm) (hdid.trans hid.symm)
              exact ⟨rfl, Option.some.inj (hq.symm.trans hp)⟩
            constructor
            · intro hreflects
              refine ⟨hmid, fun q d hq => ?_⟩
              obtain ⟨rfl, rfl⟩ := hsame q d hq
              have hout := Option.some.inj (hreflects.live q _ hq)
              exact (OutArgs.mk.inj hout).2.2.1.symm
            · rintro ⟨-, hpool⟩
              refine ⟨fun q d hq => ?_, fun hnone => absurd hlive (hnone _ _)⟩
              rw [← hpool q d hq]
              obtain ⟨rfl, rfl⟩ := hsame q d hq
              rfl
          · -- The provider that is found is on another instance.
            refine iff_of_false (fun hreflects => ?_) (fun hsettled => hmid hsettled.1)
            by_cases hlive : ∃ q d, s.Live mid providerId q d
            · obtain ⟨q, d, hq⟩ := hlive
              have hout := OutArgs.mk.inj (Option.some.inj (hreflects.live q d hq))
              obtain rfl := Option.some.inj hout.2.2.2
              rw [hq.1] at hp
              exact hmid ((congrArg Construction.mid (Option.some.inj hp)).symm.trans hq.2.1)
            · obtain ⟨o, ho, hflag, -⟩ := hreflects.absent fun q d hq => hlive ⟨q, d, hq⟩
              rw [← Option.some.inj ho] at hflag
              exact absurd hflag Int.one_ne_zero
      -- A destruction clears the table for the id on every instance.
      | destroyed p c =>
          have hfound : remiProviderRegistered s memory mid providerId true true true out =
              some ⟨0, out.abtio, none, none⟩ := by
            simp [remiProviderRegistered, htable, Change.entry]
          rw [hfound]
          constructor
          · intro hreflects
            have hnone : ∀ q d, ¬ s.Live mid providerId q d := by
              intro q d hq
              have hout := OutArgs.mk.inj (Option.some.inj (hreflects.live q d hq))
              exact absurd hout.1 (by decide)
            exact ⟨hnone, fun q d hq => absurd hq (hnone q d)⟩
          · rintro ⟨hnone, -⟩
            exact ⟨fun q d hq => absurd hq (hnone q d), fun _ => ⟨_, rfl, rfl, rfl⟩⟩

/-- A provider with the id 1 on the margo instance 0. -/
private def firstProvider : Construction := ⟨0, 1, none, some 9⟩

/-- The lookup of a provider that is alone, when `m_pool` still reads as its pool. -/
theorem registered_firstProvider : ∃ s,
    Run Process.next Process.Allows .init [.register 100 firstProvider] s ∧
      s.Reflects 0 1
        (remiProviderRegistered s (some 9) 0 1 true true true ⟨0, none, none, none⟩) := by
  have hrun : Run Process.next Process.Allows .init [.register 100 firstProvider]
      (remiProviderRegister .init 100 0 none 1 (some 9)) :=
    .snoc .nil ⟨rfl, fun _ _ h => by cases h.1⟩ rfl
  refine ⟨_, hrun, (registered_iff hrun (some 9) 0 1 _).mpr ⟨rfl, fun p c hlive => ?_⟩⟩
  by_cases hp : p = 100
  · subst hp
    obtain rfl := Option.some.inj hlive.1
    rfl
  · have hnone : (remiProviderRegister .init 100 0 none 1 (some 9)).object p = none :=
      Function.update_of_ne hp _ _
    rw [hlive.1] at hnone
    cases hnone

/-- The provider on the margo instance 0 is found for the instance 1, where there is none. -/
theorem not_reflects_other_instance : ∃ s,
    Run Process.next Process.Allows .init [.register 100 firstProvider] s ∧
      remiProviderRegistered s (some 9) 1 1 true true true ⟨0, none, none, none⟩ =
        some ⟨1, none, some 9, some 100⟩ ∧
      ¬ s.Reflects 1 1
        (remiProviderRegistered s (some 9) 1 1 true true true ⟨0, none, none, none⟩) := by
  have hrun : Run Process.next Process.Allows .init [.register 100 firstProvider]
      (remiProviderRegister .init 100 0 none 1 (some 9)) :=
    .snoc .nil ⟨rfl, fun _ _ h => by cases h.1⟩ rfl
  refine ⟨_, hrun, rfl, fun h => ?_⟩
  have hnone : ∀ p c, ¬ (remiProviderRegister .init 100 0 none 1 (some 9)).Live 1 1 p c := by
    rintro p c ⟨hp, hmid, -⟩
    by_cases hp100 : p = 100
    · subst hp100
      obtain rfl := Option.some.inj hp
      exact absurd hmid (by decide)
    · have hfree : (remiProviderRegister .init 100 0 none 1 (some 9)).object p = none :=
        Function.update_of_ne hp100 _ _
      rw [hp] at hfree
      cases hfree
  obtain ⟨out, hout, hflag, -⟩ := h.absent hnone
  rw [← Option.some.inj hout] at hflag
  exact absurd hflag Int.one_ne_zero

end Remi
