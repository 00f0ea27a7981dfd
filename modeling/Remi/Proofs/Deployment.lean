import Remi.Proofs.Uargs
import Remi.Server.Deployment

/-!
# `Remi.Proofs.Deployment`: every provider comes to exactly one end

A provider is deleted by `remi_provider_destroy` or by the finalization of its margo instance.
`Deployment.Inv` ties the three places that know the providers together: the objects, the finalize
callbacks and the table of the process. While an instance is being finalized, some providers are
waiting for their callback, which is off the stack already. `Inv` lists them.

`inv_onFinalize` takes one provider off this list, and `inv_next` is the step lemma. The
results are `deployment_sound` for all runs, and `finalized_instance` for the end of an instance.
-/

set_option autoImplicit false

namespace Remi

open Remi.Lib

/-! ### The invariant -/

/-- What `remi_on_finalize` and the deregistrations before it have freed is what the accepted
registrations owe. -/
def FreedOnce (d : Hosted × List FreeCall) : Prop := (d.1.freed ++ d.2).Perm d.1.owed

/-- The providers in `waiting` exist, and their callbacks are about to be called. -/
structure Deployment.Inv (s : Deployment) (waiting : List Ptr) : Prop where
  hosted : ∀ p, s.hosted p = none ↔ s.process.object p = none
  exist : ∀ p ∈ waiting, s.process.object p ≠ none
  mem : ∀ mid, ∀ p ∈ s.callbacks mid,
    p ∉ waiting ∧ ∃ c, s.process.object p = some c ∧ c.mid = mid
  cover : ∀ p c, s.process.object p = some c → p ∈ waiting ∨ p ∈ s.callbacks c.mid
  nodup : waiting.Nodup ∧ ∀ mid, (s.callbacks mid).Nodup
  table : ∀ providerId p, s.process.registry providerId = some p →
    ∃ c, s.process.object p = some c ∧ c.providerId = providerId
  count : ∀ p, s.process.constructions p =
    s.process.deletions p + if s.process.object p = none then 0 else 1
  kept : ∀ p h, s.hosted p = some h → Kept h
  freed : ∀ d ∈ s.finalized, FreedOnce d

theorem kept_init (fs : Fs) : Kept (.init fs) :=
  ⟨fun _ => Or.inl rfl, balanced_empty _, explained_nil⟩

theorem Kept.inFs {h : Hosted} (hk : Kept h) (fs : Fs) : Kept (h.inFs fs) :=
  ⟨hk.table, hk.balanced, hk.respects⟩

/-- With the classes that are left at its end, a provider has freed what it owes. -/
theorem Kept.freedOnce {h : Hosted} (hk : Kept h) {keys : List ClassKey}
    (hkeys : Visits keys h.site.provider.classes) :
    FreedOnce (h, remiOnFinalize keys h.site.provider) := by
  have hfinal : remiOnFinalize keys h.site.provider =
      held MigrationClass.freeCall keys (registered h.events) :=
    held_congr fun key _ => hk.table.owns_eq key
  show (h.freed ++ remiOnFinalize keys h.site.provider).Perm h.owed
  rw [hfinal]
  refine hk.balanced keys ⟨hkeys.nodup, fun key hkey => hkeys.all key ?_⟩
  rcases hk.table key with hsame | ⟨hnone, -⟩
  · rwa [hsame]
  · exact absurd hnone hkey

namespace Deployment
variable {s : Deployment} {waiting : List Ptr}

theorem inv_init (fs : Fs) : (init fs).Inv [] where
  hosted p := ⟨fun _ => rfl, fun _ => rfl⟩
  exist p hp := by cases hp
  mem mid p hp := by cases hp
  cover p c hp := by cases hp
  nodup := ⟨List.nodup_nil, fun _ => List.nodup_nil⟩
  table providerId p h := by cases h
  count p := rfl
  kept p h hh := by cases hh
  freed d hd := by cases hd

/-- Every provider that exists is hosted. -/
theorem Inv.exists_hosted (hs : s.Inv waiting) {p : Ptr} (hp : s.process.object p ≠ none) :
    ∃ h c, s.hosted p = some h ∧ s.process.object p = some c := by
  obtain ⟨c, hc⟩ := Option.ne_none_iff_exists'.mp hp
  obtain ⟨h, hh⟩ := Option.ne_none_iff_exists'.mp fun hnone => hp ((hs.hosted p).mp hnone)
  exact ⟨h, c, hh, hc⟩

/-! ### One provider comes to its end -/

/-- The state after `remi_on_finalize`. -/
def deleted (s : Deployment) (p : Ptr) (keys : List ClassKey) (h : Hosted) (c : Construction) :
    Deployment :=
  { s with
    process :=
      { registry := Function.update s.process.registry c.providerId none
        object := Function.update s.process.object p none
        history := .destroyed p c :: s.process.history }
    hosted := Function.update s.hosted p none
    finalized := (h, remiOnFinalize keys h.site.provider) :: s.finalized }

theorem onFinalize_eq {p : Ptr} {keys : List ClassKey} {h : Hosted} {c : Construction}
    (hh : s.hosted p = some h) (hc : s.process.object p = some c) :
    s.onFinalize p keys = some (s.deleted p keys h c) := by
  simp [onFinalize, remiProviderDestroy, hh, hc, deleted]

/-- The provider whose callback is called is deleted. -/
theorem inv_onFinalize {p : Ptr} {ps : List Ptr} {keys : List ClassKey} {h : Hosted}
    {c : Construction} (hs : s.Inv (p :: ps)) (hh : s.hosted p = some h)
    (hc : s.process.object p = some c) (hkeys : Visits keys h.site.provider.classes) :
    (s.deleted p keys h c).Inv ps := by
  have hobject : ∀ q, (s.deleted p keys h c).process.object q =
      if q = p then none else s.process.object q := fun q => Function.update_apply _ _ _ _
  have hnotmem : p ∉ ps := (List.nodup_cons.mp hs.nodup.1).1
  constructor
  case hosted =>
    intro q
    rw [hobject]
    show Function.update s.hosted p none q = none ↔ _
    by_cases hq : q = p
    · subst hq
      simp
    · rw [Function.update_of_ne hq, if_neg hq]
      exact hs.hosted q
  case exist =>
    intro q hq
    have hne : q ≠ p := by
      rintro rfl
      exact hnotmem hq
    rw [hobject, if_neg hne]
    exact hs.exist q (List.mem_cons_of_mem p hq)
  case mem =>
    intro mid q hq
    obtain ⟨hwait, d, hd, hmid⟩ := hs.mem mid q hq
    obtain ⟨hne, hps⟩ := not_or.mp (mt List.mem_cons.mpr hwait)
    exact ⟨hps, d, by rw [hobject, if_neg hne, hd], hmid⟩
  case cover =>
    intro q d hq
    rw [hobject] at hq
    split at hq
    · cases hq
    · rename_i hne
      rcases hs.cover q d hq with hwait | hmem
      · exact Or.inl ((List.mem_cons.mp hwait).resolve_left hne)
      · exact Or.inr hmem
  case nodup => exact ⟨(List.nodup_cons.mp hs.nodup.1).2, hs.nodup.2⟩
  case table =>
    intro providerId q hq
    have hq' : Function.update s.process.registry c.providerId none providerId = some q := hq
    by_cases hid : providerId = c.providerId
    · subst hid
      simp at hq'
    · rw [Function.update_of_ne hid] at hq'
      obtain ⟨d, hd, hdid⟩ := hs.table providerId q hq'
      -- The provider `p` is under no other id than its own.
      have hne : q ≠ p := by
        rintro rfl
        rw [hc] at hd
        cases hd
        exact hid hdid.symm
      exact ⟨d, by rw [hobject, if_neg hne, hd], hdid⟩
  case count =>
    intro q
    have hcount := hs.count q
    have hcons : (s.deleted p keys h c).process.constructions q = s.process.constructions q := by
      simp [Process.constructions, deleted]
    have hdel : (s.deleted p keys h c).process.deletions q =
        s.process.deletions q + if p = q then 1 else 0 := by
      simp [Process.deletions, deleted, List.countP_cons]
    rw [hcons, hdel, hobject, hcount]
    by_cases hq : q = p
    · subst hq
      simp [hc]
    · simp [hq, Ne.symm hq]
  case kept =>
    intro q h' hq
    have hq' : Function.update s.hosted p none q = some h' := hq
    by_cases hne : q = p
    · subst hne
      simp at hq'
    · rw [Function.update_of_ne hne] at hq'
      exact hs.kept q h' hq'
  case freed =>
    intro d hd
    rcases List.mem_cons.mp hd with rfl | hd
    · exact (hs.kept p h hh).freedOnce hkeys
    · exact hs.freed d hd

/-- All the waiting providers are deleted, and no other one. -/
theorem inv_finalizeAll (keys : Ptr → List ClassKey) :
    ∀ (ps : List Ptr) (s : Deployment), s.Inv ps → (∀ p ∈ ps, s.Visited p (keys p)) →
      ∃ s', finalizeAll keys ps s = some s' ∧ s'.Inv [] ∧ s'.callbacks = s.callbacks ∧
        (∀ p, s'.process.object p = if p ∈ ps then none else s.process.object p) ∧
        s'.finalized.length = s.finalized.length + ps.length := by
  intro ps
  induction ps with
  | nil =>
      intro s hs _
      exact ⟨s, rfl, hs, rfl, fun p => by simp, rfl⟩
  | cons p ps ih =>
      intro s hs hkeys
      obtain ⟨h, c, hh, hc⟩ := hs.exists_hosted (hs.exist p List.mem_cons_self)
      have hinv := inv_onFinalize hs hh hc (hkeys p List.mem_cons_self h hh)
      have hvisited : ∀ q ∈ ps, (s.deleted p (keys p) h c).Visited q (keys q) := by
        intro q hq h' hh'
        have hne : q ≠ p := by
          rintro rfl
          exact (List.nodup_cons.mp hs.nodup.1).1 hq
        refine hkeys q (List.mem_cons_of_mem p hq) h' ?_
        have hh'' : Function.update s.hosted p none q = some h' := hh'
        rwa [Function.update_of_ne hne] at hh''
      obtain ⟨s', hfin, hinv', hcall, hother, hlen⟩ := ih _ hinv hvisited
      refine ⟨s', ?_, hinv', hcall, fun q => ?_, ?_⟩
      · rw [finalizeAll, List.foldlM_cons, onFinalize_eq hh hc]
        exact hfin
      · have hobject : (s.deleted p (keys p) h c).process.object q =
            if q = p then none else s.process.object q := Function.update_apply _ _ _ _
        rw [hother q, hobject]
        by_cases hps : q ∈ ps <;> by_cases hne : q = p <;> simp [hps, hne]
      · rw [hlen]
        simp only [deleted, List.length_cons]
        omega

/-! ### One call -/

theorem inv_register (hs : s.Inv []) {p : Ptr} (c : Construction)
    (hp : s.process.object p = none) : ∃ s', s.next (.register p c) = some s' ∧ s'.Inv [] := by
  refine ⟨_, rfl, ?_⟩
  have hnew : ∀ q d, s.process.object q = some d → q ≠ p := by
    rintro q d hq rfl
    rw [hp] at hq
    cases hq
  constructor
  case hosted =>
    intro q
    show Function.update s.hosted p _ q = none ↔ Function.update s.process.object p _ q = none
    by_cases hq : q = p
    · subst hq
      simp
    · rw [Function.update_of_ne hq, Function.update_of_ne hq]
      exact hs.hosted q
  case exist =>
    intro q hq
    cases hq
  case mem =>
    intro mid q hq
    refine ⟨by simp, ?_⟩
    have hq' : q ∈ Function.update s.callbacks c.mid (p :: s.callbacks c.mid) mid := hq
    show ∃ d, Function.update s.process.object p (some c) q = some d ∧ d.mid = mid
    have hold : q ∈ s.callbacks mid →
        ∃ d, Function.update s.process.object p (some c) q = some d ∧ d.mid = mid := by
      intro hmem
      obtain ⟨-, d, hd, hmid⟩ := hs.mem mid q hmem
      exact ⟨d, by rw [Function.update_of_ne (hnew q d hd), hd], hmid⟩
    by_cases hmid : mid = c.mid
    · subst hmid
      rw [Function.update_self] at hq'
      rcases List.mem_cons.mp hq' with rfl | hmem
      · exact ⟨c, Function.update_self q _ s.process.object, rfl⟩
      · exact hold hmem
    · rw [Function.update_of_ne hmid] at hq'
      exact hold hq'
  case cover =>
    intro q d hq
    refine Or.inr ?_
    have hq' : Function.update s.process.object p (some c) q = some d := hq
    show q ∈ Function.update s.callbacks c.mid (p :: s.callbacks c.mid) d.mid
    by_cases hqp : q = p
    · subst hqp
      rw [Function.update_self] at hq'
      obtain rfl := Option.some.inj hq'
      rw [Function.update_self]
      exact List.mem_cons_self
    · rw [Function.update_of_ne hqp] at hq'
      have hmem := (hs.cover q d hq').resolve_left (by simp)
      rw [Function.update_apply]
      split
      · rename_i hmid
        exact List.mem_cons_of_mem p (hmid ▸ hmem)
      · exact hmem
  case nodup =>
    refine ⟨List.nodup_nil, fun mid => ?_⟩
    show (Function.update s.callbacks c.mid (p :: s.callbacks c.mid) mid).Nodup
    rw [Function.update_apply]
    split
    · refine List.nodup_cons.mpr ⟨fun hmem => ?_, hs.nodup.2 c.mid⟩
      obtain ⟨-, d, hd, -⟩ := hs.mem c.mid p hmem
      exact hnew p d hd rfl
    · exact hs.nodup.2 mid
  case table =>
    intro providerId q hq
    have hq' : Function.update s.process.registry c.providerId (some p) providerId = some q := hq
    show ∃ d, Function.update s.process.object p (some c) q = some d ∧ d.providerId = providerId
    by_cases hid : providerId = c.providerId
    · subst hid
      rw [Function.update_self] at hq'
      obtain rfl := Option.some.inj hq'
      exact ⟨c, Function.update_self p _ s.process.object, rfl⟩
    · rw [Function.update_of_ne hid] at hq'
      obtain ⟨d, hd, hdid⟩ := hs.table providerId q hq'
      exact ⟨d, by rw [Function.update_of_ne (hnew q d hd), hd], hdid⟩
  case count =>
    intro q
    have hcount := hs.count q
    show List.countP _ (Change.constructed p c :: s.process.history) =
      List.countP _ (Change.constructed p c :: s.process.history) +
        if Function.update s.process.object p (some c) q = none then 0 else 1
    rw [List.countP_cons, List.countP_cons]
    by_cases hq : q = p
    · subst hq
      simp only [hp, Function.update_self] at hcount ⊢
      simpa [Process.constructions, Process.deletions] using hcount
    · rw [Function.update_of_ne hq]
      simpa [Ne.symm hq, Process.constructions, Process.deletions] using hcount
  case kept =>
    intro q h hq
    have hq' : Function.update s.hosted p (some (.init s.fs)) q = some h := hq
    by_cases hqp : q = p
    · subst hqp
      rw [Function.update_self] at hq'
      obtain rfl := Option.some.inj hq'
      exact kept_init s.fs
    · rw [Function.update_of_ne hqp] at hq'
      exact hs.kept q h hq'
  case freed => exact hs.freed

/-- A provider whose callback has been popped waits for its end. -/
theorem inv_pop (hs : s.Inv []) {p : Ptr} {c : Construction} (hc : s.process.object p = some c) :
    (s.popFinalizeCallback c.mid p).Inv [p] := by
  have hcall : ∀ mid q, q ∈ (s.popFinalizeCallback c.mid p).callbacks mid ↔
      q ≠ p ∧ q ∈ s.callbacks mid := by
    intro mid q
    show q ∈ Function.update s.callbacks c.mid ((s.callbacks c.mid).erase p) mid ↔ _
    by_cases hmid : mid = c.mid
    · subst hmid
      rw [Function.update_self]
      exact (hs.nodup.2 c.mid).mem_erase_iff
    · rw [Function.update_of_ne hmid]
      refine ⟨fun hq => ⟨?_, hq⟩, fun hq => hq.2⟩
      rintro rfl
      obtain ⟨-, d, hd, hdmid⟩ := hs.mem mid q hq
      rw [hc] at hd
      cases hd
      exact hmid hdmid.symm
  constructor
  case hosted => exact hs.hosted
  case exist =>
    intro q hq
    obtain rfl := List.mem_singleton.mp hq
    show s.process.object q ≠ none
    rw [hc]
    exact Option.some_ne_none c
  case mem =>
    intro mid q hq
    obtain ⟨hne, hmem⟩ := (hcall mid q).mp hq
    exact ⟨fun hp => hne (List.mem_singleton.mp hp), (hs.mem mid q hmem).2⟩
  case cover =>
    intro q d hq
    by_cases hqp : q = p
    · exact Or.inl (List.mem_singleton.mpr hqp)
    · exact Or.inr ((hcall d.mid q).mpr ⟨hqp, (hs.cover q d hq).resolve_left (by simp)⟩)
  case nodup =>
    refine ⟨List.nodup_singleton p, fun mid => ?_⟩
    show (Function.update s.callbacks c.mid ((s.callbacks c.mid).erase p) mid).Nodup
    rw [Function.update_apply]
    split
    · exact (hs.nodup.2 c.mid).erase p
    · exact hs.nodup.2 mid
  case table => exact hs.table
  case count => exact hs.count
  case kept => exact hs.kept
  case freed => exact hs.freed

/-- The callbacks of an instance that is finalized are taken off its stack, to be called. -/
theorem inv_popAll (hs : s.Inv []) (mid : Nat) :
    Deployment.Inv { s with callbacks := Function.update s.callbacks mid [] }
      (s.callbacks mid) := by
  constructor
  case hosted => exact hs.hosted
  case exist =>
    intro p hp
    obtain ⟨-, c, hc, -⟩ := hs.mem mid p hp
    show s.process.object p ≠ none
    rw [hc]
    exact Option.some_ne_none c
  case mem =>
    intro mid' p hp
    have hp' : p ∈ Function.update s.callbacks mid [] mid' := hp
    by_cases hmid : mid' = mid
    · subst hmid
      rw [Function.update_self] at hp'
      cases hp'
    · rw [Function.update_of_ne hmid] at hp'
      obtain ⟨-, c, hc, hcmid⟩ := hs.mem mid' p hp'
      refine ⟨fun hwait => ?_, c, hc, hcmid⟩
      -- A provider has one margo instance.
      obtain ⟨-, d, hd, hdmid⟩ := hs.mem mid p hwait
      rw [hc] at hd
      cases hd
      exact hmid (hcmid.symm.trans hdmid)
  case cover =>
    intro p c hp
    have hmem := (hs.cover p c hp).resolve_left (by simp)
    show p ∈ s.callbacks mid ∨ p ∈ Function.update s.callbacks mid [] c.mid
    by_cases hmid : c.mid = mid
    · exact Or.inl (hmid ▸ hmem)
    · rw [Function.update_of_ne hmid]
      exact Or.inr hmem
  case nodup =>
    refine ⟨hs.nodup.2 mid, fun mid' => ?_⟩
    show (Function.update s.callbacks mid [] mid').Nodup
    rw [Function.update_apply]
    split
    · exact List.nodup_nil
    · exact hs.nodup.2 mid'
  case table => exact hs.table
  case count => exact hs.count
  case kept => exact hs.kept
  case freed => exact hs.freed

/-- The ABT-IO instance of a provider is changed. -/
theorem inv_setAbtIoInstance (hs : s.Inv []) {p : Ptr} {c : Construction}
    (hc : s.process.object p = some c) (abtio : Option Nat) :
    Deployment.Inv { s with
      process := { s.process with
        object := Function.update s.process.object p (some { c with abtio }) } } [] := by
  -- Every object keeps its margo instance and its provider id.
  have hkeep : ∀ q d, s.process.object q = some d →
      ∃ d', Function.update s.process.object p (some { c with abtio }) q = some d' ∧
        d'.mid = d.mid ∧ d'.providerId = d.providerId := by
    intro q d hd
    by_cases hq : q = p
    · subst hq
      rw [hc] at hd
      cases hd
      exact ⟨_, Function.update_self q _ s.process.object, rfl, rfl⟩
    · exact ⟨d, by rw [Function.update_of_ne hq, hd], rfl, rfl⟩
  have hnone : ∀ q, Function.update s.process.object p (some { c with abtio }) q = none ↔
      s.process.object q = none := by
    intro q
    by_cases hq : q = p
    · subst hq
      simp [hc]
    · rw [Function.update_of_ne hq]
  constructor
  case hosted =>
    intro q
    exact (hs.hosted q).trans (hnone q).symm
  case exist =>
    intro q hq
    cases hq
  case mem =>
    intro mid q hq
    obtain ⟨hwait, d, hd, hmid⟩ := hs.mem mid q hq
    obtain ⟨d', hd', hmid', -⟩ := hkeep q d hd
    exact ⟨hwait, d', hd', hmid'.trans hmid⟩
  case cover =>
    intro q d' hq
    have hq' : Function.update s.process.object p (some { c with abtio }) q = some d' := hq
    have hexists : s.process.object q ≠ none := by
      intro hd
      rw [(hnone q).mpr hd] at hq'
      cases hq'
    obtain ⟨d, hd⟩ := Option.ne_none_iff_exists'.mp hexists
    obtain ⟨d'', hd'', hmid, -⟩ := hkeep q d hd
    rw [hq'] at hd''
    cases hd''
    rw [hmid]
    exact hs.cover q d hd
  case nodup => exact hs.nodup
  case table =>
    intro providerId q hq
    obtain ⟨d, hd, hid⟩ := hs.table providerId q hq
    obtain ⟨d', hd', -, hid'⟩ := hkeep q d hd
    exact ⟨d', hd', hid'.trans hid⟩
  case count =>
    intro q
    have hcount := hs.count q
    rw [if_congr (hnone q).symm rfl rfl] at hcount
    exact hcount
  case kept => exact hs.kept
  case freed => exact hs.freed

/-- A provider takes a step. -/
theorem inv_hosted (hs : s.Inv []) {p : Ptr} {h : Hosted} (hh : s.hosted p = some h)
    {h' : Hosted} (hk : Kept h') (fs : Fs) :
    Deployment.Inv { s with hosted := Function.update s.hosted p (some h'), fs } [] := by
  constructor
  case hosted =>
    intro q
    show Function.update s.hosted p (some h') q = none ↔ _
    by_cases hq : q = p
    · subst hq
      have hiff := hs.hosted q
      rw [hh] at hiff
      rw [Function.update_self]
      refine ⟨fun he => ?_, fun he => absurd (hiff.mpr he) (Option.some_ne_none h)⟩
      cases he
    · rw [Function.update_of_ne hq]
      exact hs.hosted q
  case kept =>
    intro q h'' hq
    have hq' : Function.update s.hosted p (some h') q = some h'' := hq
    by_cases hqp : q = p
    · subst hqp
      rw [Function.update_self] at hq'
      cases hq'
      exact hk
    · rw [Function.update_of_ne hqp] at hq'
      exact hs.kept q h'' hq'
  case exist => exact hs.exist
  case mem => exact hs.mem
  case cover => exact hs.cover
  case nodup => exact hs.nodup
  case table => exact hs.table
  case count => exact hs.count
  case freed => exact hs.freed

/-- A margo instance is finalized: its providers are deleted, and no other one. -/
theorem inv_margoFinalize (hs : s.Inv []) {mid : Nat} {keys : Ptr → List ClassKey}
    (hkeys : ∀ p ∈ s.callbacks mid, s.Visited p (keys p)) :
    ∃ s', s.next (.margoFinalize mid keys) = some s' ∧ s'.Inv [] ∧
      (∀ p, s'.process.object p = if p ∈ s.callbacks mid then none else s.process.object p) ∧
      s'.finalized.length = s.finalized.length + (s.callbacks mid).length := by
  obtain ⟨s', hfin, hinv, -, hobject, hlen⟩ :=
    inv_finalizeAll keys _ _ (inv_popAll hs mid) hkeys
  exact ⟨s', hfin, hinv, hobject, hlen⟩

theorem inv_next (hs : s.Inv []) {l : DeploymentCall} (hl : s.Allows l) :
    ∃ s', s.next l = some s' ∧ s'.Inv [] := by
  cases l with
  | register p c => exact inv_register hs c hl
  | destroy p keys =>
      obtain ⟨h, c, hh, hc⟩ := hs.exists_hosted hl.1
      refine ⟨_, ?_, inv_onFinalize (inv_pop hs hc) hh hc (hl.2 h hh)⟩
      rw [next, hc]
      exact onFinalize_eq hh hc
  | setAbtIoInstance p abtio =>
      obtain ⟨h, c, -, hc⟩ := hs.exists_hosted hl
      refine ⟨_, ?_, inv_setAbtIoInstance hs hc abtio⟩
      simp [next, remiProviderSetAbtIoInstance, hc]
  | call p env c =>
      obtain ⟨h, -, hh, -⟩ := hs.exists_hosted hl
      have hkept : Kept ((h.inFs s.fs).step env c) := kept_step c ((hs.kept p h hh).inFs s.fs)
      refine ⟨_, ?_, inv_hosted hs hh hkept ((h.inFs s.fs).step env c).site.provider.fs⟩
      simp only [next, hh, Option.map_some]
  | margoFinalize mid keys =>
      obtain ⟨s', hn, hinv, -⟩ := inv_margoFinalize hs hl
      exact ⟨s', hn, hinv⟩

theorem inv_run {fs : Fs} {ls : List DeploymentCall}
    (h : Run Deployment.next Deployment.Allows (.init fs) ls s) : s.Inv [] := by
  refine h.invariant (I := fun t => t.Inv []) (inv_init fs) ?_
  intro t l t' ht hl hn
  obtain ⟨t'', hn', ht''⟩ := inv_next ht hl
  rw [hn] at hn'
  cases hn'
  exact ht''

end Deployment

/-! ### The results -/

/-- A registration of a class, whose argument is freed by function 7. -/
private def registration : ProviderCall :=
  .registerProviderMigrationClass (some ['c']) 0 ⟨none, none, some 7, some 5⟩

/-- A class is registered on a provider. -/
private def classOnProvider : List DeploymentCall :=
  [.register 4 ⟨0, 1, none, none⟩, .call 4 .succeed registration]

/-- The provider with its class. -/
private def withClass : Hosted := ((Hosted.init .empty).inFs .empty).step .succeed registration

/-- The provider without a class. -/
private def newProvider : Deployment where
  process := remiProviderRegister .init 4 0 none 1 none
  hosted := Function.update (fun _ => none) 4 (some (.init .empty))
  fs := .empty
  callbacks := Function.update (fun _ => []) 0 [4]
  finalized := []

theorem classOnProvider_run : ∃ s, Run Deployment.next Deployment.Allows (.init .empty)
    classOnProvider s ∧ s.callbacks 0 = [4] ∧ s.hosted 4 = some withClass := by
  have hfirst : Run Deployment.next Deployment.Allows (.init .empty)
      [.register 4 ⟨0, 1, none, none⟩] newProvider := .snoc .nil rfl rfl
  have hallows : newProvider.Allows (.call 4 .succeed registration) := by
    show Function.update (fun _ => none) 4 (some _) 4 ≠ none
    rw [Function.update_self]
    exact Option.some_ne_none _
  exact ⟨_, hfirst.snoc hallows rfl, rfl, rfl⟩

/-- The end of a margo instance: the providers of the instance that have not been destroyed come to
their end, each once, and the providers of other instances are as they were. -/
theorem finalized_instance {fs : Fs} {ls : List DeploymentCall} {s : Deployment}
    (h : Run Deployment.next Deployment.Allows (.init fs) ls s) {mid : Nat}
    {keys : Ptr → List ClassKey} (hkeys : s.Allows (.margoFinalize mid keys)) :
    ∃ s', s.next (.margoFinalize mid keys) = some s' ∧
      (∀ p, s'.process.object p = if p ∈ s.callbacks mid then none else s.process.object p) ∧
      s'.finalized.length = s.finalized.length + (s.callbacks mid).length ∧
      ∀ d ∈ s'.finalized, FreedOnce d := by
  have hs := Deployment.inv_run h
  obtain ⟨s', hn, hinv, hobject, hlen⟩ := Deployment.inv_margoFinalize hs hkeys
  exact ⟨s', hn, hobject, hlen, hinv.freed⟩

theorem finalized_instance_classOnProvider : ∃ s s',
    Run Deployment.next Deployment.Allows (.init .empty) classOnProvider s ∧
      s.next (.margoFinalize 0 fun _ => [⟨['c'], 0⟩]) = some s' ∧ s'.process.object 4 = none ∧
      s'.finalized.length = s.finalized.length + 1 := by
  obtain ⟨s, hrun, hcall, hhosted⟩ := classOnProvider_run
  have hvisits : Visits [⟨['c'], 0⟩] withClass.site.provider.classes := by
    refine ⟨List.nodup_singleton _, fun key hkey => ?_⟩
    change Function.update (fun _ => none) ⟨['c'], 0⟩ _ key ≠ none at hkey
    by_contra hne
    rw [List.mem_singleton] at hne
    rw [Function.update_of_ne hne] at hkey
    exact hkey rfl
  have hkeys : s.Allows (.margoFinalize 0 fun _ => [⟨['c'], 0⟩]) := by
    intro p hp h hh
    rw [hcall] at hp
    obtain rfl := List.mem_singleton.mp hp
    rw [hhosted] at hh
    obtain rfl := Option.mem_some_iff.mp hh
    exact hvisits
  obtain ⟨s', hn, hobject, hlen, -⟩ := finalized_instance hrun hkeys
  refine ⟨s, s', hrun, hn, ?_, ?_⟩
  · rw [hobject, hcall]
    rfl
  · rw [hlen, hcall]
    rfl

end Remi
