import Remi.Proofs.FilesetCalls
import Remi.Proofs.Classes

/-!
# `Remi.Proofs.Selection`: the class a fileset selects

The key that `migrate_start` looks up is made of the class name and the provider id of the
fileset. The name is the one that the fileset has been created with. The provider id is the
last one that has been set, and before that whatever the memory of the new object contained
(`callAll_key`), because nothing initialises the member.
-/

set_option autoImplicit false

namespace Remi

open Remi.Lib

/-- The provider ids that calls store. -/
def setIds (calls : List FilesetCall) : List UInt16 := calls.filterMap FilesetCall.providerId?

/-- The provider id of the class that a user means: the last one set, and `UINT16_MAX` without
one. -/
def meantId (calls : List FilesetCall) : UInt16 := (setIds calls).getLast?.getD uint16Max

/-- The key of a fileset after a sequence of accepted calls. -/
theorem callAll_key {calls : List FilesetCall} {fs fs' : Fileset}
    (h : callAll calls fs = some fs') :
    classKey fs' = ⟨fs.className, (setIds calls).getLast?.getD fs.providerId⟩ := by
  induction calls generalizing fs with
  | nil =>
      obtain rfl := Option.some.inj h
      rfl
  | cons c calls ih =>
      obtain ⟨fs₁, hfirst, hrest⟩ := Option.bind_eq_some_iff.mp h
      have heffect := accepted_effect hfirst
      rw [ih hrest, heffect.className, heffect.providerId]
      cases hset : c.providerId? with
      | none => simp [setIds, hset]
      | some p => simp [setIds, hset, List.getLast?_cons]

theorem create_key {memory : UInt16} {name root : Str} {fs : Fileset}
    (h : remiFilesetCreate memory (some name) (some root) = (.success, some fs)) :
    fs.className = name ∧ fs.providerId = memory := by
  simp only [remiFilesetCreate] at h
  split at h
  · cases h
  · obtain rfl := Option.some.inj (Prod.mk.inj h).2
    exact ⟨rfl, rfl⟩

/-- A call of an administrator. -/
def ProviderCall.IsAdmin : ProviderCall → Prop
  | .request _ _ => False
  | _ => True

/-- The fileset selects the class `name` that is registered for `providerId`: this is its key,
and at a provider with any history of registrations a `migrate_start` of the fileset, below
whatever root, finds a class exactly when this one is registered. -/
structure Selects (fs : Fileset) (name : Str) (providerId : UInt16) : Prop where
  key : classKey fs = ⟨name, providerId⟩
  found : ∀ (env : Env) (provider : Fs) (calls : List ProviderCall) (s : Hosted) (abtio : Bool)
    (T : SourceTree) (remoteRoot : Str) (filesizes theModes : List Nat),
    Function.Injective env.uuid → (∀ c ∈ calls, c.IsAdmin) →
    Run (Hosted.next env) (fun _ _ => True) (.init provider) calls s →
    ∃ r, (env.serve abtio (.start (sentFileset T fs remoteRoot) filesizes theModes) s.site).1 =
        some r ∧
      (r.ret ≠ .errUnknownClass ↔ (registered s.events ⟨name, providerId⟩).isSome)

/-- Without requests the table is the history, whatever has been called. -/
theorem truthful_of_admin {env : Env} (huuid : Function.Injective env.uuid) {provider : Fs}
    {calls : List ProviderCall} (hcalls : ∀ c ∈ calls, c.IsAdmin) {s : Hosted}
    (hrun : Run (Hosted.next env) (fun _ _ => True) (.init provider) calls s) :
    Truthful s ∧ Drawn env s.site := by
  induction hrun with
  | nil => exact ⟨⟨rfl, explained_nil⟩, fun u hu => absurd rfl hu⟩
  | @snoc calls s s' c _ _ hnext ih =>
      obtain rfl := Option.some.inj hnext
      refine truthful_step huuid (ih fun d hd => hcalls d (List.mem_append_left _ hd)) ?_
      cases c with
      | request abtio q => exact (hcalls (.request abtio q) (by simp)).elim
      | _ => exact trivial

theorem selects_of_key {fs : Fileset} {name : Str} {providerId : UInt16}
    (h : classKey fs = ⟨name, providerId⟩) : Selects fs name providerId := by
  refine ⟨h, fun env provider calls s abtio T remoteRoot filesizes theModes huuid hcalls hrun => ?_⟩
  obtain ⟨htruthful, hdrawn⟩ := truthful_of_admin huuid hcalls hrun
  obtain ⟨rest, s₁, ret, status, -, -, hanswer, hunknown, -⟩ := serve_start env abtio s.site
    (sentFileset T fs remoteRoot) filesizes theModes (hdrawn.fresh huuid)
  refine ⟨_, hanswer, ?_⟩
  have hkey : classKey (sentFileset T fs remoteRoot) = ⟨name, providerId⟩ := h
  rw [hkey, htruthful.table] at hunknown
  rw [show (Response.start ret status (env.uuid s.site.served)).ret = ret from rfl, ne_eq,
    hunknown, ← ne_eq, Option.isSome_iff_ne_none]

/-- A fileset selects the class that is meant exactly when a provider id has been set, or the
memory of the new object happened to contain `UINT16_MAX`. -/
theorem selects_iff {memory : UInt16} {name root : Str} {fs fs' : Fileset}
    (hcreate : remiFilesetCreate memory (some name) (some root) = (.success, some fs))
    {calls : List FilesetCall} (hcalls : callAll calls fs = some fs') :
    Selects fs' name (meantId calls) ↔ setIds calls ≠ [] ∨ memory = uint16Max := by
  obtain ⟨hname, hmemory⟩ := create_key hcreate
  have hkey := callAll_key hcalls
  rw [hname, hmemory] at hkey
  have hselects : Selects fs' name (meantId calls) ↔
      (setIds calls).getLast?.getD memory = meantId calls := by
    constructor
    · intro h
      exact congrArg ClassKey.providerId (hkey.symm.trans h.key)
    · intro h
      exact selects_of_key (hkey.trans (by rw [h]))
  rw [hselects, meantId]
  cases hlast : (setIds calls).getLast? with
  | none =>
      rw [List.getLast?_eq_none_iff] at hlast
      simp [hlast]
  | some p =>
      have hne : setIds calls ≠ [] := by
        intro hnil
        rw [hnil] at hlast
        cases hlast
      simp [hne]

/-- The fileset that `remi_fileset_create` makes for `c` and `/a` in the memory `memory`. -/
private def madeIn (memory : UInt16) : Fileset :=
  ⟨['c'], memory, ['/', 'a', '/'], .empty, .empty, .empty, defaultXferSize⟩

private theorem create_madeIn (memory : UInt16) :
    remiFilesetCreate memory (some ['c']) (some ['/', 'a']) = (.success, some (madeIn memory)) :=
  rfl

/-- Once a provider id is set the memory does not matter. -/
theorem selects_set : Selects { madeIn 0 with providerId := 3 } ['c'] 3 :=
  (selects_iff (create_madeIn 0) (show callAll [.setProviderId 3] (madeIn 0) =
    some { madeIn 0 with providerId := 3 } from rfl)).mpr (Or.inl (List.cons_ne_nil _ _))

/-- In memory that is zero a new fileset selects another class, and the one that is registered
without a provider id is unknown to `migrate_start`. -/
theorem not_selects_zero : ¬ Selects (madeIn 0) ['c'] (meantId []) ∧
    (Env.succeed.serve false (.start (madeIn 0) [] []) (Hosted.step .succeed (.init .empty)
      (.registerMigrationClass (some ['c']) ⟨some 0, none, none, none⟩)).site).1 =
        some (.start .errUnknownClass 1 0) := by
  refine ⟨fun h => ?_, by decide +kernel⟩
  exact absurd h.key (by decide)

end Remi
