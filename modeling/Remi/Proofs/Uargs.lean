import Remi.Lib.Custody
import Remi.Proofs.Classes

/-!
# `Remi.Proofs.Uargs`: the arguments of user callbacks

A provider owns the argument of a class from the registration that it accepts until it calls
the class's free function on it. The null classes that a `migrate_end` puts into the table own
nothing, so the table and the registered classes own the same (`TableOf`).
-/

set_option autoImplicit false

namespace Remi

open Remi.Lib

/-- What an event does with the arguments of the classes `table`: a successful deregistration
frees the one of its class and nothing else does, and callbacks get the argument of a
class. -/
def Event.Respects (table : ClassKey → Option MigrationClass) : Event → Prop
  | .register _ _ _ _ => True
  | .deregister none _ _ frees => frees = []
  | .deregister (some name) providerId ret frees =>
    frees = if ret = .success then entryOwns MigrationClass.freeCall (table ⟨name, providerId⟩)
      else []
  | .request _ _ callbacks => ∀ call ∈ callbacks, ∃ klass,
    table (classKey call.fileset) = some klass ∧ call.MadeFor klass

/-- The free functions called so far. -/
def Hosted.freed (s : Hosted) : List FreeCall := s.events.flatMap Event.frees

/-- The free functions to be called once for each accepted registration. -/
def Hosted.owed (s : Hosted) : List FreeCall :=
  (s.events.flatMap Event.accepted).flatMap MigrationClass.freeCall

/-- The invariant: the table is the one of the registered classes, up to null classes, what is
owed has been freed or is owned by a registered class, and every event has respected the
registered classes. -/
structure Kept (s : Hosted) : Prop where
  table : TableOf (registered s.events) s.site.provider
  balanced : Balanced MigrationClass.freeCall s.freed (registered s.events) s.owed
  respects : Explained Event.Respects s.events

/-- A registered class and the entry of the table own the same. -/
theorem TableOf.owns_eq {table : ClassKey → Option MigrationClass} {p : Provider}
    (h : TableOf table p) (key : ClassKey) :
    entryOwns MigrationClass.freeCall (p.classes key) =
      entryOwns MigrationClass.freeCall (table key) := by
  rcases h key with hsame | ⟨hnone, hnull⟩
  · rw [hsame]
  · rw [hnone, hnull]
    rfl

/-- An event that is no accepted call and frees nothing. -/
theorem Kept.note {s : Hosted} (h : Kept s) (site : Site) (e : Event)
    (htable : TableOf (registered s.events) site.provider)
    (hupdate : e.update (registered s.events) = registered s.events) (hfrees : e.frees = [])
    (haccepted : e.accepted = []) (hrespects : e.Respects (registered s.events)) :
    Kept ⟨site, s.events ++ [e]⟩ := by
  refine ⟨?_, ?_, h.respects.snoc hrespects⟩
  · rw [registered_snoc, hupdate]
    exact htable
  · have hbalanced := h.balanced
    simp only [Hosted.freed, Hosted.owed, registered_snoc, hupdate, List.flatMap_append,
      List.flatMap_cons, List.flatMap_nil, hfrees, haccepted, List.append_nil]
    exact hbalanced

theorem tableOf_update {table : ClassKey → Option MigrationClass} {s : Hosted}
    (h : TableOf table s.site.provider) (key : ClassKey) (klass : Option MigrationClass)
    (e : Event) :
    TableOf (Function.update table key klass) (s.setClass key klass e).site.provider := by
  intro x
  rw [setClass_classes]
  by_cases hx : x = key
  · subst hx
    simp
  · simp only [Function.update_of_ne hx]
    exact h x

theorem kept_step {env : Env} {s : Hosted} (c : ProviderCall) (h : Kept s) :
    Kept (s.step env c) := by
  refine step_rule c ?_ ?_ ?_
  · intro className providerId klass s' hway
    cases hway with
    | nullName => exact h.note s.site (.register none _ _ _) h.table rfl rfl rfl trivial
    | present name old hold =>
        exact h.note s.site (.register (some name) providerId klass .errClassExists) h.table
          (by simp [Event.update]) rfl (by simp [Event.accepted]) trivial
    | accepted name hnew =>
        -- The key owns nothing yet, although the table may have a null class for it.
        have hfree : registered s.events ⟨name, providerId⟩ = none := by
          rcases h.table ⟨name, providerId⟩ with hsame | ⟨hnone, -⟩
          · exact hsame.symm.trans hnew
          · exact hnone
        refine ⟨?_, ?_, h.respects.snoc trivial⟩
        · rw [setClass_events, registered_snoc]
          simp only [Event.update, ↓reduceIte]
          exact tableOf_update h.table _ _ _
        · have hbalanced := h.balanced.insert hfree klass
          simpa [Hosted.freed, Hosted.owed, registered_snoc, Event.update, Event.frees,
            Event.accepted] using hbalanced
  · intro className providerId s' hway
    cases hway with
    | nullName => exact h.note s.site (.deregister none _ _ []) h.table rfl rfl rfl rfl
    | absent name hnone =>
        exact h.note s.site (.deregister (some name) providerId .errUnknownClass []) h.table
          (by simp [Event.update]) rfl rfl (by simp [Event.Respects])
    | accepted name klass hold =>
        refine ⟨?_, ?_, h.respects.snoc ?_⟩
        · rw [setClass_events, registered_snoc]
          simp only [Event.update, ↓reduceIte]
          exact tableOf_update h.table _ _ _
        · rcases h.table ⟨name, providerId⟩ with hsame | ⟨hnone, hnull⟩
          · have hbalanced := h.balanced.remove (hsame.symm.trans hold)
            simpa [Hosted.freed, Hosted.owed, registered_snoc, Event.update, Event.frees,
              Event.accepted] using hbalanced
          · -- A null class is taken out: it owns nothing, and no class was registered.
            obtain rfl : klass = .null := Option.some.inj (hold.symm.trans hnull)
            have hbalanced := h.balanced
            have hsame : Function.update (registered s.events) ⟨name, providerId⟩ none =
                registered s.events := by
              rw [← hnone, Function.update_eq_self]
            simpa [Hosted.freed, Hosted.owed, registered_snoc, Event.update, Event.frees,
              Event.accepted, hsame, MigrationClass.freeCall, MigrationClass.null] using hbalanced
        · have howns := h.table.owns_eq ⟨name, providerId⟩
          rw [hold] at howns
          simp only [Event.Respects, ↓reduceIte]
          exact howns
  · rintro abtio q callbacks - hmade
    refine h.note _ (.request q _ callbacks) (fun key => ?_) rfl rfl rfl fun call hcall => ?_
    · rcases (serve_looked env abtio s.site q).classes key with hsame | ⟨hnone, hnull, -⟩
      · rw [hsame]
        exact h.table key
      · rcases h.table key with hkey | ⟨hkey, -⟩
        · exact Or.inr ⟨hkey.symm.trans hnone, hnull⟩
        · exact Or.inr ⟨hkey, hnull⟩
    · obtain ⟨klass, hclass, hfor⟩ := hmade call hcall
      rcases h.table (classKey call.fileset) with hsame | ⟨-, hnull⟩
      · exact ⟨klass, hsame.symm.trans hclass, hfor⟩
      · -- A null class has no callbacks.
        obtain rfl : klass = .null := Option.some.inj (hclass.symm.trans hnull)
        cases call <;> cases hfor.1

/-- Over any calls and requests, and a destruction of the provider that goes through its table
in any order: the free functions that are called are those of the accepted registrations, each
once. They are called when a class is deregistered, or at the destruction when it still is
registered. Callbacks get the argument of a class that is registered at the time. -/
theorem uargs_freed_once {env : Env} {fs : Fs} {calls : List ProviderCall} {s : Hosted}
    (hrun : Run (Hosted.next env) (fun _ _ => True) (.init fs) calls s) {keys : List ClassKey}
    (hkeys : Visits keys s.site.provider.classes) :
    (s.freed ++ remiOnFinalize keys s.site.provider).Perm s.owed ∧
      remiOnFinalize keys s.site.provider =
        held MigrationClass.freeCall keys (registered s.events) ∧
      Explained Event.Respects s.events := by
  have hkept : Kept s := by
    refine hrun.invariant ⟨fun _ => Or.inl rfl, balanced_empty _, explained_nil⟩ ?_
    intro s c s' hs _ hnext
    obtain rfl := Option.some.inj hnext
    exact kept_step c hs
  have hfinal : remiOnFinalize keys s.site.provider =
      held MigrationClass.freeCall keys (registered s.events) :=
    held_congr fun key _ => hkept.table.owns_eq key
  refine ⟨?_, hfinal, hkept.respects⟩
  rw [hfinal]
  refine hkept.balanced keys ⟨hkeys.nodup, fun key hkey => hkeys.all key ?_⟩
  rcases hkept.table key with hsame | ⟨hnone, -⟩
  · rwa [hsame]
  · exact absurd hnone hkey

/-- A class whose argument is freed by function 7. -/
private def owning (uargs : Nat) : MigrationClass := ⟨some 0, none, some 7, some uargs⟩

/-- The class `c` is registered, registered again, and deregistered in the middle of a
migration. The class `d` is registered and stays. -/
private def twoClasses : List ProviderCall :=
  [.registerProviderMigrationClass (some ['c']) 0 (owning 5),
    .registerProviderMigrationClass (some ['c']) 0 (owning 6),
    .request false (.start oneFile [2] [0]),
    .deregisterProviderMigrationClass (some ['c']) 0,
    .registerMigrationClass (some ['d']) (owning 8)]

/-- The argument 5 is freed at the deregistration, 8 at the destruction, and 6 not at all. -/
theorem uargs_freed_once_twoClasses : ∃ s,
    Run (Hosted.next .succeed) (fun _ _ => True) (.init .empty) twoClasses s ∧
      s.freed = [⟨7, some 5⟩] ∧
      remiOnFinalize [⟨['d'], uint16Max⟩] s.site.provider = [⟨7, some 8⟩] ∧
      (s.freed ++ remiOnFinalize [⟨['d'], uint16Max⟩] s.site.provider).Perm s.owed := by
  have hrun := run_steps .succeed (.init .empty) twoClasses
  have hvisits : Visits [⟨['d'], uint16Max⟩]
      (twoClasses.foldl (Hosted.step .succeed) (.init .empty)).site.provider.classes := by
    refine ⟨List.nodup_singleton _, fun key hkey => ?_⟩
    change Function.update (Function.update (Function.update (fun _ => none) ⟨['c'], 0⟩ _)
      ⟨['c'], 0⟩ none) ⟨['d'], uint16Max⟩ _ key ≠ none at hkey
    by_contra hne
    rw [List.mem_singleton] at hne
    rw [Function.update_of_ne hne, Function.update_idem, Function.update_apply] at hkey
    simp at hkey
  exact ⟨_, hrun, by decide +kernel, by decide +kernel, (uargs_freed_once hrun hvisits).1⟩

end Remi
