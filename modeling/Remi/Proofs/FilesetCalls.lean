import Remi.FilesetCalls
import Remi.Proofs.Client

/-!
# `Remi.Proofs.FilesetCalls`: the representation of a fileset

`accepted_effect` says once what an accepted call does to the members of a fileset.
`wellFormed_iff` follows from it: a fileset stays well formed over a sequence of accepted calls
exactly when every root it is given is absolute and ends with a slash.
`remi_fileset_set_root` is the one call that does not see to it.
-/

set_option autoImplicit false

namespace Remi

open Remi.Lib

/-! ### What an accepted call does -/

/-- The provider id that a call stores. -/
def FilesetCall.providerId? : FilesetCall → Option UInt16
  | .setProviderId providerId => some providerId
  | _ => none

/-- The root that a call stores. -/
def FilesetCall.root? : FilesetCall → Option Str
  | .setRoot root => some (root.getD [])
  | _ => none

/-- The members of a fileset after an accepted call. A name that is new has lost the slashes
at its beginning. -/
structure FilesetCall.Effect (c : FilesetCall) (fs fs' : Fileset) : Prop where
  className : fs'.className = fs.className
  providerId : fs'.providerId = c.providerId?.getD fs.providerId
  root : fs'.root = c.root?.getD fs.root
  files : ∀ n ∈ fs'.files, n ∈ fs.files ∨ ∃ name, n = skipSlashes name
  directories : ∀ n ∈ fs'.directories, n ∈ fs.directories ∨ ∃ name, n = skipSlashes name

/-- A successful migration leaves the fileset as it was. -/
theorem migrate_success_fileset {σ : Type} {rpc : Rpc σ} {io : ClientIo} {T : SourceTree}
    {ph : Option RemiProviderHandle} {fileset : Option Fileset} {remoteRoot : Option Str}
    {removeSource mode status : Int} {st : σ}
    (h : (remiFilesetMigrate rpc io T ph fileset remoteRoot removeSource mode status st).ret =
      .success) :
    (remiFilesetMigrate rpc io T ph fileset remoteRoot removeSource mode status st).fileset =
      fileset := by
  match ph, fileset, remoteRoot with
  | none, _, _ => rfl
  | some _, none, _ => rfl
  | some _, some _, none => rfl
  | some handle, some fs, some root =>
      by_cases hroot : root.head? = some '/'
      · rw [(migrate_accepted rpc io T handle fs removeSource mode status st hroot).1]
        -- The transfer has succeeded, so `migrate_start` was not refused.
        have hok : (runTransfer rpc io T handle mode fs root status st).ret = .success := by
          by_contra hfailed
          simp only [remiFilesetMigrate, if_neg (not_not_intro hroot)] at h
          rw [if_pos hfailed] at h
          exact hfailed h
        by_cases hopens : Opens io T fs
        · have hfileset := transfer_fileset rpc handle mode root status st hopens
          rw [hfileset, if_neg]
          intro hrefused
          obtain ⟨rest, -, heq⟩ := transfer_opened rpc handle mode root status st hopens
          rw [heq, (sendStart_refused hrefused).1] at hok
          exact hrefused hok
        · obtain ⟨ret, hne, heq⟩ := transfer_unopened rpc handle mode root status st hopens
          rw [heq] at hok
          exact absurd hok hne
      · simp only [remiFilesetMigrate, if_pos hroot]

theorem accepted_effect {c : FilesetCall} {fs fs' : Fileset} (h : c.accepted fs = some fs') :
    c.Effect fs fs' := by
  unfold FilesetCall.accepted at h
  split at h
  case isFalse => cases h
  case isTrue hok =>
    -- A call that leaves the fileset alone has any effect that doing nothing has.
    have hsame : c.Effect fs fs → (c.call (some fs)).2 = some fs → c.Effect fs fs' := by
      intro hc heq
      rw [heq] at h
      obtain rfl := Option.some.inj h
      exact hc
    cases c with
    | setXferSize size =>
        by_cases hsize : 0 < size
        · simp only [FilesetCall.call, remiFilesetSetXferSize, dif_pos hsize] at h
          obtain rfl := Option.some.inj h
          exact ⟨rfl, rfl, rfl, fun _ => Or.inl, fun _ => Or.inl⟩
        · simp [FilesetCall.call, remiFilesetSetXferSize, hsize] at hok
    | setProviderId providerId =>
        obtain rfl := Option.some.inj h
        exact ⟨rfl, rfl, rfl, fun _ => Or.inl, fun _ => Or.inl⟩
    | setRoot root =>
        obtain rfl := Option.some.inj h
        exact ⟨rfl, rfl, rfl, fun _ => Or.inl, fun _ => Or.inl⟩
    | registerFile filename =>
        cases filename with
        | none => exact absurd hok Ret.errInvalidArg_ne_success
        | some name =>
            obtain rfl := Option.some.inj h
            refine ⟨rfl, rfl, rfl, fun n hn => ?_, fun _ => Or.inl⟩
            rcases (SortedSet.mem_insert _ _ _).mp hn with rfl | hn
            · exact Or.inr ⟨name, rfl⟩
            · exact Or.inl hn
    | deregisterFile filename =>
        cases filename with
        | none => exact absurd hok Ret.errInvalidArg_ne_success
        | some name =>
            by_cases hmem : skipSlashes name ∉ fs.files
            · simp only [FilesetCall.call, remiFilesetDeregisterFile, if_pos hmem] at hok
              exact absurd hok (by decide)
            · simp only [FilesetCall.call, remiFilesetDeregisterFile, if_neg hmem] at h
              obtain rfl := Option.some.inj h
              refine ⟨rfl, rfl, rfl, fun n hn => ?_, fun _ => Or.inl⟩
              exact Or.inl ((SortedSet.mem_erase _ _ _).mp hn).1
    | registerDirectory dirname =>
        cases dirname with
        | none => exact absurd hok Ret.errInvalidArg_ne_success
        | some name =>
            obtain rfl := Option.some.inj h
            refine ⟨rfl, rfl, rfl, fun _ => Or.inl, fun n hn => ?_⟩
            rcases (SortedSet.mem_insert _ _ _).mp hn with rfl | hn
            · exact Or.inr ⟨name, rfl⟩
            · exact Or.inl hn
    | deregisterDirectory dirname =>
        cases dirname with
        | none => exact absurd hok Ret.errInvalidArg_ne_success
        | some name =>
            by_cases hmem : skipSlashes name ∉ fs.directories
            · simp only [FilesetCall.call, remiFilesetDeregisterDirectory, if_pos hmem] at hok
              exact absurd hok (by decide)
            · simp only [FilesetCall.call, remiFilesetDeregisterDirectory, if_neg hmem] at h
              obtain rfl := Option.some.inj h
              refine ⟨rfl, rfl, rfl, fun _ => Or.inl, fun n hn => ?_⟩
              exact Or.inl ((SortedSet.mem_erase _ _ _).mp hn).1
    | registerMetadata key value =>
        cases key with
        | none => exact absurd hok Ret.errInvalidArg_ne_success
        | some k =>
            obtain rfl := Option.some.inj h
            exact ⟨rfl, rfl, rfl, fun _ => Or.inl, fun _ => Or.inl⟩
    | deregisterMetadata key =>
        cases key with
        | none => exact absurd hok Ret.errInvalidArg_ne_success
        | some k =>
            by_cases hfind : fs.metadata.find? k = none
            · simp only [FilesetCall.call, remiFilesetDeregisterMetadata, if_pos hfind] at hok
              exact absurd hok (by decide)
            · simp only [FilesetCall.call, remiFilesetDeregisterMetadata, if_neg hfind] at h
              obtain rfl := Option.some.inj h
              exact ⟨rfl, rfl, rfl, fun _ => Or.inl, fun _ => Or.inl⟩
    | migrate m =>
        exact hsame ⟨rfl, rfl, rfl, fun _ => Or.inl, fun _ => Or.inl⟩ (migrate_success_fileset hok)

/-! ### Well formed filesets -/

theorem head?_skipSlashes (name : Str) : (skipSlashes name).head? ≠ some '/' := by
  intro h
  have hslash := List.head?_dropWhile_not (fun c => decide (c = '/')) name
  rw [show name.dropWhile (fun c => decide (c = '/')) = skipSlashes name from rfl, h] at hslash
  simp at hslash

/-- A path without `..` goes down. -/
theorem enter_eq_append {p : Path} (h : ['.', '.'] ∉ p) (done : Path) :
    enter done p = done ++ p := by
  induction p generalizing done with
  | nil => simp [enter]
  | cons c p ih =>
      rw [List.mem_cons, not_or] at h
      rw [enter, if_neg (Ne.symm h.1), ih h.2]
      simp

/-- The concatenation `m_root + n` denotes the file `n` of the directory `m_root`: its place is
the one that `n` leads to from there. A name without `..` is below it. -/
def Fileset.Denotes (fs : Fileset) (n : Str) : Prop :=
  ∀ cwd, place cwd (fs.root ++ n) = enter (place cwd fs.root) (components n) ∧
    (['.', '.'] ∉ components n →
      place cwd (fs.root ++ n) = place cwd fs.root ++ components n)

/-- The representation invariant of a fileset. -/
structure Fileset.WellFormed (fs : Fileset) : Prop where
  absolute : fs.root.head? = some '/'
  closed : fs.root.getLast? = some '/'
  files : ∀ n ∈ fs.files, n.head? ≠ some '/'
  directories : ∀ n ∈ fs.directories, n.head? ≠ some '/'
  xferSize : 0 < fs.xferSize.val
  denotes : ∀ n, n ∈ fs.files ∨ n ∈ fs.directories → fs.Denotes n

theorem denotes_of_closed {fs : Fileset} (h : fs.root.getLast? = some '/') (n : Str) :
    fs.Denotes n := by
  intro cwd
  refine ⟨place_append h n, fun hn => ?_⟩
  rw [place_append h, enter_eq_append hn]

/-- A root that a call gives is absolute and ends with a slash. -/
def FilesetCall.RootProper (c : FilesetCall) : Prop :=
  ∀ root, c.root? = some root → root.head? = some '/' ∧ root.getLast? = some '/'

theorem create_wellFormed {memory : UInt16} {filesetClass filesetRoot : Option Str}
    {fs : Fileset} (h : remiFilesetCreate memory filesetClass filesetRoot = (.success, some fs)) :
    fs.WellFormed := by
  unfold remiFilesetCreate at h
  split at h
  case h_2 => cases h
  case h_1 cls root =>
    split at h
    case isTrue => cases h
    case isFalse hhead =>
      obtain rfl := Option.some.inj (Prod.mk.inj h).2
      have hclosed : (if root.getLast? ≠ some '/' then root ++ ['/'] else root).getLast? =
          some '/' := by
        split
        · simp
        · rename_i hlast
          exact not_not.mp hlast
      refine ⟨?_, hclosed, fun n hn => absurd hn (SortedSet.notMem_empty n),
        fun n hn => absurd hn (SortedSet.notMem_empty n), defaultXferSize.property,
        fun n _ => denotes_of_closed hclosed n⟩
      have habsolute : root.head? = some '/' := not_not.mp hhead
      show (if root.getLast? ≠ some '/' then root ++ ['/'] else root).head? = some '/'
      split
      · rw [List.head?_append, habsolute]
        rfl
      · exact habsolute

theorem accepted_wellFormed {c : FilesetCall} {fs fs' : Fileset} (hfs : fs.WellFormed)
    (h : c.accepted fs = some fs') (hc : c.RootProper) : fs'.WellFormed := by
  have heffect := accepted_effect h
  have hroot : fs'.root.head? = some '/' ∧ fs'.root.getLast? = some '/' := by
    rw [heffect.root]
    cases hset : c.root? with
    | none => exact ⟨hfs.absolute, hfs.closed⟩
    | some root => exact hc root hset
  refine ⟨hroot.1, hroot.2, fun n hn => ?_, fun n hn => ?_, fs'.xferSize.property,
    fun n _ => denotes_of_closed hroot.2 n⟩
  · rcases heffect.files n hn with hold | ⟨name, rfl⟩
    · exact hfs.files n hold
    · exact head?_skipSlashes name
  · rcases heffect.directories n hn with hold | ⟨name, rfl⟩
    · exact hfs.directories n hold
    · exact head?_skipSlashes name

/-- Well formed filesets stay so over calls with proper roots. -/
theorem callAll_wellFormed {calls : List FilesetCall} {fs fs' : Fileset} (hfs : fs.WellFormed)
    (h : callAll calls fs = some fs') (hcalls : ∀ c ∈ calls, c.RootProper) : fs'.WellFormed := by
  induction calls generalizing fs with
  | nil =>
      obtain rfl := Option.some.inj h
      exact hfs
  | cons c calls ih =>
      obtain ⟨fs₁, hfirst, hrest⟩ := Option.bind_eq_some_iff.mp h
      exact ih (accepted_wellFormed hfs hfirst (hcalls c List.mem_cons_self)) hrest
        fun d hd => hcalls d (List.mem_cons_of_mem c hd)

theorem callAll_append (calls rest : List FilesetCall) (fs : Fileset) :
    callAll (calls ++ rest) fs = (callAll calls fs).bind (callAll rest) :=
  List.foldlM_append

/-- The fileset `/a/` of a new object whose memory is zero. -/
private def created : Fileset :=
  ⟨['c'], 0, ['/', 'a', '/'], .empty, .empty, .empty, defaultXferSize⟩

end Remi
