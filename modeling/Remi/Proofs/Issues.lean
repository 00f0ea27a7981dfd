import Remi.Server.Handlers

/-!
# `Remi.Proofs.Issues`: the operations of the loops

Which operations the loops of the handlers may issue. Each lemma holds for every property `P` of
operations that those of the loop have.
-/

set_option autoImplicit false

namespace Remi

open Remi.Lib

section
variable {P : Op → Prop}

theorem anyExists_issues (hP : ∀ path, P (.access path)) (root : Str) (files : List Str) :
    (anyExists root files).Issues P := by
  induction files with
  | nil => trivial
  | cons filename rest ih =>
      refine Prog.issues_call (hP _) fun present => ?_
      split
      · trivial
      · exact ih

theorem closeEach_issues (hP : ∀ fd, P (.close fd)) (fds : List Fd) :
    (closeEach fds).Issues P := by
  induction fds with
  | nil => trivial
  | cons fd rest ih => exact Prog.issues_call (hP _) fun _ => ih

theorem mkdirAll_issues (hP : ∀ path, P (.mkdir path)) (dirs : List Str) :
    (mkdirAll dirs).Issues P := by
  induction dirs with
  | nil => trivial
  | cons d rest ih => exact Prog.issues_call (hP _) fun _ => ih

theorem openFiles_issues (hmkdir : ∀ path, P (.mkdir path)) (hvec : ∀ v i, P (.vecAt v i))
    (hopen : ∀ path mode, P (.openTrunc path mode)) (hclose : ∀ fd, P (.close fd)) (root : Str)
    (theModes : List Nat) (files : List Str) (i : Nat) (opened : List Fd) :
    (openFiles root theModes files i opened).Issues P := by
  induction files generalizing i opened with
  | nil => trivial
  | cons filename rest ih =>
      refine Prog.issues_bind (mkdirAll_issues hmkdir _) fun _ => ?_
      refine Prog.issues_call (hvec _ _) fun mode => Prog.issues_call (hopen _ _) fun r => ?_
      cases r with
      | none => exact Prog.issues_bind (closeEach_issues hclose _) fun _ => trivial
      | some fd => exact ih _ _

theorem callBefore_issues (hP : ∀ callback uargs fileset, P (.before callback uargs fileset))
    (klass : MigrationClass) (fileset : Fileset) : (callBefore klass fileset).Issues P := by
  unfold callBefore
  cases klass.beforeCallback with
  | none => trivial
  | some callback => exact Prog.issues_last (hP _ _ _)

theorem callAfter_issues (id : Uuid) (hP : ∀ callback uargs, P (.after id callback uargs))
    (klass : MigrationClass) : (callAfter klass id).Issues P := by
  unfold callAfter
  cases klass.afterCallback with
  | none => trivial
  | some callback => exact Prog.issues_last (hP _ _)

theorem unmapEach_issues (hP : ∀ a, P (.munmap a)) (segs : List (Addr × Nat)) :
    (unmapEach segs).Issues P := by
  induction segs with
  | nil => trivial
  | cons seg rest ih => exact Prog.issues_call (hP _) fun _ => ih

theorem syncEach_issues (hP : ∀ a, P (.msync a)) (segs : List (Addr × Nat)) :
    (syncEach segs).Issues P := by
  induction segs with
  | nil => trivial
  | cons seg rest ih =>
      refine Prog.issues_call (hP _) fun ok => ?_
      split
      · trivial
      · exact ih

theorem mapFiles_issued (id : Uuid) (hsize : ∀ i, P (.filesizeAt id i))
    (htruncate : ∀ fd size, P (.ftruncate id fd size)) (hmmap : ∀ fd size, P (.mmap id fd size))
    (fds : List Fd) (i : Nat) (theData : List (Addr × Nat)) :
    (mapFiles id fds i theData).Issues P := by
  induction fds generalizing i theData with
  | nil => trivial
  | cons fd rest ih =>
      refine Prog.issues_call (hsize _) fun size => ?_
      split
      · exact ih _ _
      · refine Prog.issues_call (htruncate _ _) fun ok => ?_
        split
        · trivial
        · refine Prog.issues_call (hmmap _ _) fun segment => ?_
          split
          · trivial
          · exact ih _ _

end

end Remi
