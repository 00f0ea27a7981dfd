import Remi.Server.Renaming

/-!
# `Remi.Proofs.Renaming`: the provider does not look at the numbers of its clients

`exec_rename` says that an operation respects names, and `handle_renamed` that the handlers
contain none.
-/

set_option autoImplicit false

namespace Remi

open Remi.Lib

section
variable (ρ : Equiv.Perm Nat)

@[simp] theorem Tid.rename_symm (t : Tid) : (t.rename ρ).rename ρ.symm = t := by
  simp [Tid.rename]

@[simp] theorem Fd.rename_symm (fd : Fd) : (fd.rename ρ).rename ρ.symm = fd := by
  simp [Fd.rename]

@[simp] theorem Seg.rename_symm (seg : Seg) : (seg.rename ρ).rename ρ.symm = seg := by
  simp [Seg.rename]

@[simp] theorem Addr.rename_symm (a : Addr) : Addr.rename ρ.symm (Addr.rename ρ a) = a := by
  cases a <;> simp [Addr.rename]

theorem Tid.rename_eq {t t' : Tid} : t.rename ρ.symm = t' ↔ t = t'.rename ρ := by
  constructor
  · rintro rfl
    simp [Tid.rename]
  · rintro rfl
    simp

theorem Fd.rename_eq {fd fd' : Fd} : fd.rename ρ.symm = fd' ↔ fd = fd'.rename ρ := by
  constructor
  · rintro rfl
    simp [Fd.rename, Tid.rename]
  · rintro rfl
    simp

theorem Seg.rename_eq {seg seg' : Seg} : seg.rename ρ.symm = seg' ↔ seg = seg'.rename ρ := by
  constructor
  · rintro rfl
    simp [Seg.rename, Tid.rename]
  · rintro rfl
    simp

theorem Addr.rename_eq {a a' : Addr} : Addr.rename ρ.symm a = a' ↔ a = Addr.rename ρ a' := by
  constructor
  · rintro rfl
    cases a <;> simp [Addr.rename, Seg.rename, Tid.rename]
  · rintro rfl
    simp

/-- An update under other names. -/
theorem update_rename {α β : Type} [DecidableEq α] {e e' : α → α}
    (he : ∀ a b, e' a = b ↔ a = e b) (f : α → β) (a : α) (v : β) :
    (fun x => Function.update f a v (e' x)) = Function.update (fun x => f (e' x)) (e a) v := by
  funext x
  by_cases h : x = e a
  · subst h
    rw [(he _ _).mpr rfl, Function.update_self, Function.update_self]
  · rw [Function.update_of_ne h, Function.update_of_ne fun h' => h ((he _ _).mp h')]

/-- An update of a map to names. -/
theorem update_map {α β γ : Type} [DecidableEq α] (f : α → Option β) (g : β → γ) (a : α)
    (v : Option β) :
    (fun x => (Function.update f a v x).map g) =
      Function.update (fun x => (f x).map g) a (v.map g) := by
  funext x
  by_cases h : x = a
  · subst h
    simp only [Function.update_self]
  · simp only [Function.update_of_ne h]

/-- How often a name occurs. -/
theorem count_rename {α : Type} [DecidableEq α] {e e' : α → α} (he : ∀ a b, e' a = b ↔ a = e b)
    (l : List α) (a : α) : l.count (e' a) = (l.map e).count a := by
  induction l with
  | nil => rfl
  | cons b l ih =>
      rw [List.map_cons, List.count_cons, List.count_cons, ih]
      have hiff : (b == e' a) = (e b == a) := by
        rw [Bool.eq_iff_iff, beq_iff_eq, beq_iff_eq, eq_comm, he, eq_comm]
      rw [hiff]

theorem mem_rename {α : Type} [DecidableEq α] {e e' : α → α} (he : ∀ a b, e' a = b ↔ a = e b)
    (l : List α) (a : α) : e' a ∈ l ↔ a ∈ l.map e := by
  rw [← List.count_pos_iff, ← List.count_pos_iff, count_rename he]

/-! ### The operations -/

theorem Provider.rename_modifyOp (s : Provider) (id : Uuid) (op : Operation) :
    (s.modifyOp id op).rename ρ = (s.rename ρ).modifyOp id (op.rename ρ) := by
  simp only [Provider.modifyOp, Provider.rename, update_map, Option.map_some]

theorem Provider.rename_closeAll (s : Provider) (fds : List Fd) :
    (s.closeAll fds).rename ρ = (s.rename ρ).closeAll (fds.map (Fd.rename ρ)) := by
  simp only [Provider.closeAll, Provider.rename, mem_rename (fun a b => Fd.rename_eq ρ),
    count_rename (fun a b => Fd.rename_eq ρ)]

theorem Provider.rename_mapFailure (s : Provider) (t : Tid) :
    (s.mapFailure t).rename ρ = (s.rename ρ).mapFailure (t.rename ρ) := by
  have hupdate := update_rename (fun a b => Tid.rename_eq ρ) s.mapFailures t
    (s.mapFailures t + 1)
  simp only [Provider.mapFailure, Provider.rename, hupdate, Tid.rename_symm]

theorem Provider.rename_write (t : Tid) (io : Io) (id : Uuid) (fd : Fd) (data : Bytes)
    (offset : Nat) (s : Provider) :
    (s.rename ρ).write (t.rename ρ) io id (fd.rename ρ) data offset =
      ((s.write t io id fd data offset).1, (s.write t io id fd data offset).2.rename ρ) := by
  have hdescriptor : (s.rename ρ).descriptors (fd.rename ρ) = s.descriptors fd := by
    show s.descriptors ((fd.rename ρ).rename ρ.symm) = _
    rw [Fd.rename_symm]
  have hopen : (s.rename ρ).isOpen (fd.rename ρ) = s.isOpen fd := by
    show s.isOpen ((fd.rename ρ).rename ρ.symm) = _
    rw [Fd.rename_symm]
  unfold Provider.write
  simp only [hdescriptor, hopen]
  cases io.count data.length with
  | none => rfl
  | some n =>
      cases s.descriptors fd with
      | none => rfl
      | some p =>
          by_cases h : offset < offsetBound ∧ s.isOpen fd = true
          · simp only [h, and_self, ↓reduceIte]
            rfl
          · simp only [h, ↓reduceIte]
            rfl

theorem scatter_rename (s : Provider) (segs : List (Addr × Nat)) (data : Bytes) (fs : Fs) :
    scatter (s.rename ρ).segments (renameSegs ρ segs) data fs =
      scatter s.segments segs data fs := by
  induction segs generalizing data fs with
  | nil => rfl
  | cons seg rest ih =>
      obtain ⟨a, size⟩ := seg
      cases a with
      | mapped seg =>
          have hseg : (s.rename ρ).segments (seg.rename ρ) = s.segments seg := by
            show s.segments ((seg.rename ρ).rename ρ.symm) = _
            rw [Seg.rename_symm]
          show scatter (s.rename ρ).segments (renameSegs ρ rest) _ _ = _
          simp only [Addr.rename, hseg, scatter, ih]
      | null | failed => exact ih _ _

theorem renameSegs_mapped (segs : List (Addr × Nat)) :
    (renameSegs ρ segs).all (·.1.isMapped) = segs.all (·.1.isMapped) := by
  induction segs with
  | nil => rfl
  | cons seg rest ih =>
      obtain ⟨a, size⟩ := seg
      rw [renameSegs, List.map_cons, List.all_cons, List.all_cons]
      rw [renameSegs] at ih
      rw [ih]
      cases a <;> rfl

theorem renameSegs_room (segs : List (Addr × Nat)) :
    segsRoom (renameSegs ρ segs) = segsRoom segs := by
  simp only [segsRoom, renameSegs, List.map_map]
  rfl

theorem renameSegs_fst (segs : List (Addr × Nat)) :
    (renameSegs ρ segs).map Prod.fst = (segs.map Prod.fst).map (Addr.rename ρ) := by
  simp only [renameSegs, List.map_map]
  rfl

/-- The record of an id, with the names changed. -/
theorem rename_opInProgress (s : Provider) (id : Uuid) :
    (s.rename ρ).opInProgress id = (s.opInProgress id).map (Operation.rename ρ) := rfl

/-- A change of a record that respects names. -/
theorem rename_record (s : Provider) (id : Uuid) (f g : Operation → Operation)
    (h : ∀ op, g (op.rename ρ) = (f op).rename ρ) :
    ((s.opInProgress id).map (Operation.rename ρ)).map
        (fun op => ((), (s.rename ρ).modifyOp id (g op))) =
      ((s.opInProgress id).map fun op => ((), s.modifyOp id (f op))).map
        fun rs => (rs.1, rs.2.rename ρ) := by
  cases s.opInProgress id with
  | none => rfl
  | some op => simp only [Option.map_some, h, Provider.rename_modifyOp]

/-- An operation does not look at the numbers of the clients. -/
theorem exec_rename (t : Tid) (w : Outcome) (o : Op) (s : Provider) :
    exec (t.rename ρ) w (o.rename ρ) (s.rename ρ) =
      (exec t w o s).map fun rs => (o.renameAns ρ rs.1, rs.2.rename ρ) := by
  cases o with
  | newUuid =>
      have hissued : (s.rename ρ).issuedTo w.uuid = (s.issuedTo w.uuid).map (Tid.rename ρ) := rfl
      simp only [exec, Op.rename, hissued]
      cases s.issuedTo w.uuid with
      | some t' => rfl
      | none =>
          simp only [Option.map_none, Option.map_some, Provider.rename, update_map]
          rfl
  | classAt key =>
      have hclass : (s.rename ρ).classes key = s.classes key := rfl
      simp only [exec, Op.rename, hclass]
      cases s.classes key <;> rfl
  | mkdir path =>
      simp only [exec, Op.rename]
      have hfs : (s.rename ρ).fs = s.fs := rfl
      rw [hfs]
      split <;> rfl
  | openTrunc path mode =>
      have hfs : (s.rename ρ).fs = s.fs := rfl
      have hopened : (s.rename ρ).opened (t.rename ρ) = s.opened t := by
        show s.opened ((t.rename ρ).rename ρ.symm) = _
        rw [Tid.rename_symm]
      simp only [exec, Op.rename, hfs, hopened]
      split
      · rfl
      · have hdescriptors := update_rename (fun a b => Fd.rename_eq ρ) s.descriptors
          ⟨t, s.opened t⟩ (some (s.fs.place path))
        have hisOpen := update_rename (fun a b => Fd.rename_eq ρ) s.isOpen ⟨t, s.opened t⟩ true
        have hcount := update_rename (fun a b => Tid.rename_eq ρ) s.opened t (s.opened t + 1)
        simp only [Option.map_some, Provider.rename, hdescriptors, hisOpen, hcount, Op.renameAns]
        rfl
  | close fd =>
      simp only [exec, Op.rename, Option.map_some, Provider.rename_closeAll]
      rfl
  | vecAt v i =>
      simp only [exec, Op.rename]
      split <;> rfl
  | filesizeAt id i =>
      simp only [exec, Op.rename, rename_opInProgress]
      cases s.opInProgress id with
      | none => rfl
      | some op =>
          simp only [Option.map_some, Operation.rename]
          split <;> rfl
  | insert id op =>
      simp only [exec, Op.rename, Option.map_some, Provider.rename_modifyOp]
      rfl
  | find id =>
      simp only [exec, Op.rename, rename_opInProgress, Option.isSome_map]
      rfl
  | erase id =>
      simp only [exec, Op.rename, Option.map_some, Provider.rename, update_map, Option.map_none]
      rfl
  | lock id =>
      simp only [exec, Op.rename, rename_opInProgress]
      cases s.opInProgress id with
      | none => rfl
      | some op =>
          cases hmutex : op.mutex with
          | none =>
              simp only [Option.map_some, Operation.rename, hmutex, Option.map_none, ↓reduceIte,
                Provider.rename_modifyOp]
              rfl
          | some t' => simp [Operation.rename, hmutex]
  | unlock id =>
      simp only [exec, Op.rename, rename_opInProgress]
      cases s.opInProgress id with
      | none => rfl
      | some op =>
          simp only [Option.map_some, Provider.rename_modifyOp]
          rfl
  | load id =>
      simp only [exec, Op.rename, rename_opInProgress, Option.map_map]
      rfl
  | setError id error =>
      exact rename_record ρ s id (fun op => { op with error }) (fun op => { op with error })
        fun _ => rfl
  | closeFds id =>
      simp only [exec, Op.rename, rename_opInProgress]
      cases s.opInProgress id with
      | none => rfl
      | some op =>
          simp only [Option.map_some, Provider.rename_modifyOp, Provider.rename_closeAll]
          rfl
  | after id callback uargs =>
      simp only [exec, Op.rename, rename_opInProgress]
      cases s.opInProgress id with
      | none => rfl
      | some op =>
          simp only [Option.map_some, Provider.modifyOp, Provider.rename, update_map]
          rfl
  | ftruncate id fd size =>
      have hdescriptor : (s.rename ρ).descriptors (fd.rename ρ) = s.descriptors fd := by
        show s.descriptors ((fd.rename ρ).rename ρ.symm) = _
        rw [Fd.rename_symm]
      have hopen : (s.rename ρ).isOpen (fd.rename ρ) = s.isOpen fd := by
        show s.isOpen ((fd.rename ρ).rename ρ.symm) = _
        rw [Fd.rename_symm]
      simp only [exec, Op.rename, hdescriptor, hopen]
      cases s.descriptors fd with
      | none => rfl
      | some p =>
          dsimp only
          split <;> rfl
  | mmap id fd size =>
      have hdescriptor : (s.rename ρ).descriptors (fd.rename ρ) = s.descriptors fd := by
        show s.descriptors ((fd.rename ρ).rename ρ.symm) = _
        rw [Fd.rename_symm]
      have hopen : (s.rename ρ).isOpen (fd.rename ρ) = s.isOpen fd := by
        show s.isOpen ((fd.rename ρ).rename ρ.symm) = _
        rw [Fd.rename_symm]
      have hmapped : (s.rename ρ).mapped (t.rename ρ) = s.mapped t := by
        show s.mapped ((t.rename ρ).rename ρ.symm) = _
        rw [Tid.rename_symm]
      simp only [exec, Op.rename, hdescriptor, hopen, hmapped]
      cases s.descriptors fd with
      | none =>
          simp only [Option.map_some, Provider.rename_mapFailure]
          rfl
      | some p =>
          dsimp only
          split
          · have hsegments := update_rename (fun a b => Seg.rename_eq ρ) s.segments
              ⟨t, s.mapped t⟩ (some p)
            have hcount := update_rename (fun a b => Tid.rename_eq ρ) s.mapped t (s.mapped t + 1)
            simp only [Option.map_some, Provider.rename, hsegments, hcount]
            rfl
          · simp only [Option.map_some, Provider.rename_mapFailure]
            rfl
  | munmap a =>
      have hupdate := update_rename (fun a b => Addr.rename_eq ρ) s.unmaps a (s.unmaps a + 1)
      simp only [exec, Op.rename, Option.map_some, Provider.rename, hupdate, Addr.rename_symm]
      rfl
  | expose segs =>
      have hnil : renameSegs ρ segs = [] ↔ segs = [] := List.map_eq_nil_iff
      simp only [exec, Op.rename, hnil]
      split
      · rfl
      · simp only [Option.map_some, Provider.rename, renameSegs_fst,
          ← count_rename (fun a b => Addr.rename_eq ρ)]
        rfl
  | pull remote segs =>
      cases remote with
      | none => rfl
      | some bulk =>
          simp only [exec, Op.rename, renameSegs_mapped, renameSegs_room, scatter_rename]
          split <;> rfl
  | msync a =>
      have hupdate := update_rename (fun a b => Addr.rename_eq ρ) s.syncs a (s.syncs a + 1)
      have hnull : Addr.rename ρ a = .null ↔ a = .null := by cases a <;> simp [Addr.rename]
      have hfailed : Addr.rename ρ a = .failed ↔ a = .failed := by cases a <;> simp [Addr.rename]
      simp only [exec, Op.rename, Option.map_some, Provider.rename, hupdate, Addr.rename_symm,
        ne_eq, hnull, hfailed]
      rfl
  | pwrite id fd data offset | abtIoPwrite id fd data offset =>
      simp only [exec, Op.rename, Provider.rename_write, Option.map_some]
      rfl
  | respond a =>
      have hupdate := update_rename (fun a b => Tid.rename_eq ρ) s.responses t (some a)
      simp only [exec, Op.rename, Option.map_some, Provider.rename, hupdate]
      rfl
  | classCount | access | before => rfl

/-! ### The handlers -/

/-- The second program is the first one for clients with other numbers. -/
abbrev RenamedBy {α β : Type} (R : α → β → Prop) (p : Handler α) (p' : Handler β) : Prop :=
  Prog.Renamed (Op.rename ρ) (Op.renameAns ρ) R p p'

/-- Any results. -/
abbrev Ended (_ _ : Unit) : Prop := True

theorem anyExists_renamed (root : Str) (files : List Str) :
    RenamedBy ρ Eq (anyExists root files) (anyExists root files) := by
  induction files with
  | nil => exact Prog.renamed_pure rfl
  | cons filename rest ih =>
      refine Prog.renamed_call fun present => ?_
      cases present
      · exact ih
      · exact Prog.renamed_pure rfl

theorem closeEach_renamed (fds : List Fd) :
    RenamedBy ρ Ended (closeEach fds) (closeEach (fds.map (Fd.rename ρ))) := by
  induction fds with
  | nil => exact Prog.renamed_pure trivial
  | cons fd rest ih => exact Prog.renamed_call fun _ => ih

theorem mkdirAll_renamed (dirs : List Str) :
    RenamedBy ρ Ended (mkdirAll dirs) (mkdirAll dirs) := by
  induction dirs with
  | nil => exact Prog.renamed_pure trivial
  | cons d rest ih => exact Prog.renamed_call fun _ => ih

theorem openFiles_renamed (root : Str) (theModes : List Nat) (files : List Str) (i : Nat)
    (opened : List Fd) :
    RenamedBy ρ (fun a b => b = a.map (List.map (Fd.rename ρ)))
      (openFiles root theModes files i opened)
      (openFiles root theModes files i (opened.map (Fd.rename ρ))) := by
  induction files generalizing i opened with
  | nil => exact Prog.renamed_pure rfl
  | cons filename rest ih =>
      refine Prog.renamed_bind (mkdirAll_renamed ρ _) fun _ _ _ => ?_
      refine Prog.renamed_call fun mode => Prog.renamed_call fun r => ?_
      cases r with
      | none => exact Prog.renamed_bind (closeEach_renamed ρ _) fun _ _ _ => Prog.renamed_pure rfl
      | some fd =>
          have hnext := ih (i + 1) (opened ++ [fd])
          rw [List.map_append] at hnext
          exact hnext

theorem createOperation_renamed (fileset : Fileset) (filesizes theModes : List Nat)
    (id : Uuid) :
    RenamedBy ρ Ended (createOperation fileset filesizes theModes id)
      (createOperation fileset filesizes theModes id) := by
  refine Prog.renamed_bind (openFiles_renamed ρ _ _ _ 0 []) fun fds fds' hfds => ?_
  subst hfds
  cases fds with
  | none => exact Prog.renamed_last fun _ => trivial
  | some fds => exact Prog.renamed_call fun _ => Prog.renamed_last fun _ => trivial

theorem callBefore_renamed (klass : MigrationClass) (fileset : Fileset) :
    RenamedBy ρ Eq (callBefore klass fileset) (callBefore klass fileset) := by
  unfold callBefore
  cases klass.beforeCallback with
  | none => exact Prog.renamed_pure rfl
  | some callback => exact Prog.renamed_last fun _ => rfl

theorem callAfter_renamed (klass : MigrationClass) (id : Uuid) :
    RenamedBy ρ Eq (callAfter klass id) (callAfter klass id) := by
  unfold callAfter
  cases klass.afterCallback with
  | none => exact Prog.renamed_pure rfl
  | some callback => exact Prog.renamed_last fun _ => rfl

theorem migrateStart_renamed (fileset : Fileset) (filesizes theModes : List Nat) :
    RenamedBy ρ Ended (migrateStart fileset filesizes theModes)
      (migrateStart fileset filesizes theModes) := by
  refine Prog.renamed_call fun id => Prog.renamed_call fun known => ?_
  cases known
  · exact Prog.renamed_last fun _ => trivial
  · refine Prog.renamed_bind (anyExists_renamed ρ _ _) fun present _ hpresent => ?_
    subst hpresent
    cases present
    · refine Prog.renamed_call fun klass => ?_
      refine Prog.renamed_bind (callBefore_renamed ρ klass fileset) fun called _ hcalled => ?_
      subst hcalled
      obtain ⟨status, fileset'⟩ := called
      dsimp only
      split
      · exact Prog.renamed_last fun _ => trivial
      · exact createOperation_renamed ρ _ _ _ _
    · exact Prog.renamed_last fun _ => trivial

theorem unmapEach_renamed (segs : List (Addr × Nat)) :
    RenamedBy ρ Ended (unmapEach segs) (unmapEach (renameSegs ρ segs)) := by
  induction segs with
  | nil => exact Prog.renamed_pure trivial
  | cons seg rest ih => exact Prog.renamed_call fun _ => ih

theorem syncEach_renamed (segs : List (Addr × Nat)) :
    RenamedBy ρ Eq (syncEach segs) (syncEach (renameSegs ρ segs)) := by
  induction segs with
  | nil => exact Prog.renamed_pure rfl
  | cons seg rest ih =>
      refine Prog.renamed_call fun ok => ?_
      cases ok
      · exact Prog.renamed_pure rfl
      · exact ih

theorem mapFiles_renamed (id : Uuid) (fds : List Fd) (i : Nat) (theData : List (Addr × Nat)) :
    RenamedBy ρ (fun a b => b = (a.1, renameSegs ρ a.2)) (mapFiles id fds i theData)
      (mapFiles id (fds.map (Fd.rename ρ)) i (renameSegs ρ theData)) := by
  induction fds generalizing i theData with
  | nil => exact Prog.renamed_pure rfl
  | cons fd rest ih =>
      refine Prog.renamed_call fun size => ?_
      show RenamedBy ρ _ (if size = 0 then _ else _) (if size = 0 then _ else _)
      split
      · exact ih _ _
      · refine Prog.renamed_call fun ok => ?_
        cases ok
        · exact Prog.renamed_pure rfl
        · refine Prog.renamed_call fun segment => ?_
          have hnext := ih (i + 1) (theData ++ [(segment, size)])
          rw [show renameSegs ρ (theData ++ [(segment, size)]) =
            renameSegs ρ theData ++ [(Addr.rename ρ segment, size)] from List.map_append] at hnext
          cases segment with
          | null => exact Prog.renamed_pure rfl
          | failed | mapped seg => exact hnext

theorem mmapFailed_renamed (id : Uuid) (theData : List (Addr × Nat)) :
    RenamedBy ρ Ended (mmapFailed id theData) (mmapFailed id (renameSegs ρ theData)) :=
  Prog.renamed_bind (unmapEach_renamed ρ _) fun _ _ _ =>
    Prog.renamed_call fun _ => Prog.renamed_last fun _ => trivial

theorem migrateMmap_renamed (id : Uuid) (remoteBulk : Option Bulk) :
    RenamedBy ρ Ended (migrateMmap id remoteBulk) (migrateMmap id remoteBulk) := by
  refine Prog.renamed_call fun known => ?_
  cases known
  · exact Prog.renamed_last fun _ => trivial
  · refine Prog.renamed_call fun op => ?_
    refine Prog.renamed_bind (mapFiles_renamed ρ id op.fds 0 []) fun mapped _ hmapped => ?_
    subst hmapped
    obtain ⟨_ | _, theData⟩ := mapped
    · exact mmapFailed_renamed ρ id theData
    · refine Prog.renamed_call fun _ => Prog.renamed_call fun transferred => ?_
      show RenamedBy ρ Ended (if transferred % sizeModulus ≠ op.filesizes.sum % sizeModulus then _
        else _) (if transferred % sizeModulus ≠ op.filesizes.sum % sizeModulus then _ else _)
      split
      · exact Prog.renamed_last fun _ => trivial
      · refine Prog.renamed_bind (syncEach_renamed ρ theData) fun synced _ hsynced => ?_
        subst hsynced
        cases synced
        · exact mmapFailed_renamed ρ id theData
        · exact Prog.renamed_bind (unmapEach_renamed ρ _) fun _ _ _ =>
            Prog.renamed_last fun _ => trivial

theorem writeRefused_renamed (id : Uuid) :
    RenamedBy ρ Ended (writeRefused id) (writeRefused id) :=
  Prog.renamed_call fun _ => Prog.renamed_call fun _ => Prog.renamed_last fun _ => trivial

theorem writeChunk_renamed (abtio : Bool) (id : Uuid) (fd : Fd) (writeOffset : Nat)
    (data : Bytes) :
    RenamedBy ρ Ended (writeChunk abtio id fd writeOffset data)
      (writeChunk abtio id (fd.rename ρ) writeOffset data) := by
  refine Prog.renamed_call fun _ => ?_
  have hwritten : ∀ s : Int, RenamedBy ρ Ended
      (if s ≠ data.length then do
        issue (.setError id .errIo)
        issue (.unlock id)
      else issue (.unlock id))
      (if s ≠ data.length then do
        issue (.setError id .errIo)
        issue (.unlock id)
      else issue (.unlock id)) := by
    intro s
    split
    · exact Prog.renamed_call fun _ => Prog.renamed_last fun _ => trivial
    · exact Prog.renamed_last fun _ => trivial
  cases abtio
  · exact Prog.renamed_call hwritten
  · exact Prog.renamed_call hwritten

theorem migrateWrite_renamed (abtio : Bool) (id : Uuid) (fileNumber writeOffset : Nat)
    (data : Bytes) :
    RenamedBy ρ Ended (migrateWrite abtio id fileNumber writeOffset data)
      (migrateWrite abtio id fileNumber writeOffset data) := by
  refine Prog.renamed_call fun known => ?_
  cases known
  · exact Prog.renamed_last fun _ => trivial
  · refine Prog.renamed_call fun _ => Prog.renamed_call fun op => ?_
    have hfds : (Operation.rename ρ op).fds[fileNumber]? =
        op.fds[fileNumber]?.map (Fd.rename ρ) := List.getElem?_map
    cases hfd : op.fds[fileNumber]? with
    | none =>
        rw [hfd, Option.map_none] at hfds
        have hrefused := writeRefused_renamed ρ id
        simp only [Op.renameAns, hfds]
        exact hrefused
    | some fd =>
        rw [hfd, Option.map_some] at hfds
        simp only [Op.renameAns, hfds]
        refine Prog.renamed_call fun size => ?_
        show RenamedBy ρ Ended (if size < (writeOffset + data.length) % sizeModulus then _ else _)
          (if size < (writeOffset + data.length) % sizeModulus then _ else _)
        split
        · exact writeRefused_renamed ρ id
        · exact writeChunk_renamed ρ abtio id fd writeOffset data

theorem migrateEnd_renamed (id : Uuid) :
    RenamedBy ρ Ended (migrateEnd id) (migrateEnd id) := by
  refine Prog.renamed_call fun known => ?_
  cases known
  · exact Prog.renamed_last fun _ => trivial
  · refine Prog.renamed_call fun _ => Prog.renamed_call fun _ => Prog.renamed_call fun op => ?_
    show RenamedBy ρ Ended (if op.error ≠ .success then endFailed id op.error else endFinished id)
      (if op.error ≠ .success then endFailed id op.error else endFinished id)
    split
    · exact Prog.renamed_call fun _ => Prog.renamed_call fun _ =>
        Prog.renamed_last fun _ => trivial
    · refine Prog.renamed_call fun op' => Prog.renamed_call fun klass => ?_
      refine Prog.renamed_bind (callAfter_renamed ρ klass id) fun status _ hstatus => ?_
      subst hstatus
      exact Prog.renamed_call fun _ => Prog.renamed_call fun _ =>
        Prog.renamed_last fun _ => trivial

/-- The handlers contain no number of a client. -/
theorem handle_renamed (abtio : Bool) (q : Request) :
    RenamedBy ρ Ended (handle abtio q) (handle abtio q) := by
  cases q with
  | start fileset filesizes theModes => exact migrateStart_renamed ρ fileset filesizes theModes
  | mmap id remoteBulk => exact migrateMmap_renamed ρ id remoteBulk
  | write id fileNumber writeOffset data =>
      exact migrateWrite_renamed ρ abtio id fileNumber writeOffset data
  | end_ id => exact migrateEnd_renamed ρ id

end

end Remi
