import Remi.Proofs.Delivery
import Remi.Proofs.Issues

/-!
# `Remi.Proofs.Segments`: the two sides of a transfer through mappings

The client exposes the nonempty files of the walkthrough, and the provider those it has opened.
`exposeNamed` and `mapNamed` are the two loops with the name of the file noted at each segment.
`segments_agree_iff` says when both sides describe the same bytes: there has to be a nonempty
file, because the provider does not look whether it has any segment to expose.
-/

set_option autoImplicit false

namespace Remi

open Remi.Lib

/-- A segment with its size, and the name of its file. -/
structure Named (α : Type) where
  filename : Str
  segment : α
  size : Nat

/-- The name of the file and the size. -/
def Named.label {α : Type} (x : Named α) : Str × Nat := (x.filename, x.size)

/-! ### The client -/

section Client
variable (io : ClientIo) (T : SourceTree) (root : Str)

/-- `exposeFiles` with the names noted. -/
def exposeNamed : List Str → Nat → List (Named (Mapping Bytes)) →
    Except Ret (List (Named (Mapping Bytes)))
  | [], _, theData => .ok theData
  | filename :: rest, i, theData =>
    match if io.openFails i then none else T.openFile (root ++ filename) with
    | none => .error .errUnknownFile
    | some file =>
      if io.fstatFails i then .error .errIo
      else if file.size = 0 then exposeNamed rest (i + 1) theData
      else
        match mmapFile (io.mmapFails i) (Bulk.bytes (theData.map (·.segment))).length file with
        | .null => .error .errAllocation
        | segment => exposeNamed rest (i + 1) (theData ++ [⟨filename, segment, file.size⟩])

variable {io T root}

variable (io T root) in
/-- Without the names, these are the segments that are exposed. -/
theorem exposeFiles_named (files : List Str) (i : Nat) (e : Exposed)
    (theData : List (Named (Mapping Bytes))) (h : e.theData = theData.map (·.segment)) :
    (exposeFiles io T root files i e).map (·.theData) =
      (exposeNamed io T root files i theData).map fun segs => segs.map (·.segment) := by
  induction files generalizing i e theData with
  | nil => exact congrArg Except.ok h
  | cons filename rest ih =>
      simp only [exposeFiles, exposeNamed]
      cases hopen : (if io.openFails i = true then none else T.openFile (root ++ filename)) with
      | none => rfl
      | some file =>
          dsimp only
          by_cases hstat : io.fstatFails i = true
          · rw [if_pos hstat, if_pos hstat]
            rfl
          · rw [if_neg hstat, if_neg hstat]
            by_cases hsize : file.size = 0
            · rw [if_pos hsize, if_pos hsize]
              exact ih _ _ _ h
            · rw [if_neg hsize, if_neg hsize, Exposed.mapped, h]
              cases mmapFile (io.mmapFails i) (Bulk.bytes (theData.map (·.segment))).length
                file with
              | null => rfl
              | failed | mapped b => exact ih _ _ _ (by simp)

/-- The client has a segment for each nonempty file, in their order. -/
theorem exposeNamed_ok {files : List Str} {i : Nat} (h : OpensFrom io T root files i)
    (theData : List (Named (Mapping Bytes))) :
    ∃ new, exposeNamed io T root files i theData = .ok (theData ++ new) ∧
      new.map Named.label =
        (files.zip ((sources T root files).map (·.size))).filter fun x => x.2 ≠ 0 := by
  induction files generalizing i theData with
  | nil => exact ⟨[], by simp [exposeNamed], rfl⟩
  | cons filename rest ih =>
      obtain ⟨hopen, hstat, hfile, hrest⟩ := h
      obtain ⟨file, hfile⟩ := Option.isSome_iff_exists.mp hfile
      rw [sources_cons hfile, List.map_cons, List.zip_cons_cons]
      simp only [exposeNamed, hopen, hfile, hstat, Bool.false_eq_true, ↓reduceIte]
      -- An empty file is counted but not exposed.
      by_cases hsize : file.size = 0
      · obtain ⟨new, hnew, hlabels⟩ := ih hrest theData
        exact ⟨new, by rw [if_pos hsize, hnew], by simp [hsize, hlabels]⟩
      · rw [if_neg hsize]
        split
        · rename_i hnull
          exact absurd hnull (mmapFile_ne_null _ _ _)
        · obtain ⟨new, hnew, hlabels⟩ := ih hrest (theData ++ [⟨filename, mmapFile (io.mmapFails i)
            (Bulk.bytes (theData.map (·.segment))).length file, file.size⟩])
          refine ⟨⟨filename, mmapFile (io.mmapFails i)
            (Bulk.bytes (theData.map (·.segment))).length file, file.size⟩ :: new, ?_, ?_⟩
          · rw [hnew, List.append_assoc, List.singleton_append]
          · simp [Named.label, hsize, hlabels]

end Client

/-! ### The provider -/

/-- `mapFiles` with the names noted, where each descriptor comes with the name of its file. -/
def mapNamed (operationId : Uuid) :
    List (Fd × Str) → Nat → List (Named Addr) → Handler (Bool × List (Named Addr))
  | [], _, theData => pure (true, theData)
  | file :: rest, i, theData => do
    let size ← issue (.filesizeAt operationId i)
    if size = 0 then mapNamed operationId rest (i + 1) theData
    else if !(← issue (.ftruncate operationId file.1 size)) then pure (false, theData)
    else
      let segment ← issue (.mmap operationId file.1 size)
      if segment = .null then pure (false, theData)
      else mapNamed operationId rest (i + 1) (theData ++ [⟨file.2, segment, size⟩])

/-- A segment without the name. -/
def Named.plain (x : Named Addr) : Addr × Nat := (x.segment, x.size)

/-- Without the names, this is the loop of the provider. -/
theorem mapFiles_named (id : Uuid) (files : List (Fd × Str)) (i : Nat)
    (theData : List (Named Addr)) :
    mapFiles id (files.map (·.1)) i (theData.map Named.plain) =
      mapNamed id files i theData >>= fun r => .pure (r.1, r.2.map Named.plain) := by
  -- Both loops take the same decisions, on the size and on the two calls.
  induction files generalizing i theData with
  | nil => rfl
  | cons file rest ih =>
      simp only [List.map_cons, mapFiles, mapNamed, Prog.call_bind, Prog.op_bind]
      congr 1
      funext size
      by_cases hsize : size = 0
      · rw [if_pos hsize, if_pos hsize, ih]
      · rw [if_neg hsize, if_neg hsize, Prog.op_bind]
        congr 1
        funext ok
        cases ok with
        | false => rfl
        | true =>
            simp only [Bool.not_true, Bool.false_eq_true, ↓reduceIte, Prog.op_bind]
            congr 1
            funext segment
            by_cases hnull : segment = .null
            · rw [if_pos hnull, if_pos hnull]
              rfl
            · rw [if_neg hnull, if_neg hnull, ← ih]
              simp [Named.plain]

/-- The names with the sizes at their positions. What is behind the end counts as 0. -/
def sized : List Str → List Nat → List (Str × Nat)
  | [], _ => []
  | filename :: rest, sizes => (filename, sizes.headD 0) :: sized rest sizes.tail

section Run
variable {env : Env} {t : Tid} {id : Uuid}

theorem step_record (id : Uuid) {o : Op} {r : Ans o} {s s' : Site}
    (h : env.step t o s = some (r, s')) (ho : ∀ w record, o.record t w id record = record) :
    s'.provider.opInProgress id = s.provider.opInProgress id :=
  ((exec_effect (step_exec h)).record id).trans (ho _ _)

theorem step_filesizeAt {i r : Nat} {op : Operation} {s s' : Site}
    (h : env.step t (.filesizeAt id i) s = some (r, s'))
    (hrecord : s.provider.opInProgress id = some op) : r = (op.filesizes.drop i).headD 0 := by
  have hexec := step_exec h
  have hsize : r = op.filesizes.getD i 0 := by
    simp only [exec, hrecord] at hexec
    split at hexec
    · exact (congrArg (fun x => x.1) (Option.some.inj hexec)).symm
    · exact (congrArg (fun x => x.1) (Option.some.inj hexec)).symm
  rw [hsize, List.headD_eq_head?_getD, List.head?_drop, List.getD_eq_getElem?_getD]

/-- A loop that gets through has a segment for each file with a size, in their order. -/
theorem run_mapNamed {op : Operation} {files : List (Fd × Str)} {i : Nat}
    {theData named : List (Named Addr)} {s s' : Site}
    (hrecord : s.provider.opInProgress id = some op)
    (h : (mapNamed id files i theData).run (env.step t) s = (some (true, named), s')) :
    ∃ new, named = theData ++ new ∧ new.map Named.label =
      (sized (files.map (·.2)) (op.filesizes.drop i)).filter fun x => x.2 ≠ 0 := by
  -- The record of the operation stays as it is, so the sizes are the ones it was made with.
  induction files generalizing i theData s with
  | nil =>
      obtain ⟨⟨⟩, rfl⟩ := Prod.mk.inj h
      exact ⟨[], by simp, rfl⟩
  | cons file rest ih =>
      rw [mapNamed, Prog.call_bind] at h
      obtain ⟨size, s₁, hsize, h⟩ := Prog.run_op_returns _ h
      have hrecord₁ := (step_record id hsize fun _ _ => rfl).trans hrecord
      rw [List.map_cons, sized, ← step_filesizeAt hsize hrecord, List.tail_drop]
      by_cases hzero : size = 0
      · rw [if_pos hzero] at h
        obtain ⟨new, hnew, hlabels⟩ := ih hrecord₁ h
        exact ⟨new, hnew, by rw [List.filter_cons_of_neg (by simp [hzero]), hlabels]⟩
      · rw [if_neg hzero, Prog.call_bind] at h
        obtain ⟨ok, s₂, hcut, h⟩ := Prog.run_op_returns _ h
        have hrecord₂ := (step_record id hcut fun _ _ => rfl).trans hrecord₁
        cases ok with
        | false => cases h
        | true =>
            simp only [Bool.not_true, Bool.false_eq_true, ↓reduceIte] at h
            rw [Prog.call_bind] at h
            obtain ⟨segment, s₃, hmap, h⟩ := Prog.run_op_returns _ h
            have hrecord₃ := (step_record id hmap fun _ _ => rfl).trans hrecord₂
            by_cases hnull : segment = .null
            · rw [if_pos hnull] at h
              cases h
            · rw [if_neg hnull] at h
              obtain ⟨new, hnew, hlabels⟩ := ih hrecord₃ h
              refine ⟨⟨file.2, segment, size⟩ :: new, by rw [hnew]; simp, ?_⟩
              rw [List.filter_cons_of_pos (by simp [hzero]), List.map_cons, hlabels]
              rfl

end Run

theorem sized_nil (names : List Str) : (sized names []).filter (fun x => x.2 ≠ 0) = [] := by
  induction names with
  | nil => rfl
  | cons name rest ih =>
      rw [sized, List.filter_cons_of_neg (by simp)]
      exact ih

/-- Two lists of names agree about the nonempty files when those have the same positions. -/
theorem sized_eq_iff {names : List Str} {sizes : List Nat} (names' : List Str)
    (h : names.length = sizes.length) :
    (names.zip sizes).filter (fun x => x.2 ≠ 0) = (sized names' sizes).filter (fun x => x.2 ≠ 0) ↔
      ∀ (i : Nat) (name : Str) (size : Nat), names[i]? = some name → sizes[i]? = some size →
        size ≠ 0 → names'[i]? = some name := by
  induction sizes generalizing names names' with
  | nil =>
      rw [List.zip_nil_right, sized_nil]
      exact iff_of_true rfl fun i name size _ hsize => by simp at hsize
  | cons size sizes ih =>
      obtain ⟨name, names, rfl⟩ := List.exists_cons_of_length_eq_add_one h
      have hlength := Nat.succ.inj h
      -- The condition at the first position, and at the others.
      have hsplit : (∀ (i : Nat) (n : Str) (k : Nat), (name :: names)[i]? = some n →
          (size :: sizes)[i]? = some k → k ≠ 0 → names'[i]? = some n) ↔
            (size ≠ 0 → names'.head? = some name) ∧
            ∀ (i : Nat) (n : Str) (k : Nat), names[i]? = some n → sizes[i]? = some k → k ≠ 0 →
              names'.tail[i]? = some n := by
        constructor
        · intro hall
          refine ⟨fun hsize => ?_, fun i n k hn hk hne => ?_⟩
          · rw [List.head?_eq_getElem?]
            exact hall 0 name size rfl rfl hsize
          · rw [List.getElem?_tail]
            exact hall (i + 1) n k hn hk hne
        · rintro ⟨hfirst, hrest⟩ i n k hn hk hne
          cases i with
          | zero =>
              obtain rfl := Option.some.inj hn
              obtain rfl := Option.some.inj hk
              rw [← List.head?_eq_getElem?]
              exact hfirst hne
          | succ i =>
              rw [← List.getElem?_tail]
              exact hrest i n k hn hk hne
      rw [hsplit, ← ih names'.tail hlength, List.zip_cons_cons]
      cases names' with
      | nil =>
          by_cases hsize : size = 0
          · simp [hsize, sized]
          · simp [hsize, sized]
      | cons name' names' =>
          rw [sized, List.headD_cons, List.tail_cons, List.tail_cons]
          by_cases hsize : size = 0
          · simp [hsize]
          · rw [List.filter_cons_of_pos (by simp [hsize]),
              List.filter_cons_of_pos (by simp [hsize])]
            simp [hsize, eq_comm]

/-- The files that are left out have no size. -/
theorem sum_filter_zip {names : List Str} {sizes : List Nat} (h : names.length = sizes.length) :
    (((names.zip sizes).filter fun x => x.2 ≠ 0).map (·.2)).sum = sizes.sum := by
  induction sizes generalizing names with
  | nil => simp
  | cons size sizes ih =>
      obtain ⟨name, names, rfl⟩ := List.exists_cons_of_length_eq_add_one h
      rw [List.zip_cons_cons, List.sum_cons, ← ih (Nat.succ.inj h)]
      by_cases hsize : size = 0
      · simp [hsize]
      · simp [hsize]

/-! ### What the provider exposes -/

section Trace
variable {env : Env} {t : Tid} {id : Uuid}

theorem mapFiles_issues (id : Uuid) (fds : List Fd) (i : Nat) (theData : List (Addr × Nat)) :
    (mapFiles id fds i theData).Issues fun o =>
      (∀ segs, o ≠ .expose segs) ∧ ∀ bulk segs, o ≠ .pull bulk segs := by
  induction fds generalizing i theData with
  | nil => trivial
  | cons fd rest ih =>
      refine Prog.issues_call ⟨by simp, by simp⟩ fun size => ?_
      split
      · exact ih _ _
      · refine Prog.issues_call ⟨by simp, by simp⟩ fun ok => ?_
        split
        · trivial
        · refine Prog.issues_call ⟨by simp, by simp⟩ fun segment => ?_
          split
          · trivial
          · exact ih _ _

/-- The transfer exposes the segments of the provider and no others. -/
theorem mmapTransfer_issues (id : Uuid) (bulk : Option Bulk) (total : Nat)
    (theData : List (Addr × Nat)) :
    (mmapTransfer id bulk total theData).Issues fun o =>
      ∀ segs, o = .expose segs → segs = theData := by
  refine Prog.issues_call (fun segs hsegs => (Op.expose.inj hsegs).symm) fun _ => ?_
  refine Prog.issues_call (by simp) fun transferred => ?_
  split
  · exact Prog.issues_last (by simp)
  · refine Prog.issues_bind (syncEach_issues (by simp) _) fun ok => ?_
    split
    · refine Prog.issues_bind (unmapEach_issues (by simp) _) fun _ => ?_
      exact Prog.issues_call (by simp) fun _ => Prog.issues_last (by simp)
    · exact Prog.issues_bind (unmapEach_issues (by simp) _) fun _ => Prog.issues_last (by simp)

/-- The operations of `migrate_mmap` behind its mapping loop. -/
theorem migrateMmap_trace (bulk : Option Bulk) {op : Operation} {theData : List (Addr × Nat)}
    {s s' : Site} (hrecord : s.provider.opInProgress id = some op)
    (hmap : (mapFiles id op.fds 0 []).run (env.step t) s = (some (true, theData), s')) :
    (migrateMmap id bulk).trace (env.step t) s =
      (.find id, s) :: (.load id, s) :: ((mapFiles id op.fds 0 []).trace (env.step t) s ++
        (mmapTransfer id bulk (op.filesizes.sum % sizeModulus) theData).trace (env.step t) s') := by
  have hfind : env.step t (.find id) s = some (true, s) := by
    simp [Env.step, exec, Op.sysCall, hrecord]
  have hload : env.step t (.load id) s = some (op, s) := by
    simp [Env.step, exec, Op.sysCall, hrecord]
  rw [migrateMmap, Prog.call_bind, Prog.trace_op_some _ hfind]
  simp only [Bool.not_true, Bool.false_eq_true, ↓reduceIte]
  rw [Prog.call_bind, Prog.trace_op_some _ hload, Prog.trace_bind_some _ hmap]
  rfl

/-- The segments of the provider are exposed in any case. The transfer is issued when there are
some. -/
theorem exposes_theData (bulk : Option Bulk) {op : Operation} {theData : List (Addr × Nat)}
    {s s' : Site} (hrecord : s.provider.opInProgress id = some op)
    (hmap : (mapFiles id op.fds 0 []).run (env.step t) s = (some (true, theData), s')) :
    (∃ x ∈ (migrateMmap id bulk).trace (env.step t) s, x.1 = .expose theData) ∧
      (∀ x ∈ (migrateMmap id bulk).trace (env.step t) s, ∀ segs, x.1 = .expose segs →
        segs = theData) ∧
      (theData ≠ [] → ∃ x ∈ (migrateMmap id bulk).trace (env.step t) s,
        x.1 = .pull bulk theData) := by
  rw [migrateMmap_trace bulk hrecord hmap]
  refine ⟨⟨(.expose theData, s'), ?_, rfl⟩, fun x hx segs hsegs => ?_, fun hne => ?_⟩
  · exact List.mem_cons_of_mem _ (List.mem_cons_of_mem _
      (List.mem_append_right _ (Prog.mem_trace_call _ _ _ _)))
  · rcases List.mem_cons.mp hx with rfl | hx
    · cases hsegs
    · rcases List.mem_cons.mp hx with rfl | hx
      · cases hsegs
      · rcases List.mem_append.mp hx with hx | hx
        · exact absurd hsegs (((mapFiles_issues id op.fds 0 []).trace _ s x hx).1 segs)
        · exact (mmapTransfer_issues id bulk _ theData).trace _ s' x hx segs hsegs
  · obtain ⟨s'', hexpose⟩ : ∃ s'', env.step t (.expose theData) s' = some ((), s'') := by
      simp [Env.step, exec, hne]
    refine ⟨(.pull bulk theData, s''), ?_, rfl⟩
    refine List.mem_cons_of_mem _ (List.mem_cons_of_mem _ (List.mem_append_right _ ?_))
    rw [mmapTransfer, Prog.call_bind, Prog.trace_op_some _ hexpose]
    exact List.mem_cons_of_mem _ (Prog.mem_trace_call _ _ _ _)

end Trace

/-! ### Both sides -/

section Sides
variable (env : Env) (abtio : Bool) (io : ClientIo) (T : SourceTree) (fileset : Fileset) (id : Uuid)

/-- The operations of the handler of `migrate_mmap`, with the bulk handle of the client. -/
def mmapOps (s : Site) : List (Op × Site) :=
  (handle abtio (.mmap id (localBulk io T fileset))).trace (env.step s.tid) s.receive

/-- The two sides of a transfer for the operation `op` describe the same bytes: each descriptor
has been opened for the file of its name, the segments have the same names and sizes in the same
order, with the total that the provider expects, and the provider exposes segments and issues the
transfer when the client has exposed some. -/
structure SidesAgree (op : Operation) (s : Site) : Prop where
  opened : List.Forall₂ (fun fd name =>
    s.provider.Holds fd (s.provider.fs.place (op.fileset.root ++ name))) op.fds
      op.fileset.files.toList
  segments : ∃ (here : List (Named (Mapping Bytes))) (there : List (Named Addr)),
    exposeNamed io T fileset.root (remiFilesetWalkthrough T fileset).toList 0 [] = .ok here ∧
      ((mapNamed id (op.fds.zip op.fileset.files.toList) 0 []).run (env.step s.tid) s.receive).1 =
        some (true, there) ∧
      here.map Named.label = there.map Named.label ∧
      (there.map (·.size)).sum % sizeModulus = op.filesizes.sum % sizeModulus
  exposed : (∃ x ∈ mmapOps env abtio io T fileset id s, ∃ segs, x.1 = .expose segs) ↔
    (localBulk io T fileset).isSome = true
  pulled : (∃ x ∈ mmapOps env abtio io T fileset id s, ∃ bulk segs, x.1 = .pull bulk segs) ↔
    (localBulk io T fileset).isSome = true
  nonempty : localBulk io T fileset ≠ some [] ∧
    ∀ x ∈ mmapOps env abtio io T fileset id s, x.1 ≠ .expose []

variable {io T fileset}

/-- The bulk handle of the client has the segments of the loop. -/
theorem localBulk_named {here : List (Named (Mapping Bytes))}
    (h : exposeNamed io T fileset.root (remiFilesetWalkthrough T fileset).toList 0 [] = .ok here) :
    localBulk io T fileset = if here = [] then none else some (here.map (·.segment)) := by
  have hnamed := exposeFiles_named io T fileset.root (remiFilesetWalkthrough T fileset).toList 0
    ⟨[], [], []⟩ [] rfl
  rw [h] at hnamed
  unfold localBulk
  cases hloop : exposeFiles io T fileset.root (remiFilesetWalkthrough T fileset).toList 0
    ⟨[], [], []⟩ with
  | error ret =>
      rw [hloop] at hnamed
      cases hnamed
  | ok e =>
      rw [hloop] at hnamed
      have he : e.theData = here.map (·.segment) := Except.ok.inj hnamed
      simp only [he, List.map_eq_nil_iff]

/-- The mapping loop of the provider, with the names. -/
theorem mapNamed_of_mapFiles {names : List Str} {op : Operation} {theData : List (Addr × Nat)}
    {t : Tid} {s s' : Site} (hlength : op.fds.length = names.length)
    (hrecord : s.provider.opInProgress id = some op)
    (hmap : (mapFiles id op.fds 0 []).run (env.step t) s = (some (true, theData), s')) :
    ∃ there, ((mapNamed id (op.fds.zip names) 0 []).run (env.step t) s).1 = some (true, there) ∧
      theData = there.map Named.plain ∧
      there.map Named.label = (sized names op.filesizes).filter fun x => x.2 ≠ 0 := by
  have hnamed := mapFiles_named id (op.fds.zip names) 0 []
  rw [List.map_fst_zip (Nat.le_of_eq hlength), List.map_nil] at hnamed
  rw [hnamed, Prog.run_bind_pure] at hmap
  obtain ⟨hresult, -⟩ := Prod.mk.inj hmap
  obtain ⟨⟨ok, there⟩, hrun, heq⟩ := Option.map_eq_some_iff.mp hresult
  obtain ⟨rfl, rfl⟩ := Prod.mk.inj heq
  obtain ⟨new, rfl, hlabels⟩ := run_mapNamed hrecord (Prod.ext hrun rfl)
  rw [List.map_snd_zip (Nat.le_of_eq hlength.symm), List.drop_zero] at hlabels
  exact ⟨_, hrun, rfl, hlabels⟩

end Sides

/-- `migrate_start` for the files below `/a` in a tree, at a provider without files. -/
def startBelow (T : SourceTree) : (Ret × Int × Uuid) × Site :=
  (providerRpc .succeed false).start (sentFileset T byteByByte ['/', 'b'])
    ((Sources T byteByByte).map (·.size)) ((Sources T byteByByte).map (·.mode))
    (.init acceptAll .empty)

theorem startBelow_smallTree :
    ((startBelow smallTree).2.provider.opInProgress 0).isSome = true := by decide +kernel

theorem noBytes_small : ([] : Bytes).length < offsetBound := by decide

/-- The directory `/a` with the empty file `f`. -/
def emptyTree : SourceTree where
  entries := [⟨[['a']], .dir 0, 0, true⟩, ⟨[['a'], ['f']], .file ⟨[], noBytes_small⟩, 0, true⟩]
  names := by decide
  nodup := by decide
  parents := by decide

theorem startBelow_emptyTree :
    ((startBelow emptyTree).2.provider.opInProgress 0).isSome = true := by decide +kernel

end Remi
