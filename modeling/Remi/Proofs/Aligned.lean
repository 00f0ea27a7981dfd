import Remi.Proofs.Owned

/-!
# `Remi.Proofs.Aligned`: the vectors of an operation and its files

`migrate_start` has three vectors: the sizes and the modes come with the request, and the
descriptors are opened in the order of the files. Nothing compares the lengths of the first two
with the number of files, and the "before" callback may change the files after the vectors have
been made for them. A "before" callback that accepts thus decides whether the vectors fit:
`System.Fitting` is the condition on this step.

`alignment` is the monitor that follows the indices. Its ghost state is a `Sheet`: the fileset
that the callback has accepted, the descriptors opened for its files so far, and the number of
descriptors of the record that was loaded last. In runs within the condition every index is in
bounds, and every record is `Aligned` with the request that it has been made for
(`alignedInBounds_of_fitting`).
-/

set_option autoImplicit false

namespace Remi

open Remi.Lib

/-- The sizes and modes are those of the request, one for each file. -/
structure Request.Fits (q : Request) (files : SortedSet Str) (sizes modes : List Nat) : Prop where
  request : ∃ fileset, q = .start fileset sizes modes ∧ files = fileset.files
  sizes : sizes.length = files.toList.length
  modes : modes.length = files.toList.length

/-- The vectors of a record have one length. They are the ones of the request that the record
has been made for, whose files are those of the record, and each descriptor has been opened for
the file at its position. -/
structure Operation.Aligned (op : Operation) (s : Provider) (q : Request) : Prop where
  fits : q.Fits op.fileset.files op.filesizes op.modes
  fds : List.Forall₂ (fun fd name => ∃ root, s.descriptors fd = some (s.fs.place (root ++ name)))
    op.fds op.fileset.files.toList

/-- The request of the handler that has drawn the id. -/
def System.DrawnFor (P : System) (id : Uuid) (q : Request) : Prop :=
  ∃ t rest, P.shared.issuedTo id = some t ∧ P.thread t = some ⟨q, rest⟩

/-- Every record is aligned with the request it has been made for, and no vector has been read
past its end. -/
structure System.AlignedInBounds (P : System) : Prop where
  records : ∀ id op, P.shared.opInProgress id = some op →
    ∃ q, P.DrawnFor id q ∧ op.Aligned P.shared q
  inBounds : P.shared.outOfBounds = 0

/-- The condition on a step. A "before" callback accepts only the files of the request, and only
when there are as many sizes and modes as files. An "after" callback keeps the files. -/
def System.Fitting (P : System) : Step → Prop
  | .spawn _ _ => True
  | .step t w =>
    (∀ fileset sizes modes callback uargs called k,
      P.thread t = some ⟨.start fileset sizes modes, .op (.before callback uargs called) k⟩ →
      (w.callback called).1 = 0 →
      (Request.start fileset sizes modes).Fits (w.callback called).2.files sizes modes) ∧
    ∀ q id callback uargs k op, P.thread t = some ⟨q, .op (.after id callback uargs) k⟩ →
      P.shared.opInProgress id = some op → (w.callback op.fileset).2.files = op.fileset.files

/-! ### The indices of a handler -/

/-- What is remembered of a handler's vectors. -/
structure Sheet where
  req : Request
  /-- The callback has accepted. -/
  accepted : Bool := false
  /-- The fileset after the callback. -/
  chosen : Fileset := ⟨[], 0, [], .empty, .empty, .empty, defaultXferSize⟩
  /-- The descriptors opened so far. -/
  opened : List Fd := []
  /-- The record loaded last, with the number of its descriptors. -/
  looked : Option (Uuid × Nat) := none

namespace Sheet

/-- The sizes and modes of a `migrate_start`. -/
def Vectors (sh : Sheet) (sizes modes : List Nat) : Prop :=
  ∃ fileset, sh.req = .start fileset sizes modes

/-- The indices and paths that a handler may use next. -/
def Allows (sh : Sheet) : Op → Prop
  | .vecAt v i => sh.accepted ∧ (∃ sizes, sh.Vectors sizes v) ∧
      i < sh.chosen.files.toList.length
  | .openTrunc path _ => sh.accepted ∧ ∃ name,
      sh.chosen.files.toList[sh.opened.length]? = some name ∧ path = sh.chosen.root ++ name
  | .insert _ op => sh.accepted ∧ sh.Vectors op.filesizes op.modes ∧ op.fileset = sh.chosen ∧
      op.fds = sh.opened ∧ sh.opened.length = sh.chosen.files.toList.length
  | .filesizeAt id i => ∃ n, sh.looked = some (id, n) ∧ i < n
  | .before _ _ _ => sh.req.kind = .start ∧ sh.opened = []
  | _ => True

def after (sh : Sheet) : (o : Op) → Ans o → Sheet
  | .before _ _ _, r => { sh with accepted := r.1 = 0, chosen := r.2 }
  | .openTrunc _ _, r => { sh with opened := sh.opened ++ r.toList }
  | .load id, op => { sh with looked := some (id, op.fds.length) }
  | _, _ => sh

end Sheet

/-- The order in which a handler uses its vectors. -/
def alignment : Monitor Ans Sheet := .computed Sheet.Allows Sheet.after fun _ => True

/-- A program whose indices and paths `alignment` allows. -/
abbrev Aligns {α : Type} (p : Handler α) (sh : Sheet) (Q : Sheet → α → Prop) : Prop :=
  p.Obeys alignment Q sh

section Programs

theorem mkdirAll_aligns (sh : Sheet) (dirs : List Str) :
    Aligns (mkdirAll dirs) sh fun sh' _ => sh' = sh := by
  induction dirs with
  | nil => rfl
  | cons d rest ih => exact Prog.obeys_call trivial fun _ => ih

theorem anyExists_aligns (sh : Sheet) (root : Str) (files : List Str) :
    Aligns (anyExists root files) sh fun sh' _ => sh' = sh := by
  induction files with
  | nil => rfl
  | cons filename rest ih =>
      refine Prog.obeys_call trivial fun r => ?_
      cases r
      · exact ih
      · rfl

theorem closeEach_aligns (sh : Sheet) (fds : List Fd) :
    Aligns (closeEach fds) sh fun sh' _ => sh' = sh := by
  induction fds with
  | nil => rfl
  | cons fd rest ih => exact Prog.obeys_call trivial fun _ => ih

/-- The sheet after the creating loop, whose result are the descriptors of all files. -/
def Opened (start : Sheet) (sh : Sheet) (fds : Option (List Fd)) : Prop :=
  ∀ l, fds = some l → sh = { start with opened := l } ∧
    l.length = start.chosen.files.toList.length

variable {sh : Sheet} {sizes modes : List Nat}

/-- The creating loop has opened a first part of the files, and opens the others. -/
theorem openFiles_aligns (haccepted : sh.accepted = true)
    (hvectors : sh.Vectors sizes modes) (opened : List Fd) (names : List Str)
    (hnames : sh.chosen.files.toList.drop opened.length = names)
    (hle : opened.length ≤ sh.chosen.files.toList.length) :
    Aligns (openFiles sh.chosen.root modes names opened.length opened)
      { sh with opened := opened } (Opened sh) := by
  induction names generalizing opened with
  | nil =>
      rintro l ⟨⟩
      have hlen := List.drop_eq_nil_iff.mp hnames
      exact ⟨rfl, by omega⟩
  | cons filename rest ih =>
      have hget : sh.chosen.files.toList[opened.length]? = some filename := by
        rw [← List.head?_drop, hnames]
        rfl
      have hlt := (List.getElem?_eq_some_iff.mp hget).1
      refine Prog.obeys_part (mkdirAll_aligns _ _) fun _ => ?_
      refine Prog.obeys_call ⟨haccepted, ⟨sizes, hvectors⟩, hlt⟩ fun mode => ?_
      refine Prog.obeys_call ⟨haccepted, filename, hget, rfl⟩ fun r => ?_
      cases r with
      | none =>
          refine Prog.obeys_part (closeEach_aligns _ _) fun _ => ?_
          exact nofun
      | some fd =>
          have hnext := ih (opened ++ [fd]) (by
            rw [List.length_append, List.length_singleton, ← List.drop_drop, hnames]
            rfl) (by rwa [List.length_append, List.length_singleton])
          rw [List.length_append, List.length_singleton] at hnext
          exact hnext

theorem createOperation_aligns (haccepted : sh.accepted = true) (hvectors : sh.Vectors sizes modes)
    (hopened : sh.opened = []) (operationId : Uuid) :
    Aligns (createOperation sh.chosen sizes modes operationId) sh fun _ _ => True := by
  have hloop := openFiles_aligns haccepted hvectors [] sh.chosen.files.toList rfl (Nat.zero_le _)
  rw [show { sh with opened := [] } = sh by rw [← hopened]] at hloop
  refine Prog.obeys_bind hloop fun sh' fds hsh' => ?_
  cases fds with
  | none => exact Prog.obeys_last trivial fun _ => trivial
  | some fds =>
      obtain ⟨rfl, hlen⟩ := hsh' fds rfl
      refine Prog.obeys_call ⟨haccepted, hvectors, rfl, rfl, hlen⟩ fun _ => ?_
      exact Prog.obeys_last trivial fun _ => trivial

theorem migrateStart_aligns (fileset : Fileset) (sizes modes : List Nat) :
    Aligns (migrateStart fileset sizes modes) { req := .start fileset sizes modes }
      fun _ _ => True := by
  refine Prog.obeys_call trivial fun operationId => Prog.obeys_call trivial fun known => ?_
  cases known
  · exact Prog.obeys_last trivial fun _ => trivial
  · refine Prog.obeys_part (anyExists_aligns _ _ _) fun present => ?_
    cases present
    · refine Prog.obeys_call trivial fun klass => ?_
      unfold callBefore
      cases klass.beforeCallback with
      | none => exact Prog.obeys_last trivial fun _ => trivial
      | some callback =>
          refine Prog.obeys_call ⟨rfl, rfl⟩ fun called => ?_
          obtain ⟨status, chosen⟩ := called
          by_cases hstatus : status = 0
          · subst hstatus
            let sh : Sheet :=
              { req := .start fileset sizes modes, accepted := true, chosen := chosen }
            exact createOperation_aligns (show sh.accepted = true from rfl) ⟨fileset, rfl⟩ rfl
              operationId
          · simp only [ne_eq, hstatus, not_false_eq_true, ↓reduceIte]
            exact Prog.obeys_last trivial fun _ => trivial
    · exact Prog.obeys_last trivial fun _ => trivial

theorem unmapEach_aligns (sh : Sheet) (segs : List (Addr × Nat)) :
    Aligns (unmapEach segs) sh fun sh' _ => sh' = sh := by
  induction segs with
  | nil => rfl
  | cons seg rest ih => exact Prog.obeys_call trivial fun _ => ih

theorem syncEach_aligns (sh : Sheet) (segs : List (Addr × Nat)) :
    Aligns (syncEach segs) sh fun sh' _ => sh' = sh := by
  induction segs with
  | nil => rfl
  | cons seg rest ih =>
      refine Prog.obeys_call trivial fun r => ?_
      cases r
      · rfl
      · exact ih

theorem mmapFailed_aligns (sh : Sheet) (id : Uuid) (segs : List (Addr × Nat)) :
    Aligns (mmapFailed id segs) sh fun _ _ => True :=
  Prog.obeys_part (unmapEach_aligns _ _) fun _ =>
    Prog.obeys_call trivial fun _ => Prog.obeys_last trivial fun _ => trivial

/-- The mapping loop looks at a size for each descriptor of the record. -/
theorem mapFiles_aligns {id : Uuid} {n : Nat} (hlooked : sh.looked = some (id, n)) (fds : List Fd)
    (i : Nat) (segs : List (Addr × Nat)) (hn : i + fds.length = n) :
    Aligns (mapFiles id fds i segs) sh fun sh' _ => sh' = sh := by
  induction fds generalizing i segs with
  | nil => rfl
  | cons fd rest ih =>
      rw [List.length_cons] at hn
      refine Prog.obeys_call ⟨n, hlooked, by omega⟩ fun size => ?_
      by_cases hsize : size = 0
      · simp only [hsize, ↓reduceIte]
        exact ih _ _ (by omega)
      · simp only [hsize, ↓reduceIte]
        refine Prog.obeys_call trivial fun ok => ?_
        cases ok
        · rfl
        · refine Prog.obeys_call trivial fun segment => ?_
          cases segment with
          | null => rfl
          | failed | mapped => exact ih _ _ (by omega)

theorem migrateMmap_aligns (id : Uuid) (bulk : Option Bulk) :
    Aligns (migrateMmap id bulk) { req := .mmap id bulk } fun _ _ => True := by
  refine Prog.obeys_call trivial fun found => ?_
  cases found
  · exact Prog.obeys_last trivial fun _ => trivial
  · refine Prog.obeys_call trivial fun op => ?_
    refine Prog.obeys_part (mapFiles_aligns rfl op.fds 0 [] (Nat.zero_add _)) fun result => ?_
    obtain ⟨mapped, segs⟩ := result
    cases mapped
    · exact mmapFailed_aligns _ _ _
    · refine Prog.obeys_call trivial fun _ => Prog.obeys_call trivial fun transferred => ?_
      by_cases hall : transferred % sizeModulus = op.filesizes.sum % sizeModulus
      · simp only [hall, ne_eq, not_true_eq_false, ↓reduceIte]
        refine Prog.obeys_part (syncEach_aligns _ _) fun ok => ?_
        cases ok
        · exact mmapFailed_aligns _ _ _
        · refine Prog.obeys_part (unmapEach_aligns _ _) fun _ => ?_
          exact Prog.obeys_last trivial fun _ => trivial
      · simp only [hall, ne_eq, not_false_eq_true, ↓reduceIte]
        exact Prog.obeys_last trivial fun _ => trivial

theorem writeRefused_aligns (sh : Sheet) (id : Uuid) :
    Aligns (writeRefused id) sh fun _ _ => True :=
  Prog.obeys_call trivial fun _ => Prog.obeys_call trivial fun _ =>
    Prog.obeys_last trivial fun _ => trivial

/-- The file number of a write is compared with the number of descriptors. -/
theorem migrateWrite_aligns (abtio : Bool) (id : Uuid) (i offset : Nat) (data : Bytes) :
    Aligns (migrateWrite abtio id i offset data) { req := .write id i offset data }
      fun _ _ => True := by
  refine Prog.obeys_call trivial fun found => ?_
  cases found
  · exact Prog.obeys_last trivial fun _ => trivial
  · refine Prog.obeys_call trivial fun _ => Prog.obeys_call trivial fun op => ?_
    cases hfd : op.fds[i]? with
    | none => exact writeRefused_aligns _ _
    | some fd =>
        have hlt := (List.getElem?_eq_some_iff.mp hfd).1
        refine Prog.obeys_call ⟨_, rfl, hlt⟩ fun size => ?_
        by_cases hsize : size < (offset + data.length) % sizeModulus
        · simp only [hsize, ↓reduceIte]
          exact writeRefused_aligns _ _
        · simp only [hsize, ↓reduceIte]
          refine Prog.obeys_call trivial fun _ => ?_
          cases abtio <;>
          · refine Prog.obeys_call trivial fun n => ?_
            by_cases hn : n = data.length
            · simp only [hn, ne_eq, not_true_eq_false, ↓reduceIte]
              exact Prog.obeys_last trivial fun _ => trivial
            · simp only [ne_eq, hn, not_false_eq_true, ↓reduceIte]
              exact Prog.obeys_call trivial fun _ => Prog.obeys_last trivial fun _ => trivial

theorem migrateEnd_aligns (id : Uuid) :
    Aligns (migrateEnd id) { req := .end_ id } fun _ _ => True := by
  refine Prog.obeys_call trivial fun found => ?_
  cases found
  · exact Prog.obeys_last trivial fun _ => trivial
  · refine Prog.obeys_call trivial fun _ => Prog.obeys_call trivial fun _ =>
      Prog.obeys_call trivial fun op => ?_
    by_cases herror : op.error = .success
    · simp only [herror, ne_eq, not_true_eq_false, ↓reduceIte]
      refine Prog.obeys_call trivial fun _ => Prog.obeys_call trivial fun klass => ?_
      unfold callAfter
      cases klass.afterCallback with
      | none =>
          exact Prog.obeys_call trivial fun _ => Prog.obeys_call trivial fun _ =>
            Prog.obeys_last trivial fun _ => trivial
      | some callback =>
          exact Prog.obeys_call trivial fun _ => Prog.obeys_call trivial fun _ =>
            Prog.obeys_call trivial fun _ => Prog.obeys_last trivial fun _ => trivial
    · simp only [ne_eq, herror, not_false_eq_true, ↓reduceIte]
      exact Prog.obeys_call trivial fun _ => Prog.obeys_call trivial fun _ =>
        Prog.obeys_last trivial fun _ => trivial

theorem handle_aligns (abtio : Bool) (q : Request) :
    Aligns (handle abtio q) { req := q } fun _ _ => True := by
  cases q with
  | start fileset sizes modes => exact migrateStart_aligns fileset sizes modes
  | mmap id bulk => exact migrateMmap_aligns id bulk
  | write id i offset data => exact migrateWrite_aligns abtio id i offset data
  | end_ id => exact migrateEnd_aligns id

end Programs

/-! ### The invariant -/

/-- A sheet tells the truth about its handler. -/
structure Sheet.Sound (sh : Sheet) (P : System) (q : Request) : Prop where
  req : sh.req = q
  fits : sh.accepted = true → ∀ fileset sizes modes, q = .start fileset sizes modes →
    q.Fits sh.chosen.files sizes modes
  opened : List.Forall₂
    (fun fd name => P.shared.descriptors fd = some (P.shared.fs.place (sh.chosen.root ++ name)))
    sh.opened (sh.chosen.files.toList.take sh.opened.length)
  looked : ∀ id n, sh.looked = some (id, n) → ∃ fileset sizes modes,
    P.DrawnFor id (.start fileset sizes modes) ∧ n = fileset.files.toList.length

/-- The invariant of runs within the condition. -/
structure Lined (G : Tid → Ghost) (P : System) : Prop where
  owned : Owned G P
  sheets : ∀ t q rest, P.thread t = some ⟨q, rest⟩ →
    ∃ sh : Sheet, sh.Sound P q ∧ Aligns rest sh fun _ _ => True
  aligned : P.AlignedInBounds

section
variable {G : Tid → Ghost} {P : System} {t : Tid} {w : Outcome} {q : Request} {o : Op}
  {k : Ans o → Handler Unit} {r : Ans o} {s' : Provider}

theorem System.DrawnFor.unique {id : Uuid} {q q' : Request} (h : P.DrawnFor id q)
    (h' : P.DrawnFor id q') : q = q' := by
  obtain ⟨t, rest, hissued, ht⟩ := h
  obtain ⟨t', rest', hissued', ht'⟩ := h'
  obtain rfl := Option.some.inj (hissued.symm.trans hissued')
  cases ht.symm.trans ht'
  rfl

/-- An id stays drawn for its request. -/
theorem System.DrawnFor.step {id : Uuid} {q₀ : Request} (h : P.DrawnFor id q₀)
    (ht : P.thread t = some ⟨q, .op o k⟩) (hx : exec t w o P.shared = some (r, s')) :
    System.DrawnFor { shared := s', thread := Function.update P.thread t (some ⟨q, k r⟩) } id
      q₀ := by
  obtain ⟨t₀, rest, hissued, ht₀⟩ := h
  have hissued' : s'.issuedTo id = some t₀ := by
    rcases issuedTo_step hx id with hsame | ⟨-, -, hnone, -⟩
    · exact hsame.trans hissued
    · rw [hissued] at hnone
      cases hnone
  by_cases he : t₀ = t
  · subst he
    obtain ⟨rfl, -⟩ := Thread.mk.inj (Option.some.inj (ht.symm.trans ht₀))
    exact ⟨t₀, k r, hissued', Function.update_self _ _ _⟩
  · refine ⟨t₀, rest, hissued', ?_⟩
    dsimp only
    rwa [Function.update_of_ne he]

/-- A descriptor that has a file keeps it. -/
theorem Owned.descriptors_mono (hJ : Owned G P) (hx : exec t w o P.shared = some (r, s')) {fd : Fd}
    {p : Path} (h : P.shared.descriptors fd = some p) : s'.descriptors fd = some p := by
  by_cases ho : ∃ path mode, o = .openTrunc path mode
  · obtain ⟨path, mode, rfl⟩ := ho
    rcases exec_openTrunc hx with ⟨-, rfl⟩ | ⟨-, -, rfl⟩
    · exact h
    · have hne : fd ≠ ⟨t, P.shared.opened t⟩ := by
        rintro rfl
        rw [hJ.unopened _ _ (Nat.le_refl _)] at h
        cases h
      dsimp only
      rwa [Function.update_of_ne hne]
  · rw [(exec_effect hx).descriptors]
    cases o with
    | openTrunc path mode => exact absurd ⟨path, mode, rfl⟩ ho
    | _ => exact h

/-- The facts of a sheet stay true when another handler moves. -/
theorem Sheet.Sound.step {sh : Sheet} {q₀ : Request} (h : sh.Sound P q₀) (hJ : Owned G P)
    (ht : P.thread t = some ⟨q, .op o k⟩) (hx : exec t w o P.shared = some (r, s')) :
    sh.Sound { shared := s', thread := Function.update P.thread t (some ⟨q, k r⟩) } q₀ where
  req := h.req
  fits := h.fits
  opened := h.opened.imp fun fd name hfd => by
    dsimp only
    rw [place_step hx]
    exact hJ.descriptors_mono hx hfd
  looked id n hlooked := by
    obtain ⟨fileset, sizes, modes, hdrawn, hn⟩ := h.looked id n hlooked
    exact ⟨fileset, sizes, modes, hdrawn.step ht hx, hn⟩

theorem Operation.Aligned.length_fds {op : Operation} {s : Provider} {fileset : Fileset}
    {sizes modes : List Nat} (h : op.Aligned s (.start fileset sizes modes)) :
    op.fds.length = fileset.files.toList.length ∧
      op.filesizes.length = fileset.files.toList.length := by
  obtain ⟨⟨fileset', heq, hfiles⟩, hsizes, -⟩ := h.fits
  cases heq
  rw [← hfiles]
  exact ⟨h.fds.length_eq, hsizes⟩

/-- The sheet of the handler that moves. -/
theorem sheet_step (hJ : Lined G P) (hfit : P.Fitting (.step t w))
    (ht : P.thread t = some ⟨q, .op o k⟩) (hx : exec t w o P.shared = some (r, s')) {sh : Sheet}
    (hsound : sh.Sound P q) (hallow : sh.Allows o) :
    (sh.after o r).Sound
      { shared := s', thread := Function.update P.thread t (some ⟨q, k r⟩) } q := by
  have hstep := hsound.step hJ.owned ht hx
  cases o with
  -- The callback may give back another fileset, within the condition on the step.
  | before callback uargs called =>
      obtain ⟨rfl, rfl⟩ := Prod.mk.inj (Option.some.inj hx)
      refine { hstep with fits := ?_, opened := ?_ }
      · rintro haccepted fileset sizes modes rfl
        exact hfit.1 _ _ _ _ _ _ _ ht (of_decide_eq_true haccepted)
      · obtain ⟨-, hnil⟩ := hallow
        simp only [Sheet.after, hnil, List.length_nil, List.take_zero]
        exact .nil
  -- The file that is opened is the next one of the fileset.
  | openTrunc path mode =>
      obtain ⟨-, name, hname, rfl⟩ := hallow
      rcases exec_openTrunc hx with ⟨rfl, -⟩ | ⟨rfl, -, rfl⟩
      · simpa [Sheet.after] using hstep
      · refine { hstep with opened := ?_ }
        simp only [Sheet.after, Option.toList_some, List.length_append, List.length_singleton]
        rw [List.take_add_one, hname]
        refine List.rel_append hstep.opened (.cons ?_ .nil)
        dsimp only
        rw [Function.update_self]
        rfl
  -- The record is aligned by the invariant, and the sheet gets its number of files.
  | load id =>
      obtain ⟨op, hop, heq⟩ := Option.map_eq_some_iff.mp hx
      obtain ⟨rfl, rfl⟩ := Prod.mk.inj heq
      refine { hstep with looked := ?_ }
      rintro id' n ⟨⟩
      obtain ⟨q₀, hdrawn, haligned⟩ := hJ.aligned.records id op hop
      obtain ⟨fileset, rfl, hfiles⟩ := haligned.fits.request
      refine ⟨fileset, _, _, hdrawn.step ht hx, ?_⟩
      exact haligned.length_fds.1
  | _ => exact hstep

/-- The record after a step is aligned. -/
theorem aligned_step (hw : Watched discipline G P) (hJ : Lined G P) (hfit : P.Fitting (.step t w))
    (ht : P.thread t = some ⟨q, .op o k⟩) (hx : exec t w o P.shared = some (r, s')) {sh : Sheet}
    (hsound : sh.Sound P q) (hallow : sh.Allows o) {id : Uuid} {op' : Operation}
    (hop' : s'.opInProgress id = some op') :
    ∃ q₀, System.DrawnFor
        { shared := s', thread := Function.update P.thread t (some ⟨q, k r⟩) } id q₀ ∧
      op'.Aligned s' q₀ := by
  have hplace := place_step hx
  rw [(exec_effect hx).record] at hop'
  by_cases hins : o = .insert id op'
  · -- A new record has the vectors and the descriptors of its handler.
    subst hins
    have hdrawn : P.shared.issuedTo id = some t :=
      (hJ.owned.drawn t id).mpr (hw.allows ht).2.1
    have hfor : P.DrawnFor id q := ⟨t, _, hdrawn, ht⟩
    obtain ⟨haccepted, ⟨fileset, hreq⟩, hfileset, hfds, hlen⟩ := hallow
    refine ⟨q, hfor.step ht hx, ?_, ?_⟩
    · rw [hfileset]
      exact hsound.fits haccepted _ _ _ (hsound.req.symm.trans hreq)
    · have hopened := hsound.opened
      rw [hlen, List.take_length] at hopened
      rw [hfds, hfileset]
      refine hopened.imp fun fd name hfd => ⟨sh.chosen.root, ?_⟩
      rw [hplace]
      exact hJ.owned.descriptors_mono hx hfd
  · cases hop : P.shared.opInProgress id with
    | none =>
        rw [hop] at hop'
        exact absurd (Op.record_none hop') hins
    -- A record that stays keeps its vectors. Only a callback changes its fileset, and by the
    -- condition it keeps the files.
    | some op =>
        rw [hop] at hop'
        obtain ⟨q₀, hdrawn, hfits, hfds⟩ := hJ.aligned.records id op hop
        obtain ⟨hfds', hsizes⟩ := (Op.record_fds hop').resolve_right hins
        obtain ⟨hmodes, hfileset⟩ := (Op.record_fileset hop').resolve_right hins
        have hfiles : op'.fileset.files = op.fileset.files := by
          rcases hfileset with hsame | ⟨callback, uargs, rfl, hcalled⟩
          · rw [hsame]
          · rw [hcalled]
            exact hfit.2 _ _ _ _ _ _ ht hop
        refine ⟨q₀, hdrawn.step ht hx, ?_, ?_⟩
        · rwa [hfiles, hsizes, hmodes]
        · rw [hfiles, hfds']
          refine hfds.imp fun fd name hfd => ?_
          obtain ⟨root, hroot⟩ := hfd
          exact ⟨root, by rw [hplace]; exact hJ.owned.descriptors_mono hx hroot⟩

/-- The index of a step is in bounds. -/
theorem inBounds_step (hJ : Lined G P) (hx : exec t w o P.shared = some (r, s')) {sh : Sheet}
    (hsound : sh.Sound P q) (hallow : sh.Allows o) : s'.outOfBounds = 0 := by
  rw [← hJ.aligned.inBounds]
  cases o with
  | vecAt v i =>
      obtain ⟨haccepted, ⟨sizes, fileset, hreq⟩, hi⟩ := hallow
      have hfits := hsound.fits haccepted _ _ _ (hsound.req.symm.trans hreq)
      simp only [exec] at hx
      rw [if_pos (show i < v.length by rw [hfits.modes]; exact hi)] at hx
      obtain ⟨-, rfl⟩ := Prod.mk.inj (Option.some.inj hx)
      rfl
  | filesizeAt id i =>
      obtain ⟨n, hlooked, hi⟩ := hallow
      obtain ⟨fileset, sizes, modes, hdrawn, rfl⟩ := hsound.looked id n hlooked
      simp only [exec] at hx
      split at hx
      · rename_i op hop
        obtain ⟨q₀, hdrawn₀, haligned⟩ := hJ.aligned.records id op hop
        obtain rfl := hdrawn₀.unique hdrawn
        rw [if_pos (by rw [haligned.length_fds.2]; exact hi)] at hx
        obtain ⟨-, rfl⟩ := Prod.mk.inj (Option.some.inj hx)
        rfl
      · cases hx
  | _ => exact (exec_effect hx).outOfBounds (fun _ _ ho => by cases ho) fun _ _ ho => by cases ho

theorem lined_step (hw : Watched discipline G P) (hJ : Lined G P) (hfit : P.Fitting (.step t w))
    (ht : P.thread t = some ⟨q, .op o k⟩) (hx : exec t w o P.shared = some (r, s')) :
    Lined (Function.update G t ((G t).after o r))
      { shared := s', thread := Function.update P.thread t (some ⟨q, k r⟩) } := by
  obtain ⟨sh, hsound, haligns⟩ := hJ.sheets t q _ ht
  have hallow : sh.Allows o := haligns.1
  refine ⟨owned_step hw hJ.owned ht hx, ?_, ?_, ?_⟩
  · intro t' q' rest' ht'
    rcases thread_update ht' with ⟨rfl, rfl, rfl⟩ | ⟨-, hold⟩
    · exact ⟨sh.after o r, sheet_step hJ hfit ht hx hsound hallow, haligns.2 r _ rfl⟩
    · obtain ⟨sh', hsound', haligns'⟩ := hJ.sheets t' q' rest' hold
      exact ⟨sh', hsound'.step hJ.owned ht hx, haligns'⟩
  · intro id op' hop'
    exact aligned_step hw hJ hfit ht hx hsound hallow hop'
  · exact inBounds_step hJ hx hsound hallow

theorem lined_spawn (abtio : Bool) (hJ : Lined G P) (ht : P.thread t = none) :
    Lined (Function.update G t (.init q))
      { P with thread := Function.update P.thread t (some ⟨q, handle abtio q⟩) } := by
  have hdrawn : ∀ id q₀, P.DrawnFor id q₀ → System.DrawnFor
      { P with thread := Function.update P.thread t (some ⟨q, handle abtio q⟩) } id q₀ := by
    rintro id q₀ ⟨t₀, rest, hissued, ht₀⟩
    have hne : t₀ ≠ t := by
      rintro rfl
      rw [ht] at ht₀
      cases ht₀
    refine ⟨t₀, rest, hissued, ?_⟩
    dsimp only
    rwa [Function.update_of_ne hne]
  refine ⟨owned_spawn abtio hJ.owned ht, ?_, ?_, hJ.aligned.inBounds⟩
  · intro t' q' rest' ht'
    rcases thread_update ht' with ⟨rfl, rfl, rfl⟩ | ⟨-, hold⟩
    · exact ⟨{ req := q' }, ⟨rfl, nofun, .nil, nofun⟩, handle_aligns abtio q'⟩
    · obtain ⟨sh, hsound, haligns⟩ := hJ.sheets t' q' rest' hold
      refine ⟨sh, { hsound with looked := fun id n hlooked => ?_ }, haligns⟩
      obtain ⟨fileset, sizes, modes, hfor, hn⟩ := hsound.looked id n hlooked
      exact ⟨fileset, sizes, modes, hdrawn id _ hfor, hn⟩
  · intro id op hop
    obtain ⟨q₀, hfor, haligned⟩ := hJ.aligned.records id op hop
    exact ⟨q₀, hdrawn id q₀ hfor, haligned⟩

end

/-- In a run whose callbacks accept only files that the vectors fit, every record is aligned and
every index is in bounds. -/
theorem alignedInBounds_of_fitting (abtio : Bool) (classes : ClassKey → Option MigrationClass)
    (fs : Fs) {ls : List Step} {P : System}
    (h : System.Reaches abtio System.Fitting (.init classes fs) ls P) : P.AlignedInBounds := by
  have hinit : Lined (fun _ => .init (.end_ 0)) (.init classes fs) :=
    ⟨owned_init classes fs, nofun, nofun, rfl⟩
  have hinv : GhostInv discipline Lined P := by
    refine ghostInv_run_from h (ghostInv_of_empty (fun _ => rfl) hinit) .init
      (handle_follows abtio) ?_ ?_
    · intro G P t q _ _ hJ hnone
      exact lined_spawn abtio hJ hnone
    · intro G P t w q o k r s' hfit hw hJ ht hx
      exact ⟨_, rfl, lined_step hw hJ hfit ht hx⟩
  obtain ⟨G, -, hJ⟩ := hinv
  exact hJ.aligned

/-! ### Runs with one file -/

/-- The condition on a step, by computation. -/
def System.fittingNow (P : System) : Step → Bool
  | .spawn _ _ => true
  | .step t w =>
    match P.thread t with
    | some ⟨.start fileset sizes modes, .op (.before _ _ called) _⟩ =>
      (w.callback called).1 = 0 → (w.callback called).2.files = fileset.files ∧
        sizes.length = (w.callback called).2.files.toList.length ∧
        modes.length = (w.callback called).2.files.toList.length
    | some ⟨_, .op (.after id _ _) _⟩ =>
      (P.shared.opInProgress id).all fun op =>
        (w.callback op.fileset).2.files = op.fileset.files
    | _ => true

theorem fitting_of_fittingNow {P : System} {l : Step} (h : P.fittingNow l = true) :
    P.Fitting l := by
  cases l with
  | spawn t q => trivial
  | step t w =>
      refine ⟨fun fileset sizes modes callback uargs called k ht hstatus => ?_,
        fun q id callback uargs k op ht hop => ?_⟩
      · simp only [System.fittingNow, ht] at h
        obtain ⟨hfiles, hsizes, hmodes⟩ := of_decide_eq_true h hstatus
        exact ⟨⟨fileset, rfl, hfiles⟩, hsizes, hmodes⟩
      · simp only [System.fittingNow, ht, hop, Option.all_some] at h
        exact of_decide_eq_true h

/-- A file with its size and mode is aligned. -/
theorem alignedInBounds_of_fitting_oneFile : ∃ P,
    System.Reaches false System.Fitting (.init acceptAll .empty)
      (.spawn ⟨0, 0⟩ (.start oneFile [5] [0]) :: List.replicate 10 (.step ⟨0, 0⟩ (.succeed 1))) P ∧
      P.shared.responses ⟨0, 0⟩ = some (.start .success 0 1) ∧ P.AlignedInBounds := by
  have hrun : (follow (System.next false) (fun P l => P.fittingNow l = true)
      (.spawn ⟨0, 0⟩ (.start oneFile [5] [0]) :: List.replicate 10 (.step ⟨0, 0⟩ (.succeed 1)))
      (.init acceptAll .empty)).any
        (·.shared.responses ⟨0, 0⟩ = some (.start .success 0 1)) = true := by decide
  obtain ⟨P, hP, hanswer⟩ := (Option.any_eq_true _ _).mp hrun
  have hfitting : System.Reaches false System.Fitting (.init acceptAll .empty)
      (.spawn ⟨0, 0⟩ (.start oneFile [5] [0]) :: List.replicate 10 (.step ⟨0, 0⟩ (.succeed 1))) P :=
    (run_of_follow hP).weaken fun _ _ => fitting_of_fittingNow
  exact ⟨P, hfitting, of_decide_eq_true hanswer, alignedInBounds_of_fitting false _ _ hfitting⟩

/-- A file without a size and a mode: the mode is read past the end of its vector, and the
record that is stored has no size. -/
theorem not_alignedInBounds_noVectors : ∃ P,
    System.Reaches false (fun _ _ => True) (.init acceptAll .empty)
      (.spawn ⟨0, 0⟩ (.start oneFile [] []) :: List.replicate 10 (.step ⟨0, 0⟩ (.succeed 1))) P ∧
      P.shared.responses ⟨0, 0⟩ = some (.start .success 0 1) ∧ ¬ P.AlignedInBounds := by
  have hrun : (follow (System.next false) (fun _ _ => True)
      (.spawn ⟨0, 0⟩ (.start oneFile [] []) :: List.replicate 10 (.step ⟨0, 0⟩ (.succeed 1)))
      (.init acceptAll .empty)).any (fun P =>
        P.shared.responses ⟨0, 0⟩ = some (.start .success 0 1) ∧ P.shared.outOfBounds ≠ 0) =
          true := by decide
  obtain ⟨P, hP, hbad⟩ := (Option.any_eq_true _ _).mp hrun
  obtain ⟨hanswer, hout⟩ := of_decide_eq_true hbad
  exact ⟨P, run_of_follow hP, hanswer, fun h => hout h.inBounds⟩

end Remi
