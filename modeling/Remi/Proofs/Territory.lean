import Remi.Server.Isolated
import Remi.Proofs.EarlyResponse

/-!
# `Remi.Proofs.Territory`: whose files, records and descriptors an operation works on

Each client has a territory: its targets with the directories on the way to them, the ids its
`migrate_start` has drawn, and the descriptors and segments of its handlers. `Parted` is the
invariant of separated runs, and `Parted.within` says that every operation of a handler stays
within the territory of its client.
-/

set_option autoImplicit false

namespace Remi

open Remi.Lib

/-- The place of a target. -/
def PlaceOf (cwd : Path) (targets : Str → Prop) (p : Path) : Prop :=
  ∃ path, targets path ∧ place cwd path = p

/-- `dir` is on the way to a target. -/
def OnTheWay (targets : Str → Prop) (dir : Str) : Prop :=
  ∃ path, targets path ∧ (dir = path ∨ DirPrefix dir path)

/-! ### The directories of a target -/

theorem DirPrefix.append {dir path : Str} (h : DirPrefix dir path) (rest : Str) :
    DirPrefix dir (path ++ rest) := by
  obtain ⟨tail, rfl⟩ := h
  exact ⟨tail ++ rest, by simp⟩

theorem mem_mkdirsFrom {done cs d : Str} (h : d ∈ mkdirsFrom done cs) :
    d = done ++ cs ∨ DirPrefix d (done ++ cs) := by
  induction cs generalizing done with
  | nil =>
      rw [mkdirsFrom, List.mem_singleton] at h
      exact Or.inl (by simpa using h)
  | cons c cs ih =>
      have hrest : d ∈ mkdirsFrom (done ++ [c]) cs → d = done ++ c :: cs ∨
          DirPrefix d (done ++ c :: cs) := fun hd => by
        simpa using ih hd
      rw [mkdirsFrom] at h
      split at h
      · rename_i hc
        rcases List.mem_cons.mp h with rfl | hd
        · exact Or.inr ⟨cs, by rw [hc]⟩
        · exact hrest hd
      · exact hrest h

theorem mem_mkdirsCalls {dir d : Str} (h : d ∈ mkdirsCalls dir) : d = dir ∨ DirPrefix d dir := by
  unfold mkdirsCalls at h
  generalize htmp : (if dir.getLast? = some '/' then dir.dropLast else dir) = tmp at h
  have hscan : d = tmp ∨ DirPrefix d tmp := by
    cases tmp with
    | nil => exact Or.inl (List.mem_singleton.mp h)
    | cons c cs => exact mem_mkdirsFrom h
  by_cases hslash : dir.getLast? = some '/'
  · -- The slash at the end is cut off.
    rw [if_pos hslash] at htmp
    obtain ⟨front, rfl⟩ := List.getLast?_eq_some_iff.mp hslash
    rw [List.dropLast_concat] at htmp
    subst htmp
    rcases hscan with rfl | hd
    · exact Or.inr ⟨[], rfl⟩
    · exact Or.inr (hd.append _)
  · rw [if_neg hslash] at htmp
    rwa [htmp]

/-- What `dirname` cuts off begins at the last slash. -/
theorem dirname_cases (path : Str) : dirname path = path ∨ DirPrefix (dirname path) path := by
  by_cases hslash : '/' ∈ path
  · obtain ⟨name, hpath, -⟩ := dirname_split hslash
    exact Or.inr ⟨name, hpath⟩
  · exact Or.inl (if_neg hslash)

/-- The directories that `mkdirs` makes for a target are on the way to it. -/
theorem onTheWay_of_mkdirs {targets : Str → Prop} {path d : Str} (hpath : targets path)
    (h : d ∈ mkdirsCalls (dirname path)) : OnTheWay targets d := by
  refine ⟨path, hpath, ?_⟩
  rcases dirname_cases path with hdir | hdir
  · rw [hdir] at h
    exact mem_mkdirsCalls h
  · rcases mem_mkdirsCalls h with rfl | hd
    · exact Or.inr hdir
    · obtain ⟨rest, hrest⟩ := hdir
      exact Or.inr (hrest ▸ hd.append _)

/-! ### The paths of a `migrate_start` -/

/-- The classes and paths that a handler of a client may name. A "before" callback leaves a
fileset whose files are targets. -/
def territory (classes : ClassKey → Option MigrationClass) (targets : Str → Prop) :
    Monitor Ans Unit where
  allows _ o :=
    match o with
    | .classCount key => classes key ≠ none
    | .access path | .openTrunc path _ => targets path
    | .mkdir dir => OnTheWay targets dir
    | _ => True
  next _ o r _ :=
    match o, r with
    | .before _ _ _, r => ∀ path ∈ r.2.fullNames, targets path
    | _, _ => True
  returns _ := True

section Start
variable {classes : ClassKey → Option MigrationClass} {targets : Str → Prop}

/-- A program that names classes and paths of the territory only, and returns with `Q`. -/
abbrev Stays {α : Type} (classes : ClassKey → Option MigrationClass) (targets : Str → Prop)
    (p : Handler α) (Q : α → Prop) : Prop :=
  p.Obeys (territory classes targets) (fun _ => Q) ()

theorem stays_issue {α : Type} {o : Op} {f : Ans o → Handler α} {Q : α → Prop}
    (hallow : (territory classes targets).allows () o)
    (hf : ∀ r, (territory classes targets).next () o r () → Stays classes targets (f r) Q) :
    Stays classes targets (issue o >>= f) Q :=
  ⟨hallow, fun r _ hr => hf r hr⟩

theorem stays_bind {α β : Type} {p : Handler α} {f : α → Handler β} {Q : α → Prop}
    {R : β → Prop} (hp : Stays classes targets p Q)
    (hf : ∀ a, Q a → Stays classes targets (f a) R) :
    Stays classes targets (p >>= f) R :=
  Prog.obeys_bind hp fun _ a ha => hf a ha

theorem anyExists_stays (root : Str) {files : List Str} (h : ∀ n ∈ files, targets (root ++ n)) :
    Stays classes targets (anyExists root files) fun _ => True := by
  induction files with
  | nil => trivial
  | cons n rest ih =>
      refine stays_issue (h n List.mem_cons_self) fun r _ => ?_
      cases r
      · exact ih fun n' hn' => h n' (List.mem_cons_of_mem _ hn')
      · trivial

theorem closeEach_stays (fds : List Fd) :
    Stays classes targets (closeEach fds) fun _ => True := by
  induction fds with
  | nil => trivial
  | cons fd rest ih => exact stays_issue trivial fun _ _ => ih

theorem mkdirAll_stays {dirs : List Str} (h : ∀ d ∈ dirs, OnTheWay targets d) :
    Stays classes targets (mkdirAll dirs) fun _ => True := by
  induction dirs with
  | nil => trivial
  | cons d rest ih =>
      refine stays_issue (h d List.mem_cons_self) fun _ _ => ?_
      exact ih fun d' hd' => h d' (List.mem_cons_of_mem _ hd')

theorem openFiles_stays (root : Str) (theModes : List Nat) {files : List Str} (i : Nat)
    (opened : List Fd) (h : ∀ n ∈ files, targets (root ++ n)) :
    Stays classes targets (openFiles root theModes files i opened) fun _ => True := by
  induction files generalizing i opened with
  | nil => trivial
  | cons n rest ih =>
      have hn : targets (root ++ n) := h n List.mem_cons_self
      have hrest := fun n' hn' => h n' (List.mem_cons_of_mem n hn')
      refine stays_bind (mkdirAll_stays fun d hd => onTheWay_of_mkdirs hn hd) fun _ _ => ?_
      refine stays_issue trivial fun mode _ => stays_issue hn fun r _ => ?_
      cases r with
      | none => exact stays_bind (closeEach_stays opened) fun _ _ => trivial
      | some fd => exact ih _ _ hrest

theorem mem_fullNames {fileset : Fileset} {n : Str} (h : n ∈ fileset.files.toList) :
    fileset.root ++ n ∈ fileset.fullNames :=
  List.mem_map_of_mem h

theorem createOperation_stays {fileset : Fileset} (filesizes theModes : List Nat) (id : Uuid)
    (h : ∀ path ∈ fileset.fullNames, targets path) :
    Stays classes targets (createOperation fileset filesizes theModes id) fun _ => True := by
  refine stays_bind (openFiles_stays _ _ 0 [] fun n hn => h _ (mem_fullNames hn)) fun r _ => ?_
  cases r with
  | none => exact stays_issue trivial fun _ _ => trivial
  | some fds => exact stays_issue trivial fun _ _ => stays_issue trivial fun _ _ => trivial

/-- The fileset behind the callback has targets of the client again. -/
theorem callBefore_stays (klass : MigrationClass) {fileset : Fileset}
    (h : ∀ path ∈ fileset.fullNames, targets path) :
    Stays classes targets (callBefore klass fileset) fun r =>
      ∀ path ∈ r.2.fullNames, targets path := by
  unfold callBefore
  cases klass.beforeCallback with
  | none => exact h
  | some callback => exact ⟨trivial, fun r _ hr => hr⟩

theorem migrateStart_stays {fileset : Fileset} (filesizes theModes : List Nat)
    (hclass : classes (classKey fileset) ≠ none) (h : ∀ path ∈ fileset.fullNames, targets path) :
    Stays classes targets (migrateStart fileset filesizes theModes) fun _ => True := by
  refine stays_issue trivial fun id _ => stays_issue hclass fun known _ => ?_
  cases known
  · exact stays_issue trivial fun _ _ => trivial
  · refine stays_bind (anyExists_stays _ fun n hn => h _ (mem_fullNames hn)) fun found _ => ?_
    cases found
    · refine stays_issue trivial fun klass _ => stays_bind (callBefore_stays klass h) fun r hr => ?_
      obtain ⟨status, fileset'⟩ := r
      dsimp only
      by_cases hstatus : status = 0
      · rw [if_neg (not_not_intro hstatus)]
        exact createOperation_stays _ _ _ hr
      · rw [if_pos hstatus]
        exact stays_issue trivial fun _ _ => trivial
    · exact stays_issue trivial fun _ _ => trivial

end Start

/-! ### Segments and classes -/

section
variable {t : Tid} {w : Outcome} {o : Op} {r : Ans o} {s s' : Provider}

/-- Only `mmap` gives a segment a file. -/
theorem segments_step (hx : exec t w o s = some (r, s')) {seg : Seg} {p : Path}
    (hseg : s'.segments seg = some p) :
    s.segments seg = some p ∨ ∃ id fd size, o = .mmap id fd size ∧ seg.owner = t ∧
      s.descriptors fd = some p := by
  cases o with
  | mmap id fd size =>
      simp only [exec] at hx
      split at hx
      · rename_i p' hp'
        split at hx
        · obtain ⟨-, rfl⟩ := Prod.mk.inj (Option.some.inj hx)
          dsimp only at hseg
          by_cases he : seg = ⟨t, s.mapped t⟩
          · subst he
            rw [Function.update_self] at hseg
            obtain rfl := Option.some.inj hseg
            exact Or.inr ⟨id, fd, size, rfl, rfl, hp'⟩
          · rw [Function.update_of_ne he] at hseg
            exact Or.inl hseg
        · obtain ⟨-, rfl⟩ := Prod.mk.inj (Option.some.inj hx)
          exact Or.inl hseg
      · obtain ⟨-, rfl⟩ := Prod.mk.inj (Option.some.inj hx)
        exact Or.inl hseg
  | _ =>
      rw [(exec_effect hx).segments seg fun _ _ _ ho => by cases ho] at hseg
      exact Or.inl hseg

/-- The class table loses no key. -/
theorem classes_step (hx : exec t w o s = some (r, s')) {key : ClassKey}
    (h : s.classes key ≠ none) : s'.classes key ≠ none := by
  cases o with
  | classAt key' =>
      obtain ⟨table, heq, -, hkept⟩ := exec_classAt t w key' s
      obtain ⟨-, rfl⟩ := Prod.mk.inj (Option.some.inj (heq.symm.trans hx))
      exact hkept key h
  | _ =>
      rw [(exec_effect hx).classes fun _ ho => by cases ho]
      exact h

end

/-! ### The invariant of separated runs -/

structure Parted (classes : ClassKey → Option MigrationClass) (cwd : Path)
    (targets : Nat → Str → Prop) (G : Tid → Ghost) (P : System) : Prop extends Latch G P where
  base : P.shared.fs.cwd = cwd
  known : ∀ key, classes key ≠ none → P.shared.classes key ≠ none
  descriptors : ∀ fd p, P.shared.descriptors fd = some p → PlaceOf cwd (targets fd.owner.client) p
  segments : ∀ seg p, P.shared.segments seg = some p → PlaceOf cwd (targets seg.owner.client) p
  fds : ∀ t fd, fd ∈ (G t).fds → fd.owner.client = t.client
  maps : ∀ t seg, .mapped seg ∈ (G t).maps → seg.owner = t
  paths : ∀ t q p, P.thread t = some ⟨q, p⟩ → q.kind = .start →
    Stays classes (targets t.client) p fun _ => True

section Parted
variable {classes : ClassKey → Option MigrationClass} {cwd : Path} {targets : Nat → Str → Prop}
  {G : Tid → Ghost} {P : System} {t : Tid} {w : Outcome} {q : Request} {o : Op}
  {k : Ans o → Handler Unit} {r : Ans o} {s' : Provider}

/-- A request names an id that the `migrate_start` of its client has drawn. -/
theorem Latch.target_issued (hJ : Latch G P) {p : Handler Unit} {id : Uuid}
    (ht : P.thread t = some ⟨q, p⟩) (htarget : q.target = some id) :
    P.shared.issuedTo id = some ⟨t.client, 0⟩ := by
  have hp := hJ.protocol t q p ht
  obtain ⟨m, _ | n⟩ := t
  · change q.kind = .start at hp
    cases q with
    | start => cases htarget
    | mmap | write | end_ => cases hp
  · obtain ⟨status, id', hstart, htarget', -⟩ := hp
    obtain rfl : id' = id := Option.some.inj (htarget'.symm.trans htarget)
    rw [hJ.answer] at hstart
    exact hJ.issued ((hJ.valid _).answerStart _ _ _ hstart).2.1

theorem Latch.found_issued (hJ : Latch G P) {id : Uuid} (h : (G t).found = some id) :
    P.shared.issuedTo id = some ⟨t.client, 0⟩ := by
  obtain ⟨_, _, _, _, hdrawn⟩ := hJ.owner h
  exact hJ.issued hdrawn

/-- The descriptors of a record belong to the client whose handlers find it. -/
theorem Latch.record_owner (hJ : Latch G P) {id : Uuid} {op : Operation} {fd : Fd}
    (hfound : (G t).found = some id) (hop : P.shared.opInProgress id = some op)
    (hfd : fd ∈ op.fds) : fd.owner.client = t.client := by
  have hissued := (hJ.record id op fd hop hfd).symm.trans (hJ.found_issued hfound)
  rw [Option.some.inj hissued]

/-- The descriptors a handler has seen are those of a record that it has found. -/
theorem fds_after (hJ : Latch G P) (hallow : (G t).Allows o)
    (hx : exec t w o P.shared = some (r, s')) {fd : Fd} (hfd : fd ∈ ((G t).after o r).fds) :
    fd ∈ (G t).fds ∨ fd.owner.client = t.client := by
  cases o with
  | load id =>
      obtain ⟨op, hop, heq⟩ := Option.map_eq_some_iff.mp hx
      obtain ⟨rfl, -⟩ := Prod.mk.inj heq
      exact Or.inr (hJ.record_owner hallow.1 hop hfd)
  | _ => exact Or.inl hfd

/-- A handler gets only segments of its own. -/
theorem maps_after (hx : exec t w o P.shared = some (r, s')) {seg : Seg}
    (hseg : .mapped seg ∈ ((G t).after o r).maps) :
    .mapped seg ∈ (G t).maps ∨ seg.owner = t := by
  cases o with
  | mmap id fd size =>
      simp only [Ghost.after] at hseg
      split at hseg
      · exact Or.inl hseg
      · rcases List.mem_append.mp hseg with hold | hnew
        · exact Or.inl hold
        · rcases exec_mmap hx with rfl | rfl
          · simp at hnew
          · obtain rfl : seg = ⟨t, P.shared.mapped t⟩ := by simpa using hnew
            exact Or.inr rfl
  | munmap a => exact Or.inl (List.mem_of_mem_tail hseg)
  | _ => exact Or.inl hseg

theorem Parted.stays (hJ : Parted classes cwd targets G P)
    (ht : P.thread t = some ⟨q, .op o k⟩) (hq : q.kind = .start) :
    (territory classes (targets t.client)).allows () o :=
  (hJ.paths t q _ ht hq).1

theorem parted_init (classes : ClassKey → Option MigrationClass) (fs : Fs)
    (targets : Nat → Str → Prop) :
    Parted classes fs.cwd targets (fun _ => .init (.end_ 0)) (.init classes fs) where
  toLatch := latch_init classes fs
  base := rfl
  known _ h := h
  descriptors _ _ h := by cases h
  segments _ _ h := by cases h
  fds _ _ h := by cases h
  maps _ _ h := by cases h
  paths _ _ _ ht := by cases ht

theorem parted_spawn (abtio : Bool) (hJ : Parted classes cwd targets G P)
    (ht : P.thread t = none) (hsends : P.Sends classes targets t q) :
    Parted classes cwd targets (Function.update G t (.init q))
      { P with thread := Function.update P.thread t (some ⟨q, handle abtio q⟩) } where
  toLatch := latch_spawn abtio hJ.toLatch ht hsends.1
  base := hJ.base
  known := hJ.known
  descriptors := hJ.descriptors
  segments := hJ.segments
  fds t' fd hfd := by
    rw [init_field (·.fds) (fun _ _ => rfl) (hJ.absent t ht)] at hfd
    exact hJ.fds t' fd hfd
  maps t' seg hseg := by
    rw [init_field (·.maps) (fun _ _ => rfl) (hJ.absent t ht)] at hseg
    exact hJ.maps t' seg hseg
  paths t' q' p' ht' hq' := by
    rcases thread_update ht' with ⟨rfl, rfl, rfl⟩ | ⟨hne, hold⟩
    · cases q' with
      | start fileset filesizes theModes =>
          exact migrateStart_stays filesizes theModes hsends.2.1 hsends.2.2
      | mmap | write | end_ => cases hq'
    · exact hJ.paths t' q' p' hold hq'

/-- What the world decides is an answer that the territory expects. -/
theorem Decides.next (hdecides : P.Decides targets t w) (ht : P.thread t = some ⟨q, .op o k⟩)
    (hx : exec t w o P.shared = some (r, s')) :
    (territory classes (targets t.client)).next () o r () := by
  cases o with
  | before callback uargs fileset =>
      obtain ⟨rfl, -⟩ := Prod.mk.inj (Option.some.inj hx)
      simp only [System.Decides, System.pending, ht] at hdecides
      exact hdecides
  | _ => trivial

theorem parted_step (hw : Watched discipline G P) (hJ : Parted classes cwd targets G P)
    (hdecides : P.Decides targets t w) (ht : P.thread t = some ⟨q, .op o k⟩)
    (hx : exec t w o P.shared = some (r, s')) :
    Parted classes cwd targets (Function.update G t ((G t).after o r))
      { shared := s', thread := Function.update P.thread t (some ⟨q, k r⟩) } where
  toLatch := latch_keeps hw hJ.toLatch ht hx
  base := (exec_effect hx).cwd.trans hJ.base
  known key h := classes_step hx (hJ.known key h)
  descriptors fd p hfd := by
    rcases descriptors_step hx hfd with hold | ⟨⟨path, mode, rfl, rfl⟩, rfl⟩
    · exact hJ.descriptors fd p hold
    · -- Only `migrate_start` opens files, and its paths are targets.
      have hkind : q.kind = .start := (hJ.req t q _ ht) ▸ (hw.allows ht).1
      exact ⟨path, hJ.stays ht hkind, by rw [Fs.place, hJ.base]⟩
  segments seg p hseg := by
    rcases segments_step hx hseg with hold | ⟨id, fd, size, rfl, rfl, hfd⟩
    · exact hJ.segments seg p hold
    · -- A segment is a mapping of a file whose descriptor the handler has read from its record.
      have hallow := hw.allows ht
      have hplace := hJ.descriptors fd p hfd
      rwa [hJ.fds _ fd hallow.2.2.1] at hplace
  fds t' fd hfd := by
    by_cases he : t' = t
    · subst he
      rw [Function.update_self] at hfd
      exact (fds_after hJ.toLatch (hw.allows ht) hx hfd).elim (hJ.fds _ fd) id
    · rw [Function.update_of_ne he] at hfd
      exact hJ.fds t' fd hfd
  maps t' seg hseg := by
    by_cases he : t' = t
    · subst he
      rw [Function.update_self] at hseg
      exact (maps_after hx hseg).elim (hJ.maps _ seg) id
    · rw [Function.update_of_ne he] at hseg
      exact hJ.maps t' seg hseg
  paths t' q' p' ht' hq' := by
    rcases thread_update ht' with ⟨rfl, rfl, rfl⟩ | ⟨hne, hold⟩
    · exact (hJ.paths _ _ _ ht hq').2 r () (Decides.next hdecides ht hx)
    · exact hJ.paths t' q' p' hold hq'

/-- The invariant holds in every state that clients with targets of their own lead to. -/
theorem parted_run (abtio : Bool) (classes : ClassKey → Option MigrationClass) (fs : Fs)
    (targets : Nat → Str → Prop) {ls : List Step} {P : System}
    (h : System.Reaches abtio (System.Separated classes targets) (.init classes fs) ls P) :
    ∃ G, Watched discipline G P ∧ Parted classes fs.cwd targets G P := by
  refine ghostInv_run_from h (ghostInv_of_empty (fun _ => rfl) (parted_init classes fs targets))
    .init (handle_follows abtio) ?_ ?_
  · intro G P t q hsends _ hJ hnone
    exact parted_spawn abtio hJ hnone hsends
  · intro G P t w q o k r s' hdecides hw hJ ht hx
    exact ⟨_, rfl, parted_step hw hJ hdecides ht hx⟩

end Parted

/-! ### Operations stay within the territory -/

/-- The id has been drawn by a handler of the client `m`. -/
def Provider.Owns (s : Provider) (m : Nat) (id : Uuid) : Prop := ∃ n, s.issuedTo id = some ⟨m, n⟩

/-- The operation works on what belongs to the client `m`. -/
def Op.Within (classes : ClassKey → Option MigrationClass) (targets : Str → Prop) (m : Nat)
    (s : Provider) : Op → Prop
  | .classCount key => classes key ≠ none
  | .access path | .openTrunc path _ => targets path
  | .mkdir dir => OnTheWay targets dir
  | .close fd => fd.owner.client = m
  | .insert id _ | .find id | .erase id | .lock id | .unlock id | .load id | .filesizeAt id _
  | .setError id _ | .after id _ _ => s.Owns m id
  | .closeFds id => s.Owns m id ∧
      ∀ op, s.opInProgress id = some op → ∀ fd ∈ op.fds, fd.owner.client = m
  | .ftruncate _ fd _ | .mmap _ fd _ | .pwrite _ fd _ _ | .abtIoPwrite _ fd _ _ =>
      fd.owner.client = m
  | .pull _ segs => ∀ seg, .mapped seg ∈ segs.map Prod.fst → seg.owner.client = m
  | _ => True

/-- Every operation of a handler stays within the territory of its client. -/
theorem Parted.within {classes : ClassKey → Option MigrationClass} {cwd : Path}
    {targets : Nat → Str → Prop} {G : Tid → Ghost} {P : System} {t : Tid} {q : Request} {o : Op}
    {k : Ans o → Handler Unit} (hw : Watched discipline G P)
    (hJ : Parted classes cwd targets G P) (ht : P.thread t = some ⟨q, .op o k⟩) :
    o.Within classes (targets t.client) t.client P.shared := by
  have hallow : (G t).Allows o := hw.allows ht
  have hreq : (G t).req = q := hJ.req t q _ ht
  have hfound : ∀ id, (G t).found = some id → P.shared.Owns t.client id := fun id h =>
    ⟨0, hJ.found_issued h⟩
  cases o with
  | classCount | access | mkdir | openTrunc =>
      have hkind : q.kind = .start := hreq ▸ hallow.1
      exact hJ.stays ht hkind
  | close fd =>
      have hmine : fd ∈ (G t).mine := List.mem_of_mem_head? hallow.2
      exact congrArg Tid.client (hJ.mine t fd hmine)
  | insert id op => exact ⟨t.call, hJ.issued hallow.2.1⟩
  | find id => exact ⟨0, hJ.target_issued ht (hreq ▸ hallow.1)⟩
  | erase id | lock id | unlock id | load id | filesizeAt id | setError id | after id =>
      exact hfound id hallow.1
  | closeFds id =>
      exact ⟨hfound id hallow.1, fun op hop fd hfd => hJ.record_owner hallow.1 hop hfd⟩
  | ftruncate id fd | mmap id fd => exact hJ.fds t fd hallow.2.2.1
  | pwrite id fd | abtIoPwrite id fd => exact hJ.fds t fd hallow.2.2.2.1
  | pull remote segs =>
      intro seg hseg
      rw [hallow.2.2.1] at hseg
      exact congrArg Tid.client (hJ.maps t seg hseg)
  | _ => trivial

end Remi
