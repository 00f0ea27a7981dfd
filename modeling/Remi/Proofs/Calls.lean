import Remi.Client.Calls
import Remi.Proofs.Delivery

/-!
# `Remi.Proofs.Calls`: the calls compute the transfer

The programs of `Remi.Client.Calls`, run call by call, return what the functions of
`Remi.Client.Transfer` compute, and leave the provider in the same state
(`transfer_calls`). The descriptors are numbers here and the buffers change places, so each loop
has a relation between the process and the state of the loop in `Remi.Client.Transfer`.
-/

set_option autoImplicit false

namespace Remi

open Remi.Lib

section Local
variable {σ : Type} {rpc : Rpc σ} {io : ClientIo} {T : SourceTree} {s : ClientProcess σ}

variable (rpc io T) in
/-- The program `p` returns what a transfer function leaves, from the process `s` on. -/
def Computes (p : ClientProg Returned) (s : ClientProcess σ) (m : Migrated σ) : Prop :=
  ∃ s', p.run (perform rpc io T) s = (some ⟨m.ret, m.status, m.fileset⟩, s') ∧
    s'.server = m.server

/-! ### The cleanups -/

variable (rpc io T) in
theorem run_unmapSegments (l : List SourceAddr) (s : ClientProcess σ) :
    ∃ s', (unmapSegments l).run (perform rpc io T) s = (some (), s') ∧
      s'.server = s.server := by
  induction l generalizing s with
  | nil => exact ⟨s, rfl, rfl⟩
  | cons a rest ih =>
      obtain ⟨s', hrun, hserver⟩ :=
        ih { s with unmaps := Function.update s.unmaps a (s.unmaps a + 1) }
      exact ⟨s', hrun, hserver⟩

variable (rpc io T) in
theorem run_closeSources (l : List SourceFd) (s : ClientProcess σ) :
    ∃ s', (closeSources l).run (perform rpc io T) s = (some (), s') ∧
      s'.server = s.server := by
  induction l generalizing s with
  | nil => exact ⟨s, rfl, rfl⟩
  | cons fd rest ih =>
      obtain ⟨s', hrun, hserver⟩ := ih
        { s with
          isOpen := Function.update s.isOpen fd false
          closes := Function.update s.closes fd (s.closes fd + 1) }
      exact ⟨s', hrun, hserver⟩

/-! ### The mapped files -/

/-- The addresses in the process are those of the segments in `e`. -/
structure Maps (s : ClientProcess σ) (theData : List SourceAddr) (e : Exposed) : Prop where
  shows : e.theData = theData.map s.shows
  bound : ∀ n, .mapped n ∈ theData → n < s.segments.length
  total : (s.segments.map List.length).sum = e.mapped

variable (rpc) in
/-- The process has opened the file `i`, and `fstat` has said what it is. -/
theorem open_source {filename : Str} {file : SourceHandle} (i : Nat)
    (hi : s.files.length = i) (hopen : io.openFails i = false)
    (hfile : T.openFile filename = some file) :
    perform rpc io T (.open_ filename) s = some (some i,
        { s with files := s.files ++ [file], isOpen := Function.update s.isOpen i true }) ∧
      perform rpc io T (.fstat i)
          { s with files := s.files ++ [file], isOpen := Function.update s.isOpen i true } =
        some (if io.fstatFails i = false then some (file.size, file.mode) else none,
          { s with files := s.files ++ [file], isOpen := Function.update s.isOpen i true }) := by
  subst hi
  constructor
  · simp [perform, hopen, hfile]
  · simp [perform]

variable (io) in
/-- `mmap` of the file `i`, which is open. -/
theorem mmap_source {file : SourceHandle} {i : Nat} (hfile : s.files[i]? = some file)
    (hopen : s.isOpen i = true) {theData : List SourceAddr} {e : Exposed}
    (h : Maps s theData e) (e₁ : Exposed) :
    ∃ a s', mapSegment io i s = (a, s') ∧ s'.server = s.server ∧ s'.files = s.files ∧
      s'.isOpen = s.isOpen ∧
      (a = .null ↔ mmapFile (io.mmapFails i) e.mapped file = .null) ∧
      Maps s' (theData ++ [a])
        { e₁ with theData := e.theData ++ [mmapFile (io.mmapFails i) e.mapped file] } := by
  have htotal := h.total
  -- A failed mapping shows nothing, and the others show what they have shown.
  have hfailed : ∀ (a : SourceAddr) (b : Mapping Bytes) (mmaps : SourceAddr → Nat),
      s.shows a = b → a.isMapped = false → b.isMapped = false →
      Maps { s with mmaps } (theData ++ [a]) { e₁ with theData := e.theData ++ [b] } := by
    intro a b mmaps hab ha hb
    refine ⟨?_, fun n hn => ?_, ?_⟩
    · show e.theData ++ [b] = (theData ++ [a]).map s.shows
      rw [List.map_append, h.shows, List.map_singleton, hab]
    · rcases List.mem_append.mp hn with hn | hn
      · exact h.bound n hn
      · obtain rfl := List.mem_singleton.mp hn
        cases ha
    · show (s.segments.map List.length).sum = (Bulk.bytes (e.theData ++ [b])).length
      rw [htotal, Bulk.bytes_append, List.length_append]
      cases b with
      | mapped => cases hb
      | null | failed => rfl
  simp only [mapSegment, hfile, hopen, ↓reduceIte, htotal]
  cases hmap : mmapFile (io.mmapFails i) e.mapped file with
  | null => exact ⟨_, _, rfl, rfl, rfl, rfl, by simp, hfailed _ _ _ rfl rfl rfl⟩
  | failed => exact ⟨_, _, rfl, rfl, rfl, rfl, by simp, hfailed _ _ _ rfl rfl rfl⟩
  | mapped b =>
      refine ⟨_, _, rfl, rfl, rfl, rfl, by simp, ?_, fun n hn => ?_, ?_⟩
      · have hsame : ∀ a ∈ theData, s.shows a =
            ({ s with segments := s.segments ++ [b] } : ClientProcess σ).shows a := by
          intro a ha
          cases a with
          | null | failed => rfl
          | mapped n =>
              have hn := h.bound n ha
              simp [ClientProcess.shows, List.getD_eq_getElem?_getD, List.getElem?_append_left hn]
        show e.theData ++ [Mapping.mapped b] = (theData ++ [Mapping.mapped s.segments.length]).map
          ({ s with segments := s.segments ++ [b] } : ClientProcess σ).shows
        rw [List.map_append, h.shows, List.map_congr_left hsame]
        simp [ClientProcess.shows]
      · show n < (s.segments ++ [b]).length
        rw [List.length_append, List.length_singleton]
        rcases List.mem_append.mp hn with hn | hn
        · have hbound := h.bound n hn
          omega
        · obtain rfl := Mapping.mapped.inj (List.mem_singleton.mp hn)
          omega
      · show ((s.segments ++ [b]).map List.length).sum =
          (Bulk.bytes (e.theData ++ [.mapped b])).length
        rw [List.map_append, List.sum_append, htotal, Bulk.bytes_append, List.length_append]
        simp [Bulk.bytes, Exposed.mapped]

variable (rpc io T) in
/-- The loop that opens and maps the files. -/
theorem run_mapSources (root : Str) {files : List Str} {i : Nat} {theData : List SourceAddr}
    {e : Exposed} {s : ClientProcess σ} (hi : s.files.length = i) (h : Maps s theData e) :
    ∃ s', s'.server = s.server ∧
      (∀ ret, exposeFiles io T root files i e = .error ret →
        (mapSources root files theData e.theSizes e.theModes).run (perform rpc io T) s =
          (some (.error ret), s')) ∧
      ∀ e', exposeFiles io T root files i e = .ok e' → ∃ theData', Maps s' theData' e' ∧
        (mapSources root files theData e.theSizes e.theModes).run (perform rpc io T) s =
          (some (.ok (theData', e'.theSizes, e'.theModes)), s') := by
  induction files generalizing i theData e s with
  | nil =>
      refine ⟨s, rfl, fun ret hret => (by cases hret), fun e' he' => ?_⟩
      obtain rfl := Except.ok.inj he'
      exact ⟨theData, h, rfl⟩
  | cons filename rest ih =>
      rw [mapSources, Prog.call_bind, exposeFiles]
      cases hopened : if io.openFails i then none else T.openFile (root ++ filename) with
      | none =>
          obtain ⟨s', hrun, hserver⟩ := run_unmapSegments rpc io T theData s
          have hopen : perform rpc io T (.open_ (root ++ filename)) s = some (none, s) := by
            simp only [perform, hi, hopened]
          refine ⟨s', hserver, fun ret hret => ?_, fun _ hok => by cases hok⟩
          obtain rfl := Except.error.inj hret
          rw [Prog.run_op_some _ hopen, Prog.run_bind_some _ hrun]
          rfl
      | some file =>
          have hopens : io.openFails i = false ∧ T.openFile (root ++ filename) = some file := by
            cases hfails : io.openFails i with
            | true => simp [hfails] at hopened
            | false => exact ⟨rfl, by simpa [hfails] using hopened⟩
          obtain ⟨hopen, hstat⟩ := open_source rpc i hi hopens.1 hopens.2
          generalize hs₁ : { s with
            files := s.files ++ [file]
            isOpen := Function.update s.isOpen i true } = s₁ at hopen hstat
          have hfile₁ : s₁.files[i]? = some file := by
            rw [← hs₁, ← hi]
            exact List.getElem?_concat_length
          have hopen₁ : s₁.isOpen i = true := by
            rw [← hs₁]
            exact Function.update_self _ _ _
          have hlength₁ : s₁.files.length = i + 1 := by
            rw [← hs₁, ← hi]
            exact List.length_append
          have hserver₁ : s₁.server = s.server := by rw [← hs₁]
          have hmaps₁ : Maps s₁ theData e := by
            rw [← hs₁]
            exact ⟨h.shows, h.bound, h.total⟩
          rw [Prog.run_op_some _ hopen]
          simp only [Prog.call_bind]
          cases hfails : io.fstatFails i with
          | true =>
              rw [hfails] at hstat
              obtain ⟨s', hrun, hserver⟩ := run_unmapSegments rpc io T
                theData { s₁ with
                  isOpen := Function.update s₁.isOpen i false
                  closes := Function.update s₁.closes i (s₁.closes i + 1) }
              refine ⟨s', hserver.trans hserver₁, fun ret hret => ?_,
                fun _ hok => by cases hok⟩
              obtain rfl := Except.error.inj hret
              rw [Prog.run_op_some _ hstat]
              simp only [Bool.true_eq_false, ↓reduceIte]
              rw [Prog.run_op_some _ rfl, Prog.run_bind_some _ hrun]
              rfl
          | false =>
              rw [hfails] at hstat
              rw [Prog.run_op_some _ hstat]
              simp only [Bool.false_eq_true, ↓reduceIte]
              by_cases hsize : file.size = 0
              · -- An empty file is closed, and leaves no segment.
                simp only [if_pos hsize]
                rw [Prog.run_op_some _ rfl]
                obtain ⟨s', hserver, herror, hok⟩ := @ih (i + 1) theData
                  { e with
                    theSizes := e.theSizes ++ [file.size]
                    theModes := e.theModes ++ [file.mode] }
                  { s₁ with
                    isOpen := Function.update s₁.isOpen i false
                    closes := Function.update s₁.closes i (s₁.closes i + 1) }
                  hlength₁ ⟨hmaps₁.shows, hmaps₁.bound, hmaps₁.total⟩
                exact ⟨s', hserver.trans hserver₁, herror, hok⟩
              · simp only [if_neg hsize]
                obtain ⟨a, s₂, hmap, hserver₂, hfiles₂, hopen₂, hnull, hmaps₂⟩ :=
                  mmap_source io hfile₁ hopen₁ hmaps₁ { e with
                    theSizes := e.theSizes ++ [file.size]
                    theModes := e.theModes ++ [file.mode] }
                have hmmap : perform rpc io T (.mmap i file.size) s₁ = some (a, s₂) :=
                  congrArg some hmap
                rw [Prog.run_op_some _ hmmap]
                have ha : a ≠ .null := fun ha => mmapFile_ne_null _ _ _ (hnull.mp ha)
                rw [if_neg ha, Prog.run_op_some _ rfl]
                obtain ⟨s', hserver, herror, hok⟩ := @ih (i + 1) (theData ++ [a]) _
                  { s₂ with
                    isOpen := Function.update s₂.isOpen i false
                    closes := Function.update s₂.closes i (s₂.closes i + 1) }
                  (hfiles₂ ▸ hlength₁) ⟨hmaps₂.shows, hmaps₂.bound, hmaps₂.total⟩
                refine ⟨s', hserver.trans (hserver₂.trans hserver₁), ?_⟩
                cases hfile : mmapFile (io.mmapFails i) e.mapped file with
                | null => exact absurd hfile (mmapFile_ne_null _ _ _)
                | failed | mapped b =>
                    rw [hfile] at herror hok
                    exact ⟨herror, hok⟩

theorem run_exposeSegments (theData : List SourceAddr) (s : ClientProcess σ) :
    (exposeSegments theData).run (perform rpc io T) s =
      (some (if theData = [] then none else some theData), s) := by
  unfold exposeSegments
  split <;> rfl

/-- A cleanup before the return. -/
theorem computes_cleanup {cleanup : ClientProg Unit} {s s' : ClientProcess σ}
    (hrun : cleanup.run (perform rpc io T) s = (some (), s')) (m : Migrated σ)
    (hserver : s'.server = m.server) :
    Computes rpc io T (cleanup >>= fun _ => pure ⟨m.ret, m.status, m.fileset⟩) s m :=
  ⟨s', Prog.run_bind_some _ hrun, hserver⟩

/-- What is behind `migrate_start` in `migrate_using_mmap`. -/
theorem run_sendMapped {theData : List SourceAddr} {bulk : Option Bulk} {s : ClientProcess σ}
    {localBulk : Option (List SourceAddr)} (hbulk : localBulk.map (List.map s.shows) = bulk)
    (restored : Fileset) (status : Int) (id : Uuid) :
    Computes rpc io T (sendMapped restored theData localBulk status id) s
      (sendMmap rpc restored bulk status id s.server) := by
  have hmmap : perform rpc io T (.migrateMmap id localBulk) s = some
      ((rpc.mmap id bulk s.server).1, { s with server := (rpc.mmap id bulk s.server).2 }) := by
    simp only [perform, hbulk]
  unfold Computes
  rw [sendMapped, Prog.call_bind, Prog.run_op_some _ hmmap]
  by_cases hret : (rpc.mmap id bulk s.server).1 = .success
  · simp only [sendMmap, finish, hret, ne_eq, not_true_eq_false, ↓reduceIte]
    rw [Prog.call_bind, Prog.run_op_some _ rfl]
    obtain ⟨s', hrun, hserver⟩ := run_unmapSegments rpc io T theData
      { s with server := (rpc.end_ id (rpc.mmap id bulk s.server).2).2 }
    exact computes_cleanup hrun ⟨_, _, restored, _⟩ hserver
  · simp only [sendMmap, ne_eq, hret, not_false_eq_true, ↓reduceIte]
    obtain ⟨s', hrun, hserver⟩ := run_unmapSegments rpc io T theData
      { s with server := (rpc.mmap id bulk s.server).2 }
    exact computes_cleanup hrun ⟨_, _, restored, _⟩ hserver

/-- `migrate_start`, and what both transfer functions do with its answer. -/
theorem run_start {cleanup : ClientProg Unit} {rest : Uuid → ClientProg Returned}
    {swapped : Fileset} {theSizes theModes : List Nat} {status : Int} {s : ClientProcess σ}
    {next : Uuid → σ → Migrated σ}
    (hcleanup : ∀ s, ∃ s', cleanup.run (perform rpc io T) s = (some (), s') ∧
      s'.server = s.server)
    (hrest : ∀ id st, Computes rpc io T (rest id) { s with server := st } (next id st)) :
    Computes rpc io T
      (do
        let (ret, userStatus, operationId) ← invoke (.migrateStart swapped theSizes theModes)
        if ret ≠ .success then
          cleanup
          pure ⟨ret, if ret = .errUser then userStatus else status, swapped⟩
        else rest operationId) s
      (sendStart rpc swapped theSizes theModes status s.server next) := by
  have hstart : perform rpc io T (.migrateStart swapped theSizes theModes) s = some
      ((rpc.start swapped theSizes theModes s.server).1,
        { s with server := (rpc.start swapped theSizes theModes s.server).2 }) := rfl
  unfold Computes
  rw [Prog.call_bind, Prog.run_op_some _ hstart, sendStart]
  generalize rpc.start swapped theSizes theModes s.server = answer
  obtain ⟨⟨ret, userStatus, id⟩, st⟩ := answer
  by_cases hret : ret = .success
  · simp only [hret, ne_eq, not_true_eq_false, ↓reduceIte]
    exact hrest id st
  · simp only [ne_eq, hret, not_false_eq_true, ↓reduceIte]
    obtain ⟨s', hrun, hserver⟩ := hcleanup { s with server := st }
    exact computes_cleanup hrun ⟨ret, _, swapped, st⟩ hserver

theorem maps_init (st : σ) : Maps (.init st) [] ⟨[], [], []⟩ :=
  ⟨rfl, fun _ hn => absurd hn List.not_mem_nil, rfl⟩

theorem run_migrateMmapCalls (fileset : Fileset) (files : SortedSet Str) (remoteRoot : Str)
    (status : Int) (st : σ) :
    Computes rpc io T (migrateMmapCalls fileset files remoteRoot status) (.init st)
      (migrateUsingMmap rpc io T fileset files remoteRoot status st) := by
  obtain ⟨s, hserver, herror, hok⟩ := @run_mapSources σ rpc io T fileset.root
    files.toList 0 [] _ _ rfl (maps_init st)
  have hserver : s.server = st := hserver
  rw [migrateMmapCalls, migrateUsingMmap]
  cases hexpose : exposeFiles io T fileset.root files.toList 0 ⟨[], [], []⟩ with
  | error ret => exact ⟨s, Prog.run_bind_some _ (herror ret hexpose), hserver⟩
  | ok e =>
      obtain ⟨theData, hmaps, hrun⟩ := hok e hexpose
      unfold Computes
      rw [Prog.run_bind_some _ hrun]
      dsimp only
      rw [Prog.run_bind_some _ (run_exposeSegments theData s)]
      subst hserver
      refine run_start (run_unmapSegments rpc io T theData) fun id st => ?_
      refine run_sendMapped ?_ _ status id
      -- The provider gets the bytes behind the addresses.
      have hshows : theData.map ({ s with server := st } : ClientProcess σ).shows = e.theData :=
        hmaps.shows.symm
      rw [← hshows]
      by_cases hnil : theData = []
      · simp [hnil]
      · simp [hnil]

/-! ### The open files -/

/-- The process has the files open, with their numbers as descriptors, and has read nothing yet
from the file `i` on. -/
structure OpenFiles (s : ClientProcess σ) (files : List SourceHandle) (i : Nat) : Prop where
  handles : s.files = files
  isOpen : ∀ j < files.length, s.isOpen j = true
  fresh : ∀ j, i ≤ j → s.reads j = 0 ∧ s.position j = 0

variable (rpc io T) in
/-- The loop that opens the files. -/
theorem run_openEach (root : Str) {names : List Str} {files : List SourceHandle}
    {s : ClientProcess σ} (h : OpenFiles s files 0) :
    ∃ s', s'.server = s.server ∧
      (∀ ret, openSources io T root names files.length = .error ret →
        (openEach root names (List.range files.length) (files.map (·.size))
          (files.map (·.mode))).run (perform rpc io T) s = (some (.error ret), s')) ∧
      ∀ opened, openSources io T root names files.length = .ok opened →
        OpenFiles s' (files ++ opened) 0 ∧ s'.buffer = s.buffer ∧
        (openEach root names (List.range files.length) (files.map (·.size))
          (files.map (·.mode))).run (perform rpc io T) s =
            (some (.ok (List.range (files ++ opened).length, (files ++ opened).map (·.size),
              (files ++ opened).map (·.mode))), s') := by
  induction names generalizing files s with
  | nil =>
      refine ⟨s, rfl, fun ret hret => (by cases hret), fun opened hopened => ?_⟩
      obtain rfl := Except.ok.inj hopened
      rw [List.append_nil]
      exact ⟨h, rfl, rfl⟩
  | cons filename rest ih =>
      rw [openEach, Prog.call_bind, openSources]
      cases hopened : if io.openFails files.length then none else T.openFile (root ++ filename) with
      | none =>
          obtain ⟨s', hrun, hserver⟩ := run_closeSources rpc io T (List.range files.length) s
          have hopen : perform rpc io T (.open_ (root ++ filename)) s = some (none, s) := by
            simp only [perform, h.handles, hopened]
          refine ⟨s', hserver, fun ret hret => ?_, fun _ hok => by cases hok⟩
          obtain rfl := Except.error.inj hret
          rw [Prog.run_op_some _ hopen, Prog.run_bind_some _ hrun]
          rfl
      | some file =>
          have hopens : io.openFails files.length = false ∧
              T.openFile (root ++ filename) = some file := by
            cases hfails : io.openFails files.length with
            | true => simp [hfails] at hopened
            | false => exact ⟨rfl, by simpa [hfails] using hopened⟩
          have hlength : s.files.length = files.length := congrArg List.length h.handles
          obtain ⟨hopen, hstat⟩ := open_source rpc files.length hlength hopens.1 hopens.2
          generalize hs₁ : { s with
            files := s.files ++ [file]
            isOpen := Function.update s.isOpen files.length true } = s₁ at hopen hstat
          have h₁ : OpenFiles s₁ (files ++ [file]) 0 := by
            rw [← hs₁]
            refine ⟨by rw [h.handles], fun j hj => ?_, h.fresh⟩
            show Function.update s.isOpen files.length true j = true
            rw [List.length_append, List.length_singleton] at hj
            by_cases hlast : j = files.length
            · rw [hlast, Function.update_self]
            · rw [Function.update_of_ne hlast]
              exact h.isOpen j (by omega)
          have hserver₁ : s₁.server = s.server := by rw [← hs₁]
          have hbuffer₁ : s₁.buffer = s.buffer := by rw [← hs₁]
          have hrange : List.range files.length ++ [files.length] =
              List.range (files ++ [file]).length := by
            rw [List.length_append, List.length_singleton, List.range_succ]
          rw [Prog.run_op_some _ hopen]
          simp only [Prog.call_bind]
          rw [Prog.run_op_some _ hstat, hrange]
          cases hfails : io.fstatFails files.length with
          | true =>
              obtain ⟨s', hrun, hserver⟩ :=
                run_closeSources rpc io T (List.range (files ++ [file]).length) s₁
              refine ⟨s', hserver.trans hserver₁, fun ret hret => ?_,
                fun _ hok => by cases hok⟩
              obtain rfl := Except.error.inj hret
              simp only [Bool.true_eq_false, ↓reduceIte]
              rw [Prog.run_bind_some _ hrun]
              rfl
          | false =>
              simp only [Bool.false_eq_true, ↓reduceIte]
              obtain ⟨s', hserver, herror, hok⟩ := ih h₁
              rw [List.length_append, List.length_singleton] at herror hok
              simp only [List.map_append, List.map_cons, List.map_nil] at herror hok
              rw [List.length_append, List.length_singleton]
              refine ⟨s', hserver.trans hserver₁, fun ret hret => ?_, fun opened hopened => ?_⟩
              · cases hrest : openSources io T root rest (files.length + 1) with
                | error ret' =>
                    rw [hrest] at hret
                    obtain rfl := Except.error.inj hret
                    exact herror ret' hrest
                | ok opened => rw [hrest] at hret; cases hret
              · cases hrest : openSources io T root rest (files.length + 1) with
                | error ret' => rw [hrest] at hopened; cases hopened
                | ok opened' =>
                    rw [hrest] at hopened
                    obtain rfl := Except.ok.inj hopened
                    obtain ⟨h', hbuffer, hrun⟩ := hok opened' hrest
                    rw [List.append_assoc] at h' hrun
                    exact ⟨h', hbuffer.trans hbuffer₁, by simpa using hrun⟩

/-! ### The chunks -/

/-- A file that is read leaves the files behind it as they are. -/
theorem OpenFiles.keep {files : List SourceHandle} {i : Nat} (h : OpenFiles s files (i + 1))
    {s' : ClientProcess σ} (hfiles : s'.files = s.files) (hopen : s'.isOpen = s.isOpen)
    (hreads : ∀ j, j ≠ i → s'.reads j = s.reads j)
    (hposition : ∀ j, j ≠ i → s'.position j = s.position j) : OpenFiles s' files (i + 1) where
  handles := hfiles.trans h.handles
  isOpen j hj := by rw [hopen, h.isOpen j hj]
  fresh j hj := by
    rw [hreads j (by omega), hposition j (by omega)]
    exact h.fresh j hj

variable (io) in
/-- A chunk of the file `i`, which is open, is read into a buffer that has got its size. -/
theorem read_chunk {files : List SourceHandle} {i : Nat} {file : SourceHandle}
    (h : OpenFiles s files (i + 1)) (hfile : files[i]? = some file) (b : Block) (n offset : Nat) :
    ∃ s', ({ s with buffer := Function.update s.buffer b (resize 0 n (s.buffer b)) } :
        ClientProcess σ).readAt io i b offset =
          (s', (readInto (io.read i (s.reads i)) file offset (resize 0 n (s.buffer b))).2) ∧
      s'.server = s.server ∧ s'.pending = s.pending ∧ s'.position = s.position ∧
      s'.buffer b = (readInto (io.read i (s.reads i)) file offset (resize 0 n (s.buffer b))).1 ∧
      (∀ b', b' ≠ b → s'.buffer b' = s.buffer b') ∧ s'.reads i = s.reads i + 1 ∧
      OpenFiles s' files (i + 1) := by
  have hopen : s.isOpen i = true := h.isOpen i (List.getElem?_eq_some_iff.mp hfile).1
  have hhere : s.files[i]? = some file := by rw [h.handles, hfile]
  simp only [ClientProcess.readAt, hhere, hopen, ↓reduceIte, Function.update_self]
  refine ⟨_, rfl, rfl, rfl, rfl, ?_, fun b' hb' => ?_, ?_, ?_⟩
  · exact Function.update_self b _ _
  · exact (Function.update_of_ne hb' _ _).trans (Function.update_of_ne hb' _ _)
  · exact Function.update_self i _ _
  · exact h.keep rfl rfl (fun j hj => Function.update_of_ne hj _ _) fun _ _ => rfl

/-- The plain loop over the chunks of the file `i`. -/
theorem run_plainChunkCalls {files : List SourceHandle} {i : Nat} {file : SourceHandle}
    (hfile : files[i]? = some file) (id : Uuid) (maxChunkSize : Nat)
    {fuel remainingSize currentOffset : Nat} {s : ClientProcess σ}
    {ps : PlainState σ} (h : OpenFiles s files (i + 1)) (hserver : s.server = ps.server)
    (hbuffer : s.buffer .first = ps.buffer) :
    ∃ s', (plainChunkCalls id maxChunkSize i i fuel remainingSize currentOffset ps.ret).run
        (perform rpc io T) s =
          (some (plainChunks rpc io id maxChunkSize i file fuel remainingSize currentOffset
            (s.position i) (s.reads i) ps).ret, s') ∧
      s'.server = (plainChunks rpc io id maxChunkSize i file fuel remainingSize currentOffset
        (s.position i) (s.reads i) ps).server ∧
      s'.buffer .first = (plainChunks rpc io id maxChunkSize i file fuel remainingSize
        currentOffset (s.position i) (s.reads i) ps).buffer ∧
      OpenFiles s' files (i + 1) := by
  induction fuel generalizing remainingSize currentOffset s ps with
  | zero => exact ⟨s, rfl, hserver, hbuffer, h⟩
  | succ fuel ih =>
      rw [plainChunkCalls, plainChunks]
      by_cases hzero : remainingSize = 0
      · rw [if_pos hzero, if_pos hzero]
        exact ⟨s, rfl, hserver, hbuffer, h⟩
      · rw [if_neg hzero, if_neg hzero]
        generalize hchunk : (if remainingSize < maxChunkSize then remainingSize
          else maxChunkSize) = chunkSize
        dsimp only
        rw [Prog.call_bind, Prog.run_op_some _ rfl, Prog.call_bind, ← hbuffer, ← hserver]
        obtain ⟨s₁, hread, hserver₁, -, hposition₁, hbuffer₁, -, hreads₁, h₁⟩ :=
          read_chunk io h hfile .first chunkSize (s.position i)
        generalize readInto (io.read i (s.reads i)) file (s.position i)
          (resize 0 chunkSize (s.buffer .first)) = result at hread hbuffer₁ ⊢
        have hstep : perform rpc io T (.read i .first) { s with
              buffer := Function.update s.buffer .first
                (resize 0 chunkSize (s.buffer .first)) } = some ((),
            { s₁ with position := Function.update s₁.position i (s₁.position i + result.2) }) := by
          simp only [perform, hread, hposition₁]
        rw [Prog.run_op_some _ hstep, Prog.call_bind, Prog.run_op_some _ rfl]
        dsimp only
        rw [hbuffer₁, hserver₁, hposition₁]
        have hrest := @ih (remainingSize - chunkSize) (currentOffset + chunkSize)
          { s₁ with
            position := Function.update s₁.position i (s₁.position i + result.2)
            server := (rpc.write id i currentOffset result.1 s.server).2 }
          ⟨result.1, (rpc.write id i currentOffset result.1 s.server).1,
            (rpc.write id i currentOffset result.1 s.server).2⟩
          (h₁.keep rfl rfl (fun _ _ => rfl) fun j hj => Function.update_of_ne hj _ _) rfl hbuffer₁
        dsimp only at hrest
        rw [hposition₁, hreads₁, Function.update_self] at hrest
        exact hrest

/-- The plain loop over the files. -/
theorem run_plainFileCalls {files rest : List SourceHandle} {i : Nat}
    (hrest : files.drop i = rest) (id : Uuid) (maxChunkSize : Nat) {s : ClientProcess σ}
    {ps : PlainState σ} (h : OpenFiles s files i) (hserver : s.server = ps.server)
    (hbuffer : s.buffer .first = ps.buffer) :
    ∃ s', (plainFileCalls id maxChunkSize
        ((List.range' i rest.length).zip (rest.map (·.size))) i ps.ret).run (perform rpc io T) s =
          (some (plainFiles rpc io id maxChunkSize rest i ps).ret, s') ∧
      s'.server = (plainFiles rpc io id maxChunkSize rest i ps).server := by
  induction rest generalizing i s ps with
  | nil => exact ⟨s, rfl, hserver⟩
  | cons file rest ih =>
      have hfile : files[i]? = some file := by rw [← List.head?_drop, hrest, List.head?_cons]
      have hrest' : files.drop (i + 1) = rest := by rw [← List.tail_drop, hrest, List.tail_cons]
      have h' : OpenFiles s files (i + 1) := ⟨h.handles, h.isOpen, fun j hj => h.fresh j (by omega)⟩
      obtain ⟨s₁, hrun, hserver₁, hbuffer₁, h₁⟩ :=
        @run_plainChunkCalls σ rpc io T files i file hfile id maxChunkSize file.size file.size 0 s
          ps h' hserver hbuffer
      rw [(h.fresh i le_rfl).1, (h.fresh i le_rfl).2] at hrun hserver₁ hbuffer₁
      rw [List.length_cons, List.range'_succ, List.map_cons, List.zip_cons_cons, plainFileCalls,
        Prog.run_bind_some _ hrun, plainFiles]
      exact ih hrest' h₁ hserver₁ hbuffer₁

/-- The buffers of the process are those of the pipelined loop, and its server is too. -/
structure Pipelined (s : ClientProcess σ) (current previous : Block) (ps : PipelineState σ) :
    Prop where
  ne : current ≠ previous
  current : s.buffer current = ps.currentBuffer
  previous : s.buffer previous = ps.previousBuffer
  server : s.server = ps.server

/-- The pipelined loop over the chunks of the file `i`. -/
theorem run_pipelineChunkCalls {files : List SourceHandle} {i : Nat} {file : SourceHandle}
    (hfile : files[i]? = some file) (id : Uuid) (maxChunkSize : Nat)
    {fuel remainingSize previousChunkOffset currentChunkOffset : Nat} {current previous : Block}
    {s : ClientProcess σ} {ps : PipelineState σ} (h : OpenFiles s files (i + 1))
    (hps : Pipelined s current previous ps) :
    ∃ s' current' previous',
      (pipelineChunkCalls id maxChunkSize i i fuel remainingSize previousChunkOffset
          currentChunkOffset current previous ps.ret).run (perform rpc io T) s =
        (some ((pipelineChunks rpc io id maxChunkSize i file fuel remainingSize
          previousChunkOffset currentChunkOffset (s.reads i) ps).ret, current', previous'), s') ∧
      Pipelined s' current' previous' (pipelineChunks rpc io id maxChunkSize i file fuel
        remainingSize previousChunkOffset currentChunkOffset (s.reads i) ps) ∧
      OpenFiles s' files (i + 1) := by
  induction fuel generalizing remainingSize previousChunkOffset currentChunkOffset current previous
    s ps with
  | zero => exact ⟨s, current, previous, rfl, hps, h⟩
  | succ fuel ih =>
      rw [pipelineChunkCalls, pipelineChunks, Prog.call_bind]
      have hsend : perform rpc io T (.migrateWriteAsync id i previousChunkOffset previous) s =
          some ((), { s with
            server := (rpc.write id i previousChunkOffset ps.previousBuffer ps.server).2
            pending := some (previous,
              (rpc.write id i previousChunkOffset ps.previousBuffer ps.server).1) }) := by
        simp only [perform, hps.previous, hps.server]
      generalize rpc.write id i previousChunkOffset ps.previousBuffer ps.server = answer
        at hsend ⊢
      obtain ⟨ret, st⟩ := answer
      dsimp only at hsend ⊢
      generalize hs₁ : ({ s with
        server := st
        pending := some (previous, ret) } : ClientProcess σ) = s₁ at hsend
      have h₁ : OpenFiles s₁ files (i + 1) := by
        rw [← hs₁]
        exact ⟨h.handles, h.isOpen, h.fresh⟩
      have hreads₁ : s₁.reads = s.reads := by rw [← hs₁]
      have hbuffer₁ : s₁.buffer = s.buffer := by rw [← hs₁]
      have hserver₁ : s₁.server = st := by rw [← hs₁]
      have hpending₁ : s₁.pending = some (previous, ret) := by rw [← hs₁]
      rw [Prog.run_op_some _ hsend]
      by_cases hzero : remainingSize = 0
      · have hwait : perform rpc io T .wait s₁ = some (ret, { s₁ with pending := none }) := by
          simp only [perform, hpending₁, Option.map_some]
        rw [if_pos hzero, if_pos hzero, Prog.call_bind, Prog.run_op_some _ hwait]
        refine ⟨_, current, previous, rfl, ⟨hps.ne, ?_, ?_, hserver₁⟩,
          ⟨h₁.handles, h₁.isOpen, h₁.fresh⟩⟩
        · rw [hbuffer₁, hps.current]
        · rw [hbuffer₁, hps.previous]
      · rw [if_neg hzero, if_neg hzero]
        generalize (if remainingSize < maxChunkSize then remainingSize
          else maxChunkSize) = currentChunkSize
        -- The request is under way with the previous buffer. The read fills the other one.
        obtain ⟨s₂, hread, hserver₂, hpending₂, -, hbuffer₂, hother₂, hreads₂, h₂⟩ :=
          read_chunk io h₁ hfile current currentChunkSize currentChunkOffset
        have hcurrent₁ : s₁.buffer current = ps.currentBuffer := by rw [hbuffer₁, hps.current]
        have hprevious₂ : s₂.buffer previous = ps.previousBuffer := by
          rw [hother₂ previous (Ne.symm hps.ne), hbuffer₁, hps.previous]
        rw [hcurrent₁] at hbuffer₂
        have hstep : perform rpc io T (.pread i current currentChunkOffset) { s₁ with
            buffer := Function.update s₁.buffer current
              (resize 0 currentChunkSize (s₁.buffer current)) } = some ((), s₂) := by
          simp only [perform, hread]
        have hwait : perform rpc io T .wait s₂ = some (ret, { s₂ with pending := none }) := by
          simp only [perform, hpending₂, hpending₁, Option.map_some]
        have hserver₃ : s₂.server = st := hserver₂.trans hserver₁
        rw [Prog.call_bind, Prog.run_op_some _ rfl, Prog.call_bind, Prog.run_op_some _ hstep,
          Prog.call_bind, Prog.run_op_some _ hwait, ← hreads₁]
        generalize readInto (io.read i (s₁.reads i)) file currentChunkOffset
          (resize 0 currentChunkSize ps.currentBuffer) = result at hbuffer₂ ⊢
        obtain ⟨buffer, sizeRead⟩ := result
        dsimp only at hbuffer₂ ⊢
        by_cases hret : ret = .success
        · rw [if_neg fun hne => hne hret, if_neg fun hne => hne hret, ← hreads₂]
          exact @ih (remainingSize - currentChunkSize) currentChunkOffset
            (currentChunkOffset + currentChunkSize) previous current { s₂ with pending := none }
            ⟨ps.previousBuffer, buffer, ret, st⟩
            ⟨h₂.handles, h₂.isOpen, h₂.fresh⟩
            ⟨Ne.symm hps.ne, hprevious₂, hbuffer₂, hserver₃⟩
        · rw [if_pos hret, if_pos hret]
          exact ⟨_, current, previous, rfl, ⟨hps.ne, hbuffer₂, hprevious₂, hserver₃⟩,
            ⟨h₂.handles, h₂.isOpen, h₂.fresh⟩⟩

/-- The transfer of the file `i`. -/
theorem run_pipelineOneCalls {files : List SourceHandle} {i : Nat} {file : SourceHandle}
    (hfile : files[i]? = some file) (id : Uuid) (maxChunkSize : Nat) {current previous : Block}
    {s : ClientProcess σ} {ps : PipelineState σ} (h : OpenFiles s files i)
    (hps : Pipelined s current previous ps) :
    ∃ s' current' previous',
      (pipelineOneCalls id maxChunkSize i i file.size current previous ps.ret).run
          (perform rpc io T) s =
        (some ((pipelineFile rpc io id maxChunkSize i file ps).ret, current', previous'), s') ∧
      Pipelined s' current' previous' (pipelineFile rpc io id maxChunkSize i file ps) ∧
      OpenFiles s' files (i + 1) := by
  have h' : OpenFiles s files (i + 1) := ⟨h.handles, h.isOpen, fun j hj => h.fresh j (by omega)⟩
  rw [pipelineOneCalls, pipelineFile]
  generalize (if file.size < maxChunkSize then file.size
    else maxChunkSize) = currentChunkSize
  dsimp only
  obtain ⟨s₁, hread, hserver₁, hpending₁, -, hbuffer₁, hother₁, hreads₁, h₁⟩ :=
    read_chunk io h' hfile current currentChunkSize 0
  rw [(h.fresh i le_rfl).1, hps.current] at hread hbuffer₁
  rw [(h.fresh i le_rfl).1] at hreads₁
  have hprevious₁ : s₁.buffer previous = ps.previousBuffer := by
    rw [hother₁ previous (Ne.symm hps.ne), hps.previous]
  have hstep : perform rpc io T (.pread i current 0) { s with
      buffer := Function.update s.buffer current
        (resize 0 currentChunkSize (s.buffer current)) } = some ((), s₁) := by
    simp only [perform]
    rw [hps.current, hread]
  rw [Prog.call_bind, Prog.run_op_some _ rfl, Prog.call_bind, Prog.run_op_some _ hstep]
  have hloop := @run_pipelineChunkCalls σ rpc io T files i file hfile id maxChunkSize
    (file.size + 1) (file.size - currentChunkSize) 0 currentChunkSize previous current s₁
    ⟨ps.previousBuffer, _, ps.ret, ps.server⟩ h₁
    ⟨Ne.symm hps.ne, hprevious₁, hbuffer₁, hserver₁.trans hps.server⟩
  rw [hreads₁] at hloop
  exact hloop

/-- The pipelined loop over the files. -/
theorem run_pipelineFileCalls {files rest : List SourceHandle} {i : Nat}
    (hrest : files.drop i = rest) (id : Uuid) (maxChunkSize : Nat) {current previous : Block}
    {s : ClientProcess σ} {ps : PipelineState σ} (h : OpenFiles s files i)
    (hps : Pipelined s current previous ps) :
    ∃ s', (pipelineFileCalls id maxChunkSize ((List.range' i rest.length).zip
        (rest.map (·.size))) i current previous ps.ret).run (perform rpc io T) s =
          (some (pipelineFiles rpc io id maxChunkSize rest i ps).ret, s') ∧
      s'.server = (pipelineFiles rpc io id maxChunkSize rest i ps).server := by
  induction rest generalizing i s ps current previous with
  | nil => exact ⟨s, rfl, hps.server⟩
  | cons file rest ih =>
      have hfile : files[i]? = some file := by rw [← List.head?_drop, hrest, List.head?_cons]
      have hrest' : files.drop (i + 1) = rest := by rw [← List.tail_drop, hrest, List.tail_cons]
      obtain ⟨s₁, current₁, previous₁, hrun, hps₁, h₁⟩ :=
        @run_pipelineOneCalls σ rpc io T files i file hfile id maxChunkSize current previous s ps
          h hps
      rw [List.length_cons, List.range'_succ, List.map_cons, List.zip_cons_cons,
        pipelineFileCalls, Prog.run_bind_some _ hrun, pipelineFiles]
      dsimp only
      by_cases hret : (pipelineFile rpc io id maxChunkSize i file ps).ret = .success
      · rw [if_neg fun hne => hne hret, if_neg fun hne => hne hret]
        exact ih hrest' h₁ hps₁
      · rw [if_pos hret, if_pos hret]
        exact ⟨s₁, rfl, hps₁.server⟩

/-- The transfer of all files. -/
theorem run_writeFileCalls {files : List SourceHandle} {s : ClientProcess σ}
    (h : OpenFiles s files 0) (hbuffer : ∀ b, s.buffer b = []) (abtio : Bool) (id : Uuid)
    (maxChunkSize : Nat) :
    ∃ s', (writeFileCalls abtio id maxChunkSize ((List.range files.length).zip
        (files.map (·.size)))).run (perform rpc io T) s =
          (some (writeFiles rpc io abtio id maxChunkSize files s.server).1, s') ∧
      s'.server = (writeFiles rpc io abtio id maxChunkSize files s.server).2 := by
  have hresize : resize (0 : UInt8) maxChunkSize [] = List.replicate maxChunkSize 0 := by
    simp [resize]
  rw [writeFileCalls, writeFiles, Prog.call_bind, Prog.run_op_some _ rfl, List.range_eq_range']
  cases abtio with
  | true =>
      simp only [↓reduceIte]
      rw [Prog.call_bind, Prog.run_op_some _ rfl]
      refine @run_pipelineFileCalls σ rpc io T files files 0 List.drop_zero id maxChunkSize
        .first .second _
        ⟨List.replicate maxChunkSize 0, List.replicate maxChunkSize 0, .success, s.server⟩
        ⟨h.handles, h.isOpen, h.fresh⟩ ⟨by decide, ?_, ?_, rfl⟩
      · simp [hbuffer, hresize]
      · simp [hbuffer, hresize]
  | false =>
      simp only [Bool.false_eq_true, ↓reduceIte]
      refine @run_plainFileCalls σ rpc io T files files 0 List.drop_zero id maxChunkSize _
        ⟨List.replicate maxChunkSize 0, .success, s.server⟩
        ⟨h.handles, h.isOpen, h.fresh⟩ rfl ?_
      simp [hbuffer, hresize]

/-- What is behind `migrate_start` in `migrate_using_abtio`. -/
theorem run_sendOpened {files : List SourceHandle} {s : ClientProcess σ}
    (h : OpenFiles s files 0) (hbuffer : ∀ b, s.buffer b = []) (abtio : Bool) (restored : Fileset)
    (status : Int) (id : Uuid) :
    Computes rpc io T (sendOpened abtio restored (List.range files.length) (files.map (·.size))
      status id) s (sendWrites rpc io abtio restored files status id s.server) := by
  obtain ⟨s₁, hrun, hserver₁⟩ := @run_writeFileCalls σ rpc io T files s h hbuffer abtio id
    restored.xferSize.val
  unfold Computes
  rw [sendOpened, Prog.run_bind_some _ hrun, sendWrites]
  generalize writeFiles rpc io abtio id restored.xferSize.val files s.server = written
    at hserver₁ ⊢
  obtain ⟨ret, st⟩ := written
  by_cases hret : ret = .success
  · simp only [hret, ne_eq, not_true_eq_false, ↓reduceIte, finish]
    rw [Prog.call_bind, Prog.run_op_some _ rfl]
    obtain ⟨s', hrun, hserver⟩ := run_closeSources rpc io T (List.range files.length)
      { s₁ with server := (rpc.end_ id s₁.server).2 }
    rw [hserver₁] at hrun hserver ⊢
    exact computes_cleanup hrun ⟨_, _, restored, _⟩ hserver
  · simp only [ne_eq, hret, not_false_eq_true, ↓reduceIte]
    obtain ⟨s', hrun, hserver⟩ := run_closeSources rpc io T (List.range files.length) s₁
    exact computes_cleanup hrun ⟨_, _, restored, _⟩ (hserver.trans hserver₁)

theorem run_migrateAbtioCalls (abtio : Bool) (fileset : Fileset) (files : SortedSet Str)
    (remoteRoot : Str) (status : Int) (st : σ) :
    Computes rpc io T (migrateAbtioCalls abtio fileset files remoteRoot status) (.init st)
      (migrateUsingAbtio rpc io T abtio fileset files remoteRoot status st) := by
  have hinit : OpenFiles (.init st) [] 0 :=
    ⟨rfl, fun _ hj => absurd hj (Nat.not_lt_zero _), fun _ _ => ⟨rfl, rfl⟩⟩
  obtain ⟨s, hserver, herror, hok⟩ := @run_openEach σ rpc io T fileset.root
    files.toList [] _ hinit
  have hserver : s.server = st := hserver
  rw [migrateAbtioCalls, migrateUsingAbtio]
  cases hopen : openSources io T fileset.root files.toList 0 with
  | error ret => exact ⟨s, Prog.run_bind_some _ (herror ret hopen), hserver⟩
  | ok opened =>
      obtain ⟨h, hbuffer, hrun⟩ := hok opened hopen
      have hrun : (openEach fileset.root files.toList [] [] []).run (perform rpc io T)
          (.init st) = (some (.ok (List.range opened.length, opened.map (·.size),
            opened.map (·.mode))), s) := hrun
      unfold Computes
      rw [Prog.run_bind_some _ hrun]
      dsimp only
      subst hserver
      refine run_start (run_closeSources rpc io T _) fun id st => ?_
      exact @run_sendOpened σ rpc io T opened { s with server := st }
        ⟨h.handles, h.isOpen, h.fresh⟩ (fun b => congrFun hbuffer b) abtio _ status id

variable (rpc io T) in
/-- The calls of a transfer compute what the transfer functions say. -/
theorem transfer_calls (ph : RemiProviderHandle) (mode : Int) (fileset : Fileset)
    (files : SortedSet Str) (remoteRoot : Str) (status : Int) (st : σ) :
    Computes rpc io T (transferCalls ph mode fileset files remoteRoot status) (.init st)
      (transfer rpc io T ph mode fileset files remoteRoot status st) := by
  unfold transferCalls transfer
  split
  · exact run_migrateMmapCalls fileset files remoteRoot status st
  · exact run_migrateAbtioCalls ph.abtio fileset files remoteRoot status st

end Local

end Remi
