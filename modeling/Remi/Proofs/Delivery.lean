import Remi.Proofs.Chunks
import Remi.Proofs.Serve

/-!
# `Remi.Proofs.Delivery`: what a transfer puts into the files

The chunks that `migrate_using_abtio` sends are written one behind the other, so a file ends up
with all of them written from its beginning (`writeFiles_landed`). A write that is not complete
leaves the operation doomed. `migrate_using_mmap` exposes the contents of the nonempty files, one
after the other (`exposeFiles_data`).
-/

set_option autoImplicit false

namespace Remi

open Remi.Lib

namespace Fs

theorem modifyFile_modifyFile (fs : Fs) (p : Path) (f g : Bytes → Bytes) :
    (fs.modifyFile p f).modifyFile p g = fs.modifyFile p fun b => g (f b) := by
  have hnode : ((fs.node p).map (Node.modify f)).map (Node.modify g) =
      (fs.node p).map (Node.modify fun b => g (f b)) := by
    cases hp : fs.node p with
    | none => rfl
    | some n => exact congrArg some (Node.modify_modify f g n)
  simp [modifyFile, hnode]

theorem modifyFile_id (fs : Fs) (p : Path) : fs.modifyFile p (fun b => b) = fs := by
  have hmodify : Node.modify (fun b => b) = id := by
    funext n
    cases n <;> rfl
  simp [modifyFile, hmodify]

end Fs

/-! ### The chunks -/

section Keeps
variable {σ : Type} {rpc : Rpc σ} {I : σ → Prop}

theorem sendChunks_keeps (hI : rpc.Keeps I) (id : Uuid) (stop : Bool) (i offset : Nat)
    (chunks : List Bytes) (s : Ret × σ) (hs : I s.2) :
    I (sendChunks rpc id stop i offset chunks s).2 := by
  induction chunks generalizing offset s with
  | nil => exact hs
  | cons d rest ih =>
      have hsent := hI.write id i offset d s.2 hs
      simp only [sendChunks]
      split
      · exact hsent
      · exact ih _ _ hsent

theorem sendFiles_keeps (hI : rpc.Keeps I) (id : Uuid) (stop : Bool) (i : Nat)
    (chunks : List (List Bytes)) (s : Ret × σ) (hs : I s.2) :
    I (sendFiles rpc id stop i chunks s).2 := by
  induction chunks generalizing i s with
  | nil => exact hs
  | cons file rest ih =>
      have hsent := sendChunks_keeps hI id stop i 0 file s hs
      simp only [sendFiles]
      split
      · exact hsent
      · exact ih _ _ hsent

end Keeps

/-- An operation that is doomed stays so. -/
theorem rpc_keeps_doomed (env : Env) (abtio : Bool) (id : Uuid) :
    (providerRpc env abtio).Keeps fun s => s.provider.Doomed id where
  mmap id' bulk s hs := by
    rw [(mmap_eq env abtio s id' bulk).1]
    exact serve_doomed env abtio (.mmap id' bulk) nofun hs
  write id' i offset data s hs := by
    rw [(write_eq env abtio s id' i offset data).1]
    exact serve_doomed env abtio (.write id' i offset data) nofun hs
  end_ id' s hs := by
    rw [(end_eq env abtio s id').1]
    exact serve_doomed env abtio (.end_ id') nofun hs

/-- Data written from the beginning of a file on. -/
def writeIn (d b : Bytes) : Bytes := overlay 0 b 0 d

/-- Writes for the operation `id` have all been answered with success and have left the files
`fs`, or the operation is doomed, because a write was not complete. -/
def Written (env : Env) (id : Uuid) (fs : Fs) (s : Provider) (r : Ret × Site) : Prop :=
  (r.1 = .success ∧ s.WithFiles fs r.2.provider) ∨
    (r.2.provider.Doomed id ∧ ∃ n, env.io .pwrite n ≠ .full)

section Write
variable {env : Env} {abtio stop : Bool} {s : Site} {id : Uuid} {op : Operation}
  {places : List Path}

variable (env abtio stop) in
/-- The chunks of a file are one write. -/
theorem sendChunks_ready {i size : Nat} {p : Path} (chunks : List Bytes) (offset : Nat)
    (h : s.provider.Ready id op places) (hp : places[i]? = some p)
    (hsize : op.filesizes[i]? = some size) (hbound : size < offsetBound)
    (hroom : offset + chunks.flatten.length ≤ size) :
    Written env id (s.provider.fs.modifyFile p fun b => overlay 0 b offset chunks.flatten)
      s.provider (sendChunks (providerRpc env abtio) id stop i offset chunks (.success, s)) := by
  -- By induction on the chunks, with the offset of the next one. Writes side by side make one
  -- write.
  induction chunks generalizing offset s with
  | nil =>
      refine Or.inl ⟨rfl, ?_⟩
      simp only [List.flatten_nil, overlay_nil, Fs.modifyFile_id]
      exact .refl _
  | cons d rest ih =>
      rw [List.flatten_cons, List.length_append] at hroom
      have hchunk : offset + d.length ≤ size := by omega
      obtain ⟨hfull, hshort⟩ := write_ready env abtio offset d h hp hsize hbound hchunk
      by_cases hio : (env.io .pwrite (s.made .pwrite)).count d.length = some d.length
      · obtain ⟨hret, hfiles⟩ := hfull hio
        have hrest := ih (offset + d.length) (hfiles.ready h) (by omega)
        have hsent : (providerRpc env abtio).write id i offset d s =
            (.success, ((providerRpc env abtio).write id i offset d s).2) := Prod.ext hret rfl
        have hsame : sendChunks (providerRpc env abtio) id stop i offset (d :: rest) (.success, s) =
            sendChunks (providerRpc env abtio) id stop i (offset + d.length) rest
              (.success, ((providerRpc env abtio).write id i offset d s).2) := by
          simp only [sendChunks]
          rw [hsent, if_neg fun hstop => hstop.2 rfl]
        rw [hsame]
        refine hrest.imp_left ?_
        rintro ⟨hok, hlast⟩
        refine ⟨hok, ?_⟩
        rw [hfiles.fs, Fs.modifyFile_modifyFile] at hlast
        simp only [overlay_append] at hlast
        exact hfiles.trans hlast
      · -- A short write leaves the error in the record, and later writes do not take it back.
        refine Or.inr ⟨?_, s.made .pwrite, fun hall => hio (by rw [hall]; rfl)⟩
        have hdoomed := hshort hio
        simp only [sendChunks]
        split
        · exact hdoomed
        · exact sendChunks_keeps (rpc_keeps_doomed env abtio id) _ _ _ _ _ _ hdoomed

variable (env abtio stop) in
/-- The chunks of all files are written, from the file number `i` on. -/
theorem sendFiles_ready {l : List (Path × List Bytes)} {i : Nat}
    (h : s.provider.Ready id op places) (hplaces : places.drop i = l.map (·.1))
    (hsizes : op.filesizes.drop i = l.map (·.2.flatten.length))
    (hbound : ∀ x ∈ l, x.2.flatten.length < offsetBound) :
    Written env id (s.provider.fs.modifyAll writeIn (l.map fun x => (x.1, x.2.flatten)))
      s.provider
      (sendFiles (providerRpc env abtio) id stop i (l.map (·.2)) (.success, s)) := by
  -- By induction on the files. A file number is a position in the places and in the sizes.
  induction l generalizing i s with
  | nil => exact Or.inl ⟨rfl, .refl _⟩
  | cons x l ih =>
      have hp : places[i]? = some x.1 := by
        rw [← List.head?_drop, hplaces]
        rfl
      have hsize : op.filesizes[i]? = some x.2.flatten.length := by
        rw [← List.head?_drop, hsizes]
        rfl
      have hplaces' : places.drop (i + 1) = l.map (·.1) := by
        rw [← List.tail_drop, hplaces]
        rfl
      have hsizes' : op.filesizes.drop (i + 1) = l.map (·.2.flatten.length) := by
        rw [← List.tail_drop, hsizes]
        rfl
      have hfile := sendChunks_ready env abtio stop x.2 0 h hp hsize
        (hbound x List.mem_cons_self) (by omega)
      simp only [List.map_cons, sendFiles]
      rcases hfile with ⟨hret, hfiles⟩ | ⟨hdoomed, hio⟩
      · have hrest := ih (hfiles.ready h) hplaces' hsizes' fun y hy =>
          hbound y (List.mem_cons_of_mem _ hy)
        have hsent : sendChunks (providerRpc env abtio) id stop i 0 x.2 (.success, s) =
            (.success, (sendChunks (providerRpc env abtio) id stop i 0 x.2 (.success, s)).2) :=
          Prod.ext hret rfl
        rw [hsent, if_neg fun hstop => hstop.2 rfl]
        refine hrest.imp_left ?_
        rintro ⟨hok, hlast⟩
        refine ⟨hok, ?_⟩
        rw [hfiles.fs] at hlast
        exact hfiles.trans hlast
      · refine Or.inr ⟨?_, hio⟩
        split
        · exact hdoomed
        · exact sendFiles_keeps (rpc_keeps_doomed env abtio id) _ _ _ _ _ hdoomed

end Write

/-! ### The segments -/

theorem Bulk.bytes_append (a b : Bulk) : Bulk.bytes (a ++ b) = Bulk.bytes a ++ Bulk.bytes b := by
  induction a with
  | nil => rfl
  | cons seg rest ih =>
      cases seg with
      | mapped d => simp only [List.cons_append, Bulk.bytes, ih, List.append_assoc]
      | null | failed => exact ih

section Expose
variable {io : ClientIo} {T : SourceTree} {root : Str}

/-- A file that can be mapped shows its contents. -/
theorem mmapFile_shows {fails : Bool} {mapped : Nat} {file : SourceHandle} {b : Bytes}
    (h : file.Shows b) : mmapFile fails mapped file =
      if fails = true ∨ sizeModulus ≤ mapped + b.length then .failed else .mapped b := by
  obtain ⟨hsize, data, hdata, rfl⟩ := h
  simp only [mmapFile, hdata, hsize]

/-- The client has a segment for each nonempty file. When all of them are memory, they are the
contents of the files, and fit into the address space. -/
theorem exposeFiles_data {files : List Str} {i : Nat} {bs : List Bytes}
    (h : OpensFrom io T root files i)
    (hshow : List.Forall₂ SourceHandle.Shows (sources T root files) bs) (e : Exposed)
    (he : e.mapped < sizeModulus) :
    ∃ e' segs, exposeFiles io T root files i e = .ok e' ∧ e'.theData = e.theData ++ segs ∧
      (segs.all Mapping.isMapped = true →
        Bulk.bytes segs = bs.flatten ∧ e.mapped + bs.flatten.length < sizeModulus) ∧
      ((∀ j, io.mmapFails j = false) → e.mapped + bs.flatten.length < sizeModulus →
        segs.all Mapping.isMapped = true) := by
  induction files generalizing i e bs with
  | nil =>
      obtain rfl : bs = [] := by simpa [sources] using hshow
      exact ⟨e, [], rfl, by simp, fun _ => ⟨rfl, by simpa using he⟩, fun _ _ => rfl⟩
  | cons filename rest ih =>
      obtain ⟨hopen, hstat, hfile, hrest⟩ := h
      obtain ⟨file, hfile⟩ := Option.isSome_iff_exists.mp hfile
      rw [sources_cons hfile] at hshow
      obtain ⟨b, bs, hshows, hshow', rfl⟩ := List.forall₂_cons_left_iff.mp hshow
      have hsize : file.size = b.length := hshows.1
      simp only [exposeFiles, hopen, hfile, hstat, Bool.false_eq_true, ↓reduceIte]
      by_cases hb : b = []
      · -- An empty file has no segment.
        subst hb
        have hzero : file.size = 0 := hsize
        rw [if_pos hzero]
        obtain ⟨e', segs, he', hdata, hmapped, hall⟩ := ih hrest hshow' { e with
          theSizes := e.theSizes ++ [file.size], theModes := e.theModes ++ [file.mode] } he
        exact ⟨e', segs, he', hdata, hmapped, hall⟩
      · have hpos : b.length ≠ 0 := fun hzero => hb (List.length_eq_zero_iff.mp hzero)
        rw [hsize, if_neg hpos]
        split
        · rename_i hnull
          exact absurd hnull (mmapFile_ne_null _ _ _)
        · rw [mmapFile_shows hshows]
          by_cases hfails : io.mmapFails i = true ∨ sizeModulus ≤ e.mapped + b.length
          · -- A mapping that fails is exposed nevertheless.
            rw [if_pos hfails]
            have he' : Exposed.mapped ⟨e.theData ++ [.failed], e.theSizes ++ [file.size],
                e.theModes ++ [file.mode]⟩ = e.mapped := by
              simp [Exposed.mapped, Bulk.bytes_append, Bulk.bytes]
            obtain ⟨e', segs, hok, hdata, -, -⟩ := ih hrest hshow'
              ⟨e.theData ++ [.failed], e.theSizes ++ [file.size], e.theModes ++ [file.mode]⟩
              (by rw [he']; exact he)
            refine ⟨e', .failed :: segs, by rw [← hok, hsize], by simp [hdata],
              (fun hall => by simp [Mapping.isMapped] at hall),
              fun hio hroom => ?_⟩
            rw [List.flatten_cons, List.length_append] at hroom
            rcases hfails with hfail | hlarge
            · rw [hio] at hfail
              cases hfail
            · omega
          · obtain ⟨hfail, hroom⟩ := not_or.mp hfails
            rw [if_neg hfails]
            have he' : Exposed.mapped ⟨e.theData ++ [.mapped b], e.theSizes ++ [file.size],
                e.theModes ++ [file.mode]⟩ = e.mapped + b.length := by
              simp [Exposed.mapped, Bulk.bytes_append, Bulk.bytes]
            obtain ⟨e', segs, hok, hdata, hmapped, hall⟩ := ih hrest hshow'
              ⟨e.theData ++ [.mapped b], e.theSizes ++ [file.size], e.theModes ++ [file.mode]⟩
              (by rw [he']; omega)
            rw [he'] at hmapped hall
            refine ⟨e', .mapped b :: segs, by rw [← hok, hsize], by simp [hdata],
              fun hsegs => ?_, fun hio hlt => ?_⟩
            · obtain ⟨hbytes, hlt⟩ := hmapped (by simpa [Mapping.isMapped] using hsegs)
              refine ⟨by rw [Bulk.bytes, hbytes, List.flatten_cons], ?_⟩
              rw [List.flatten_cons, List.length_append]
              omega
            · rw [List.flatten_cons, List.length_append] at hlt
              simpa [Mapping.isMapped] using hall hio (by omega)

end Expose

/-! ### The transfer -/

/-- The data of the files as the provider gets them, where `bs` are their contents. -/
def sentBytes (io : ClientIo) (T : SourceTree) (ph : RemiProviderHandle) (mode : Int)
    (fileset : Fileset) (bs : List Bytes) : List Bytes :=
  if mode = remiUseMmap then bs
  else (fileChunks io ph.abtio fileset.xferSize.val (Sources T fileset)).map List.flatten

/-- The files of a provider after a transfer of the data in `l` to its places. -/
def landed (mode : Int) (l : List (Path × Bytes)) (fs : Fs) : Fs :=
  if mode = remiUseMmap then (fs.modifyAll cut (nonempty l)).modifyAll copyIn (nonempty l)
  else fs.modifyAll writeIn l

/-- The data for one place. -/
def dataAt (l : List (Path × Bytes)) (p : Path) : List Bytes := (l.filter (·.1 = p)).map (·.2)

/-- The contents of an empty file after a transfer that has the data `ds` for its place. -/
def pile (mode : Int) (ds : List Bytes) : Bytes :=
  if mode = remiUseMmap then
    (ds.filter (· ≠ [])).foldl (fun b d => copyIn d b)
      ((ds.filter (· ≠ [])).foldl (fun b d => cut d b) [])
  else ds.foldl (fun b d => writeIn d b) []

/-- Each place has its own data. -/
theorem landed_node {mode : Int} {l : List (Path × Bytes)} {fs : Fs} {p : Path}
    (h : fs.node p = some (.file [])) :
    (landed mode l fs).node p = some (.file (pile mode (dataAt l p))) := by
  have hfilter : (nonempty l).filter (·.1 = p) = (l.filter (·.1 = p)).filter (·.2 ≠ []) := by
    rw [nonempty, List.filter_filter, List.filter_filter]
    exact List.filter_congr fun x _ => Bool.and_comm _ _
  have hdata : (dataAt l p).filter (· ≠ []) =
      ((l.filter (·.1 = p)).filter (·.2 ≠ [])).map (·.2) := by
    rw [dataAt, List.filter_map]
    rfl
  unfold landed pile
  split
  · rw [Fs.modifyAll_node, Fs.modifyAll_node, h, hfilter, hdata, List.foldl_map, List.foldl_map]
    rfl
  · rw [Fs.modifyAll_node, h, dataAt, List.foldl_map]
    rfl

@[simp] theorem landed_cwd (mode : Int) (l : List (Path × Bytes)) (fs : Fs) :
    (landed mode l fs).cwd = fs.cwd := by
  unfold landed
  split <;> simp

/-- What is at no place of the data stays. -/
theorem landed_other {mode : Int} {l : List (Path × Bytes)} {fs : Fs} {p : Path}
    (h : p ∉ l.map (·.1)) : (landed mode l fs).node p = fs.node p := by
  have hother : ∀ (f : Bytes → Bytes → Bytes) (l' : List (Path × Bytes)) (fs' : Fs),
      l' ⊆ l → (fs'.modifyAll f l').node p = fs'.node p := by
    intro f l' fs' hsub
    have hfilter : l'.filter (·.1 = p) = [] := List.filter_eq_nil_iff.mpr fun x hx he =>
      h (List.mem_map.mpr ⟨x, hsub hx, of_decide_eq_true he⟩)
    rw [Fs.modifyAll_node, hfilter]
    cases fs'.node p with
    | none => rfl
    | some n => cases n <;> rfl
  unfold landed
  split
  · have hsub : nonempty l ⊆ l := List.filter_subset_self _
    rw [hother _ _ _ hsub, hother _ _ _ hsub]
  · exact hother _ _ _ (List.Subset.refl l)

/-- A file that has a place of its own gets its data. -/
theorem pile_singleton (mode : Int) (b : Bytes) : pile mode [b] = b := by
  unfold pile
  by_cases hb : b = []
  · subst hb
    split <;> simp [writeIn]
  · split
    · have hlen : (cut b []).length = b.length := length_resize _ _ _
      simp only [List.filter_cons, hb, ne_eq, not_false_eq_true, decide_true, ↓reduceIte,
        List.filter_nil, List.foldl_cons, List.foldl_nil, copyIn, hlen, List.take_length]
      exact overlay_zero_of_length 0 hlen
    · simp [writeIn, overlay]

theorem dataAt_of_nodup {l : List (Path × Bytes)} (h : (l.map (·.1)).Nodup) {x : Path × Bytes}
    (hx : x ∈ l) : dataAt l x.1 = [x.2] := by
  induction l with
  | nil => cases hx
  | cons y l ih =>
      obtain ⟨hnot, hnodup⟩ := List.nodup_cons.mp h
      rcases List.mem_cons.mp hx with rfl | hx
      · have hrest : l.filter (·.1 = x.1) = [] := List.filter_eq_nil_iff.mpr fun z hz he =>
          hnot (List.mem_map.mpr ⟨z, hz, of_decide_eq_true he⟩)
        simp [dataAt, hrest]
      · have hne : y.1 ≠ x.1 := fun he => hnot (List.mem_map.mpr ⟨x, hx, he.symm⟩)
        rw [← ih hnodup hx]
        simp [dataAt, hne]

/-- Every call of a transfer of regular files with the contents `bs` does what it is asked to. What
is to be mapped fits into the address space. -/
structure Smooth (env : Env) (io : ClientIo) (T : SourceTree) (fileset : Fileset) (mode : Int)
    (bs : List Bytes) : Prop where
  provider : ∀ call n, env.io call n = .full
  opens : Opens io T fileset
  reads : ∀ i chunk, io.read i chunk = .full
  maps : ∀ i, io.mmapFails i = false
  regular : List.Forall₂ SourceHandle.Shows (Sources T fileset) bs
  room : mode = remiUseMmap → bs.flatten.length < sizeModulus

theorem shows_bound {opened : List SourceHandle} {bs : List Bytes}
    (h : List.Forall₂ SourceHandle.Shows opened bs) :
    (∀ b ∈ bs, b.length < offsetBound) ∧ opened.map (·.size) = bs.map List.length := by
  induction h with
  | nil => simp
  | cons hfile _ ih =>
      obtain ⟨hsize, data, -, rfl⟩ := hfile
      exact ⟨List.forall_mem_cons.mpr ⟨data.property, ih.1⟩, by simp [hsize, ih.2]⟩

theorem regular_smallTree :
    List.Forall₂ SourceHandle.Shows (Sources smallTree byteByByte) [[1, 2]] := by
  have hsources : Sources smallTree byteByByte = [⟨2, 0, some ⟨[1, 2], twoBytes_small⟩⟩] := by
    decide +kernel
  rw [hsources]
  exact .cons ⟨rfl, _, rfl, rfl⟩ .nil

/-- The file of the small tree can be sent either way. -/
theorem smooth_smallTree (mode : Int) :
    Smooth .succeed .succeed smallTree byteByByte mode [[1, 2]] where
  provider _ _ := rfl
  opens := by decide +kernel
  reads _ _ := rfl
  maps _ := rfl
  regular := regular_smallTree
  room _ := by decide

/-- The second components of a list of pairs with as many places. -/
theorem map_zip_snd {α β : Type} (f : α → β) {places : List Path} {l : List α}
    (h : places.length = l.length) : (places.zip l).map (fun x => f x.2) = l.map f := by
  have hsnd : (places.zip l).map (·.2) = l := List.map_snd_zip (Nat.le_of_eq h.symm)
  calc (places.zip l).map (fun x => f x.2) = ((places.zip l).map (·.2)).map f := by
        rw [List.map_map]
        rfl
    _ = l.map f := by rw [hsnd]

theorem zip_map_flatten (places : List Path) (chunks : List (List Bytes)) :
    (places.zip chunks).map (fun x => (x.1, x.2.flatten)) =
      places.zip (chunks.map List.flatten) := by
  rw [List.zip_map_right]
  rfl

theorem allBytes_zip {places : List Path} {bs : List Bytes} (h : places.length = bs.length) :
    allBytes (places.zip bs) = bs.flatten := by
  have hbytes := map_zip_snd (fun b : Bytes => b) h
  rw [List.map_id'] at hbytes
  rw [allBytes, List.flatMap_def, hbytes]

section Transfer
variable {env : Env} {abtio : Bool} {io : ClientIo} {T : SourceTree} {ph : RemiProviderHandle}
  {mode : Int} {fileset : Fileset} {remoteRoot : Str} {status : Int} {s : Site} {id : Uuid}
  {op : Operation} {places : List Path} {bs : List Bytes}

/-- A smooth transfer sends the contents of the files. -/
theorem Smooth.sentBytes_eq (h : Smooth env io T fileset mode bs) (ph : RemiProviderHandle) :
    sentBytes io T ph mode fileset bs = bs := by
  unfold sentBytes
  split
  · rfl
  · exact fileChunks_full ph.abtio h.reads fileset.xferSize.property h.regular

/-- The writes get through and leave the chunks in the files, or the operation is doomed. -/
theorem writeFiles_landed (io : ClientIo) (clientAbtio : Bool) {opened : List SourceHandle}
    {maxChunkSize : Nat} (hpos : 0 < maxChunkSize)
    (hshow : List.Forall₂ SourceHandle.Shows opened bs) (h : s.provider.Ready id op places)
    (hsizes : op.filesizes = bs.map List.length) (hplaces : places.length = bs.length) :
    Written env id (s.provider.fs.modifyAll writeIn (places.zip
        ((fileChunks io clientAbtio maxChunkSize opened).map List.flatten))) s.provider
      (writeFiles (providerRpc env abtio) io clientAbtio id maxChunkSize opened s) := by
  have hchunks := length_fileChunks io clientAbtio hpos opened
  rw [writeFiles_eq _ _ _ _ _ _ hpos]
  generalize fileChunks io clientAbtio maxChunkSize opened = chunks at hchunks
  obtain ⟨hbound, hsame⟩ := shows_bound hshow
  -- The chunks of each file are as long as the file.
  have hlengths : chunks.map (·.flatten.length) = bs.map List.length := by
    rw [← hsame]
    clear hshow hsame
    induction hchunks with
    | nil => rfl
    | cons hfile _ ih => rw [List.map_cons, List.map_cons, hfile, ih]
  have hcount : chunks.length = bs.length := by
    simpa using congrArg List.length hlengths
  have hfst : (places.zip chunks).map (·.1) = places := List.map_fst_zip (by omega)
  have hsnd : (places.zip chunks).map (·.2) = chunks := List.map_snd_zip (by omega)
  have hrecord : op.filesizes.drop 0 = (places.zip chunks).map (·.2.flatten.length) := by
    rw [List.drop_zero, hsizes, ← hlengths]
    exact (map_zip_snd (fun c : List Bytes => c.flatten.length) (by omega)).symm
  have hshort : ∀ x ∈ places.zip chunks, x.2.flatten.length < offsetBound := by
    intro x hx
    have hmem : x.2.flatten.length ∈ chunks.map (·.flatten.length) :=
      List.mem_map_of_mem (List.of_mem_zip hx).2
    rw [hlengths] at hmem
    obtain ⟨b, hb, heq⟩ := List.mem_map.mp hmem
    rw [← heq]
    exact hbound b hb
  have hsent := sendFiles_ready env abtio clientAbtio (i := 0) h hfst.symm hrecord hshort
  rwa [hsnd, zip_map_flatten] at hsent

/-! ### The part of a transfer between `migrate_start` and `migrate_end` -/

/-- The bulk handle that the client creates. -/
def localBulk (io : ClientIo) (T : SourceTree) (fileset : Fileset) : Option Bulk :=
  match exposeFiles io T fileset.root (remiFilesetWalkthrough T fileset).toList 0 ⟨[], [], []⟩ with
  | .ok e => if e.theData = [] then none else some e.theData
  | .error _ => none

/-- The RPCs that transfer the data. -/
def deliver {σ : Type} (rpc : Rpc σ) (io : ClientIo) (T : SourceTree) (ph : RemiProviderHandle)
    (mode : Int) (fileset : Fileset) (id : Uuid) (st : σ) : Ret × σ :=
  if mode = remiUseMmap then rpc.mmap id (localBulk io T fileset) st
  else writeFiles rpc io ph.abtio id fileset.xferSize.val (Sources T fileset) st

/-- The end of a transfer, after the RPCs that transfer the data. -/
def conclude {σ : Type} (rpc : Rpc σ) (fileset : Fileset) (status : Int) (id : Uuid)
    (x : Ret × σ) : Migrated σ :=
  if x.1 ≠ .success then ⟨x.1, status, fileset, x.2⟩ else finish rpc fileset id x.2

/-- A transfer whose local calls succeed is `migrate_start`, the RPCs that transfer the data,
and `migrate_end`. -/
theorem transfer_deliver {σ : Type} (rpc : Rpc σ) (ph : RemiProviderHandle) (mode : Int)
    (remoteRoot : Str) (status : Int) (st : σ) (h : Opens io T fileset) :
    runTransfer rpc io T ph mode fileset remoteRoot status st =
      sendStart rpc (sentFileset T fileset remoteRoot) ((Sources T fileset).map (·.size))
        ((Sources T fileset).map (·.mode)) status st fun id st =>
          conclude rpc fileset status id (deliver rpc io T ph mode fileset id st) := by
  unfold runTransfer transfer deliver
  split
  · obtain ⟨e, he, hsizes, hmodes⟩ := exposeFiles_ok h ⟨[], [], []⟩
    simp only [List.nil_append] at hsizes hmodes
    simp only [migrateUsingMmap, localBulk, he, hsizes, hmodes]
    rfl
  · simp only [migrateUsingAbtio, openSources_ok h]
    rfl

/-- What the client exposes is all the data, when it is memory. -/
theorem localBulk_bytes (hopens : Opens io T fileset)
    (hregular : List.Forall₂ SourceHandle.Shows (Sources T fileset) bs) :
    (∀ b, localBulk io T fileset = some b → b.all Mapping.isMapped = true →
        b.bytes = bs.flatten ∧ b.bytes.length < sizeModulus) ∧
      ((∀ i, io.mmapFails i = false) → bs.flatten.length < sizeModulus → bs.flatten ≠ [] →
        ∃ b, localBulk io T fileset = some b ∧ b.all Mapping.isMapped = true) := by
  obtain ⟨e, segs, he, hdata, hmapped, hall⟩ :=
    exposeFiles_data hopens hregular ⟨[], [], []⟩ (by decide)
  have hzero : (⟨[], [], []⟩ : Exposed).mapped = 0 := rfl
  simp only [List.nil_append, hzero, Nat.zero_add] at hdata hmapped hall
  simp only [localBulk, he, hdata]
  constructor
  · intro b hb hsegs
    split at hb
    · cases hb
    · obtain rfl := Option.some.inj hb
      obtain ⟨hbytes, hlt⟩ := hmapped hsegs
      rw [hbytes]
      exact ⟨rfl, hlt⟩
  · intro hio hroom hne
    have hsegs : segs ≠ [] := by
      rintro rfl
      exact hne (hmapped rfl).1.symm
    exact ⟨segs, if_neg hsegs, hall hio hroom⟩

/-- The data gets into the files, or the migration cannot succeed. When the transfer is smooth, it
does get there, unless there is nothing to map. -/
theorem deliver_landed (env : Env) (abtio : Bool) (ph : RemiProviderHandle) (mode : Int)
    (hopens : Opens io T fileset)
    (hregular : List.Forall₂ SourceHandle.Shows (Sources T fileset) bs)
    (h : s.provider.Ready id op places) (hsizes : op.filesizes = bs.map List.length)
    (hplaces : places.length = bs.length) :
    let x := deliver (providerRpc env abtio) io T ph mode fileset id s
    (x.1 = .success ∧ s.provider.WithFiles
        (landed mode (places.zip (sentBytes io T ph mode fileset bs)) s.provider.fs)
        x.2.provider) ∨
      ((x.1 = .success → x.2.provider.Doomed id) ∧
        (Smooth env io T fileset mode bs → mode = remiUseMmap ∧ bs.flatten = [])) := by
  unfold deliver landed sentBytes
  -- The two branches are the two transfer modes.
  split
  · rename_i hmode
    obtain ⟨hbulk, hmapped⟩ := localBulk_bytes hopens hregular
    have hfst : (places.zip bs).map (·.1) = places := List.map_fst_zip (Nat.le_of_eq hplaces)
    have hlengths : op.filesizes = (places.zip bs).map (·.2.length) := by
      rw [hsizes]
      exact (map_zip_snd List.length hplaces).symm
    obtain ⟨hdone, hfull⟩ := mmap_ready env abtio (l := places.zip bs)
      (by rwa [hfst]) hlengths (by rwa [allBytes_zip hplaces])
    by_cases hret : ((providerRpc env abtio).mmap id (localBulk io T fileset) s).1 = .success
    · exact Or.inl ⟨hret, (hdone hret).2⟩
    · refine Or.inr ⟨fun hok => absurd hok hret, fun hsmooth => ⟨hmode, ?_⟩⟩
      by_contra hne
      refine hret (hfull hsmooth.provider ?_ ?_ (hmapped hsmooth.maps (hsmooth.room hmode) hne))
      · exact fun x hx => (shows_bound hregular).1 x.2 (List.of_mem_zip hx).2
      · intro hempty
        refine hne ?_
        rw [← allBytes_zip hplaces, ← allBytes_nonempty, hempty]
        rfl
  · refine (writeFiles_landed io ph.abtio fileset.xferSize.property hregular h hsizes
      hplaces).imp_right ?_
    rintro ⟨hdoomed, n, hn⟩
    exact ⟨fun _ => hdoomed, fun hsmooth => absurd (hsmooth.provider _ _) hn⟩

theorem length_sources {root : Str} {files : List Str} {i : Nat} (h : OpensFrom io T root files i) :
    (sources T root files).length = files.length := by
  induction files generalizing i with
  | nil => rfl
  | cons filename rest ih =>
      obtain ⟨-, -, hfile, hrest⟩ := h
      obtain ⟨file, hfile⟩ := Option.isSome_iff_exists.mp hfile
      simpa [sources, hfile] using ih hrest

/-- Each file has a place. -/
theorem length_places (fs : Fs) (remoteRoot : Str) (hopens : Opens io T fileset)
    (hregular : List.Forall₂ SourceHandle.Shows (Sources T fileset) bs) :
    (fs.places (sentFileset T fileset remoteRoot)).length = bs.length := by
  rw [← hregular.length_eq, Sources, length_sources hopens]
  simp [Fs.places, Fileset.fullNames, sentFileset, Fileset.swapOut]

/-- A smooth transfer behind a `migrate_start` that has succeeded, up to its `migrate_end`. -/
theorem started_deliver (ph : RemiProviderHandle) (hsmooth : Smooth env io T fileset mode bs)
    (hdata : mode = remiUseMmap → bs.flatten ≠ [])
    (hkeep : (env.callback s.provider.calls s.provider.fs
      (sentFileset T fileset remoteRoot)).2 = sentFileset T fileset remoteRoot)
    {v : Int} {s₁ : Site}
    (hok : (providerRpc env abtio).start (sentFileset T fileset remoteRoot)
      ((Sources T fileset).map (·.size)) ((Sources T fileset).map (·.mode)) s =
        ((.success, v, id), s₁)) :
    let places := s.provider.fs.places (sentFileset T fileset remoteRoot)
    ∃ s₂ op, deliver (providerRpc env abtio) io T ph mode fileset id s₁ = (.success, s₂) ∧
      s₁.provider.WithFiles (landed mode (places.zip bs) s₁.provider.fs) s₂.provider ∧
      s₂.provider.Ready id op places ∧ op.fileset = sentFileset T fileset remoteRoot ∧
      ∀ p ∈ places, s₁.provider.fs.node p = some (.file []) := by
  obtain ⟨fileset', op, haccepts, hstarted⟩ := start_success (congrArg Prod.fst hok)
  rw [haccepts.agrees] at hkeep
  obtain rfl : fileset' = sentFileset T fileset remoteRoot := hkeep
  rw [hok] at hstarted
  have hsizes : op.filesizes = bs.map List.length := by
    rw [hstarted.op_filesizes, (shows_bound hsmooth.regular).2]
  rcases deliver_landed env abtio ph mode hsmooth.opens hsmooth.regular hstarted.ready hsizes
    (length_places _ _ hsmooth.opens hsmooth.regular) with ⟨hret, hfiles⟩ | ⟨-, hempty⟩
  · rw [hsmooth.sentBytes_eq] at hfiles
    exact ⟨_, op, Prod.ext hret rfl, hfiles, hfiles.ready hstarted.ready, hstarted.op_fileset,
      hstarted.empty⟩
  · obtain ⟨hmode, hnothing⟩ := hempty hsmooth
    exact absurd hnothing (hdata hmode)

/-- A smooth transfer of files that can be created, up to its `migrate_end`. -/
theorem start_deliver (abtio : Bool) (ph : RemiProviderHandle)
    (hsmooth : Smooth env io T fileset mode bs)
    (haccepts : Accepts env s (sentFileset T fileset remoteRoot)
      (sentFileset T fileset remoteRoot))
    (hmk : Creatable s.provider (sentFileset T fileset remoteRoot).fullNames)
    (hdir : ∀ v ∈ (sentFileset T fileset remoteRoot).fullNames,
      s.provider.fs.node (s.provider.fs.place v) ≠ some .dir)
    (hdata : mode = remiUseMmap → bs.flatten ≠ []) :
    let places := s.provider.fs.places (sentFileset T fileset remoteRoot)
    ∃ s₁ s₂ op, (providerRpc env abtio).start (sentFileset T fileset remoteRoot)
        ((Sources T fileset).map (·.size)) ((Sources T fileset).map (·.mode)) s =
          ((.success, 0, env.uuid s.served), s₁) ∧
      deliver (providerRpc env abtio) io T ph mode fileset (env.uuid s.served) s₁ =
        (.success, s₂) ∧
      s₁.provider.WithFiles (landed mode (places.zip bs) s₁.provider.fs) s₂.provider ∧
      s₂.provider.Ready (env.uuid s.served) op places ∧
      op.fileset = sentFileset T fileset remoteRoot ∧
      ∀ p ∈ places, s₁.provider.fs.node p = some (.file []) := by
  have hok := start_ok abtio ((Sources T fileset).map (·.size)) ((Sources T fileset).map (·.mode))
    haccepts (fun n => by rw [hsmooth.provider]; nofun) hmk hdir
  obtain ⟨s₁, hstart⟩ : ∃ s₁, (providerRpc env abtio).start (sentFileset T fileset remoteRoot)
      ((Sources T fileset).map (·.size)) ((Sources T fileset).map (·.mode)) s =
        ((.success, 0, env.uuid s.served), s₁) := ⟨_, Prod.ext hok rfl⟩
  obtain ⟨s₂, op, hrest⟩ := started_deliver ph hsmooth hdata
    (congrArg Prod.snd haccepts.agrees) hstart
  exact ⟨s₁, s₂, op, hstart, hrest⟩

end Transfer

end Remi
