import Remi.Proofs.Delivery

/-!
# `Remi.Proofs.Paths`: the three ways of a transfer agree

A migration through mappings, one in the plain loop and one in the pipelined loop, of the same
files to the same provider. What lands at a place of the provider is a `pile`: the data of all
names that lead there, one on top of the other.

    through mappings:  the last nonempty one (`pile_mmap`)
    in either loop:    all of them written from the beginning, the longest one to its end

The two are the same when the last nonempty one is a longest (`pile_eq_iff`). A name with a
place of its own has only one. `paths_agree_iff` says that this is all that can make the ways
differ.
-/

set_option autoImplicit false

namespace Remi

open Remi.Lib

/-! ### What lands at a place -/

/-- The last of the data that is not empty is a longest one. -/
def LastLongest (ds : List Bytes) : Prop :=
  ∀ d, (ds.filter (· ≠ [])).getLast? = some d → ∀ e ∈ ds, e.length ≤ d.length

theorem length_writeIn (d b : Bytes) : (writeIn d b).length = max b.length d.length := by
  rw [writeIn, length_overlay_of_le 0 d (Nat.zero_le _), Nat.zero_add]

/-- Data over contents that are no longer. -/
theorem writeIn_of_le {d b : Bytes} (h : b.length ≤ d.length) : writeIn d b = d := by
  rw [writeIn, overlay_of_le 0 d (Nat.zero_le _)]
  simp [List.drop_eq_nil_of_le h]

/-- The data of a place, written one after the other, is as long as the longest. -/
theorem length_writes (ds : List Bytes) (b : Bytes) (n : Nat) :
    (ds.foldl (fun b d => writeIn d b) b).length ≤ n ↔
      b.length ≤ n ∧ ∀ d ∈ ds, d.length ≤ n := by
  induction ds generalizing b with
  | nil => simp
  | cons d ds ih =>
      rw [List.foldl_cons, ih, length_writeIn, List.forall_mem_cons, Nat.max_le, and_assoc]

/-- Empty data changes nothing. -/
theorem writes_nonempty (ds : List Bytes) (b : Bytes) :
    (ds.filter (· ≠ [])).foldl (fun b d => writeIn d b) b =
      ds.foldl (fun b d => writeIn d b) b := by
  induction ds generalizing b with
  | nil => rfl
  | cons d ds ih =>
      by_cases hd : d = []
      · subst hd
        simpa [writeIn] using ih b
      · simpa [hd] using ih (writeIn d b)

theorem length_copyIn (d b : Bytes) : (copyIn d b).length = b.length := by
  rw [copyIn, length_overlay_of_le 0 _ (Nat.zero_le _), Nat.zero_add, List.length_take]
  omega

theorem length_copies (ds : List Bytes) (b : Bytes) :
    (ds.foldl (fun b d => copyIn d b) b).length = b.length := by
  induction ds generalizing b with
  | nil => rfl
  | cons d ds ih => rw [List.foldl_cons, ih, length_copyIn]

/-- Through mappings the last nonempty data lands at a place: the file has been cut to its
length, and it is copied last. -/
theorem pile_mmap (ds : List Bytes) :
    pile remiUseMmap ds = ((ds.filter (· ≠ [])).getLast?).getD [] := by
  rw [pile, if_pos rfl]
  rcases List.eq_nil_or_concat (ds.filter (· ≠ [])) with hnil | ⟨before, d, hlast⟩
  · rw [hnil]
    rfl
  · rw [hlast, List.concat_eq_append, List.foldl_append, List.foldl_append,
      List.getLast?_append]
    simp only [List.foldl_cons, List.foldl_nil, List.getLast?_singleton, Option.some_or,
      Option.getD_some]
    have hlen : (before.foldl (fun b d => copyIn d b) (cut d
        (before.foldl (fun b d => cut d b) []))).length = d.length := by
      rw [length_copies, cut, length_resize]
    rw [copyIn, hlen, List.take_length, overlay_of_le 0 d (Nat.zero_le _), List.take_zero,
      Nat.zero_add, ← hlen, List.drop_length, List.nil_append, List.append_nil]

theorem pile_abtio (ds : List Bytes) :
    pile remiUseAbtio ds = (ds.filter (· ≠ [])).foldl (fun b d => writeIn d b) [] := by
  rw [pile, if_neg (by decide), writes_nonempty]

/-- The same lands at a place on all ways when the last nonempty data is a longest. -/
theorem pile_eq_iff (ds : List Bytes) :
    pile remiUseMmap ds = pile remiUseAbtio ds ↔ LastLongest ds := by
  rw [pile_mmap, pile_abtio]
  unfold LastLongest
  rcases List.eq_nil_or_concat (ds.filter (· ≠ [])) with hnil | ⟨before, d, hlast⟩
  · rw [hnil]
    exact iff_of_true rfl nofun
  · rw [hlast, List.concat_eq_append]
    simp only [List.getLast?_append, List.getLast?_singleton, Option.some_or, Option.getD_some,
      Option.some.injEq, forall_eq']
    have hall : (∀ e ∈ ds, e.length ≤ d.length) ↔ ∀ e ∈ before ++ [d], e.length ≤ d.length := by
      rw [← List.concat_eq_append, ← hlast]
      simp only [List.mem_filter]
      refine ⟨fun h e he => h e he.1, fun h e he => ?_⟩
      by_cases hempty : e = []
      · rw [hempty]
        exact Nat.zero_le _
      · exact h e ⟨he, decide_eq_true hempty⟩
    rw [hall, List.foldl_append]
    constructor
    · intro heq
      have hlen := (length_writes (before ++ [d]) [] d.length).mp
      rw [List.foldl_append, ← heq] at hlen
      exact (hlen (Nat.le_refl _)).2
    · intro h
      have hbefore := (length_writes before [] d.length).mpr
        ⟨Nat.zero_le _, fun e he => h e (List.mem_append_left _ he)⟩
      exact (writeIn_of_le hbefore).symm

/-- The same lands on all ways when it does so at each place. -/
theorem landed_eq_iff {l : List (Path × Bytes)} {fs : Fs}
    (hempty : ∀ p ∈ l.map (·.1), fs.node p = some (.file [])) :
    landed remiUseMmap l fs = landed remiUseAbtio l fs ↔
      ∀ p ∈ l.map (·.1), LastLongest (dataAt l p) := by
  constructor
  · intro heq p hp
    have hnode := congrArg (fun fs => fs.node p) heq
    simp only [landed_node (hempty p hp), Option.some.injEq, Node.file.injEq] at hnode
    exact (pile_eq_iff _).mp hnode
  · intro h
    refine Fs.ext (by simp) fun p => ?_
    by_cases hp : p ∈ l.map (·.1)
    · rw [landed_node (hempty p hp), landed_node (hempty p hp), (pile_eq_iff _).mpr (h p hp)]
    · rw [landed_other hp, landed_other hp]

/-! ### The migration -/

section Migrate
variable {env : Env} {abtio : Bool} {io : ClientIo} {T : SourceTree} {ph : RemiProviderHandle}
  {fileset : Fileset} {root : Str} {removeSource mode status : Int} {s : Site} {bs : List Bytes}

/-- Where calls do not depend on the address space, a smooth transfer is smooth in any mode but
`REMI_USE_MMAP`. -/
theorem Smooth.of_mmap (h : Smooth env io T fileset remiUseMmap bs) :
    Smooth env io T fileset remiUseAbtio bs :=
  { h with room := fun hmode => absurd hmode (by decide) }

/-- What a migration of files with data leaves when `migrate_start` succeeds and every call does
what it is asked to. -/
structure Finished (env : Env) (mode : Int) (l : List (Path × Bytes)) (sent : Fileset)
    (s : Provider) (r : MigrateResult Site) : Prop where
  files : r.server.provider.fs = landed mode l s.fs
  ret : r.ret = if env.endStatus { s with fs := landed mode l s.fs } sent = 0 then .success
    else .errUser
  status : r.status = env.endStatus { s with fs := landed mode l s.fs } sent
  seen : r.server.provider.seen =
    ((s.klass sent).afterCall ⟨0, 0⟩ 0 sent).map (·.fileset) ++ s.seen

/-- A call of an "after" callback shows the fileset, whichever handler makes it. -/
theorem afterCall_filesets (klass : MigrationClass) (t t' : Tid) (id id' : Uuid)
    (fileset : Fileset) :
    (klass.afterCall t id fileset).map (·.fileset) =
      (klass.afterCall t' id' fileset).map (·.fileset) := by
  unfold MigrationClass.afterCall
  cases klass.afterCallback <;> rfl

variable (ph) in
theorem migrate_finished (removeSource status : Int) (hroot : root.head? = some '/')
    (hkeep : ∀ n fs f, (env.callback n fs f).2 = f)
    (hsmooth : Smooth env io T fileset mode bs) (hne : bs.flatten ≠ [])
    (hstart : ¬ Refused (providerRpc env abtio) T fileset root s) :
    let s₁ := ((providerRpc env abtio).start (sentFileset T fileset root)
      ((Sources T fileset).map (·.size)) ((Sources T fileset).map (·.mode)) s).2
    (∀ p ∈ s.provider.fs.places (sentFileset T fileset root),
        s₁.provider.fs.node p = some (.file [])) ∧
      Finished env mode ((s.provider.fs.places (sentFileset T fileset root)).zip bs)
        (sentFileset T fileset root) s₁.provider
        (remiFilesetMigrate (providerRpc env abtio) io T (some ph) (some fileset) (some root)
          removeSource mode status s) := by
  have hok := not_not.mp hstart
  have hm := transfer_deliver (providerRpc env abtio) ph mode root status s hsmooth.opens
  rw [sendStart_success hok] at hm
  -- The data gets there, because the transfer is smooth.
  obtain ⟨s₂, op, hdeliver, hfiles, hready, hop, hempty⟩ := started_deliver ph hsmooth
    (fun _ => hne) (hkeep _ _ _) (Prod.ext (Prod.ext hok rfl) rfl)
  refine ⟨hempty, ?_⟩
  rw [hdeliver, conclude, if_neg (not_not_intro rfl)] at hm
  obtain ⟨hend, hfs, hcalls⟩ := end_ready env abtio hready
  rw [hop] at hend hcalls
  obtain ⟨hret, hstatus, -, hserver⟩ := migrate_finish removeSource hroot hm hend
  generalize (providerRpc env abtio).start (sentFileset T fileset root)
    ((Sources T fileset).map (·.size)) ((Sources T fileset).map (·.mode)) s = answer at *
  -- The callback at the end sees the same class, and the files with the data.
  have hklass : s₂.provider.klass (sentFileset T fileset root) =
      answer.2.provider.klass (sentFileset T fileset root) := by
    rw [Provider.klass, Provider.klass, hfiles.classes]
  have hverdict : env.endStatus s₂.provider (sentFileset T fileset root) =
      env.endStatus { answer.2.provider with
        fs := landed mode ((s.provider.fs.places (sentFileset T fileset root)).zip bs)
          answer.2.provider.fs } (sentFileset T fileset root) := by
    unfold Env.endStatus
    rw [hklass, hfiles.calls, hfiles.fs]
    rfl
  rw [hverdict] at hret hstatus
  refine ⟨by rw [hserver, hfs, hfiles.fs], hret, hstatus, ?_⟩
  rw [hserver, Provider.seen, hcalls, List.map_append, hklass, hfiles.callbacks,
    afterCall_filesets _ _ ⟨0, 0⟩ _ 0]
  rfl

/-- Two migrations return the same, show the same filesets to the callbacks of the provider, and
leave the same files there. -/
structure Agrees (r r' : MigrateResult Site) : Prop where
  ret : r.ret = r'.ret
  status : r.status = r'.status
  seen : r.server.provider.seen = r'.server.provider.seen
  files : r.server.provider.fs = r'.server.provider.fs

theorem Finished.agrees {l : List (Path × Bytes)} {sent : Fileset} {p : Provider} {mode' : Int}
    {r r' : MigrateResult Site} (h : Finished env mode l sent p r)
    (h' : Finished env mode' l sent p r') (hfs : landed mode l p.fs = landed mode' l p.fs) :
    Agrees r r' where
  ret := by rw [h.ret, h'.ret, hfs]
  status := by rw [h.status, h'.status, hfs]
  seen := h.seen.trans h'.seen.symm
  files := by rw [h.files, h'.files, hfs]

theorem Agrees.node_eq {r r' : MigrateResult Site} (h : Agrees r r') {p : Path}
    {n n' : Option Node} (hn : r.server.provider.fs.node p = n)
    (hn' : r'.server.provider.fs.node p = n') : n = n' := by
  rw [← hn, ← hn', h.files]

/-- A migration whose `migrate_start` is refused is the same on all ways. -/
theorem migrate_refused (ph ph' : RemiProviderHandle) (mode mode' : Int)
    (hopens : Opens io T fileset) (hroot : root.head? = some '/')
    (hstart : Refused (providerRpc env abtio) T fileset root s) :
    remiFilesetMigrate (providerRpc env abtio) io T (some ph) (some fileset) (some root)
        removeSource mode status s =
      remiFilesetMigrate (providerRpc env abtio) io T (some ph') (some fileset) (some root)
        removeSource mode' status s := by
  have hm := transfer_deliver (providerRpc env abtio) ph mode root status s hopens
  have hm' := transfer_deliver (providerRpc env abtio) ph' mode' root status s hopens
  rw [sendStart_refused_eq hstart _ fun _ st => ⟨.success, status, fileset, st⟩] at hm hm'
  rw [migrate_of_transfer hroot hm, migrate_of_transfer hroot hm']

end Migrate

/-- The directory `/a` with the file `f` of one byte, and with a link `d` to a directory next to
another file `f`, of two bytes. -/
def linkedTree : SourceTree where
  entries := [⟨[['a']], .dir 0, 0, true⟩, ⟨[['a'], ['d']], .link [['x'], ['y']], 0, true⟩,
    ⟨[['a'], ['f']], .file ⟨[1], oneByte_small⟩, 0, true⟩, ⟨[['x']], .dir 0, 0, true⟩,
    ⟨[['x'], ['y']], .dir 0, 0, true⟩, ⟨[['x'], ['f']], .file ⟨[1, 2], twoBytes_small⟩, 0, true⟩]
  names := by decide
  nodup := by decide
  parents := by decide

/-- The files `/a/d/../f` and `/a/f`, sent byte by byte. -/
def linkedFileset : Fileset :=
  { byteByByte with files := (SortedSet.empty.insert ['f']).insert ['d', '/', '.', '.', '/', 'f'] }

end Remi
