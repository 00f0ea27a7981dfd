import Mathlib.Data.List.Infix
import Remi.Client.Migrate
import Remi.Proofs.Start

/-!
# `Remi.Proofs.Mkdirs`: the directory of a target

`mkdirs` cuts its string in place. On any string but the empty one its accesses stay inside, and
it makes the directories on the way one after the other (`mkdirsInPlace_eq`). The empty string
comes from the remote root `/` and a name without a slash. There the first access is outside.
`parents_created_iff` says that this is the only case.
-/

set_option autoImplicit false

namespace Remi

open Remi.Lib

/-! ### The directories on the way -/

/-- `dir` without a slash at its end. -/
def dropSlash (dir : Str) : Str := if dir.getLast? = some '/' then dir.dropLast else dir

/-- The prefixes of `d` that a slash follows, without the empty one, and `d`. -/
def wayTo (d : Str) : List Str :=
  (d.inits.filter fun front => front ≠ [] ∧ front ++ ['/'] <+: d) ++ [d]

theorem mkdirsFrom_eq (done rest : Str) :
    mkdirsFrom done rest = ((rest.inits.map (done ++ ·)).filter fun front =>
      front ++ ['/'] <+: done ++ rest) ++ [done ++ rest] := by
  induction rest generalizing done with
  | nil =>
      have hshort : ¬ done ++ ['/'] <+: done := fun h => by
        have hlength := h.length_le
        rw [List.length_append, List.length_singleton] at hlength
        omega
      simp [mkdirsFrom, hshort]
  | cons c cs ih =>
      have hinits : (c :: cs).inits.map (done ++ ·) =
          done :: cs.inits.map ((done ++ [c]) ++ ·) := by
        simp [Function.comp_def]
      have hslash : done ++ ['/'] <+: done ++ c :: cs ↔ c = '/' := by
        simp [eq_comm]
      have hrest := ih (done ++ [c])
      rw [List.append_assoc, List.singleton_append] at hrest
      rw [mkdirsFrom, hinits, hrest]
      split
      · rename_i hc
        rw [List.filter_cons_of_pos (by simpa using hslash.mpr hc), List.cons_append]
      · rename_i hc
        rw [List.filter_cons_of_neg (by simpa using fun h => hc (hslash.mp h))]

/-- The scan of a string from its beginning. -/
def scanned : Str → List Str
  | [] => [[]]
  | c :: cs => mkdirsFrom [c] cs

theorem mkdirsCalls_scanned (dir : Str) : mkdirsCalls dir = scanned (dropSlash dir) := by
  change (match dropSlash dir with
    | [] => [[]]
    | c :: cs => mkdirsFrom [c] cs) = scanned (dropSlash dir)
  cases dropSlash dir <;> rfl

theorem scanned_eq (d : Str) : scanned d = wayTo d := by
  cases d with
  | nil => simp [scanned, wayTo]
  | cons c cs =>
      have hinits : (c :: cs).inits.filter (fun front => front ≠ [] ∧ front ++ ['/'] <+: c :: cs) =
          (cs.inits.map ([c] ++ ·)).filter fun front => front ++ ['/'] <+: c :: cs := by
        rw [List.inits_cons, List.filter_cons_of_neg (by simp)]
        exact List.filter_congr (by simp)
      rw [wayTo, hinits]
      exact mkdirsFrom_eq [c] cs

/-- Each directory on the way is longer than the one before it. -/
theorem mkdirsFrom_increasing (done rest : Str) :
    (mkdirsFrom done rest).Pairwise (fun d d' => d.length < d'.length) ∧
      ∀ d ∈ mkdirsFrom done rest, done.length ≤ d.length := by
  induction rest generalizing done with
  | nil => simp [mkdirsFrom]
  | cons c cs ih =>
      obtain ⟨hincreasing, hlength⟩ := ih (done ++ [c])
      have hlonger : ∀ d ∈ mkdirsFrom (done ++ [c]) cs, done.length < d.length := by
        intro d hd
        have hd' := hlength d hd
        rw [List.length_append, List.length_singleton] at hd'
        omega
      rw [mkdirsFrom]
      split
      · refine ⟨.cons hlonger hincreasing, fun d hd => ?_⟩
        rcases List.mem_cons.mp hd with rfl | hd
        · exact Nat.le_refl _
        · exact Nat.le_of_lt (hlonger d hd)
      · exact ⟨hincreasing, fun d hd => Nat.le_of_lt (hlonger d hd)⟩

theorem wayTo_increasing (d : Str) : (wayTo d).Pairwise fun d d' => d.length < d'.length := by
  rw [← scanned_eq]
  cases d with
  | nil => exact List.pairwise_singleton _ _
  | cons c cs => exact (mkdirsFrom_increasing [c] cs).1

/-! ### The string in place -/

/-- The loop from behind `done` on. It leaves the memory as it was. -/
theorem mkdirsLoop_eq (done rest : Str) (tail : Cells Char) {fuel : Nat} (h : rest.length < fuel) :
    ∃ dirs, mkdirsFrom done rest = dirs ++ [done ++ rest] ∧
      mkdirsLoop fuel done.length ((done ++ rest).map some ++ none :: tail) =
        some (dirs, (done ++ rest).map some ++ none :: tail) := by
  induction rest generalizing done fuel with
  | nil =>
      obtain ⟨fuel, rfl⟩ := Nat.exists_eq_add_one_of_ne_zero (Nat.ne_of_gt h)
      refine ⟨[], by simp [mkdirsFrom], ?_⟩
      rw [List.append_nil, mkdirsLoop, Cells.read_append]
  | cons c cs ih =>
      obtain ⟨fuel, rfl⟩ := Nat.exists_eq_add_one_of_ne_zero (Nat.ne_of_gt (Nat.zero_lt_of_lt h))
      obtain ⟨dirs, hdirs, hloop⟩ := ih (done ++ [c]) (Nat.lt_of_succ_lt_succ h)
      have hcells : (done ++ c :: cs).map some ++ none :: tail =
          done.map some ++ some c :: (cs.map some ++ none :: tail) := by simp
      have hnext : done ++ [c] ++ cs = done ++ c :: cs := by simp
      rw [hnext, List.length_append, List.length_singleton] at hloop
      rw [hnext] at hdirs
      rw [mkdirsFrom, hdirs, mkdirsLoop, hcells, Cells.read_append]
      by_cases hc : c = '/'
      · -- The string is cut at the slash, and put together again.
        subst hc
        refine ⟨done :: dirs, by simp, ?_⟩
        simp only [↓reduceIte, Cells.write_append, Cells.cStr_append, Option.bind_eq_bind,
          Option.bind_some]
        rw [← hcells, hloop]
        rfl
      · refine ⟨dirs, by simp [hc], ?_⟩
        simp only [if_neg hc]
        rw [← hcells, hloop]

/-- The loop from the second cell on, where the string `d` is in memory. -/
theorem mkdirsLoop_scanned (d : Str) (tail : Cells Char) (h : d ≠ [] ∨ tail = [none]) :
    ∃ dirs, scanned d = dirs ++ [d] ∧
      mkdirsLoop (d.map some ++ none :: tail).length 1 (d.map some ++ none :: tail) =
        some (dirs, d.map some ++ none :: tail) := by
  cases d with
  | nil =>
      obtain rfl := h.resolve_left (not_not_intro rfl)
      exact ⟨[], rfl, rfl⟩
  | cons c cs =>
      refine mkdirsLoop_eq [c] cs tail ?_
      simp only [List.map_cons, List.length_append, List.length_cons, List.length_map]
      omega

theorem mkdirsInPlace_eq {dir : Str} (h : dir ≠ []) :
    mkdirsInPlace dir = some (mkdirsCalls dir) := by
  obtain ⟨front, c, rfl⟩ : ∃ front c, dir = front ++ [c] :=
    ⟨dir.dropLast, dir.getLast h, (List.dropLast_append_getLast h).symm⟩
  have hlast : sizeSub (front ++ [c]).length 1 = front.length := by
    simp [sizeSub]
  have hcells : Cells.ofList (front ++ [c]) = front.map some ++ some c :: [none] := by
    simp [Cells.ofList]
  rw [mkdirsCalls_scanned, dropSlash, List.getLast?_concat]
  unfold mkdirsInPlace
  simp only [hlast, hcells, Cells.read_append, Option.some.injEq, Option.bind_eq_bind,
    Option.bind_some]
  by_cases hc : c = '/'
  · subst hc
    obtain ⟨dirs, hdirs, hloop⟩ := mkdirsLoop_scanned front [none] (Or.inr rfl)
    simp only [↓reduceIte, Cells.write_append, Option.bind_some, List.dropLast_concat, hloop,
      Cells.cStr_append, hdirs, Option.pure_def]
  · have hwhole : front.map some ++ some c :: [none] = (front ++ [c]).map some ++ none :: [] := by
      simp
    obtain ⟨dirs, hdirs, hloop⟩ := mkdirsLoop_scanned (front ++ [c]) [] (Or.inl h)
    simp only [if_neg hc, Option.pure_def, Option.bind_some, hwhole, hloop, Cells.cStr_append,
      hdirs]

/-- On the empty string, the access to the last character is outside. -/
theorem mkdirsInPlace_nil : mkdirsInPlace [] = none := by
  have hread : (Cells.ofList ([] : Str)).read (sizeSub 0 1) = none :=
    List.getElem?_eq_none (by decide)
  rw [mkdirsInPlace, List.length_nil, hread]
  rfl

/-! ### What the calls leave -/

/-- There is a directory at `p`. The root always is one. -/
def Fs.IsDir (fs : Fs) (p : Path) : Prop := p = [] ∨ fs.node p = some .dir

/-- All directories on the way to `p` are there, and `p` itself. -/
def Fs.Below (fs : Fs) (p : Path) : Prop := ∀ q, q <+: p → fs.IsDir q

/-- In a run of `p`, `mkdir` succeeds when the parent is a directory and the path names nothing. -/
def MkdirWorks (env : Env) (t : Tid) (p : Handler Unit) (s : Site) : Prop :=
  ∀ x ∈ p.trace (env.step t) s, ∀ dir, x.1 = .mkdir dir →
    x.2.provider.fs.place dir ≠ [] → x.2.provider.fs.node (x.2.provider.fs.place dir) = none →
    x.2.provider.fs.IsDir (x.2.provider.fs.place dir).dropLast → (env.outcome x.2 x.1).io ≠ .fail

/-- No component of the absolute path `dir` is something else than a directory. -/
def NoObstacle (fs : Fs) (dir : Str) : Prop :=
  ∀ cs, cs <+: components dir → ¬ fs.HasFile (enter [] cs)

section Made
variable {env : Env} {t : Tid}

theorem isDir_of_not_file {fs : Fs} {p : Path} (h : ¬ fs.HasFile p) (hp : fs.node p ≠ none) :
    fs.IsDir p := by
  cases hnode : fs.node p with
  | none => exact absurd hnode hp
  | some n =>
      cases n with
      | file b => exact absurd ⟨b, hnode⟩ h
      | dir => exact Or.inr hnode

theorem DirsMade.isDir {dirs : List Str} {s s' : Site} (h : DirsMade env dirs s s') {p : Path}
    (hp : s.provider.fs.IsDir p) : s'.provider.fs.IsDir p :=
  hp.imp_right (h.keep p _)

/-- One call of `mkdir` that works. The directories above are there. -/
theorem mkdir_isDir {dir : Str} {s s' : Site} (h : DirsMade env [dir] s s')
    (hfree : ¬ s.provider.fs.HasFile (s.provider.fs.place dir))
    (hio : s.provider.fs.place dir ≠ [] → s.provider.fs.node (s.provider.fs.place dir) = none →
      env.io .mkdir (s.made .mkdir) ≠ .fail) :
    s'.provider.fs.IsDir (s.provider.fs.place dir) := by
  by_cases hroot : s.provider.fs.place dir = []
  · exact Or.inl hroot
  · refine isDir_of_not_file (fun hfile => hfree ((h.files _).mp hfile)) fun hnone => ?_
    obtain ⟨hbefore, hmade⟩ := (h.absent _).mp hnone
    exact hmade ⟨0, dir, rfl, hio hroot hbefore, rfl⟩

theorem place_absolute (fs : Fs) {dir : Str} (h : dir.head? = some '/') :
    fs.place dir = enter [] (components dir) := by
  rw [Fs.place, place, if_pos h]

/-- A component stays at a directory, leaves it or goes one further. -/
theorem enter_keepComponent (D : Path) (seg : Str) :
    enter D (keepComponent seg []) <+: D ∨ enter D (keepComponent seg []) = D ++ [seg] := by
  unfold keepComponent
  split
  · exact Or.inl List.prefix_rfl
  · by_cases hdots : seg = ['.', '.']
    · simp only [enter, if_pos hdots]
      exact Or.inl (List.dropLast_prefix D)
    · exact Or.inr (by simp [enter, hdots])

theorem mkdirWorks_cons {dir : Str} {dirs : List Str} {s s' : Site}
    (h : MkdirWorks env t (mkdirAll (dir :: dirs)) s)
    (hstep : env.step t (.mkdir dir) s = some ((), s')) :
    (s.provider.fs.place dir ≠ [] → s.provider.fs.node (s.provider.fs.place dir) = none →
      s.provider.fs.IsDir (s.provider.fs.place dir).dropLast →
      env.io .mkdir (s.made .mkdir) ≠ .fail) ∧ MkdirWorks env t (mkdirAll dirs) s' := by
  have htrace : (mkdirAll (dir :: dirs)).trace (env.step t) s =
      (.mkdir dir, s) :: (mkdirAll dirs).trace (env.step t) s' := by
    rw [mkdirAll, Prog.call_bind, Prog.trace_op_some _ hstep]
  unfold MkdirWorks at h ⊢
  rw [htrace] at h
  exact ⟨h _ List.mem_cons_self dir rfl, fun x hx => h x (List.mem_cons_of_mem _ hx)⟩

/-- One call of `mkdir` for the component `seg`. -/
theorem below_mkdir (seg : Str) {dir : Str} {D : Path} {s s' : Site} (h : DirsMade env [dir] s s')
    (hplace : s.provider.fs.place dir = enter D (keepComponent seg []))
    (hD : s.provider.fs.Below D) (hfree : ¬ s.provider.fs.HasFile (s.provider.fs.place dir))
    (hio : s.provider.fs.place dir ≠ [] → s.provider.fs.node (s.provider.fs.place dir) = none →
      s.provider.fs.IsDir (s.provider.fs.place dir).dropLast →
      env.io .mkdir (s.made .mkdir) ≠ .fail) :
    s'.provider.fs.Below (s.provider.fs.place dir) := by
  intro q hq
  rcases enter_keepComponent D seg with hback | hnext
  · -- The call is made on a directory that is there.
    exact h.isDir (hD q ((hplace ▸ hq).trans hback))
  · rw [hplace, hnext] at hq
    rcases List.prefix_concat_iff.mp hq with rfl | hq
    · have hmade := mkdir_isDir h hfree fun hroot hnone => hio hroot hnone (by
        rw [hplace, hnext, List.dropLast_concat]
        exact hD D List.prefix_rfl)
      rwa [hplace, hnext] at hmade
    · exact h.isDir (hD q hq)

/-- What is known of the part `done` of an absolute path, in a state where the directories on
the way to its last slash are there. The components before that are `P`, and `seg` is what is
behind it. -/
structure Reached (s : Site) (done seg : Str) (P : Path) : Prop where
  absolute : done.head? = some '/'
  components : ∀ rest, components (done ++ rest) = P ++ componentsFrom seg rest
  below : s.provider.fs.Below (enter [] P)

theorem Reached.whole {s : Site} {done seg : Str} {P : Path} (h : Reached s done seg P) :
    Remi.components done = P ++ keepComponent seg [] := by
  have hdone := h.components []
  rwa [List.append_nil, componentsFrom] at hdone

/-- The call of `mkdir` on `done`, in front of others. -/
theorem run_mkdir_reached {done seg : Str} {P : Path} {dirs : List Str} {s : Site}
    (h : Reached s done seg P)
    (hfree : ¬ s.provider.fs.HasFile (enter [] (components done)))
    (hworks : MkdirWorks env t (mkdirAll (done :: dirs)) s) :
    ∃ s', (mkdirAll (done :: dirs)).run (env.step t) s = (mkdirAll dirs).run (env.step t) s' ∧
      DirsMade env [done] s s' ∧ s'.provider.fs.Below (enter [] (components done)) ∧
      MkdirWorks env t (mkdirAll dirs) s' := by
  obtain ⟨s', hstep, hmade⟩ := step_mkdir env t done s
  obtain ⟨hio, hrest⟩ := mkdirWorks_cons hworks hstep
  have hplace := place_absolute s.provider.fs h.absolute
  have hbelow := below_mkdir seg hmade (by rw [hplace, h.whole, enter_append]) h.below
    (by rwa [hplace]) hio
  rw [hplace] at hbelow
  refine ⟨s', ?_, hmade, hbelow, hrest⟩
  rw [mkdirAll, Prog.call_bind, Prog.run_op_some _ hstep]

/-- The scan from behind `done` on. -/
theorem run_mkdirsFrom {done cs seg : Str} {P : Path} {s : Site} (h : Reached s done seg P)
    (hfree : NoObstacle s.provider.fs (done ++ cs))
    (hworks : MkdirWorks env t (mkdirAll (mkdirsFrom done cs)) s) :
    ((mkdirAll (mkdirsFrom done cs)).run (env.step t) s).2.provider.fs.Below
      (enter [] (components (done ++ cs))) := by
  -- By induction on the rest of the string. `Reached` says that the way up to the last slash is
  -- there.
  induction cs generalizing done seg P s with
  | nil =>
      rw [mkdirsFrom] at hworks ⊢
      rw [List.append_nil] at hfree ⊢
      obtain ⟨s', hrun, -, hbelow, -⟩ :=
        run_mkdir_reached h (hfree _ List.prefix_rfl) hworks
      rwa [hrun]
  | cons c cs ih =>
      have hnext : done ++ [c] ++ cs = done ++ c :: cs := by simp
      have habs : (done ++ [c]).head? = some '/' := by
        rw [List.head?_append, h.absolute]
        rfl
      rw [mkdirsFrom] at hworks ⊢
      rw [← hnext] at hfree ⊢
      by_cases hc : c = '/'
      · -- `done` is a directory on the way, and `c` begins the next component.
        subst hc
        rw [if_pos rfl] at hworks ⊢
        have hsplit : ∀ rest, components (done ++ ['/'] ++ rest) =
            components done ++ components rest := fun rest => by
          rw [List.append_assoc, List.singleton_append, components_append_slash]
        have hprefix : components done <+: components (done ++ ['/'] ++ cs) := by
          rw [hsplit]
          exact List.prefix_append _ _
        obtain ⟨s', hrun, hmade, hbelow, hrest⟩ :=
          run_mkdir_reached h (hfree _ hprefix) hworks
        have hreached : Reached s' (done ++ ['/']) [] (components done) :=
          ⟨habs, fun rest => hsplit rest, hbelow⟩
        rw [hrun]
        exact ih hreached (fun q hq hfile => hfree q hq ((hmade.files _).mp hfile)) hrest
      · rw [if_neg hc] at hworks ⊢
        have hreached : Reached s (done ++ [c]) (seg ++ [c]) P := by
          refine ⟨habs, fun rest => ?_, h.below⟩
          rw [List.append_assoc, List.singleton_append, h.components, componentsFrom, if_neg hc]
        exact ih hreached hfree hworks

/-- The directory of an absolute path is there after `mkdirs`. -/
theorem run_mkdirs_isDir {dir : Str} {s : Site} (habs : dir.head? = some '/')
    (hfree : NoObstacle s.provider.fs dir) (hworks : MkdirWorks env t (mkdirs dir) s) :
    ((mkdirs dir).run (env.step t) s).2.provider.fs.IsDir (s.provider.fs.place dir) := by
  -- The slash that is cut off adds no component.
  have hcomponents : components (dropSlash dir) = components dir := by
    unfold dropSlash
    split
    · rename_i hslash
      obtain ⟨front, rfl⟩ := List.getLast?_eq_some_iff.mp hslash
      rw [List.dropLast_concat, components_append_singleton]
    · rfl
  rw [place_absolute _ habs]
  unfold mkdirs NoObstacle at *
  rw [mkdirsCalls_scanned] at hworks ⊢
  rw [← hcomponents] at hfree ⊢
  cases hd : dropSlash dir with
  | nil => exact Or.inl rfl
  | cons c cs =>
      rw [hd] at hfree hworks
      have hc : c = '/' := by
        cases dir with
        | nil => cases habs
        | cons a rest =>
            obtain rfl : a = '/' := Option.some.inj habs
            unfold dropSlash at hd
            split at hd
            · cases rest with
              | nil => cases hd
              | cons b rest => exact (List.cons.inj hd).1.symm
            · exact (List.cons.inj hd).1.symm
      subst hc
      have hreached : Reached s ['/'] [] [] := by
        refine ⟨rfl, fun rest => rfl, fun q hq => Or.inl ?_⟩
        exact List.prefix_nil.mp hq
      exact run_mkdirsFrom hreached hfree hworks _ List.prefix_rfl

end Made

/-! ### Every target -/

/-- What is said of `mkdirs` on the directory of a target: its accesses stay inside its string,
it ends, it makes the directories on the way, and then the directory is there if nothing is in
the way and the calls work. -/
structure ParentsCreated (theDir : Str) : Prop where
  calls : mkdirsInPlace theDir = some (wayTo (dropSlash theDir))
  increasing : (wayTo (dropSlash theDir)).Pairwise fun d d' => d.length < d'.length
  made : ∀ (env : Env) (t : Tid) (s : Site), NoObstacle s.provider.fs theDir →
    MkdirWorks env t (mkdirAll (wayTo (dropSlash theDir))) s →
    ((mkdirAll (wayTo (dropSlash theDir))).run (env.step t) s).2.provider.fs.IsDir
      (s.provider.fs.place theDir)

theorem mkdirs_eq (dir : Str) : mkdirs dir = mkdirAll (wayTo (dropSlash dir)) := by
  rw [mkdirs, mkdirsCalls_scanned, scanned_eq]

theorem parentsCreated {theDir : Str} (h : theDir.head? = some '/') : ParentsCreated theDir where
  calls := by
    have hne : theDir ≠ [] := by
      rintro rfl
      cases h
    rw [mkdirsInPlace_eq hne, mkdirsCalls_scanned, scanned_eq]
  increasing := wayTo_increasing _
  made env t s hfree hworks := by
    rw [← mkdirs_eq] at hworks ⊢
    exact run_mkdirs_isDir h hfree hworks

/-- The completed remote root is a path that begins and ends with a slash. -/
theorem completeRoot_cases {remoteRoot : Str} (h : remoteRoot.head? = some '/') :
    completeRoot remoteRoot = ['/'] ∧ remoteRoot = ['/'] ∨
      ∃ r, completeRoot remoteRoot = '/' :: r ++ ['/'] ∧ remoteRoot ≠ ['/'] := by
  obtain ⟨c, rfl⟩ : ∃ c, remoteRoot = '/' :: c := by
    cases remoteRoot with
    | nil => cases h
    | cons a c => exact ⟨c, by rw [Option.some.inj h]⟩
  unfold completeRoot
  split
  · rename_i hlast
    refine Or.inr ⟨c, rfl, ?_⟩
    rintro hroot
    rw [hroot] at hlast
    exact hlast rfl
  · rename_i hlast
    rcases List.eq_nil_or_concat c with rfl | ⟨r, a, rfl⟩
    · exact Or.inl ⟨rfl, rfl⟩
    · have ha : a = '/' := by
        rw [List.concat_eq_append, ← List.cons_append, List.getLast?_concat] at hlast
        exact Option.some.inj (not_not.mp hlast)
      subst ha
      exact Or.inr ⟨r, by simp, by simp⟩

/-- The directory of a target is empty in one case. Otherwise it is an absolute path. -/
theorem dirname_target {remoteRoot : Str} (h : remoteRoot.head? = some '/') (name : Str) :
    dirname (completeRoot remoteRoot ++ name) = [] ∧ remoteRoot = ['/'] ∧ '/' ∉ name ∨
      (dirname (completeRoot remoteRoot ++ name)).head? = some '/' ∧
        ¬ (remoteRoot = ['/'] ∧ '/' ∉ name) := by
  obtain ⟨r, hr⟩ : ∃ r, completeRoot remoteRoot ++ name = '/' :: r := by
    rcases completeRoot_cases h with ⟨hroot, -⟩ | ⟨r, hroot, -⟩
    · exact ⟨name, by rw [hroot, List.singleton_append]⟩
    · exact ⟨r ++ ['/'] ++ name, by rw [hroot, List.cons_append, List.cons_append]⟩
  obtain ⟨last, hsplit, hlast⟩ := dirname_split (hr ▸ List.mem_cons_self :
    '/' ∈ completeRoot remoteRoot ++ name)
  rcases completeRoot_cases h with ⟨hroot, hremote⟩ | ⟨r, hroot, hremote⟩
  · rw [hroot, List.singleton_append] at hsplit ⊢
    -- Behind the root alone the name decides: without a slash its directory is the empty string.
    cases hdir : dirname ('/' :: name) with
    | nil =>
        rw [hdir, List.nil_append] at hsplit
        exact Or.inl ⟨rfl, hremote, (List.cons.inj hsplit).2 ▸ hlast⟩
    | cons a rest =>
        rw [hdir, List.cons_append] at hsplit
        obtain ⟨ha, hname⟩ := List.cons.inj hsplit
        refine Or.inr ⟨by rw [← ha]; rfl, fun hnone => hnone.2 ?_⟩
        rw [hname]
        exact List.mem_append_right _ List.mem_cons_self
  · refine Or.inr ⟨?_, fun hnone => hremote hnone.1⟩
    rw [hroot, List.cons_append, List.cons_append] at hsplit ⊢
    cases hdir : dirname ('/' :: (r ++ ['/'] ++ name)) with
    | nil =>
        rw [hdir, List.nil_append] at hsplit
        refine absurd ?_ hlast
        rw [← (List.cons.inj hsplit).2]
        simp
    | cons a rest =>
        rw [hdir, List.cons_append] at hsplit
        rw [← (List.cons.inj hsplit).1]
        rfl

/-- The parent directories of a target are created unless the remote root is `/` and the name has
no slash. -/
theorem parents_created_iff {remoteRoot : Str} (hroot : remoteRoot.head? = some '/') (name : Str) :
    ParentsCreated (dirname (completeRoot remoteRoot ++ name)) ↔
      ¬ (remoteRoot = ['/'] ∧ '/' ∉ name) := by
  rcases dirname_target hroot name with ⟨hdir, hcase⟩ | ⟨hdir, hcase⟩
  · rw [hdir]
    refine ⟨fun h => ?_, fun h => absurd hcase h⟩
    have hcalls := h.calls
    rw [mkdirsInPlace_nil] at hcalls
    cases hcalls
  · exact ⟨fun _ => hcase, fun _ => parentsCreated hdir⟩

/-- The file `a/b` below the remote root `/`. -/
theorem parents_created_nested : ParentsCreated (dirname (completeRoot ['/'] ++ ['a', '/', 'b'])) :=
  (parents_created_iff rfl ['a', '/', 'b']).mpr (by decide)

/-- The file `f` below the remote root `/`: `mkdirs` is called on the empty string. -/
theorem parents_not_created :
    ∃ remoteRoot name : Str, remoteRoot.head? = some '/' ∧ name ≠ [] ∧ name.head? ≠ some '/' ∧
      ¬ ParentsCreated (dirname (completeRoot remoteRoot ++ name)) := by
  refine ⟨['/'], ['f'], by decide, by decide, by decide, fun h => ?_⟩
  have hcalls : mkdirsInPlace [] = _ := h.calls
  rw [mkdirsInPlace_nil] at hcalls
  cases hcalls

end Remi
