import Remi.Server.Discipline

/-!
# `Remi.Proofs.Discipline`: the handlers follow the discipline

`handle_follows` is assembled from one lemma for each handler. The loops of a handler leave
its ghost state as it is, apart from the descriptors seen.
-/

set_option autoImplicit false

namespace Remi

open Remi.Lib

/-- A program that follows the discipline from `g` and returns with `Q`. -/
abbrev Follows {α : Type} (p : Handler α) (g : Ghost) (Q : Ghost → α → Prop) : Prop :=
  p.Obeys discipline Q g

/-- The rule for one operation. -/
theorem follows_issue {α : Type} {o : Op} {f : Ans o → Handler α} {g : Ghost}
    {Q : Ghost → α → Prop} (hallow : g.Allows o) (hf : ∀ r, Follows (f r) (g.after o r) Q) :
    Follows (issue o >>= f) g Q :=
  Prog.obeys_call hallow hf

/-- The program follows the discipline from `g` to its end. -/
abbrev Completes (p : Handler Unit) (g : Ghost) : Prop := Follows p g fun g' _ => g'.Done

/-- The rule for the last operation. -/
theorem follows_last {o : Op} {g : Ghost} (hallow : g.Allows o)
    (hdone : ∀ r, (g.after o r).Done) : Follows (issue o) g fun g' _ => g'.Done :=
  Prog.obeys_last hallow hdone

/-- The rule for a part whose ghost state at the end is known. -/
theorem follows_part {α β : Type} {p : Handler α} {f : α → Handler β} {g : Ghost}
    {G : α → Ghost} {Q : Ghost → β → Prop} (hp : Follows p g fun g' a => g' = G a)
    (hf : ∀ a, Follows (f a) (G a) Q) : Follows (p >>= f) g Q :=
  Prog.obeys_part hp hf

/-- The rule for a part that leaves the ghost state as it is. -/
theorem follows_quiet {α β : Type} {p : Handler α} {f : α → Handler β} {g : Ghost}
    {Q : Ghost → β → Prop} (hp : Follows p g fun g' _ => g' = g)
    (hf : ∀ a, Follows (f a) g Q) : Follows (p >>= f) g Q :=
  follows_part hp hf

/-! ### The loops -/

section Loops

/-- A handler that may still look for and create files. -/
def Ghost.creating (g : Ghost) : Prop := g.req.kind = .start ∧ g.stored = false ∧ g.drawn ≠ none

theorem anyExists_follows (root : Str) (files : List Str) {g : Ghost} (hg : g.creating) :
    Follows (anyExists root files) g fun g' _ => g' = g := by
  induction files with
  | nil => rfl
  | cons filename rest ih =>
      refine follows_issue hg fun r => ?_
      cases r
      · exact ih
      · rfl

theorem closeEach_follows (fds : List Fd) {g : Ghost} (hkind : g.req.kind = .start)
    (hfds : g.mine = fds) : Follows (closeEach fds) g fun g' _ => g' = { g with mine := [] } := by
  induction fds generalizing g with
  | nil =>
      show g = { g with mine := [] }
      rw [← hfds]
  | cons fd rest ih =>
      refine follows_issue ⟨hkind, by rw [hfds]; rfl⟩ fun _ => ?_
      exact ih hkind (by simp [Ghost.after, hfds])

theorem mkdirAll_follows (dirs : List Str) {g : Ghost} (hg : g.creating) :
    Follows (mkdirAll dirs) g fun g' _ => g' = g := by
  induction dirs with
  | nil => rfl
  | cons d rest ih => exact follows_issue hg fun _ => ih

/-- After the creating loop the handler still has the descriptors of the result, and none
when there is no result. -/
theorem openFiles_follows (root : Str) (theModes : List Nat) (files : List Str) (i : Nat)
    (opened : List Fd) {g : Ghost} (hg : g.creating) (hopened : g.mine = opened) :
    Follows (openFiles root theModes files i opened) g fun g' fds =>
      g' = { g with mine := fds.getD [] } := by
  induction files generalizing i opened g with
  | nil =>
      show g = { g with mine := opened }
      rw [← hopened]
  | cons filename rest ih =>
      refine follows_quiet (mkdirAll_follows _ hg) fun _ => ?_
      refine follows_issue hg fun mode => follows_issue hg fun r => ?_
      cases r with
      | none =>
          have hmine : g.mine ++ (none : Option Fd).toList = opened := by simp [hopened]
          dsimp only
          refine Prog.obeys_bind (closeEach_follows opened hg.1 hmine) ?_
          intro g' _ hg'
          exact hg'
      | some fd => exact ih _ _ hg (by simp [Ghost.after, hopened])

theorem unmapEach_follows (segs : List (Addr × Nat)) {g : Ghost}
    (hg : g.req.kind = .mmap ∧ g.erased = false) (hsegs : g.maps = segs.map Prod.fst) :
    Follows (unmapEach segs) g fun g' _ => g' = { g with maps := [] } := by
  induction segs generalizing g with
  | nil =>
      show g = { g with maps := [] }
      rw [show ([] : List Addr) = g.maps from hsegs.symm]
  | cons seg rest ih =>
      refine follows_issue ⟨hg.1, hg.2, by rw [hsegs]; rfl⟩ fun _ => ?_
      exact ih hg (by simp [Ghost.after, hsegs])

/-- The ghost state after calls of which one has failed, unless `ok`. -/
def Ghost.orFailed (g : Ghost) (ok : Bool) : Ghost := { g with failed := !ok || g.failed }

theorem syncEach_follows (segs : List (Addr × Nat)) {g : Ghost}
    (hg : g.req.kind = .mmap ∧ g.erased = false) (hsegs : ∀ seg ∈ segs, seg.1 ∈ g.maps)
    (hfound : g.found ≠ none) : Follows (syncEach segs) g fun g' ok => g' = g.orFailed ok := by
  induction segs with
  | nil => rfl
  | cons seg rest ih =>
      refine follows_issue ⟨hg.1, hg.2, hsegs seg List.mem_cons_self, hfound⟩ fun r => ?_
      cases r
      · rfl
      · exact ih fun seg' h => hsegs seg' (List.mem_cons_of_mem _ h)

theorem mapFiles_follows (id : Uuid) (fds : List Fd) (i : Nat) (theData : List (Addr × Nat))
    {g : Ghost} (hfound : g.found = some id) (hmmap : g.req.kind = .mmap)
    (hanswer : g.answer = none) (herased : g.erased = false) (hfds : ∀ fd ∈ fds, fd ∈ g.fds)
    (hmaps : g.maps = theData.map Prod.fst) :
    Follows (mapFiles id fds i theData) g fun g' r =>
      g' = { g.orFailed r.1 with maps := r.2.map Prod.fst } := by
  induction fds generalizing i theData g with
  | nil =>
      show g = { g with maps := theData.map Prod.fst }
      rw [← hmaps]
  | cons fd rest ih =>
      have hfd : fd ∈ g.fds := hfds fd List.mem_cons_self
      have hrest := fun x hx => hfds x (List.mem_cons_of_mem _ hx)
      have hstop : ({ g with failed := true } : Ghost) =
          { g with failed := true, maps := theData.map Prod.fst } := by rw [← hmaps]
      refine follows_issue ⟨hfound, Or.inl hmmap, hanswer, herased⟩ fun size => ?_
      by_cases hsize : size = 0
      · rw [if_pos hsize]
        exact ih _ _ hfound hmmap hanswer herased hrest hmaps
      · rw [if_neg hsize]
        refine follows_issue ⟨hfound, hmmap, hfd, hanswer, herased⟩ fun ok => ?_
        cases ok
        · exact hstop
        · refine follows_issue ⟨hfound, hmmap, hfd, hanswer, herased⟩ fun segment => ?_
          cases segment with
          | null => exact hstop
          | failed | mapped seg =>
              refine (ih (i + 1) _ ?_ ?_ ?_ ?_ ?_ ?_).mono ?_
              all_goals simp_all [Ghost.after, Ghost.orFailed]

end Loops

/-! ### The handlers -/

/-- The ghost state of a handler that begins. -/
def Ghost.init (q : Request) : Ghost := { req := q }

theorem migrateStart_follows (fileset : Fileset) (filesizes theModes : List Nat) :
    Completes (migrateStart fileset filesizes theModes)
      (.init (.start fileset filesizes theModes)) := by
  refine follows_issue ⟨rfl, rfl⟩ fun id => ?_
  set g : Ghost := (Ghost.init (.start fileset filesizes theModes)).after .newUuid id with hg
  have hcreating : g.creating := ⟨rfl, rfl, by simp [hg, Ghost.after]⟩
  have hdone : ∀ (stored : Bool) a, ({ g with stored := stored, answer := some a } : Ghost).Done :=
    fun _ _ => ⟨by simp, rfl, rfl, nofun⟩
  -- The exits before the creating loop give the same kind of answer.
  have hrefuse : ∀ ret status, ret ≠ Ret.success →
      Completes (issue (.respond (.start ret status id))) g := by
    intro ret status hret
    refine follows_last ⟨rfl, rfl, rfl, rfl, ?_⟩ fun _ => hdone false _
    simp [hret, hg, Ghost.after, Ghost.init]
  refine follows_issue hcreating fun known => ?_
  cases known
  · exact hrefuse _ _ (by decide)
  · refine follows_quiet (anyExists_follows _ _ hcreating) fun present => ?_
    cases present
    · refine follows_issue (Or.inl rfl) fun klass => ?_
      have hcall : Follows (callBefore klass fileset) g fun g' _ => g' = g := by
        unfold callBefore
        cases klass.beforeCallback with
        | none => rfl
        | some callback => exact follows_issue hcreating fun _ => rfl
      refine follows_quiet hcall fun called => ?_
      obtain ⟨status, fileset'⟩ := called
      by_cases hstatus : status = 0
      · simp only [hstatus, ne_eq, not_true_eq_false, ↓reduceIte]
        refine follows_part (openFiles_follows _ _ _ _ _ hcreating rfl) fun fds => ?_
        -- With the descriptors in the record, the handler keeps none of its own.
        cases fds with
        | none => exact hrefuse _ _ (by decide)
        | some fds =>
            refine follows_issue ⟨rfl, rfl, rfl, rfl, rfl, rfl, rfl, rfl⟩ fun _ => ?_
            exact follows_last ⟨rfl, rfl, rfl, rfl, by simp [Ghost.after]⟩ fun _ => hdone true _
      · simp only [ne_eq, hstatus, not_false_eq_true, ↓reduceIte]
        exact hrefuse _ _ (by decide)
    · exact hrefuse _ _ (by decide)

theorem migrateMmap_follows (id : Uuid) (remoteBulk : Option Bulk) :
    Completes (migrateMmap id remoteBulk) (.init (.mmap id remoteBulk)) := by
  refine follows_issue ⟨rfl, rfl, rfl, rfl, rfl⟩ fun known => ?_
  cases known
  · exact follows_last ⟨rfl, rfl, Or.inr (Or.inl ⟨rfl, rfl, rfl⟩)⟩ fun _ =>
      ⟨by simp [Ghost.after], rfl, rfl, nofun⟩
  · refine follows_issue
      ⟨rfl, Or.inl rfl, rfl, rfl, by simp [Ghost.after, Ghost.init, Request.kind]⟩ fun op => ?_
    set g : Ghost := ((Ghost.init (.mmap id remoteBulk)).after (.find id) true).after (.load id) op
    have hdone : ∀ (failed erased : Bool) (maps : List Addr) a, ({ g with
        failed := failed, erased := erased, maps := maps, answer := some a } : Ghost).Done :=
      fun _ _ _ _ => ⟨by simp, rfl, rfl, nofun⟩
    -- All exits that clean up unmap what is mapped, erase the record and answer.
    have hfailed : ∀ theData, Completes (mmapFailed id theData)
        { g with failed := true, maps := theData.map Prod.fst } := by
      intro theData
      refine follows_part (unmapEach_follows theData ⟨rfl, rfl⟩ rfl) fun _ => ?_
      refine follows_issue ⟨rfl, rfl, Or.inr (Or.inl ⟨rfl, rfl, rfl⟩)⟩ fun _ => ?_
      exact follows_last ⟨rfl, rfl, Or.inr (Or.inr (Or.inl ⟨rfl, rfl, rfl, rfl⟩))⟩ fun _ =>
        hdone true true [] _
    refine follows_part (mapFiles_follows id op.fds 0 [] rfl rfl rfl rfl
      (show ∀ fd ∈ op.fds, fd ∈ g.fds from fun _ h => h) rfl) fun mapped => ?_
    obtain ⟨_ | _, theData⟩ := mapped
    · exact hfailed theData
    · have hfound : g.found ≠ none := by simp [g, Ghost.after]
      have htotal : g.total ≠ none := by simp [g, Ghost.after]
      refine follows_issue ⟨rfl, rfl, rfl, hfound, htotal⟩ fun _ => ?_
      refine follows_issue ⟨rfl, rfl, rfl, hfound, htotal⟩ fun transferred => ?_
      set g' : Ghost := { g with maps := theData.map Prod.fst } with hg'
      -- A total transfer leaves the memory as it was.
      by_cases hequal : transferred % sizeModulus = op.filesizes.sum % sizeModulus
      · have hsame : g'.after (.pull remoteBulk theData) transferred = g' := by
          simp [Ghost.after, g', g, hequal, Ghost.init]
        rw [if_neg (not_not_intro hequal)]
        show Completes _ (g'.after (.pull remoteBulk theData) transferred)
        rw [hsame]
        have hsegs : ∀ seg ∈ theData, seg.1 ∈ g'.maps := fun seg h => List.mem_map_of_mem h
        refine follows_part (syncEach_follows theData ⟨rfl, rfl⟩ hsegs hfound) fun synced => ?_
        cases synced
        · exact hfailed theData
        · refine follows_part (unmapEach_follows theData ⟨rfl, rfl⟩ rfl) fun _ => ?_
          exact follows_last ⟨rfl, rfl, Or.inl ⟨rfl, hfound, rfl, rfl⟩⟩ fun _ =>
            hdone false false [] _
      · -- The exit that leaves the segments mapped.
        have hshort : g'.after (.pull remoteBulk theData) transferred =
            { g' with failed := true } := by
          simp [Ghost.after, g', g, Ne.symm hequal]
        rw [if_pos hequal]
        show Completes _ (g'.after (.pull remoteBulk theData) transferred)
        rw [hshort]
        exact follows_last ⟨rfl, rfl, Or.inr (Or.inr (Or.inr ⟨rfl, rfl, rfl⟩))⟩ fun _ =>
          hdone true false _ _

theorem migrateWrite_follows (abtio : Bool) (id : Uuid) (fileNumber writeOffset : Nat)
    (data : Bytes) :
    Completes (migrateWrite abtio id fileNumber writeOffset data)
      (.init (.write id fileNumber writeOffset data)) := by
  refine follows_issue ⟨rfl, rfl, rfl, rfl, rfl⟩ fun known => ?_
  cases known
  · exact follows_last ⟨rfl, rfl, Or.inr (Or.inl ⟨rfl, rfl⟩)⟩ fun _ =>
      ⟨by simp [Ghost.after], rfl, rfl, nofun⟩
  · refine follows_issue ⟨rfl, nofun, rfl, rfl, rfl, rfl⟩ fun _ => ?_
    refine follows_issue
      ⟨rfl, Or.inr rfl, rfl, rfl, by simp [Ghost.after, Ghost.init, Request.kind]⟩ fun op => ?_
    set g : Ghost := (((Ghost.init (.write id fileNumber writeOffset data)).after
      (.find id) true).after (.lock id) ()).after (.load id) op with hg
    -- Both checks have the same exit.
    have hrefused : Completes (writeRefused id) g := by
      refine follows_issue ⟨rfl, rfl, Or.inl ⟨rfl, rfl, rfl⟩⟩ fun _ => ?_
      refine follows_issue ⟨rfl, rfl, Or.inr (Or.inr ⟨rfl, rfl⟩)⟩ fun _ => ?_
      refine follows_last ⟨rfl, rfl, by simp [Ghost.after], rfl, ?_⟩ fun _ =>
        ⟨by simp [Ghost.after], rfl, rfl, nofun⟩
      simp [Ghost.after, Ret.errIo, Ret.success]
    cases hfd : op.fds[fileNumber]? with
    | none => exact hrefused
    | some fd =>
        have hmem : fd ∈ g.fds := List.mem_of_getElem? hfd
        refine follows_issue ⟨rfl, Or.inr rfl, rfl, rfl⟩ fun size => ?_
        split
        · exact hrefused
        · refine follows_issue ⟨rfl, rfl, Or.inl ⟨rfl, by simp [hg, Ghost.after], rfl, rfl⟩⟩
            fun _ => ?_
          have hdone : ∀ unrecorded : Bool, ({ g with
              answer := some (.write .success), written := true, unrecorded := unrecorded
              locked := false } : Ghost).Done :=
            fun _ => ⟨by simp, rfl, rfl, nofun⟩
          -- The same continuation after either kind of write.
          have hwritten : ∀ s : Int, Completes
              (if s ≠ data.length then do
                issue (.setError id .errIo)
                issue (.unlock id)
              else issue (.unlock id))
              { g with answer := some (.write .success), written := true,
                       unrecorded := s ≠ data.length } := by
            intro s
            split
            · rename_i hshort
              refine follows_issue ⟨rfl, rfl, rfl, by simp [hshort], rfl, rfl, rfl⟩ fun _ => ?_
              exact follows_last ⟨rfl, rfl, by simp [Ghost.after], rfl, fun _ => rfl⟩ fun _ =>
                hdone false
            · rename_i hfull
              exact follows_last ⟨rfl, rfl, by simp, by simpa using hfull, fun _ => rfl⟩ fun _ =>
                hdone _
          cases abtio
          · exact follows_issue ⟨rfl, rfl, rfl, hmem, rfl, rfl, rfl⟩ hwritten
          · exact follows_issue ⟨rfl, rfl, rfl, hmem, rfl, rfl, rfl⟩ hwritten

theorem migrateEnd_follows (id : Uuid) : Completes (migrateEnd id) (.init (.end_ id)) := by
  refine follows_issue ⟨rfl, rfl, rfl, rfl, rfl⟩ fun known => ?_
  cases known
  · exact follows_last ⟨rfl, rfl, rfl, Or.inl ⟨rfl, rfl⟩⟩ fun _ =>
      ⟨by simp [Ghost.after], rfl, rfl, fun _ => Or.inl rfl⟩
  · refine follows_issue ⟨rfl, nofun, rfl, rfl, rfl, rfl⟩ fun _ => ?_
    refine follows_issue ⟨rfl, rfl, rfl, rfl, rfl, rfl⟩ fun _ => ?_
    refine follows_issue ⟨rfl, Or.inr rfl, rfl, rfl, fun _ => rfl⟩ fun op => ?_
    split
    · -- An operation with a failed write ends with its error.
      refine follows_issue ⟨rfl, rfl, rfl, Or.inr ⟨by simp [Ghost.after], rfl, rfl, Or.inl rfl⟩⟩
        fun _ => ?_
      refine follows_issue ⟨rfl, rfl, Or.inr (Or.inr ⟨rfl, rfl, by simp [Ghost.after]⟩)⟩ fun _ => ?_
      exact follows_last ⟨rfl, rfl, by simp [Ghost.after], rfl, by simp [Ghost.after]⟩ fun _ =>
        ⟨by simp [Ghost.after], rfl, rfl, fun _ => Or.inr rfl⟩
    · rename_i hok
      have hok : op.error = .success := by simpa using hok
      refine follows_issue ⟨rfl, Or.inr rfl, rfl, rfl, fun _ => rfl⟩ fun op' => ?_
      refine follows_issue (Or.inr rfl) fun klass => ?_
      -- The end is the same with and without a callback.
      have hanswer : ∀ (status : Int) (called : Bool), Completes (do
          issue (.respond (.end_ (if status = 0 then .success else .errUser) status))
          issue (.unlock id)
          issue (.erase id))
          { Ghost.init (.end_ id) with
            found := some id, locked := true, closed := true, fds := op'.fds
            total := some (op'.filesizes.sum % sizeModulus)
            seen := some op.error, called := called } := by
        intro status called
        refine follows_issue
          ⟨rfl, rfl, rfl, Or.inr ⟨by simp, rfl, rfl, Or.inr (congrArg some hok)⟩⟩ fun _ => ?_
        refine follows_issue ⟨rfl, rfl, by simp [Ghost.after], rfl, by simp [Ghost.after]⟩
          fun _ => ?_
        exact follows_last ⟨rfl, rfl, Or.inr (Or.inr ⟨rfl, rfl, by simp [Ghost.after]⟩)⟩ fun _ =>
          ⟨by simp [Ghost.after], rfl, rfl, fun _ => Or.inr rfl⟩
      unfold callAfter
      cases klass.afterCallback with
      | none => exact hanswer 0 false
      | some callback =>
          exact follows_issue ⟨rfl, rfl, rfl, rfl, congrArg some hok, rfl, rfl, rfl⟩
            fun status => hanswer status true

/-- Every handler follows the discipline. -/
theorem handle_follows (abtio : Bool) (q : Request) : Completes (handle abtio q) (.init q) := by
  cases q with
  | start fileset filesizes theModes => exact migrateStart_follows fileset filesizes theModes
  | mmap id remoteBulk => exact migrateMmap_follows id remoteBulk
  | write id fileNumber writeOffset data =>
      exact migrateWrite_follows abtio id fileNumber writeOffset data
  | end_ id => exact migrateEnd_follows id

/-! ### What the discipline keeps -/

/-- The facts about one handler that every allowed operation keeps. -/
structure Ghost.Valid (g : Ghost) : Prop where
  drawn : g.drawn ≠ none → g.req.kind = .start
  stored : g.stored = true → g.drawn ≠ none ∧ g.mine = []
  target : ∀ id, g.found = some id → g.req.target = some id
  looked : g.total ≠ none → g.found ≠ none
  missed : g.missed = true → g.found = none
  locked : g.locked = true → g.found ≠ none ∧ g.req.kind ≠ .mmap
  closed : g.closed = true → g.req.kind = .end_ ∧ g.found ≠ none
  seen : g.seen ≠ none → g.closed = true
  maps : g.req.kind ≠ .mmap → g.maps = []
  failed : g.failed = true → g.found ≠ none
  erased : g.erased = true → g.found ≠ none ∧ (g.req.kind = .mmap → g.failed = true)
  written : g.written = true → g.req.kind = .write ∧ g.answer = some (.write .success)
  unrecorded : g.unrecorded = true → g.written = true ∧ g.locked = true
  answerStart : ∀ ret status id, g.answer = some (.start ret status id) →
    g.req.kind = .start ∧ g.drawn = some id ∧ (ret = .success ↔ g.stored = true)
  answerMmap : ∀ ret, g.answer = some (.mmap ret) → g.req.kind = .mmap ∧
    (ret = .success → g.found ≠ none ∧ g.erased = false) ∧ (g.failed = false → g.maps = [])
  answerWrite : ∀ ret, g.answer = some (.write ret) → g.req.kind = .write ∧
    (ret = .success → g.found ≠ none ∧ g.erased = false ∧
      (g.locked = true ∨ g.written = true ∧ g.unrecorded = false))
  answerEnd : ∀ ret status, g.answer = some (.end_ ret status) → g.req.kind = .end_ ∧
    ((g.missed = true ∧ ret = .errInvalidOpid) ∨
      (g.found ≠ none ∧ g.closed = true ∧ (g.seen = some ret ∨ g.seen = some .success)))
  refused : ∀ a, g.answer = some a → g.req.kind ≠ .start → g.found = none →
    a.ret = .errInvalidOpid
  error : ∀ a, g.answer = some a → a.ret ≠ .success → g.req.kind = .mmap ∨ g.req.kind = .write →
    g.missed = true ∨ g.erased = true ∨ g.failed = true

theorem Ghost.valid_init (q : Request) : (Ghost.init q).Valid where
  drawn h := absurd rfl h
  looked h := absurd rfl h
  stored h := by cases h
  target _ h := by cases h
  missed h := by cases h
  locked h := by cases h
  closed h := by cases h
  seen h := absurd rfl h
  maps _ := rfl
  failed h := by cases h
  erased h := by cases h
  written h := by cases h
  unrecorded h := by cases h
  answerStart _ _ _ h := by cases h
  answerMmap _ h := by cases h
  answerWrite _ h := by cases h
  answerEnd _ _ h := by cases h
  refused _ h := by cases h
  error _ h := by cases h

/-- The answer of a handler is one to its request. -/
theorem Ghost.Valid.answer_kind {g : Ghost} (hg : g.Valid) {a : Response}
    (ha : g.answer = some a) : g.req.kind = match a with
      | .start _ _ _ => .start
      | .mmap _ => .mmap
      | .write _ => .write
      | .end_ _ _ => .end_ := by
  cases a with
  | start ret status id => exact (hg.answerStart _ _ _ ha).1
  | mmap ret => exact (hg.answerMmap _ ha).1
  | write ret => exact (hg.answerWrite _ ha).1
  | end_ ret status => exact (hg.answerEnd _ _ ha).1

theorem Ghost.Valid.answer_of_start {g : Ghost} (hg : g.Valid) {a : Response}
    (hkind : g.req.kind = .start) (ha : g.answer = some a) :
    ∃ ret status id, a = .start ret status id := by
  have h := hg.answer_kind ha
  rw [hkind] at h
  cases a <;> first | exact ⟨_, _, _, rfl⟩ | cases h

theorem Ghost.Valid.answer_of_mmap {g : Ghost} (hg : g.Valid) {a : Response}
    (hkind : g.req.kind = .mmap) (ha : g.answer = some a) : ∃ ret, a = .mmap ret := by
  have h := hg.answer_kind ha
  rw [hkind] at h
  cases a <;> first | exact ⟨_, rfl⟩ | cases h

theorem Ghost.Valid.after_respond {g : Ghost} (hg : g.Valid) {a : Response}
    (hallow : g.Allows (.respond a)) (r : Unit) : (g.after (.respond a) r).Valid := by
  have hnone : g.answer = none := by cases a <;> exact hallow.2.1
  -- Nothing is written before the answer.
  have hunwritten : ∀ h : g.written = true, False := fun h => by
    have hsome := (hg.written h).2
    rw [hnone] at hsome
    cases hsome
  refine { hg with
    written := fun h => (hunwritten h).elim
    answerStart := ?_, answerMmap := ?_, answerWrite := ?_, answerEnd := ?_
    refused := ?_, error := ?_ }
  · rintro ret status id h
    obtain rfl := Option.some.inj h
    obtain ⟨hkind, -, hdrawn, -, hret⟩ := hallow
    exact ⟨hkind, hdrawn, hret⟩
  · rintro ret h
    obtain rfl := Option.some.inj h
    obtain ⟨hkind, -, hcases⟩ := hallow
    refine ⟨hkind, ?_, ?_⟩
    · rintro rfl
      rcases hcases with ⟨-, hfound, herased, -⟩ | ⟨h, -⟩ | ⟨h, -⟩ | ⟨h, -⟩
      · exact ⟨hfound, herased⟩
      all_goals exact absurd h (by decide)
    · intro hfailed
      rcases hcases with ⟨-, -, -, hmaps⟩ | ⟨-, -, hmaps⟩ | ⟨-, -, -, hmaps⟩ | ⟨-, h, -⟩
      · exact hmaps
      · exact hmaps
      · exact hmaps
      · exact absurd (hfailed.symm.trans h) (by decide)
  · rintro ret h
    obtain rfl := Option.some.inj h
    obtain ⟨hkind, -, hcases⟩ := hallow
    refine ⟨hkind, ?_⟩
    rintro rfl
    rcases hcases with ⟨-, hfound, hlocked, herased⟩ | ⟨h, -⟩ | ⟨h, -⟩
    · exact ⟨hfound, herased, Or.inl hlocked⟩
    all_goals exact absurd h (by decide)
  · rintro ret status h
    obtain rfl := Option.some.inj h
    obtain ⟨hkind, -, -, hmissed | ⟨hfound, -, hclosed, hseen⟩⟩ := hallow
    · exact ⟨hkind, Or.inl hmissed⟩
    · exact ⟨hkind, Or.inr ⟨hfound, hclosed, hseen⟩⟩
  · rintro a' h hkind hfound
    obtain rfl := Option.some.inj h
    cases a with
    | start ret status id => exact absurd hallow.1 hkind
    | mmap ret =>
        rcases hallow.2.2 with ⟨-, h, -⟩ | ⟨h, -⟩ | ⟨-, h, -⟩ | ⟨-, h, -⟩
        · exact absurd hfound h
        · exact h
        -- A handler that has seen a failure has found its record.
        all_goals exact absurd hfound (hg.failed h)
    | write ret =>
        rcases hallow.2.2 with ⟨-, h, -⟩ | ⟨h, -⟩ | ⟨-, h⟩
        · exact absurd hfound h
        · exact h
        · exact absurd hfound (hg.erased h).1
    | end_ ret status =>
        rcases hallow.2.2.2 with ⟨-, h⟩ | ⟨h, -⟩
        · exact h
        · exact absurd hfound h
  · rintro a' h hret hkind
    obtain rfl := Option.some.inj h
    cases a with
    | start ret status id =>
        rcases hkind with hkind | hkind <;> exact absurd (hallow.1.symm.trans hkind) (by decide)
    | mmap ret =>
        rcases hallow.2.2 with ⟨h, -⟩ | ⟨-, h, -⟩ | ⟨-, h, -⟩ | ⟨-, h, -⟩
        · exact absurd h hret
        · exact Or.inl h
        all_goals exact Or.inr (Or.inr h)
    | write ret =>
        rcases hallow.2.2 with ⟨h, -⟩ | ⟨-, h⟩ | ⟨-, h⟩
        · exact absurd h hret
        · exact Or.inl h
        · exact Or.inr (Or.inl h)
    | end_ ret status =>
        rcases hkind with hkind | hkind <;> exact absurd (hallow.1.symm.trans hkind) (by decide)

/-- A call that fails belongs to a record that has been found. -/
theorem Ghost.Valid.orFailed {g : Ghost} (hg : g.Valid) (hfound : g.found ≠ none)
    (failed : Bool) : ({ g with failed := failed || g.failed } : Ghost).Valid :=
  { hg with
    failed := fun _ => hfound
    erased := fun h => ⟨(hg.erased h).1, fun hkind => by simp [(hg.erased h).2 hkind]⟩
    answerMmap := fun ret h => by
      obtain ⟨hkind, hsuccess, hmaps⟩ := hg.answerMmap ret h
      exact ⟨hkind, hsuccess, fun hf => hmaps (Bool.or_eq_false_iff.mp hf).2⟩
    error := fun a h hret hkind => by
      rcases hg.error a h hret hkind with h | h | h
      · exact Or.inl h
      · exact Or.inr (Or.inl h)
      · exact Or.inr (Or.inr (by simp [h])) }

theorem Ghost.Valid.after {g : Ghost} (hg : g.Valid) {o : Op} (hallow : g.Allows o)
    (r : Ans o) : (g.after o r).Valid := by
  cases o with
  | respond a => exact hg.after_respond hallow r
  | newUuid =>
      obtain ⟨hkind, hdrawn⟩ := hallow
      exact { hg with
        drawn := fun _ => hkind
        stored := fun h => absurd hdrawn (hg.stored h).1
        answerStart := fun ret status id h => by
          have h' := (hg.answerStart ret status id h).2.1
          rw [hdrawn] at h'
          cases h' }
  | openTrunc path mode =>
      obtain ⟨-, hstored, -⟩ := hallow
      exact { hg with stored := fun h => absurd (hstored.symm.trans h) (by decide) }
  | close fd =>
      exact { hg with stored := fun h => ⟨(hg.stored h).1, by
        show g.mine.tail = []
        rw [(hg.stored h).2]
        rfl⟩ }
  | insert id op =>
      obtain ⟨-, hdrawn, -, hanswer, -⟩ := hallow
      exact { hg with
        stored := fun _ => ⟨by
          show g.drawn ≠ none
          rw [hdrawn]
          simp, rfl⟩
        answerStart := fun ret status id h => by
          rw [show g.answer = _ from h] at hanswer
          cases hanswer }
  | find id =>
      obtain ⟨htarget, hfound, hclosed, hanswer, -⟩ := hallow
      have hno : ∀ a, g.answer ≠ some a := fun a => by simp [hanswer]
      exact { hg with
        target := fun i h => by
          simp only [Ghost.after] at h
          split at h
          · rwa [← Option.some.inj h]
          · cases h
        missed := fun h => by
          simp only [Ghost.after, Bool.not_eq_true'] at h
          simp [Ghost.after, h]
        looked := fun h => absurd hfound (hg.looked h)
        locked := fun h => absurd hfound (hg.locked h).1
        closed := fun h => absurd (hclosed.symm.trans h) (by decide)
        failed := fun h => absurd hfound (hg.failed h)
        erased := fun h => absurd hfound (hg.erased h).1
        answerMmap := fun _ h => absurd h (hno _)
        answerWrite := fun _ h => absurd h (hno _)
        answerEnd := fun _ _ h => absurd h (hno _)
        refused := fun _ h => absurd h (hno _)
        error := fun _ h => absurd h (hno _) }
  | lock id =>
      obtain ⟨hfound, hkind, -, -, hanswer, -⟩ := hallow
      exact { hg with
        locked := fun _ => ⟨by
          show g.found ≠ none
          rw [hfound]
          simp, hkind⟩
        unrecorded := fun h => ⟨(hg.unrecorded h).1, rfl⟩
        answerWrite := fun ret h => by
          rw [show g.answer = _ from h] at hanswer
          cases hanswer }
  | unlock id =>
      obtain ⟨-, -, -, hunrecorded, hwritten⟩ := hallow
      exact { hg with
        locked := nofun
        unrecorded := fun h => absurd (hunrecorded.symm.trans h) (by decide)
        answerWrite := fun ret h => ⟨(hg.answerWrite ret h).1, fun hret => by
          subst hret
          have hkept := (hg.answerWrite .success h).2 rfl
          exact ⟨hkept.1, hkept.2.1, Or.inr ⟨hwritten h, hunrecorded⟩⟩⟩ }
  | load id =>
      obtain ⟨hfound, -, hanswer, -, hclosed⟩ := hallow
      have hno : ∀ a, g.answer ≠ some a := fun a => by simp [hanswer]
      exact { hg with
        looked := fun _ => by simp [Ghost.after, hfound]
        seen := fun h => by
          simp only [Ghost.after] at h
          split at h
          · rename_i hend
            exact hclosed hend.1
          · exact hg.seen h
        answerEnd := fun _ _ h => absurd h (hno _) }
  | setError id e =>
      obtain ⟨-, -, hlocked, -, -, -, -⟩ := hallow
      exact { hg with
        unrecorded := nofun
        answerWrite := fun ret h => ⟨(hg.answerWrite ret h).1, fun hret =>
          ⟨((hg.answerWrite ret h).2 hret).1, ((hg.answerWrite ret h).2 hret).2.1,
            Or.inl hlocked⟩⟩ }
  | closeFds id =>
      obtain ⟨hfound, hkind, -, -, hanswer, -⟩ := hallow
      have hno : ∀ a, g.answer ≠ some a := fun a => by simp [hanswer]
      exact { hg with
        closed := fun _ => ⟨hkind, by
          show g.found ≠ none
          rw [hfound]
          simp⟩
        seen := fun _ => rfl
        answerEnd := fun _ _ h => absurd h (hno _) }
  | ftruncate id fd size => exact hg.orFailed (by simp [hallow.1]) _
  | mmap id fd size =>
      have hanswer : g.answer = none := hallow.2.2.2.1
      have hkind : g.req.kind = .mmap := hallow.2.1
      have hor := hg.orFailed (by simp [hallow.1]) (decide (r = .null))
      exact { hor with
        maps := fun h => absurd hkind h
        answerMmap := fun ret h => by
          rw [show g.answer = _ from h] at hanswer
          cases hanswer }
  | pull remote segs => exact hg.orFailed hallow.2.2.2.1 _
  | msync a => exact hg.orFailed hallow.2.2.2 _
  | munmap a =>
      exact { hg with
        maps := fun h => absurd hallow.1 h
        answerMmap := fun ret h => by
          obtain ⟨hkind, hsuccess, hmaps⟩ := hg.answerMmap ret h
          refine ⟨hkind, hsuccess, fun hf => ?_⟩
          show g.maps.tail = []
          rw [hmaps hf]
          rfl }
  | erase id =>
      obtain ⟨hfound, -, hcases⟩ := hallow
      have hsome : g.found ≠ none := by simp [hfound]
      refine { hg with erased := fun _ => ⟨hsome, fun hkind => ?_⟩
                       answerMmap := ?_, answerWrite := ?_
                       error := fun _ _ _ _ => Or.inr (Or.inl rfl) }
      · rcases hcases with ⟨h, -⟩ | ⟨-, h, -⟩ | ⟨h, -⟩
        · exact absurd (h.symm.trans hkind) (by decide)
        · exact h
        · exact absurd (h.symm.trans hkind) (by decide)
      · intro ret h
        rcases hcases with ⟨-, -, hnone⟩ | ⟨-, -, hnone⟩ | ⟨hkind, -⟩
        · exact absurd (hnone.symm.trans h) nofun
        · exact absurd (hnone.symm.trans h) nofun
        · exact absurd (hkind.symm.trans (hg.answerMmap ret h).1) (by decide)
      · intro ret h
        rcases hcases with ⟨-, -, hnone⟩ | ⟨-, -, hnone⟩ | ⟨hkind, -⟩
        · exact absurd (hnone.symm.trans h) nofun
        · exact absurd (hnone.symm.trans h) nofun
        · exact absurd (hkind.symm.trans (hg.answerWrite ret h).1) (by decide)
  | pwrite id fd data offset | abtIoPwrite id fd data offset =>
      obtain ⟨-, hkind, hlocked, -, hanswer, -⟩ := hallow
      exact { hg with
        written := fun _ => ⟨hkind, hanswer⟩
        unrecorded := fun _ => ⟨rfl, hlocked⟩
        answerWrite := fun ret h => by
          obtain ⟨hk, hkept⟩ := hg.answerWrite ret h
          exact ⟨hk, fun hret => ⟨(hkept hret).1, (hkept hret).2.1, Or.inl hlocked⟩⟩ }
  | _ => exact { hg with }

end Remi
