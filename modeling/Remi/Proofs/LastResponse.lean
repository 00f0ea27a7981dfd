import Remi.Proofs.Coverage
import Remi.Proofs.Forgotten
import Remi.Proofs.UserCalls
import Remi.Server.Interleaved

/-!
# `Remi.Proofs.LastResponse`: the plain loop keeps only the last answer

The plain loop of `migrate_using_abtio` sends all its chunks and overwrites `ret` with each
answer. The provider makes this sound: behind an error every answer is `errInvalidOpid`
(`Forgotten.lean`), so the last answer is a success only when all of them are. The provider is
one of a `Session`, whose schedule interleaves the client with any other handlers.
-/

set_option autoImplicit false

namespace Remi

open Remi.Lib

/-- What the provider answers to a request, for a log. -/
def Rpc.answers {σ : Type} (rpc : Rpc σ) : Request → σ → List (Kind × Ret)
  | .start fileset theSizes theModes, s => [(.start, (rpc.start fileset theSizes theModes s).1.1)]
  | .mmap id bulk, s => [(.mmap, (rpc.mmap id bulk s).1)]
  | .write id i offset data, s => [(.write, (rpc.write id i offset data s).1)]
  | .end_ id, s => [(.end_, (rpc.end_ id s).1.1)]

/-- Behind an error every answer is `errInvalidOpid`. -/
def StaysFailed (answers : List Ret) : Prop :=
  answers.Pairwise fun a b => a ≠ .success → b = .errInvalidOpid

/-- The last of such answers tells whether all of them are successes. -/
theorem StaysFailed.last_iff {answers : List Ret} (h : StaysFailed answers) :
    answers.getLast?.getD .success = .success ↔ ∀ r ∈ answers, r = .success := by
  cases hlast : answers.getLast? with
  | none =>
      obtain rfl := List.getLast?_eq_none_iff.mp hlast
      simp
  | some last =>
      obtain ⟨before, rfl⟩ := List.getLast?_eq_some_iff.mp hlast
      obtain ⟨-, -, hbefore⟩ := List.pairwise_append.mp h
      show last = .success ↔ _
      constructor
      · intro hok r hr
        rcases List.mem_append.mp hr with hr | hr
        · -- An error before the last answer makes the last one an error.
          by_contra hne
          have hinvalid := hbefore r hr last (List.mem_singleton_self last) hne
          rw [hok] at hinvalid
          cases hinvalid
        · rw [List.mem_singleton.mp hr, hok]
      · intro hall
        exact hall last (by simp)

/-! ### The log of the plain loop -/

section Log
variable {σ : Type} (rpc : Rpc σ) (id : Uuid)

/-- The answers to requests that are all sent. -/
def sentAnswers : List Sent → σ → List Ret
  | [], _ => []
  | x :: rest, s =>
    let s' := rpc.write id x.file x.offset x.data s
    s'.1 :: sentAnswers rest s'.2

/-- The provider after requests that are all sent. -/
def sentState : List Sent → σ → σ
  | [], s => s
  | x :: rest, s => sentState rest (rpc.write id x.file x.offset x.data s).2

/-- The plain loop returns the last answer, and logs all of them. -/
theorem sendAll_logged (l : List Sent) (r : Ret) (log : List (Kind × Ret)) (s : σ) :
    sendAll (rpc.watching rpc.answers) id false l (r, (log, s)) =
      ((sentAnswers rpc id l s).getLast?.getD r,
        (log ++ (sentAnswers rpc id l s).map fun a => (.write, a), sentState rpc id l s)) := by
  induction l generalizing r log s with
  | nil => simp [sendAll, sentAnswers, sentState]
  | cons x rest ih =>
      simp only [sendAll, Bool.false_eq_true, false_and, ↓reduceIte, sentAnswers, sentState]
      have hlogged : (rpc.watching rpc.answers).write id x.file x.offset x.data (log, s) =
          ((rpc.write id x.file x.offset x.data s).1,
            (log ++ [(.write, (rpc.write id x.file x.offset x.data s).1)],
              (rpc.write id x.file x.offset x.data s).2)) := rfl
      rw [hlogged, ih]
      simp [List.getLast?_cons]

/-- The requests of the plain loop. -/
def plainRequests (io : ClientIo) (maxChunkSize : Nat) (opened : List SourceHandle) : List Sent :=
  (addressedFiles 0 (fileChunks io false maxChunkSize opened)).flatten

theorem writeFiles_logged (io : ClientIo) {maxChunkSize : Nat} (hpos : 0 < maxChunkSize)
    (opened : List SourceHandle) (s : σ) :
    writeFiles (rpc.watching rpc.answers) io false id maxChunkSize opened ([], s) =
      ((sentAnswers rpc id (plainRequests io maxChunkSize opened) s).getLast?.getD .success,
        ((sentAnswers rpc id (plainRequests io maxChunkSize opened) s).map fun a => (.write, a),
          sentState rpc id (plainRequests io maxChunkSize opened) s)) := by
  rw [writeFiles_eq _ _ _ _ _ _ hpos, sendFiles_eq_sendAll _ _ _ _ _ fun _ => rfl, sendAll_logged,
    List.nil_append, plainRequests]

variable (restored : Fileset) (opened : List SourceHandle) (status : Int)

/-- The log of the transfer, in which `migrate_end` comes last when the last answer is a
success. -/
theorem sendWrites_logged (io : ClientIo) (s : σ) :
    let answers := sentAnswers rpc id (plainRequests io restored.xferSize.val opened) s
    let after := sentState rpc id (plainRequests io restored.xferSize.val opened) s
    let server :=
      (sendWrites (rpc.watching rpc.answers) io false restored opened status id ([], s)).server
    (answers.getLast?.getD .success = .success → server =
        ((answers.map fun a => (Kind.write, a)) ++ [(.end_, (rpc.end_ id after).1.1)],
          (rpc.end_ id after).2)) ∧
      (answers.getLast?.getD .success ≠ .success →
        server = (answers.map fun a => (.write, a), after)) := by
  dsimp only
  rw [sendWrites, writeFiles_logged rpc id io restored.xferSize.property]
  dsimp only
  constructor
  · intro hok
    rw [if_neg (not_not_intro hok)]
    rfl
  · intro hne
    rw [if_pos hne]

end Log

/-! ### One request of a session -/

section Session
variable {abtio : Bool} {m : Nat} {schedule : Nat → List Step} {id : Uuid} {s s' : Session}

/-- The steps of a request lead from the provider before it to the one behind it. The answer is
one of a handler that was not there before. -/
theorem send_run {q : Request} {answer : Option Response}
    (h : s.send abtio m schedule q = (answer, s')) :
    (∃ ls, System.Reaches abtio System.Any s.system ls s'.system) ∧
      ∀ a, answer = some a → s.system.thread ⟨m, s.sent⟩ = none ∧
        (∃ p, s'.system.thread ⟨m, s.sent⟩ = some ⟨q, p⟩) ∧
        s'.system.shared.responses ⟨m, s.sent⟩ = some a := by
  unfold Session.send at h
  split at h
  · rename_i P hP
    cases h
    refine ⟨⟨_, run_of_follow hP⟩, fun a ha => ?_⟩
    simp only [follow, ↓reduceIte] at hP
    obtain ⟨P', hspawn, hrest⟩ := Option.bind_eq_some_iff.mp hP
    obtain ⟨hnone, rfl⟩ := Pool.next_spawn hspawn
    exact ⟨hnone, run_thread (run_of_follow hrest) ⟨_, Function.update_self _ _ _⟩, ha⟩
  · cases h
    refine ⟨⟨[], .nil⟩, fun a ha => ?_⟩
    cases ha

/-- The id of the loop is a fresh one: `migrate_start` has answered with it. -/
theorem start_answered {fileset : Fileset} {theSizes theModes : List Nat} {v : Int}
    (h : (systemRpc abtio m schedule).start fileset theSizes theModes s = ((.success, v, id), s')) :
    s'.system.Answered id := by
  simp only [systemRpc] at h
  split at h
  · rename_i heq
    cases h
    obtain ⟨-, -, hanswer⟩ := (send_run heq).2 _ rfl
    exact ⟨_, _, _, hanswer⟩
  · cases h

/-- A write that is answered has the answer of its handler. -/
theorem write_run {i offset : Nat} {data : Bytes} {r : Ret}
    (h : (systemRpc abtio m schedule).write id i offset data s = (r, s')) :
    (∃ ls, System.Reaches abtio System.Any s.system ls s'.system) ∧
      (r ≠ .errMercury → s.system.thread ⟨m, s.sent⟩ = none ∧
        (∃ p, s'.system.thread ⟨m, s.sent⟩ = some ⟨.write id i offset data, p⟩) ∧
        s'.system.shared.responses ⟨m, s.sent⟩ = some (.write r)) := by
  simp only [systemRpc] at h
  split at h
  · rename_i heq
    cases h
    obtain ⟨hrun, hanswer⟩ := send_run heq
    exact ⟨hrun, fun _ => hanswer _ rfl⟩
  · rename_i heq
    cases h
    exact ⟨(send_run heq).1, fun hne => absurd rfl hne⟩

theorem end_run {r : Ret × Int} (h : (systemRpc abtio m schedule).end_ id s = (r, s')) :
    ∃ ls, System.Reaches abtio System.Any s.system ls s'.system := by
  simp only [systemRpc] at h
  split at h
  · rename_i heq
    cases h
    exact (send_run heq).1
  · rename_i heq
    cases h
    exact (send_run heq).1

/-- An error of a write leaves no record, and without a record a write is answered so. -/
theorem write_failed {i offset : Nat} {data : Bytes} {r : Ret}
    (hs : GhostInv discipline Owned s.system)
    (h : (systemRpc abtio m schedule).write id i offset data s = (r, s'))
    (hfresh : System.Fresh id s.system s'.system) (hanswered : r ≠ .errMercury) :
    (r ≠ .success → s'.system.shared.opInProgress id = none) ∧
      (s.system.shared.opInProgress id = none →
        r = .errInvalidOpid ∧ s'.system.shared.opInProgress id = none) := by
  obtain ⟨⟨ls, hrun⟩, hanswer⟩ := write_run h
  obtain ⟨hnone, ⟨p, hp⟩, hresponse⟩ := hanswer hanswered
  have hfreshrun := fresh_run hs hrun hfresh
  have hnoInsert := hfreshrun.weaken fun _ _ hC => hC.2
  constructor
  · intro hret
    exact forgotten_of_error hs hnoInsert ⟨_, i, offset, data, p, _, hnone, hp, hresponse, hret⟩
  · intro hgone
    exact ⟨(findsNone_run hfreshrun hgone hnone hp rfl).ret_eq hresponse,
      record_none_run hnoInsert hgone⟩

variable (abtio m schedule id)

theorem sentState_run (l : List Sent) (s : Session) :
    ∃ ls, System.Reaches abtio System.Any s.system ls
      (sentState (systemRpc abtio m schedule) id l s).system := by
  induction l generalizing s with
  | nil => exact ⟨[], .nil⟩
  | cons x rest ih =>
      obtain ⟨⟨ls, hfirst⟩, -⟩ := write_run
        (show (systemRpc abtio m schedule).write id x.file x.offset x.data s = (_, _) from rfl)
      obtain ⟨ls', hrest⟩ := ih ((systemRpc abtio m schedule).write id x.file x.offset x.data s).2
      exact ⟨ls ++ ls', hfirst.append hrest⟩

variable {abtio m schedule id}

/-- Of writes that are all answered, those behind an error are answered `errInvalidOpid`. -/
theorem sentAnswers_staysFailed (l : List Sent) (s : Session)
    (hs : GhostInv discipline Owned s.system)
    (hfresh : System.Fresh id s.system (sentState (systemRpc abtio m schedule) id l s).system)
    (hanswered : ∀ r ∈ sentAnswers (systemRpc abtio m schedule) id l s, r ≠ .errMercury) :
    StaysFailed (sentAnswers (systemRpc abtio m schedule) id l s) ∧
      (s.system.shared.opInProgress id = none →
        ∀ r ∈ sentAnswers (systemRpc abtio m schedule) id l s, r = .errInvalidOpid) := by
  -- The second part carries the induction: without a record all that is left is refused.
  induction l generalizing s with
  | nil => exact ⟨.nil, fun _ r hr => by cases hr⟩
  | cons x rest ih =>
      simp only [sentState, sentAnswers] at hfresh hanswered ⊢
      generalize hwrite : (systemRpc abtio m schedule).write id x.file x.offset x.data s = w
        at hfresh hanswered ⊢
      obtain ⟨r, s'⟩ := w
      obtain ⟨⟨ls, hfirst⟩, -⟩ := write_run hwrite
      obtain ⟨ls', hrest⟩ := sentState_run abtio m schedule id rest s'
      obtain ⟨hfresh', hfreshrest⟩ := fresh_split hs hfirst hrest hfresh
      obtain ⟨herror, hgone⟩ := write_failed hs hwrite hfresh' (hanswered r List.mem_cons_self)
      obtain ⟨hstays, hnone⟩ := ih s' (owned_run hfirst hs) hfreshrest
        fun r' hr' => hanswered r' (List.mem_cons_of_mem r hr')
      refine ⟨.cons (fun r' hr' hne => hnone (herror hne) r' hr') hstays, fun hbefore r' hr' => ?_⟩
      rcases List.mem_cons.mp hr' with rfl | hr'
      · exact (hgone hbefore).1
      · exact hnone (hgone hbefore).2 r' hr'

end Session

/-! ### The last answer -/

/-- What the log of a client says when behind an error all answers are `errInvalidOpid`. `ret` is
the value behind the loop. -/
structure PlainLoopSound (log : List (Kind × Ret)) (ret : Ret) : Prop where
  stays : log.Pairwise fun a b => a.2 ≠ .success → b.2 = .errInvalidOpid
  last : ret = .success ↔ ∀ r, (.write, r) ∈ log → r = .success
  ends : (∃ r, (.end_, r) ∈ log) ↔ ∀ r, (.write, r) ∈ log → r = .success

section Sound
variable {answers : List Ret}

theorem mem_writes {r : Ret} (h : (Kind.write, r) ∈ answers.map fun a => (Kind.write, a)) :
    r ∈ answers := by
  obtain ⟨a, ha, heq⟩ := List.mem_map.mp h
  cases heq
  exact ha

/-- The log without `migrate_end`. -/
theorem StaysFailed.sound (h : StaysFailed answers)
    (hne : answers.getLast?.getD .success ≠ .success) :
    PlainLoopSound (answers.map fun a => (.write, a)) (answers.getLast?.getD .success) := by
  have hsome : ¬ ∀ r, (Kind.write, r) ∈ answers.map (fun a => (Kind.write, a)) → r = .success :=
    fun hall => hne (h.last_iff.mpr fun r hr => hall r (List.mem_map_of_mem hr))
  refine ⟨List.pairwise_map.mpr h, ⟨fun hok => absurd hok hne, fun hall => absurd hall hsome⟩, ?_⟩
  refine ⟨fun hend => ?_, fun hall => absurd hall hsome⟩
  obtain ⟨r, hr⟩ := hend
  obtain ⟨a, -, heq⟩ := List.mem_map.mp hr
  cases heq

/-- The log with `migrate_end`. -/
theorem StaysFailed.sound_end (h : StaysFailed answers)
    (hok : answers.getLast?.getD .success = .success) (r : Ret) :
    PlainLoopSound ((answers.map fun a => (.write, a)) ++ [(.end_, r)])
      (answers.getLast?.getD .success) := by
  have hsuccess := h.last_iff.mp hok
  have hall : ∀ r', (Kind.write, r') ∈ (answers.map fun a => (Kind.write, a)) ++ [(.end_, r)] →
      r' = .success := by
    intro r' hr'
    rcases List.mem_append.mp hr' with hr' | hr'
    · exact hsuccess r' (mem_writes hr')
    · cases List.mem_singleton.mp hr'
  refine ⟨?_, ⟨fun _ => hall, fun _ => hok⟩, ⟨fun _ => hall, fun _ => ⟨r, by simp⟩⟩⟩
  refine List.pairwise_append.mpr ⟨List.pairwise_map.mpr h, List.pairwise_singleton _ _, ?_⟩
  intro x hx _ _ hne
  obtain ⟨a, ha, rfl⟩ := List.mem_map.mp hx
  exact absurd (hsuccess a ha) hne

end Sound

/-- Keeping only the last answer is sound in the plain loop.

Once a write of `id` has been answered with an error, every handler that comes in later for the
id answers `errInvalidOpid`, in every run. The id is a fresh one.

A client that is scheduled with any other handlers, and whose writes are all answered, has an
error in `ret` behind the loop unless all its writes have been answered with success, and sends
`migrate_end` in that case only. -/
theorem last_response_sound (abtio : Bool) (classes : ClassKey → Option MigrationClass) (fs : Fs)
    (id : Uuid) {ls : List Step} {P₁ : System}
    (h₁ : System.Reaches abtio System.Any (.init classes fs) ls P₁) :
    (∀ ls₂ P₂ ls₃ P₃, System.Reaches abtio System.Any P₁ ls₂ P₂ →
      System.Reaches abtio System.Any P₂ ls₃ P₃ → System.Fresh id P₁ P₃ →
      System.Refused id P₁ P₂ →
      ∀ t q rest, P₂.thread t = none → P₃.thread t = some ⟨q, rest⟩ → q.target = some id →
        (∀ a, P₃.shared.responses t = some a → a.ret = .errInvalidOpid) ∧
          P₃.AnswersInvalid abtio t) ∧
    ∀ (m n : Nat) (schedule : Nat → List Step) (io : ClientIo) (restored : Fileset)
      (opened : List SourceHandle) (status : Int),
      let rpc := systemRpc abtio m schedule
      let logged := rpc.watching rpc.answers
      let migrated := sendWrites logged io false restored opened status id ([], ⟨P₁, n⟩)
      let log := migrated.server.1
      System.Fresh id P₁ migrated.server.2.system →
      (∀ r, (.write, r) ∈ log → r ≠ .errMercury) →
      PlainLoopSound log
        (writeFiles logged io false id restored.xferSize.val opened ([], ⟨P₁, n⟩)).1 := by
  have howned₁ : GhostInv discipline Owned P₁ :=
    owned_run h₁ (ghostInv_of_empty (fun _ => rfl) (owned_init classes fs))
  constructor
  · -- The record is gone when the error is there, and nobody puts one back.
    intro ls₂ P₂ ls₃ P₃ h₂ h₃ hfresh hrefused t q rest hnone ht htarget
    obtain ⟨hfresh₂, hfresh₃⟩ := fresh_split howned₁ h₂ h₃ hfresh
    have hgone₂ := forgotten_of_error howned₁ ((fresh_run howned₁ h₂ hfresh₂).weaken
      fun _ _ hC => hC.2) hrefused
    have hrun₃ := fresh_run (owned_run h₂ howned₁) h₃ hfresh₃
    have hgone₃ := record_none_run (hrun₃.weaken fun _ _ hC => hC.2) hgone₂
    have hlost := findsNone_run hrun₃ hgone₂ hnone ht htarget
    exact ⟨fun a ha => hlost.ret_eq ha, findsNone_answers hgone₃ ht htarget hlost⟩
  · intro m n schedule io restored opened status
    dsimp only
    intro hfresh hanswered
    obtain ⟨hends, hfails⟩ := sendWrites_logged (systemRpc abtio m schedule) id restored opened
      status io ⟨P₁, n⟩
    obtain ⟨ls₂, hwrites⟩ := sentState_run abtio m schedule id
      (plainRequests io restored.xferSize.val opened) ⟨P₁, n⟩
    rw [writeFiles_logged _ id io restored.xferSize.property]
    -- The value of `ret` is the last answer, and decides about `migrate_end`.
    by_cases hok : (sentAnswers (systemRpc abtio m schedule) id
        (plainRequests io restored.xferSize.val opened) ⟨P₁, n⟩).getLast?.getD .success = .success
    · -- The run goes on with `migrate_end`.
      rw [hends hok] at hfresh hanswered ⊢
      obtain ⟨ls₃, hend⟩ := end_run
        (show (systemRpc abtio m schedule).end_ id (sentState (systemRpc abtio m schedule) id
          (plainRequests io restored.xferSize.val opened) ⟨P₁, n⟩) = (_, _) from rfl)
      obtain ⟨hstays, -⟩ := sentAnswers_staysFailed _ ⟨P₁, n⟩ howned₁
        (fresh_split howned₁ hwrites hend hfresh).1 fun r hr =>
          hanswered r (List.mem_append_left _ (List.mem_map_of_mem hr))
      exact hstays.sound_end hok _
    · -- The run ends with the writes.
      rw [hfails hok] at hfresh hanswered ⊢
      obtain ⟨hstays, -⟩ := sentAnswers_staysFailed _ ⟨P₁, n⟩ howned₁ hfresh fun r hr =>
        hanswered r (List.mem_map_of_mem hr)
      exact hstays.sound hok

/-! ### A file that has grown -/

theorem threeBytes_small : ([1, 2, 3] : Bytes).length < offsetBound := by decide

/-- A file of three bytes. -/
private def threeBytes : SourceHandle := ⟨3, 0, some ⟨[1, 2, 3], threeBytes_small⟩⟩

/-- The steps of the handler `t`, alone. -/
private def alone (t : Tid) (n : Nat) : List Step := List.replicate n (.step t (.succeed 1))

/-- A migration of one file is started, with one byte as its size. -/
private def startOneByte : List Step :=
  .spawn ⟨0, 0⟩ (.start oneFile [1] [0]) :: alone ⟨0, 0⟩ 10

/-- A chunk behind that byte is refused. -/
private def writeBehind : List Step := .spawn ⟨0, 1⟩ (.write 1 0 1 [2]) :: alone ⟨0, 1⟩ 7

/-- The end of the migration comes too late. -/
private def lateEnd : List Step := .spawn ⟨0, 2⟩ (.end_ 1) :: alone ⟨0, 2⟩ 2

/-- The writes of the client run one by one. The last one finds no record. -/
private def oneByOne (n : Nat) : List Step := alone ⟨0, n⟩ (if n = 3 then 2 else 7)

/-- The client sends three bytes to a provider that expects one. -/
private def grownLog (P : System) : List (Kind × Ret) :=
  (sendWrites ((systemRpc false 0 oneByOne).watching (systemRpc false 0 oneByOne).answers) .succeed
    false byteByByte [threeBytes] 0 1 ([], ⟨P, 1⟩)).server.1

/-- The log of that client in `P₁`, and the answers after the two requests that follow `P₁`. -/
private theorem grown_run : (follow (System.next false) System.Any startOneByte
    (.init acceptAll .empty)).any (fun P₁ =>
      P₁.shared.responses ⟨0, 0⟩ = some (.start .success 0 1) ∧ (P₁.thread ⟨0, 1⟩).isNone ∧
      grownLog P₁ = [(.write, .success), (.write, .errIo), (.write, .errInvalidOpid)] ∧
      (follow (System.next false) System.Any writeBehind P₁).any fun P₂ =>
        P₂.shared.responses ⟨0, 1⟩ = some (.write .errIo) ∧
        (P₂.thread ⟨0, 1⟩).map (·.req) = some (.write 1 0 1 [2]) ∧ (P₂.thread ⟨0, 2⟩).isNone ∧
        (follow (System.next false) System.Any lateEnd P₂).any fun P₃ =>
          P₃.shared.responses ⟨0, 2⟩ = some (.end_ .errInvalidOpid 0) ∧
          (P₃.thread ⟨0, 2⟩).map (·.req) = some (.end_ 1)) = true := by decide +kernel

theorem last_response_grown : ∃ P₁ P₂ P₃ : System,
    System.Reaches false System.Any (.init acceptAll .empty) startOneByte P₁ ∧
      System.Reaches false System.Any P₁ writeBehind P₂ ∧ System.Refused 1 P₁ P₂ ∧
      System.Reaches false System.Any P₂ lateEnd P₃ ∧ P₃.AnswersInvalid false ⟨0, 2⟩ ∧
      P₃.shared.responses ⟨0, 2⟩ = some (.end_ .errInvalidOpid 0) ∧
      grownLog P₁ = [(.write, .success), (.write, .errIo), (.write, .errInvalidOpid)] ∧
      PlainLoopSound (grownLog P₁) (writeFiles ((systemRpc false 0 oneByOne).watching
        (systemRpc false 0 oneByOne).answers) .succeed false 1 1 [threeBytes] ([], ⟨P₁, 1⟩)).1 := by
  obtain ⟨P₁, h₁, hP₁⟩ := (Option.any_eq_true _ _).mp grown_run
  obtain ⟨hstart, hfree₁, hlog, hnext⟩ := of_decide_eq_true hP₁
  obtain ⟨P₂, h₂, hP₂⟩ := (Option.any_eq_true _ _).mp hnext
  obtain ⟨hwrite, hreq₂, hfree₂, hnext⟩ := of_decide_eq_true hP₂
  obtain ⟨P₃, h₃, hP₃⟩ := (Option.any_eq_true _ _).mp hnext
  obtain ⟨hend, hreq₃⟩ := of_decide_eq_true hP₃
  obtain ⟨⟨_, rest₂⟩, ht₂, rfl⟩ := Option.map_eq_some_iff.mp hreq₂
  obtain ⟨⟨_, rest₃⟩, ht₃, rfl⟩ := Option.map_eq_some_iff.mp hreq₃
  have hanswered : P₁.Answered 1 := ⟨⟨0, 0⟩, _, _, hstart⟩
  have hrefused : System.Refused 1 P₁ P₂ :=
    ⟨⟨0, 1⟩, 0, 1, [2], rest₂, _, Option.isNone_iff_eq_none.mp hfree₁, ht₂, hwrite, by decide⟩
  obtain ⟨hserver, hclient⟩ := last_response_sound false acceptAll .empty 1 (run_of_follow h₁)
  obtain ⟨-, hinvalid⟩ := hserver _ P₂ _ P₃ (run_of_follow h₂) (run_of_follow h₃)
    (Or.inl hanswered) hrefused ⟨0, 2⟩ _ rest₃ (Option.isNone_iff_eq_none.mp hfree₂) ht₃ rfl
  have hsound := hclient 0 1 oneByOne .succeed byteByByte [threeBytes] 0 (Or.inl hanswered) ?_
  · exact ⟨P₁, P₂, P₃, run_of_follow h₁, run_of_follow h₂, hrefused, run_of_follow h₃, hinvalid,
      hend, hlog, hsound⟩
  · intro r hr
    change (Kind.write, r) ∈ grownLog P₁ at hr
    rw [hlog] at hr
    have hmem : r = .success ∨ r = .errIo ∨ r = .errInvalidOpid := by simpa using hr
    rcases hmem with rfl | rfl | rfl <;> decide

end Remi
