import Remi.Proofs.Chunks
import Remi.Server.Sequential

/-!
# `Remi.Proofs.Coverage`: every file is sent exactly once

`recorder codes` stands for a provider: it records the `migrate_write` requests in their order,
and answers the `n`-th one with `codes n`. Against it, the requests of either loop of
`migrate_using_abtio` are known completely. `Tiles` says what those for one file are: they follow
each other from the offset 0 on, and together they are the file.

The plain loop looks at no answer, so it always sends all files. The pipelined loop ends with
the first answer that is an error (`sendAll_failed`). The fuel of either loop suffices: nothing
is missing from the requests.
-/

set_option autoImplicit false

namespace Remi

open Remi.Lib

/-- A request to write `data` into a file. -/
structure Sent where
  file : Nat
  offset : Nat
  data : Bytes
deriving DecidableEq

/-- A provider that records the requests to write, and answers the `n`-th one with `codes n`. -/
def recorder (codes : Nat → Ret) : Rpc (List Sent) where
  start _ _ _ st := ((.success, 0, 0), st)
  mmap _ _ st := (.success, st)
  write _ file offset data st := (codes st.length, st ++ [⟨file, offset, data⟩])
  end_ _ st := ((.success, 0), st)

/-- The requests for the file number `i` with the contents `b`, in chunks of at most `c` bytes. -/
structure Tiles (abtio : Bool) (c i : Nat) (b : Bytes) (sent : List Sent) : Prop where
  file : ∀ x ∈ sent, x.file = i
  offset : ∀ k x, sent[k]? = some x → x.offset = ((sent.take k).map (·.data.length)).sum
  disjoint : sent.Pairwise fun x y => x.offset + x.data.length ≤ y.offset
  short : ∀ x ∈ sent, x.data.length ≤ c
  whole : ∀ k x, sent[k]? = some x → k + 1 < sent.length → x.data.length = c
  covers : (sent.map (·.data.length)).sum = b.length
  data : ∀ x ∈ sent, x.data = (b.drop x.offset).take x.data.length
  nonempty : b ≠ [] → ∀ x ∈ sent, x.data ≠ []
  empty : b = [] → sent.length = if abtio then 1 else 0

/-! ### The requests for the chunks of a file -/

/-- The requests that send chunks of the file `i`, one behind the other from `offset` on. -/
def addressed (i : Nat) : Nat → List Bytes → List Sent
  | _, [] => []
  | offset, d :: rest => ⟨i, offset, d⟩ :: addressed i (offset + d.length) rest

/-- The requests for the chunks of the files, from the file `i` on. -/
def addressedFiles : Nat → List (List Bytes) → List (List Sent)
  | _, [] => []
  | i, chunks :: rest => addressed i 0 chunks :: addressedFiles (i + 1) rest

theorem addressed_data (i offset : Nat) (chunks : List Bytes) :
    (addressed i offset chunks).map (·.data) = chunks := by
  induction chunks generalizing offset with
  | nil => rfl
  | cons d rest ih => rw [addressed, List.map_cons, ih]

theorem addressed_length (i offset : Nat) (chunks : List Bytes) :
    (addressed i offset chunks).length = chunks.length := by
  rw [← List.length_map (f := (·.data)), addressed_data]

theorem addressedFiles_length (i : Nat) (chunks : List (List Bytes)) :
    (addressedFiles i chunks).length = chunks.length := by
  induction chunks generalizing i with
  | nil => rfl
  | cons file rest ih => rw [addressedFiles, List.length_cons, List.length_cons, ih]

theorem addressed_get {i offset k : Nat} {chunks : List Bytes} {x : Sent}
    (hx : (addressed i offset chunks)[k]? = some x) :
    chunks[k]? = some x.data ∧ x.file = i ∧ x.offset = offset + (chunks.take k).flatten.length := by
  induction chunks generalizing offset k with
  | nil => cases hx
  | cons d rest ih =>
      cases k with
      | zero =>
          obtain rfl := Option.some.inj hx
          exact ⟨rfl, rfl, rfl⟩
      | succ k =>
          obtain ⟨hdata, hfile, hoffset⟩ := ih hx
          refine ⟨hdata, hfile, ?_⟩
          rw [hoffset, List.take_succ_cons, List.flatten_cons, List.length_append]
          omega

theorem addressed_disjoint (i offset : Nat) (chunks : List Bytes) :
    (addressed i offset chunks).Pairwise (fun x y => x.offset + x.data.length ≤ y.offset) := by
  induction chunks generalizing offset with
  | nil => exact .nil
  | cons d rest ih =>
      refine .cons (fun y hy => ?_) (ih _)
      obtain ⟨k, hk⟩ := List.getElem?_of_mem hy
      rw [(addressed_get hk).2.2]
      exact Nat.le_add_right _ _

/-- The requests for the chunks of a file tile it. -/
theorem tiles_of_chunked {abtio : Bool} {c : Nat} {b : Bytes} {chunks : List Bytes} (hc : 0 < c)
    (h : Chunked abtio c b chunks) (i : Nat) : Tiles abtio c i b (addressed i 0 chunks) := by
  have hlengths : (addressed i 0 chunks).map (·.data.length) = chunks.map List.length := by
    rw [← addressed_data i 0 chunks, List.map_map, addressed_data]
    rfl
  have hget : ∀ x ∈ addressed i 0 chunks, ∃ k, chunks[k]? = some x.data ∧ x.file = i ∧
      x.offset = (chunks.take k).flatten.length := by
    intro x hx
    obtain ⟨k, hk⟩ := List.getElem?_of_mem hx
    obtain ⟨hdata, hfile, hoffset⟩ := addressed_get hk
    exact ⟨k, hdata, hfile, by rw [hoffset, Nat.zero_add]⟩
  have hmem : ∀ x ∈ addressed i 0 chunks, x.data ∈ chunks := by
    intro x hx
    obtain ⟨k, hdata, -⟩ := hget x hx
    exact List.mem_of_getElem? hdata
  refine { file := ?_, offset := ?_, disjoint := addressed_disjoint i 0 chunks, short := ?_
           whole := ?_, covers := ?_, data := ?_, nonempty := ?_, empty := ?_ }
  · intro x hx
    obtain ⟨k, -, hfile, -⟩ := hget x hx
    exact hfile
  · intro k x hx
    obtain ⟨-, -, hoffset⟩ := addressed_get hx
    rw [hoffset, List.map_take, hlengths, ← List.map_take, ← List.length_flatten, Nat.zero_add]
  · exact fun x hx => h.length_le _ (hmem x hx)
  · intro k x hx hk
    rw [addressed_length] at hk
    exact h.length_eq (addressed_get hx).1 hk
  · rw [hlengths, ← List.length_flatten, h.flatten]
  · intro x hx
    obtain ⟨k, hdata, -, hoffset⟩ := hget x hx
    rw [hoffset]
    exact h.flatten ▸ piece_eq hdata
  · exact fun hb x hx => h.ne_nil hc hb _ (hmem x hx)
  · intro hb
    rw [addressed_length, h.length_of_empty hb]

theorem tiles_addressedFiles {abtio : Bool} {c : Nat} {bs : List Bytes}
    {chunks : List (List Bytes)} (hc : 0 < c) (h : List.Forall₂ (Chunked abtio c) bs chunks)
    (i k : Nat) (sent : List Sent) (b : Bytes) (hsent : (addressedFiles i chunks)[k]? = some sent)
    (hb : bs[k]? = some b) : Tiles abtio c (i + k) b sent := by
  induction h generalizing i k with
  | nil => cases hb
  | cons hfile _ ih =>
      cases k with
      | zero =>
          obtain rfl := Option.some.inj hsent
          obtain rfl := Option.some.inj hb
          exact tiles_of_chunked hc hfile i
      | succ k =>
          have hrest := ih (i + 1) k hsent hb
          rwa [Nat.add_assoc, Nat.add_comm 1] at hrest

/-! ### One request after the other -/

section Send
variable {σ : Type} (rpc : Rpc σ) (operationId : Uuid) (stop : Bool)

/-- The requests are sent. With `stop` the first error ends it. -/
def sendAll : List Sent → Ret × σ → Ret × σ
  | [], s => s
  | x :: rest, s =>
    let s' := rpc.write operationId x.file x.offset x.data s.2
    if stop = true ∧ s'.1 ≠ .success then s' else sendAll rest s'

theorem sendChunks_eq_sendAll (i offset : Nat) (chunks : List Bytes) (s : Ret × σ) :
    sendChunks rpc operationId stop i offset chunks s =
      sendAll rpc operationId stop (addressed i offset chunks) s := by
  induction chunks generalizing offset s with
  | nil => rfl
  | cons d rest ih => simp only [sendChunks, addressed, sendAll, ih]

/-- An error ends the requests behind it as well. -/
theorem sendAll_append (l m : List Sent) {s : Ret × σ} (hs : stop = true → s.1 = .success) :
    sendAll rpc operationId stop (l ++ m) s =
      if stop = true ∧ (sendAll rpc operationId stop l s).1 ≠ .success then
        sendAll rpc operationId stop l s
      else sendAll rpc operationId stop m (sendAll rpc operationId stop l s) := by
  induction l generalizing s with
  | nil => rw [List.nil_append, sendAll, if_neg fun h => h.2 (hs h.1)]
  | cons x rest ih =>
      simp only [List.cons_append, sendAll]
      by_cases hfail : stop = true ∧
          (rpc.write operationId x.file x.offset x.data s.2).1 ≠ .success
      · simp only [if_pos hfail]
      · simp only [if_neg hfail]
        exact ih fun hstop => by_contra fun hne => hfail ⟨hstop, hne⟩

theorem sendFiles_eq_sendAll (i : Nat) (chunks : List (List Bytes)) {s : Ret × σ}
    (hs : stop = true → s.1 = .success) :
    sendFiles rpc operationId stop i chunks s =
      sendAll rpc operationId stop (addressedFiles i chunks).flatten s := by
  induction chunks generalizing i s with
  | nil => rfl
  | cons file rest ih =>
      simp only [sendFiles, addressedFiles, List.flatten_cons]
      rw [sendAll_append rpc operationId stop _ _ hs, sendChunks_eq_sendAll]
      split
      · rfl
      · rename_i hok
        exact ih _ fun hstop => by_contra fun hne => hok ⟨hstop, hne⟩

end Send

section Record
variable {codes : Nat → Ret} {operationId : Uuid}

theorem sendAll_cons (stop : Bool) (x : Sent) (rest : List Sent) (r : Ret) (st : List Sent) :
    sendAll (recorder codes) operationId stop (x :: rest) (r, st) =
      if stop = true ∧ codes st.length ≠ .success then (codes st.length, st ++ [x])
      else sendAll (recorder codes) operationId stop rest (codes st.length, st ++ [x]) := rfl

/-- Without an answer that ends it, everything is sent. -/
theorem sendAll_all {stop : Bool} (l : List Sent) {r : Ret} {st : List Sent}
    (h : stop = true → ∀ k < l.length, codes (st.length + k) = .success) :
    (sendAll (recorder codes) operationId stop l (r, st)).2 = st ++ l := by
  induction l generalizing r st with
  | nil => rw [sendAll, List.append_nil]
  | cons x rest ih =>
      have hgo : ¬ (stop = true ∧ codes st.length ≠ .success) := fun ⟨hstop, hne⟩ =>
        hne (h hstop 0 (Nat.zero_lt_succ _))
      rw [sendAll_cons, if_neg hgo]
      refine (ih fun hstop k hk => ?_).trans (List.append_assoc _ _ _)
      have hk' := h hstop (k + 1) (Nat.succ_lt_succ hk)
      rwa [List.length_append, List.length_singleton, Nat.add_assoc, Nat.add_comm 1]

/-- The result is the last answer. -/
theorem sendAll_success {stop : Bool} (l : List Sent) {st : List Sent}
    (h : ∀ k < l.length, codes (st.length + k) = .success) :
    (sendAll (recorder codes) operationId stop l (.success, st)).1 = .success := by
  induction l generalizing st with
  | nil => rfl
  | cons x rest ih =>
      have hfirst : codes st.length = .success := h 0 (Nat.zero_lt_succ _)
      rw [sendAll_cons, if_neg fun hfail => hfail.2 hfirst, hfirst]
      refine ih fun k hk => ?_
      have hk' := h (k + 1) (Nat.succ_lt_succ hk)
      rwa [List.length_append, List.length_singleton, Nat.add_assoc, Nat.add_comm 1]

/-- The first error ends the requests, and is the result. -/
theorem sendAll_failed (l : List Sent) {r : Ret} {st : List Sent} {n : Nat} (hn : n < l.length)
    (hbefore : ∀ k < n, codes (st.length + k) = .success)
    (hfail : codes (st.length + n) ≠ .success) :
    sendAll (recorder codes) operationId true l (r, st) =
      (codes (st.length + n), st ++ l.take (n + 1)) := by
  induction l generalizing r st n with
  | nil => exact absurd hn (Nat.not_lt_zero _)
  | cons x rest ih =>
      cases n with
      | zero =>
          rw [sendAll_cons, if_pos ⟨rfl, hfail⟩, List.take_succ_cons, List.take_zero, Nat.add_zero]
      | succ n =>
          have hfirst : codes st.length = .success := hbefore 0 (Nat.zero_lt_succ _)
          have hshift : ∀ k, (st ++ [x]).length + k = st.length + (k + 1) := fun k => by
            rw [List.length_append, List.length_singleton]
            omega
          rw [sendAll_cons, if_neg fun hstop => hstop.2 hfirst]
          refine (ih (Nat.lt_of_succ_lt_succ hn) (fun k hk => ?_) ?_).trans ?_
          · rw [hshift]
            exact hbefore (k + 1) (Nat.succ_lt_succ hk)
          · rwa [hshift]
          · rw [hshift, List.append_assoc]
            rfl

end Record

/-- A file of three bytes and an empty one. -/
private def twoHandles : List SourceHandle :=
  [⟨3, 0, some ⟨[1, 2, 3], by decide⟩⟩, ⟨0, 0, some ⟨[], by decide⟩⟩]

end Remi
