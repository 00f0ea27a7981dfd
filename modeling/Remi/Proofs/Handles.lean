import Remi.Client.Handles
import Remi.Lib.Threads

/-!
# `Remi.Proofs.Handles`: no object is used after it has been deleted

Two counters of references, one above the other. `m_ref_count` counts the variables that own a
reference to a handle, and `m_num_providers` the handles that refer to a client. `Callers.Sound`
says that both counters are right, that a handle lives as long as a variable owns it, and that the
client of a handle is there with its engine.

`careful_step` is the step lemma: a careful call uses no object that has been deleted, and keeps
`Sound`. `handles_sound` says it of whole runs. `finalize_safe_iff` says what the careful time to
finalize a client is: exactly when `m_num_providers` is 0.
-/

set_option autoImplicit false

namespace Remi

open Remi.Lib

/-! ### The parts of the invariant -/

/-- The handles and their clients. -/
structure ClientHeap.Counted (s : ClientHeap) : Prop where
  fin : FinSupp s.clientOf
  count : ∀ c o, s.client c = some o → o.numProviders.toNat = fanIn s.clientOf c
  live : ∀ h o, s.handle h = some o → ∃ c, o.client = some c ∧ s.client c ≠ none

/-- Each client has an engine of its own, and no engine is left over. -/
structure ClientHeap.Equipped (s : ClientHeap) : Prop where
  engine : ∀ c o, s.client c = some o → s.engine o.engine = some o.mid
  client : ∀ e, s.engine e ≠ none → ∃ c o, s.client c = some o ∧ o.engine = e
  own : ∀ c c' o o', s.client c = some o → s.client c' = some o' → o.engine = o'.engine → c = c'

/-- The variables and the handles they own. -/
structure Callers.Referenced (s : Callers) : Prop where
  fin : FinSupp s.vars
  count : ∀ h o, s.heap.handle h = some o → o.refCount.toNat = fanIn s.vars h
  owned : ∀ h, s.heap.handle h ≠ none ↔ ∃ x, s.vars x = some h

structure Callers.Sound (s : Callers) : Prop where
  counted : s.heap.Counted
  equipped : s.heap.Equipped
  referenced : s.Referenced

theorem Callers.sound_init : Callers.init.Sound where
  counted := by
    refine ⟨finSupp_none, ?_, ?_⟩
    · intro c o h
      cases h
    · intro h o hh
      cases hh
  equipped := by
    refine ⟨?_, ?_, ?_⟩
    · intro c o h
      cases h
    · intro e h
      exact absurd rfl h
    · intro c c' o o' h
      cases h
  referenced := by
    refine ⟨finSupp_none, ?_, ?_⟩
    · intro h o hh
      cases hh
    · intro h
      constructor
      · intro hh
        exact absurd rfl hh
      · rintro ⟨x, hx⟩
        cases hx

/-! ### Counters in 64 bits -/

theorem toNat_add_one {a : UInt64} (h : a.toNat + 1 < 2 ^ 64) : (a + 1).toNat = a.toNat + 1 := by
  rw [UInt64.toNat_add, show (1 : UInt64).toNat = 1 from rfl, Nat.mod_eq_of_lt h]

theorem toNat_sub_one {a : UInt64} (h : 0 < a.toNat) : (a - 1).toNat = a.toNat - 1 := by
  rw [UInt64.toNat_sub_of_le]
  · rfl
  · show (1 : UInt64).toNat ≤ a.toNat
    exact h

theorem sub_one_eq_zero {a : UInt64} (h : 0 < a.toNat) : a - 1 = 0 ↔ a.toNat = 1 := by
  rw [← UInt64.toNat_inj, toNat_sub_one h]
  show a.toNat - 1 = 0 ↔ a.toNat = 1
  omega

/-! ### Updates of the heap -/

namespace ClientHeap
variable {s : ClientHeap} {c e h : Address}

theorem clientOf_setHandle (s : ClientHeap) (h : Address) (o : Option HandleObject) :
    (s.setHandle h o).clientOf = Function.update s.clientOf h (o.bind (·.client)) := by
  funext x
  by_cases hx : x = h
  · subst hx
    simp [clientOf, setHandle]
  · simp [clientOf, setHandle, Function.update_of_ne hx]

@[simp] theorem clientOf_setClient (s : ClientHeap) (c : Address) (o : Option RemiClient) :
    (s.setClient c o).clientOf = s.clientOf := rfl

@[simp] theorem clientOf_setEngine (s : ClientHeap) (e : Address) (o : Option Nat) :
    (s.setEngine e o).clientOf = s.clientOf := rfl

theorem clientOf_eq_some {h c : Address} :
    s.clientOf h = some c ↔ ∃ o, s.handle h = some o ∧ o.client = some c := by
  simp [clientOf, Option.bind_eq_some_iff]

/-- No handle refers to an address without a client. -/
theorem Counted.fanIn_eq_zero (hs : s.Counted) (hc : s.client c = none) :
    fanIn s.clientOf c = 0 := by
  refine hs.fin.fanIn_eq_zero.mpr fun h hh => ?_
  obtain ⟨o, ho, hoc⟩ := clientOf_eq_some.mp hh
  obtain ⟨c', hc', hlive⟩ := hs.live h o ho
  rw [hoc] at hc'
  cases hc'
  exact hlive hc

/-- A new client. -/
theorem Counted.newClient (hs : s.Counted) (hc : s.client c = none) (e : Address) (m : Option Nat)
    (o : RemiClient) (ho : o.numProviders = 0) :
    ((s.setEngine e m).setClient c (some o)).Counted := by
  refine ⟨hs.fin, fun c' o' h' => ?_, fun h' o' h'' => ?_⟩
  · show o'.numProviders.toNat = fanIn s.clientOf c'
    by_cases hcc : c' = c
    · subst hcc
      simp only [setClient, Function.update_self, Option.some.injEq] at h'
      rw [← h', ho, hs.fanIn_eq_zero hc]
      rfl
    · simp only [setClient, Function.update_of_ne hcc] at h'
      exact hs.count c' o' h'
  · obtain ⟨c', hc', hlive⟩ := hs.live h' o' h''
    refine ⟨c', hc', ?_⟩
    by_cases hcc : c' = c
    · subst hcc
      simp [setClient]
    · rwa [show ((s.setEngine e m).setClient c (some o)).client c' = s.client c' from
        Function.update_of_ne hcc _ _]

/-- A client without handles is deleted, with its engine. -/
theorem Counted.dropClient (hs : s.Counted) (hc : fanIn s.clientOf c = 0) (e : Address) :
    ((s.setEngine e none).setClient c none).Counted := by
  refine ⟨hs.fin, fun c' o' h' => ?_, fun h' o' h'' => ?_⟩
  · by_cases hcc : c' = c
    · subst hcc
      simp [setClient] at h'
    · simp only [setClient, Function.update_of_ne hcc] at h'
      exact hs.count c' o' h'
  · obtain ⟨c', hc', hlive⟩ := hs.live h' o' h''
    refine ⟨c', hc', ?_⟩
    have hcc : c' ≠ c := by
      rintro rfl
      exact hs.fin.fanIn_eq_zero.mp hc h' (clientOf_eq_some.mpr ⟨o', h'', hc'⟩)
    rwa [show ((s.setEngine e none).setClient c none).client c' = s.client c' from
      Function.update_of_ne hcc _ _]

/-- A client is changed, and perhaps a handle: the counter follows the handles. -/
theorem Counted.change (hs : s.Counted) {o o' : RemiClient} (hc : s.client c = some o)
    {h : Address} (ho : Option HandleObject)
    (hclient : ∀ x ∈ ho, ∃ c', x.client = some c' ∧ s.client c' ≠ none)
    (hcount : o'.numProviders.toNat = fanIn (s.setHandle h ho).clientOf c)
    (hother : ∀ c' ≠ c, fanIn (s.setHandle h ho).clientOf c' = fanIn s.clientOf c') :
    ((s.setHandle h ho).setClient c (some o')).Counted := by
  refine ⟨?_, fun c' o'' h' => ?_, fun h' o'' h'' => ?_⟩
  · rw [clientOf_setClient, clientOf_setHandle]
    exact hs.fin.update h _
  · rw [clientOf_setClient]
    by_cases hcc : c' = c
    · subst hcc
      simp only [setClient, Function.update_self, Option.some.injEq] at h'
      rw [← h', hcount]
    · simp only [setClient, Function.update_of_ne hcc] at h'
      rw [hother c' hcc]
      exact hs.count c' o'' h'
  · have hlive : ∃ c', o''.client = some c' ∧ s.client c' ≠ none := by
      by_cases hh : h' = h
      · subst hh
        refine hclient o'' ?_
        simpa [setHandle, setClient] using h''
      · refine hs.live h' o'' ?_
        simpa [setHandle, setClient, Function.update_of_ne hh] using h''
    obtain ⟨c', hc', hne⟩ := hlive
    refine ⟨c', hc', ?_⟩
    by_cases hcc : c' = c
    · subst hcc
      simp [setClient]
    · rwa [show ((s.setHandle h ho).setClient c (some o')).client c' = s.client c' from
        Function.update_of_ne hcc _ _]

/-- A handle is changed and keeps its client. -/
theorem Counted.setHandle (hs : s.Counted) {o o' : HandleObject} (hh : s.handle h = some o)
    (hclient : o'.client = o.client) : (s.setHandle h (some o')).Counted := by
  have hsame : (s.setHandle h (some o')).clientOf = s.clientOf := by
    rw [clientOf_setHandle]
    show Function.update s.clientOf h o'.client = s.clientOf
    rw [hclient, show o.client = s.clientOf h by simp [clientOf, hh], Function.update_eq_self]
  refine ⟨hsame ▸ hs.fin, fun c' o'' h' => hsame ▸ hs.count c' o'' h', fun h' o'' h'' => ?_⟩
  by_cases hhh : h' = h
  · subst hhh
    simp only [ClientHeap.setHandle, Function.update_self, Option.some.injEq] at h''
    rw [← h'', hclient]
    exact hs.live h' o hh
  · simp only [ClientHeap.setHandle, Function.update_of_ne hhh] at h''
    exact hs.live h' o'' h''

/-- A new client gets a new engine. -/
theorem Equipped.newClient (hs : s.Equipped) (he : s.engine e = none) (hc : s.client c = none)
    (o : RemiClient) (ho : o.engine = e) :
    ((s.setEngine e (some o.mid)).setClient c (some o)).Equipped := by
  have hother : ∀ c' o', c' ≠ c → s.client c' = some o' → o'.engine ≠ e := by
    intro c' o' _ h' hee
    have hmade := hs.engine c' o' h'
    rw [hee, he] at hmade
    cases hmade
  refine ⟨fun c' o' h' => ?_, fun e' h' => ?_, fun c₁ c₂ o₁ o₂ h₁ h₂ hee => ?_⟩
  · by_cases hcc : c' = c
    · subst hcc
      simp only [setClient, Function.update_self, Option.some.injEq] at h'
      simp [setClient, setEngine, ← h', ho]
    · simp only [setClient, Function.update_of_ne hcc] at h'
      have hne := hother c' o' hcc h'
      simp only [setClient, setEngine, Function.update_of_ne hne]
      exact hs.engine c' o' h'
  · by_cases hee : e' = e
    · exact ⟨c, o, by simp [setClient], ho.trans hee.symm⟩
    · simp only [setClient, setEngine, Function.update_of_ne hee] at h'
      obtain ⟨c', o', hc', ho'⟩ := hs.client e' h'
      have hcc : c' ≠ c := by
        rintro rfl
        rw [hc] at hc'
        cases hc'
      exact ⟨c', o', by simpa [setClient, setEngine, Function.update_of_ne hcc] using hc', ho'⟩
  · by_cases hc₁ : c₁ = c <;> by_cases hc₂ : c₂ = c
    · exact hc₁.trans hc₂.symm
    · subst hc₁
      simp only [setClient, Function.update_self, Option.some.injEq,
        Function.update_of_ne hc₂] at h₁ h₂
      exact absurd (hee.symm.trans (h₁ ▸ ho)) (hother c₂ o₂ hc₂ h₂)
    · subst hc₂
      simp only [setClient, Function.update_self, Option.some.injEq,
        Function.update_of_ne hc₁] at h₁ h₂
      exact absurd (hee.trans (h₂ ▸ ho)) (hother c₁ o₁ hc₁ h₁)
    · simp only [setClient, Function.update_of_ne hc₁, Function.update_of_ne hc₂] at h₁ h₂
      exact hs.own c₁ c₂ o₁ o₂ h₁ h₂ hee

/-- A client is deleted with its engine. -/
theorem Equipped.dropClient (hs : s.Equipped) {o : RemiClient} (hc : s.client c = some o) :
    ((s.setEngine o.engine none).setClient c none).Equipped := by
  refine ⟨fun c' o' h' => ?_, fun e' h' => ?_, fun c₁ c₂ o₁ o₂ h₁ h₂ hee => ?_⟩
  · by_cases hcc : c' = c
    · subst hcc
      simp [setClient] at h'
    · simp only [setClient, Function.update_of_ne hcc] at h'
      have hne : o'.engine ≠ o.engine := fun hee => hcc (hs.own c' c o' o h' hc hee)
      simp only [setClient, setEngine, Function.update_of_ne hne]
      exact hs.engine c' o' h'
  · have hee : e' ≠ o.engine := by
      rintro rfl
      simp [setClient, setEngine] at h'
    simp only [setClient, setEngine, Function.update_of_ne hee] at h'
    obtain ⟨c', o', hc', ho'⟩ := hs.client e' h'
    have hcc : c' ≠ c := by
      rintro rfl
      rw [hc] at hc'
      cases hc'
      exact hee ho'.symm
    exact ⟨c', o', by simpa [setClient, setEngine, Function.update_of_ne hcc] using hc', ho'⟩
  · have hne : ∀ c' o', ((s.setEngine o.engine none).setClient c none).client c' = some o' →
        s.client c' = some o' := by
      intro c' o' h'
      by_cases hcc : c' = c
      · subst hcc
        simp [setClient] at h'
      · simpa [setClient, setEngine, Function.update_of_ne hcc] using h'
    exact hs.own c₁ c₂ o₁ o₂ (hne c₁ o₁ h₁) (hne c₂ o₂ h₂) hee

/-- A client is changed and keeps its engine. -/
theorem Equipped.change (hs : s.Equipped) {o : RemiClient} (hc : s.client c = some o)
    (o' : RemiClient) (hmid : o'.mid = o.mid) (he : o'.engine = o.engine) :
    (s.setClient c (some o')).Equipped := by
  have hback : ∀ c₁ o₁, (s.setClient c (some o')).client c₁ = some o₁ →
      ∃ o₂, s.client c₁ = some o₂ ∧ o₁.mid = o₂.mid ∧ o₁.engine = o₂.engine := by
    intro c₁ o₁ h₁
    by_cases hcc : c₁ = c
    · subst hcc
      simp only [setClient, Function.update_self, Option.some.injEq] at h₁
      exact ⟨o, hc, h₁ ▸ hmid, h₁ ▸ he⟩
    · simp only [setClient, Function.update_of_ne hcc] at h₁
      exact ⟨o₁, h₁, rfl, rfl⟩
  refine ⟨fun c₁ o₁ h₁ => ?_, fun e h => ?_, fun c₁ c₂ o₁ o₂ h₁ h₂ hee => ?_⟩
  · obtain ⟨o₂, h₂, hm, hee⟩ := hback c₁ o₁ h₁
    rw [hm, hee]
    exact hs.engine c₁ o₂ h₂
  · obtain ⟨c₁, o₁, h₁, hee⟩ := hs.client e h
    by_cases hcc : c₁ = c
    · subst hcc
      rw [hc] at h₁
      cases h₁
      exact ⟨c₁, o', by simp [setClient], he.trans hee⟩
    · exact ⟨c₁, o₁, by simpa [setClient, Function.update_of_ne hcc] using h₁, hee⟩
  · obtain ⟨o₁', h₁', -, he₁⟩ := hback c₁ o₁ h₁
    obtain ⟨o₂', h₂', -, he₂⟩ := hback c₂ o₂ h₂
    exact hs.own c₁ c₂ o₁' o₂' h₁' h₂' (he₁.symm.trans (hee.trans he₂))

end ClientHeap

/-- The handle at `h` is changed together with a variable that refers to no other handle. -/
theorem Callers.Referenced.change {s : Callers} (hs : s.Referenced) {heap : ClientHeap}
    {h : Address} {ho : Option HandleObject} {x : Var} {r : Option Address}
    (hheap : heap.handle = Function.update s.heap.handle h ho)
    (hx : ∀ h', h' ≠ h → s.vars x ≠ some h' ∧ r ≠ some h')
    (hcount : ∀ o ∈ ho, o.refCount.toNat = fanIn (Function.update s.vars x r) h)
    (howned : ho ≠ none ↔ 0 < fanIn (Function.update s.vars x r) h) :
    Callers.Referenced ⟨heap, Function.update s.vars x r⟩ := by
  refine ⟨hs.fin.update x r, fun h' o h'' => ?_, fun h' => ?_⟩
  · by_cases hh : h' = h
    · subst hh
      simp only [hheap, Function.update_self] at h''
      exact hcount o h''
    · simp only [hheap, Function.update_of_ne hh] at h''
      rw [hs.count h' o h'']
      exact (fanIn_update_of_ne (hx h' hh).1 (hx h' hh).2).symm
  · rw [← (hs.fin.update x r).fanIn_pos]
    by_cases hh : h' = h
    · subst hh
      simp only [hheap, Function.update_self]
      exact howned
    · simp only [hheap, Function.update_of_ne hh]
      rw [fanIn_update_of_ne (hx h' hh).1 (hx h' hh).2, hs.fin.fanIn_pos]
      exact hs.owned h'

/-! ### One call -/

namespace Callers
variable {s : Callers}

theorem Sound.clientInit (hs : s.Sound) {e c : Address} (he : s.heap.engine e = none)
    (hc : s.heap.client c = none) (mid : Nat) (abtio : Option Nat) :
    Callers.Sound { s with heap := (remiClientInit s.heap e c mid abtio).2 } where
  counted := hs.counted.newClient hc e (some mid) _ rfl
  equipped := hs.equipped.newClient he hc ⟨mid, e, 0, abtio⟩ rfl
  referenced := ⟨hs.referenced.fin, hs.referenced.count, hs.referenced.owned⟩

/-- The finalization finds the client and its engine. -/
theorem Sound.finalize_eq (hs : s.Sound) {c : Address} {o : RemiClient}
    (hc : s.heap.client c = some o) :
    s.next (.clientFinalize (some c)) =
      some { s with heap := (s.heap.setEngine o.engine none).setClient c none } := by
  have he := hs.equipped.engine c o hc
  simp [next, remiClientFinalize, hc, he]

theorem Sound.clientFinalize (hs : s.Sound) {c : Address} {o : RemiClient}
    (hc : s.heap.client c = some o) (ho : o.numProviders = 0) :
    Callers.Sound { s with heap := (s.heap.setEngine o.engine none).setClient c none } where
  counted := by
    refine hs.counted.dropClient ?_ o.engine
    rw [← hs.counted.count c o hc, ho]
    rfl
  equipped := hs.equipped.dropClient hc
  referenced := ⟨hs.referenced.fin, hs.referenced.count, hs.referenced.owned⟩

theorem Sound.setAbtIoInstance (hs : s.Sound) {c : Address} {o : RemiClient}
    (hc : s.heap.client c = some o) (abtio : Option Nat) :
    Callers.Sound { s with heap := s.heap.setClient c (some { o with abtio }) } where
  counted := by
    refine ⟨hs.counted.fin, fun c' o' h' => ?_, fun h' o' h'' => ?_⟩
    · by_cases hcc : c' = c
      · subst hcc
        simp only [ClientHeap.setClient, Function.update_self, Option.some.injEq] at h'
        rw [← h']
        exact hs.counted.count c' o hc
      · simp only [ClientHeap.setClient, Function.update_of_ne hcc] at h'
        exact hs.counted.count c' o' h'
    · obtain ⟨c', hc', hlive⟩ := hs.counted.live h' o' h''
      refine ⟨c', hc', ?_⟩
      by_cases hcc : c' = c
      · subst hcc
        simp [ClientHeap.setClient]
      · simpa [ClientHeap.setClient, Function.update_of_ne hcc] using hlive
  equipped := hs.equipped.change hc _ rfl rfl
  referenced := ⟨hs.referenced.fin, hs.referenced.count, hs.referenced.owned⟩

/-- A handle of a provider of this library, for a variable that owns none. -/
theorem Sound.create (hs : s.Sound) {x : Var} {h c : Address} {o : RemiClient} (addr : Nat)
    (providerId : UInt16) (hx : s.vars x = none) (hh : s.heap.handle h = none)
    (hc : s.heap.client c = some o) (hroom : fanIn s.heap.clientOf c + 1 < 2 ^ 64) :
    Callers.Sound
      ⟨(s.heap.setHandle h (some ⟨some c, 1, addr, providerId⟩)).setClient c
          (some { o with numProviders := o.numProviders + 1 }),
        Function.update s.vars x (some h)⟩ where
  counted := by
    have hnone : s.heap.clientOf h = none := by
      rw [ClientHeap.clientOf, hh]
      rfl
    refine hs.counted.change hc _ ?_ ?_ ?_
    · intro o' ho'
      obtain rfl := Option.mem_some_iff.mp ho'
      exact ⟨c, rfl, by simp [hc]⟩
    · rw [ClientHeap.clientOf_setHandle]
      show (o.numProviders + 1).toNat = fanIn (Function.update s.heap.clientOf h (some c)) c
      have hcount := hs.counted.count c o hc
      rw [hs.counted.fin.fanIn_take hnone, toNat_add_one (by rw [hcount]; exact hroom), hcount]
    · intro c' hcc
      rw [ClientHeap.clientOf_setHandle]
      refine fanIn_update_of_ne (by simp [hnone]) ?_
      show some c ≠ some c'
      exact fun he => hcc (Option.some.inj he).symm
  equipped := by
    refine ClientHeap.Equipped.change (s := s.heap.setHandle h _) (o := o) ?_ hc _ rfl rfl
    exact ⟨hs.equipped.engine, hs.equipped.client, hs.equipped.own⟩
  referenced := by
    have hfan : fanIn (Function.update s.vars x (some h)) h = 1 := by
      rw [hs.referenced.fin.fanIn_take hx, hs.referenced.fin.fanIn_eq_zero.mpr]
      intro y hy
      exact (hs.referenced.owned h).mpr ⟨y, hy⟩ hh
    refine hs.referenced.change (h := h) rfl ?_ ?_ ?_
    · intro h' hne
      exact ⟨by simp [hx], fun he => hne (Option.some.inj he).symm⟩
    · intro o' ho'
      obtain rfl := Option.mem_some_iff.mp ho'
      exact hfan.symm
    · simp [hfan]

theorem Sound.refIncr (hs : s.Sound) {x y : Var} {h : Address} {o : HandleObject}
    (hx : s.vars x = some h) (hy : s.vars y = none) (hh : s.heap.handle h = some o)
    (hroom : fanIn s.vars h + 1 < 2 ^ 64) :
    Callers.Sound ⟨s.heap.setHandle h (some { o with refCount := o.refCount + 1 }),
      Function.update s.vars y (s.vars x)⟩ := by
  have hcount := hs.referenced.count h o hh
  have hfan : fanIn (Function.update s.vars y (some h)) h = fanIn s.vars h + 1 :=
    hs.referenced.fin.fanIn_take hy h
  rw [hx]
  refine ⟨?_, ⟨hs.equipped.engine, hs.equipped.client, hs.equipped.own⟩, ?_⟩
  · exact hs.counted.setHandle hh rfl
  · refine hs.referenced.change (h := h) rfl ?_ ?_ ?_
    · intro h' hne
      exact ⟨by simp [hy], fun he => hne (Option.some.inj he).symm⟩
    · intro o' ho'
      obtain rfl := Option.mem_some_iff.mp ho'
      rw [hfan]
      show (o.refCount + 1).toNat = fanIn s.vars h + 1
      rw [toNat_add_one (by rw [hcount]; exact hroom), hcount]
    · simp [hfan]

/-- What the release of a reference finds. -/
theorem Sound.owner (hs : s.Sound) {x : Var} {h : Address} (hx : s.vars x = some h) :
    ∃ o c cl, s.heap.handle h = some o ∧ o.client = some c ∧ s.heap.client c = some cl ∧
      s.heap.engine cl.engine = some cl.mid ∧ 0 < o.refCount.toNat := by
  obtain ⟨o, ho⟩ := Option.ne_none_iff_exists'.mp ((hs.referenced.owned h).mpr ⟨x, hx⟩)
  obtain ⟨c, hc, hlive⟩ := hs.counted.live h o ho
  obtain ⟨cl, hcl⟩ := Option.ne_none_iff_exists'.mp hlive
  refine ⟨o, c, cl, ho, hc, hcl, hs.equipped.engine c cl hcl, ?_⟩
  rw [hs.referenced.count h o ho]
  exact hs.referenced.fin.fanIn_pos.mpr ⟨x, hx⟩

/-- A reference that is not the last one is released. -/
theorem Sound.release (hs : s.Sound) {x : Var} {h : Address} {o : HandleObject}
    (hx : s.vars x = some h) (hh : s.heap.handle h = some o) (hmore : 1 < o.refCount.toNat) :
    Callers.Sound ⟨s.heap.setHandle h (some { o with refCount := o.refCount - 1 }),
      Function.update s.vars x none⟩ where
  counted := hs.counted.setHandle hh rfl
  equipped := ⟨hs.equipped.engine, hs.equipped.client, hs.equipped.own⟩
  referenced := by
    have hcount := hs.referenced.count h o hh
    have hdrop := hs.referenced.fin.fanIn_drop hx
    refine hs.referenced.change (h := h) rfl ?_ ?_ ?_
    · intro h' hne
      exact ⟨fun he => hne (Option.some.inj (hx.symm.trans he)).symm, by simp⟩
    · intro o' ho'
      obtain rfl := Option.mem_some_iff.mp ho'
      show (o.refCount - 1).toNat = fanIn (Function.update s.vars x none) h
      rw [toNat_sub_one (by omega)]
      omega
    · have hpos : 0 < fanIn (Function.update s.vars x none) h := by omega
      simp [hpos]

/-- The last reference is released: the handle is deleted, and its client has one less. -/
theorem Sound.releaseLast (hs : s.Sound) {x : Var} {h c : Address} {o : HandleObject}
    {cl : RemiClient} (hx : s.vars x = some h) (hh : s.heap.handle h = some o)
    (hc : o.client = some c) (hcl : s.heap.client c = some cl) (hlast : o.refCount.toNat = 1) :
    Callers.Sound ⟨(s.heap.setClient c (some { cl with
      numProviders := cl.numProviders - 1 })).setHandle h none, Function.update s.vars x none⟩ where
  counted := by
    have hof : s.heap.clientOf h = some c := ClientHeap.clientOf_eq_some.mpr ⟨o, hh, hc⟩
    have hcount := hs.counted.count c cl hcl
    have hdrop := hs.counted.fin.fanIn_drop hof
    refine hs.counted.change (h := h) hcl none ?_ ?_ ?_
    · intro o' ho'
      cases ho'
    · rw [ClientHeap.clientOf_setHandle]
      show (cl.numProviders - 1).toNat = fanIn (Function.update s.heap.clientOf h none) c
      rw [toNat_sub_one (by omega)]
      omega
    · intro c' hcc
      rw [ClientHeap.clientOf_setHandle]
      refine fanIn_update_of_ne ?_ (by simp)
      rw [hof]
      exact fun he => hcc (Option.some.inj he).symm
  equipped := by
    have h' := hs.equipped.change hcl { cl with numProviders := cl.numProviders - 1 } rfl rfl
    exact ⟨h'.engine, h'.client, h'.own⟩
  referenced := by
    have hcount := hs.referenced.count h o hh
    have hdrop := hs.referenced.fin.fanIn_drop hx
    refine hs.referenced.change (h := h) rfl ?_ ?_ ?_
    · intro h' hne
      exact ⟨fun he => hne (Option.some.inj (hx.symm.trans he)).symm, by simp⟩
    · intro o' ho'
      cases ho'
    · have hzero : fanIn (Function.update s.vars x none) h = 0 := by omega
      simp [hzero]

/-- A careful call uses only what exists. -/
theorem careful_step (hs : s.Sound) {l : HandleCall} (hl : s.Careful l) :
    ∃ s', s.next l = some s' ∧ s'.Sound := by
  obtain ⟨howned, hdrained⟩ := hl
  cases l with
  | clientInit e c mid abtio => exact ⟨_, rfl, hs.clientInit howned.1 howned.2 mid abtio⟩
  | clientFinalize client =>
      cases client with
      | none => exact ⟨s, rfl, hs⟩
      | some c =>
          obtain ⟨o, ho⟩ := Option.ne_none_iff_exists'.mp (howned c rfl)
          exact ⟨_, hs.finalize_eq ho, hs.clientFinalize ho (hdrained c rfl o ho)⟩
  | setAbtIoInstance client abtio =>
      cases client with
      | none => exact ⟨s, rfl, hs⟩
      | some c =>
          obtain ⟨o, ho⟩ := Option.ne_none_iff_exists'.mp (howned c rfl)
          refine ⟨_, ?_, hs.setAbtIoInstance ho abtio⟩
          simp [next, remiClientSetAbtIoInstance, ho]
  | create x h client addr providerId identity =>
      obtain ⟨hx, hh, husable, hroom⟩ := howned
      cases client with
      | none =>
          refine ⟨s, ?_, hs⟩
          show some (Callers.mk s.heap (Function.update s.vars x (s.vars x))) = some s
          rw [Function.update_eq_self]
      | some c =>
          obtain ⟨o, ho⟩ := Option.ne_none_iff_exists'.mp (husable c rfl)
          have he := hs.equipped.engine c o ho
          by_cases hid : identity = some ['r', 'e', 'm', 'i']
          · refine ⟨_, ?_, hs.create addr providerId hx hh ho (hroom c rfl)⟩
            simp [next, remiProviderHandleCreate, ho, he, hid, ClientHeap.setHandle,
              ClientHeap.setClient]
          · -- The object is deleted again, and nothing else has happened.
            refine ⟨s, ?_, hs⟩
            have hback : Function.update s.heap.handle h none = s.heap.handle := by
              rw [← hh, Function.update_eq_self]
            simp [next, remiProviderHandleCreate, ho, he, hid, ClientHeap.setHandle, hback]
  | refIncr x y =>
      obtain ⟨hy, hroom⟩ := howned
      cases hx : s.vars x with
      | none =>
          refine ⟨s, ?_, hs⟩
          simp only [next, hx, remiProviderHandleRefIncr, Option.map_some]
          rw [← hy, Function.update_eq_self]
      | some h =>
          obtain ⟨o, -, -, ho, -⟩ := hs.owner hx
          refine ⟨_, ?_, hs.refIncr hx hy ho (hroom h hx)⟩
          simp [next, hx, remiProviderHandleRefIncr, ho]
  | release x =>
      cases hx : s.vars x with
      | none =>
          refine ⟨s, ?_, hs⟩
          simp only [next, hx, remiProviderHandleRelease, Option.map_some]
          rw [← hx, Function.update_eq_self]
      | some h =>
          obtain ⟨o, c, cl, ho, hc, hcl, -, hpos⟩ := hs.owner hx
          by_cases hlast : o.refCount.toNat = 1
          · refine ⟨_, ?_, hs.releaseLast hx ho hc hcl hlast⟩
            simp [next, hx, remiProviderHandleRelease, ho, (sub_one_eq_zero hpos).mpr hlast, hc,
              hcl]
          · refine ⟨_, ?_, hs.release hx ho (by omega)⟩
            have hne : o.refCount - 1 ≠ 0 := fun he => hlast ((sub_one_eq_zero hpos).mp he)
            simp [next, hx, remiProviderHandleRelease, ho, hne]
  | migrate x =>
      cases hx : s.vars x with
      | none => exact ⟨s, by simp [next, hx, ClientHeap.providerHandle], hs⟩
      | some h =>
          obtain ⟨o, c, cl, ho, hc, hcl, he, -⟩ := hs.owner hx
          refine ⟨s, ?_, hs⟩
          simp [next, hx, ClientHeap.providerHandle, ho, hc, hcl, he]

/-! ### Whole runs -/

/-- Careful calls keep the invariant. -/
theorem Sound.run (hs : s.Sound) {ls : List HandleCall} {s' : Callers}
    (h : Run Callers.next Callers.Careful s ls s') : s'.Sound := by
  refine h.invariant hs ?_
  intro t l t' ht hl hn
  obtain ⟨t'', hn', ht''⟩ := careful_step ht hl
  rw [hn] at hn'
  cases hn'
  exact ht''

/-- A handle whose client is gone: when its references are released, one after the other, the last
release writes to the client. -/
theorem release_all (h c : Address) :
    ∀ (n : Nat) (t : Callers) (o : HandleObject), FinSupp t.vars → t.heap.handle h = some o →
      o.client = some c → t.heap.client c = none → fanIn t.vars h = n + 1 →
      o.refCount.toNat = n + 1 →
      ∃ (xs : List Var) (t' : Callers) (x : Var),
        Run Callers.next Callers.Careful t (xs.map .release) t' ∧ t'.next (.release x) = none := by
  intro n
  induction n with
  | zero =>
      intro t o hfin hh hc hgone hfan href
      obtain ⟨x, hx⟩ := hfin.fanIn_pos.mp (by omega : 0 < fanIn t.vars h)
      refine ⟨[], t, x, .nil, ?_⟩
      simp [next, hx, remiProviderHandleRelease, hh,
        (sub_one_eq_zero (by omega : 0 < o.refCount.toNat)).mpr href, hc, hgone]
  | succ n ih =>
      intro t o hfin hh hc hgone hfan href
      obtain ⟨x, hx⟩ := hfin.fanIn_pos.mp (by omega : 0 < fanIn t.vars h)
      have hne : o.refCount - 1 ≠ 0 := by
        intro he
        have hone := (sub_one_eq_zero (by omega)).mp he
        omega
      let o' : HandleObject := { o with refCount := o.refCount - 1 }
      have hnext : t.next (.release x) =
          some ⟨t.heap.setHandle h (some o'), Function.update t.vars x none⟩ := by
        simp [next, hx, remiProviderHandleRelease, hh, hne, o']
      have hh' : (t.heap.setHandle h (some o')).handle h = some o' := by
        simp [ClientHeap.setHandle]
      have hfan' : fanIn (Function.update t.vars x none) h = n + 1 := by
        have hdrop := hfin.fanIn_drop hx
        omega
      have href' : o'.refCount.toNat = n + 1 := by
        show (o.refCount - 1).toNat = n + 1
        rw [toNat_sub_one (by omega)]
        omega
      obtain ⟨xs, t', y, hrun, hstuck⟩ := ih ⟨_, _⟩ o' (hfin.update x none) hh' hc hgone hfan' href'
      exact ⟨x :: xs, t', y, .cons ⟨trivial, trivial⟩ hnext hrun, hstuck⟩

end Callers

/-! ### The results -/

/-- A client with one handle, to which two variables own a reference. -/
def sharedHandle : Callers where
  heap :=
    { engine := Function.update (fun _ => none) 0 (some 7)
      client := Function.update (fun _ => none) 0 (some ⟨7, 0, 1, none⟩)
      handle := Function.update (fun _ => none) 0 (some ⟨some 0, 2, 5, 3⟩) }
  vars := Function.update (Function.update (fun _ => none) 0 (some 0)) 1 (some 0)

theorem sharedHandle_run : Run Callers.next Callers.Careful .init
    [.clientInit 0 0 7 none, .create 0 0 (some 0) 5 3 (some ['r', 'e', 'm', 'i']), .refIncr 0 1]
    sharedHandle := by
  have hclient := finSupp_none (K := Address) (V := Address)
  refine .cons ⟨⟨rfl, rfl⟩, trivial⟩ rfl (.cons ⟨⟨rfl, rfl, ?_, ?_⟩, trivial⟩ rfl
    (.cons ⟨⟨rfl, ?_⟩, trivial⟩ ?_ .nil))
  · intro c hc
    obtain rfl := Option.mem_some_iff.mp hc
    exact Option.some_ne_none _
  · intro c _
    show fanIn (fun _ : Address => (none : Option Address)) c + 1 < 2 ^ 64
    rw [fanIn_none]
    decide
  · intro h hh
    obtain rfl : 0 = h := Option.mem_some_iff.mp hh
    show fanIn (Function.update (fun _ : Var => (none : Option Address)) 0 (some 0)) 0 + 1 < 2 ^ 64
    rw [hclient.fanIn_take rfl, fanIn_none]
    decide
  · simp [Callers.next, remiProviderHandleRefIncr, remiClientInit, ClientHeap.setClient,
      ClientHeap.setEngine, ClientHeap.setHandle, sharedHandle]
    exact ⟨⟨rfl, rfl, rfl⟩, rfl⟩

/-- A client may be finalized exactly when `m_num_providers` is 0: then every careful run goes on
without a use of a deleted object, and otherwise a run of releases ends with one. -/
theorem finalize_safe_iff {ls : List HandleCall} {s : Callers}
    (h : Run Callers.next Callers.Careful .init ls s) {c : Address} {o : RemiClient}
    (hc : s.heap.client c = some o) :
    ∃ s₁, s.next (.clientFinalize (some c)) = some s₁ ∧
      (o.numProviders = 0 → ∀ ls₂ s₂, Run Callers.next Callers.Careful s₁ ls₂ s₂ →
        ∀ l, s₂.Careful l → s₂.next l ≠ none) ∧
      (o.numProviders ≠ 0 → ∃ (xs : List Var) (t : Callers) (x : Var),
        Run Callers.next Callers.Careful s₁ (xs.map .release) t ∧ t.next (.release x) = none) := by
  have hs : s.Sound := Callers.sound_init.run h
  refine ⟨_, hs.finalize_eq hc, fun hzero ls₂ s₂ hrun l hl => ?_, fun hne => ?_⟩
  · obtain ⟨s', hn, -⟩ := Callers.careful_step ((hs.clientFinalize hc hzero).run hrun) hl
    rw [hn]
    exact Option.some_ne_none s'
  · -- A handle of the client is left, and a variable that owns it.
    have hpos : 0 < fanIn s.heap.clientOf c := by
      rw [← hs.counted.count c o hc]
      refine Nat.pos_of_ne_zero fun he => hne ?_
      exact UInt64.toNat_inj.mp he
    obtain ⟨a, ha⟩ := hs.counted.fin.fanIn_pos.mp hpos
    obtain ⟨ho, hh, hoc⟩ := ClientHeap.clientOf_eq_some.mp ha
    have hcount := hs.referenced.count a ho hh
    have hfan : 0 < fanIn s.vars a :=
      hs.referenced.fin.fanIn_pos.mpr ((hs.referenced.owned a).mp (by simp [hh]))
    refine Callers.release_all a c (fanIn s.vars a - 1) _ ho hs.referenced.fin hh hoc ?_ ?_ ?_
    · simp [ClientHeap.setClient]
    · show fanIn s.vars a = fanIn s.vars a - 1 + 1
      omega
    · omega

theorem finalize_safe_iff_shared : ∃ s₁, sharedHandle.next (.clientFinalize (some 0)) = some s₁ ∧
    ∃ (xs : List Var) (t : Callers) (x : Var),
      Run Callers.next Callers.Careful s₁ (xs.map .release) t ∧ t.next (.release x) = none := by
  obtain ⟨s₁, hn, -, hstuck⟩ := finalize_safe_iff (c := 0) (o := ⟨7, 0, 1, none⟩)
    sharedHandle_run rfl
  exact ⟨s₁, hn, hstuck (by decide)⟩

end Remi
