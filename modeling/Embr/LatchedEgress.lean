import Embr.Accounting
import Embr.QuicRuns

/-!
# After an error on the ring

A latched error stays, and every commit fails from then on. `reserve` looks at
the error only when it has no slot to give.
-/

open Octets Interact
namespace Embr.ZcEgress

/-- The stores that further calls leave. -/
abbrev Later (E : Env Zc) (slotSize slots : ℕ) (s : State) : State → Prop :=
  Session E (fun p => ∃ c : Call, p = c.run slotSize slots) Prog.Done (fun t => t = s)

/-- Nothing is left to assemble a datagram in. -/
def Exhausted (s : State) : Prop := s.reserved = none ∧ s.free = []

def Latched (slot : Option ℕ) (_ : Phase) (s : State) : Prop := s.reserved = slot ∧ s.err ≠ 0

section latched
variable {entries slotSize slots n : ℕ} {slot : Option ℕ} {ph : Phase} {s t : State} {E : Env Zc}

@[simp] theorem clear_err (s : State) (i : ℕ) : (s.clear i).err = s.err := by
  rw [State.clear]
  split <;> rfl

@[simp] theorem clear_reserved (s : State) (i : ℕ) : (s.clear i).reserved = s.reserved := by
  rw [State.clear]
  split <;> rfl

theorem latch_of_latched (h : s.err ≠ 0) (e : ℕ) : s.latch e = s := if_neg h

theorem Latched.idles (h : Latched slot .idle s) (hm : Idles s t) : Latched slot .idle t := by
  induction hm with
  | refl => exact h
  | tail _ hs ih => cases hs <;> exact ih

theorem latched_rules (entries slotSize : ℕ) : Rules (kernel entries) slotSize Latched where
  reserved h := h.1
  errno h _ := h
  fill h _ := h
  ring := by
    intro o s r t slot ho hr h
    cases o with
    | getSqe => exact h.idles hr.1
    | waitCqe => exact h.idles hr.1
    | peekCqe => exact h.idles hr.1
    | waitCqeTimeout => exact h.idles hr
    | now =>
      have ht : t = s := hr
      rw [ht]
      exact h
    | submit =>
      obtain ⟨v, hidle, ht⟩ := hr
      rcases ht with ⟨-, rfl⟩ | ⟨k, -, -, -, rfl⟩
      · exact h.idles hidle
      · have hv := h.idles hidle
        exact hv
    | queueInit n => exact ho.elim
    | registerBuffers => exact ho.elim
    | send slot buf => exact ho.elim
  head hr := hr.2
  waited hr := hr.2
  submitFailed _ _ _ _ h := by
    rw [latch_of_latched h.2]
    exact h
  full _ h := by
    have herr : EAGAIN ≠ 0 := by decide
    exact ⟨h.1, herr⟩
  seen _ h := h
  notified _ h := by simpa [Latched, State.notified] using h
  unsupported _ h := h
  fellBack _ _ h := h
  copied hr h := by
    rcases hr with ⟨-, rfl⟩ | ⟨hnone, -⟩
    · exact h
    · cases hnone
  lost hr h := by
    rcases hr with ⟨hsome, -⟩ | ⟨-, e, -, rfl⟩
    · cases hsome
    · exact h
  copyLost h := by
    rw [State.copyLost, latch_of_latched h.2]
    split_ifs <;> exact h
  failed _ _ _ h := by
    rw [State.failed, latch_of_latched h.2]
    exact h
  sent _ _ _ h := h
  clear _ _ h := by simpa [Latched] using h
  more _ _ h := h
  reserve _ h := ⟨rfl, h.2⟩
  enqueue _ _ h := ⟨rfl, by simpa [State.enqueue] using h.2⟩

theorem Later.err (ht : Later (kernel entries) slotSize slots s t) (herr : s.err ≠ 0) : t.err ≠ 0 := by
  have hinv : ∃ slot, Latched slot .idle t := by
    apply Session.inv (I := Throughout Latched) ht
    · intro u hu
      subst hu
      exact ⟨_, rfl, herr⟩
    · intro p hp u hu
      obtain ⟨c, rfl⟩ := hp
      refine ((latched_rules entries slotSize).call_sat c hu).weaken ?_
      intro r v hv
      obtain ⟨slot, hv, -⟩ := hv
      exact ⟨slot, hv⟩
  obtain ⟨_, -, herr⟩ := hinv
  exact herr

theorem commit_latched (herr : s.err ≠ 0) :
    Sat E (fun _ _ => True) (fun _ _ => True) (commit slotSize n) (fun ok _ => ok = false) s := by
  refine sat_get_bind.mpr ⟨trivial, ?_⟩
  cases s.reserved with
  | none => exact sat_raise.mpr ⟨trivial, trivial⟩
  | some i =>
    dsimp only
    split_ifs
    · exact sat_raise.mpr ⟨trivial, trivial⟩
    · exact sat_pure.mpr ⟨trivial, rfl⟩

theorem reserve_latched (herr : s.err ≠ 0) : ∃ t,
    Trace E reserve s [] (.ret (s.reserved <|> s.free.getLast?)) t := by
  have hshows : Shows E reserve [] (fun r _ => r = (s.reserved <|> s.free.getLast?)) s := by
    apply Shows.last
    apply Shows.get_bind
    cases s.reserved with
    | some i => exact Shows.ret ⟨_, rfl, rfl⟩
    | none =>
      dsimp only
      cases s.free.getLast? with
      | some i =>
        apply Shows.act_bind
        exact Shows.ret ⟨_, rfl, rfl⟩
      | none =>
        dsimp only
        rw [if_pos herr]
        exact Shows.ret ⟨_, rfl, rfl⟩
  obtain ⟨_, t, hrun, rfl⟩ := hshows
  exact ⟨t, hrun⟩

theorem reserve_exhausted (herr : s.err ≠ 0) (hnone : Exhausted s) :
    Sat E (fun _ _ => True) (fun _ _ => True) reserve (fun r _ => r = none) s := by
  apply Sat.round (fun _ u => u = s)
  · rfl
  intro _ u hu
  subst hu
  refine ⟨trivial, sat_get_bind.mpr ⟨trivial, ?_⟩⟩
  simp only [hnone.1, hnone.2, List.getLast?_nil, if_pos herr]
  exact sat_pure.mpr ⟨trivial, trivial, rfl⟩

theorem exhausted_iff : Exhausted s ↔ (s.reserved <|> s.free.getLast?) = none := by
  rw [Exhausted]
  cases s.reserved <;> simp

end latched

end Embr.ZcEgress

namespace Embr.QuicTransport
open ZcEgress (State Later Exhausted)

section latched
variable {entries slotSize slots : ℕ} {E : Env Quic} {s : Store}

theorem beginPacket_slot (hzc : s.zc = true) (hinit : s.egressInit = true) {z : State} {i : ℕ}
    (hreserve : Trace (ZcEgress.kernel entries) ZcEgress.reserve s.toState [] (.ret (some i)) z) :
    Trace E beginPacket s [] (.ret (some i)) { s with toState := z } := by
  have hshown : Trace E initEgress s [] (.ret ()) s := by
    apply Trace.get_bind
    rw [if_pos hinit]
    exact .done
  have hslot : Trace E (egress ZcEgress.reserve) s [] (.ret (some i)) { s with toState := z } :=
    hreserve.embed egressPart s rfl
  apply hshown.andThen
  apply Trace.get_bind
  rw [if_pos hzc]
  exact hslot.into

theorem beginPacket_exhausted (hE : ∀ o s r t, E o s r t → world entries o s r t)
    (hinit : s.egressInit = true) (herr : s.err ≠ 0) (hnone : Exhausted s.toState) :
    Sat E (fun _ _ => True) (fun _ _ => True) beginPacket (fun r _ => r = none) s := by
  have hinitial : Sat E (fun _ _ => True) (fun _ _ => True) initEgress (fun _ t => t = s) s := by
    refine sat_get_bind.mpr ⟨trivial, ?_⟩
    rw [if_pos hinit]
    exact sat_pure.mpr ⟨trivial, rfl⟩
  refine Sat.andThen hinitial ?_
  intro _ t ht
  subst ht
  refine sat_get_bind.mpr ⟨trivial, ?_⟩
  split_ifs
  · have hreserve := egress_sat (J := fun _ => True) (L := fun _ => True) (X := fun _ _ => True)
      (Q := fun r _ => r = none) hE (ZcEgress.reserve_exhausted herr hnone) trivial trivial
      (fun _ _ _ => trivial) (fun _ _ hr => hr)
    refine Sat.seq hreserve (fun _ _ _ => trivial) ?_
    intro r t hr
    subst hr
    refine Sat.andThen (Sat.top resetZc t) ?_
    intro _ u _
    exact sat_pure.mpr ⟨trivial, rfl⟩
  · exact sat_pure.mpr ⟨trivial, rfl⟩

/-- Once an error is latched it stays and every commit fails; but `reserve` returns
null, and the connection goes on over the socket, only where the ring has no slot
at hand. -/
theorem latch_retires {z z' : State} (herr : z.err ≠ 0)
    (hlater : Later (ZcEgress.kernel entries) slotSize slots z z') :
    z'.err ≠ 0 ∧
    (∀ n u, ¬ Reaches (ZcEgress.kernel entries) (ZcEgress.commit slotSize n, z') (.ret true, u)) ∧
    ((∀ r u, Reaches (ZcEgress.kernel entries) (ZcEgress.reserve, z') (.ret r, u) → r = none) ↔
      Exhausted z') ∧
    ∀ s : Store, s.toState = z' → s.zc = true → s.egressInit = true →
      ((∀ r u, Reaches (world entries) (beginPacket, s) (.ret r, u) → r = none) ↔ Exhausted z') := by
  have herr' := hlater.err herr
  obtain ⟨t, hreserve⟩ := ZcEgress.reserve_latched (E := ZcEgress.kernel entries) herr'
  refine ⟨herr', ?_, ⟨?_, ?_⟩, ?_⟩
  · intro n u hr
    have hfalse := (ZcEgress.commit_latched herr').returned hr
    cases hfalse
  · intro hall
    exact ZcEgress.exhausted_iff.mpr (hall _ _ hreserve.reaches)
  · intro hnone r u hr
    exact (ZcEgress.reserve_exhausted herr' hnone).returned hr
  · intro s hs hzc hinit
    subst hs
    constructor
    · intro hall
      rw [ZcEgress.exhausted_iff]
      cases hr : (s.reserved <|> s.free.getLast?) with
      | none => rfl
      | some i =>
        rw [hr] at hreserve
        exact (hall _ _ (beginPacket_slot hzc hinit hreserve).reaches)
    · intro hnone r u hr
      exact (beginPacket_exhausted (fun _ _ _ _ hr => hr) hinit herr' hnone).returned hr

end latched

def twoSlots : State := ZcEgress.built 0 2 true

def oneCommitted : State :=
  { twoSlots with reserved := some 0, free := [1] }.enqueue 0 1

theorem oneCommitted_used : ZcEgress.Used (ZcEgress.kernel 4) 1 2 oneCommitted := by
  have hbuilt : Trace (ZcEgress.kernel 4) (ZcEgress.construct 1 2) (ZcEgress.members 0 2)
      [⟨.queueInit 4, (0 : ℤ), ZcEgress.members 0 2⟩, ⟨.registerBuffers, (0 : ℤ), ZcEgress.members 0 2⟩]
      (.ret ()) twoSlots := .act (.call rfl (.call rfl (.act .done)))
  have hreserve : Trace (ZcEgress.kernel 4) (ZcEgress.Call.run 1 2 .reserve) twoSlots []
      (.ret (.slot (some 0))) { twoSlots with reserved := some 0, free := [1] } :=
    .loop (.act (.act .done))
  have hcommit : Trace (ZcEgress.kernel 4) (ZcEgress.Call.run 1 2 (.commit 1))
      { twoSlots with reserved := some 0, free := [1] }
      [⟨.getSqe, true, { twoSlots with reserved := some 0, free := [1] }⟩]
      (.ret (.committed true)) oneCommitted := .act (.call ⟨.refl, nofun⟩ (.act .done))
  have hstart : ZcEgress.Used (ZcEgress.kernel 4) 1 2 twoSlots := .start ⟨_, hbuilt.reaches⟩
  exact .next (.next hstart ⟨_, rfl⟩ hreserve.reaches trivial) ⟨_, rfl⟩ hcommit.reaches trivial

def submitFailed : State := { oneCommitted with err := EIO }

theorem submitFailed_used : ZcEgress.Used (ZcEgress.kernel 4) 1 2 submitFailed := by
  have hflush : Trace (ZcEgress.kernel 4) (ZcEgress.Call.run 1 2 .flush) oneCommitted
      [⟨.submit, -( EIO : ℤ), oneCommitted⟩, ⟨.peekCqe, none, submitFailed⟩]
      (.ret .done) submitFailed :=
    .loop (.act (.call ⟨_, .refl, .inl ⟨by decide, rfl⟩⟩ (.act (.call ⟨.refl, rfl⟩ (.loop .done)))))
  exact .next oneCommitted_used ⟨_, rfl⟩ hflush.reaches trivial

/-- `reserve` gives out the free slot, and its commit fails. -/
theorem latched_slot_reserved : ∃ z u, ZcEgress.Used (ZcEgress.kernel 4) 1 2 z ∧ z.err ≠ 0 ∧
    Reaches (ZcEgress.kernel 4) (ZcEgress.reserve, z) (.ret (some 1), u) ∧
    Reaches (ZcEgress.kernel 4) (ZcEgress.commit 1 1, u) (.ret false, u) := by
  have hreserve : Trace (ZcEgress.kernel 4) ZcEgress.reserve submitFailed [] (.ret (some 1))
      { submitFailed with reserved := some 1, free := [] } := .loop (.act (.act .done))
  have hcommit : Trace (ZcEgress.kernel 4) (ZcEgress.commit 1 1)
      { submitFailed with reserved := some 1, free := [] } [] (.ret false)
      { submitFailed with reserved := some 1, free := [] } := .act .done
  have herr : EIO ≠ 0 := by decide
  exact ⟨submitFailed, _, submitFailed_used, herr, hreserve.reaches, hcommit.reaches⟩

/-- A later commit fails as well. -/
theorem latch_retires_submit : ∃ z, ZcEgress.Used (ZcEgress.kernel 4) 1 2 z ∧ z.err ≠ 0 ∧
    (¬ ∃ u, Reaches (ZcEgress.kernel 4) (ZcEgress.commit 1 1, z) (.ret true, u)) ∧
    ∃ r u, r ≠ none ∧ Reaches (ZcEgress.kernel 4) (ZcEgress.reserve, z) (.ret r, u) := by
  have herr : submitFailed.err ≠ 0 := by
    have hio : EIO ≠ 0 := by decide
    exact hio
  obtain ⟨-, hcommit, hreserve, -⟩ := latch_retires herr
    (.start rfl : Later (ZcEgress.kernel 4) 1 2 submitFailed submitFailed)
  refine ⟨submitFailed, submitFailed_used, herr, fun ⟨u, hu⟩ => hcommit 1 u hu, ?_⟩
  have hfree : ¬ Exhausted submitFailed := fun hnone => nomatch hnone.2
  by_contra hnone
  apply hfree
  apply hreserve.mp
  intro r u hr
  by_contra hne
  exact hnone ⟨r, u, hne, hr⟩

end Embr.QuicTransport
