import Embr.Egress

/-!
# Invariants of the egress

An invariant `K` of a `ZcEgress` is told which slot is reserved and how far the
completion at hand has been processed. `Rules` is what each single change must
do to it, the kernel's moves included. The functions of the egress are read
once, here, and keep every invariant that has its rules.
-/

open Octets Interact
namespace Embr.ZcEgress

/-- How far a completion has been processed: taken off the ring, its copy about
to be sent, its copy not sent, all but the release done. -/
inductive Phase
  | idle
  | held (c : Cqe)
  | copying (c : Cqe)
  | lost (c : Cqe)
  | settled (c : Cqe)

def Op.onRing : Op → Prop
  | .getSqe => True
  | .submit => True
  | .waitCqe => True
  | .peekCqe => True
  | .waitCqeTimeout => True
  | .now => True
  | _ => False

def built (errno slots : ℕ) (registered : Bool) : State :=
  { members errno slots with registered := registered, free := (List.range slots).reverse }

structure Rules (E : Env Zc) (slotSize : ℕ) (K : Option ℕ → Phase → State → Prop) : Prop where
  reserved : ∀ {slot ph s}, K slot ph s → s.reserved = slot
  errno : ∀ {slot s}, K slot .idle s → ∀ e, K slot .idle { s with errno := e }
  fill : ∀ {i s}, K (some i) .idle s → ∀ bs, K (some i) .idle (s.fill i bs)
  ring : ∀ {o s r t slot}, o.onRing → E o s r t → K slot .idle s → K slot .idle t
  head : ∀ {s r t}, E .peekCqe s r t → r = t.ring.cq.head?
  waited : ∀ {s r t}, E .waitCqe s r t → r = none ∨ r = t.ring.cq.head?
  submitFailed : ∀ {s t slot} {r : ℤ}, E .submit s r t → r < 0 → r ≠ -EINTR → r ≠ -EAGAIN →
    K slot .idle t → K slot .idle (t.latch (-r).toNat)
  full : ∀ {s t i}, E .getSqe s false t → K (some i) .idle t →
    K (some i) .idle { t with err := EAGAIN }
  seen : ∀ {s slot c}, s.ring.cq.head? = some c → K slot .idle s → K slot (.held c) s.seen
  notified : ∀ {s slot c}, c.notif = true → K slot (.held c) s →
    K slot .idle (s.notified c.slot c.res)
  unsupported : ∀ {s slot c}, c.notif = false → K slot (.held c) s →
    K slot (.held c) { s with unsupported := true }
  fellBack : ∀ {s slot c}, c.notif = false → refused c.res → K slot (.held c) s →
    K slot (.copying c) s.fellBack
  copied : ∀ {s t slot c n}, E (.send c.slot (s.content c.slot)) s (some n) t → K slot (.copying c) s →
    K slot (.settled c) t
  lost : ∀ {s t slot c}, E (.send c.slot (s.content c.slot)) s none t → K slot (.copying c) s →
    K slot (.lost c) t
  copyLost : ∀ {s slot c}, K slot (.lost c) s → K slot (.settled c) s.copyLost
  failed : ∀ {s slot c}, c.notif = false → ¬ refused c.res → c.res < 0 → K slot (.held c) s →
    K slot (.settled c) (s.failed c.res)
  sent : ∀ {s slot c}, c.notif = false → ¬ refused c.res → 0 ≤ c.res → K slot (.held c) s →
    K slot (.settled c) s
  clear : ∀ {s slot c}, c.notif = false → c.more = false → K slot (.settled c) s →
    K slot .idle (s.clear c.slot)
  more : ∀ {s slot c}, c.notif = false → c.more = true → K slot (.settled c) s → K slot .idle s
  reserve : ∀ {s i}, s.free.getLast? = some i → K none .idle s →
    K (some i) .idle { s with reserved := some i, free := s.free.dropLast }
  enqueue : ∀ {s i n}, 0 < n → n ≤ slotSize → K (some i) .idle s → K none .idle (s.enqueue i n)

structure Invariant (E : Env Zc) (slotSize slots : ℕ) (K : Option ℕ → Phase → State → Prop) : Prop
    extends Rules E slotSize K where
  setup : ∀ {o s r t}, o = .registerBuffers ∨ (∃ n, o = .queueInit n) → E o s r t → t = s
  built : ∀ {errno registered}, K none .idle (built errno slots registered)

abbrev Throughout (K : Option ℕ → Phase → State → Prop) (_ : Option Op) (s : State) : Prop :=
  ∃ slot ph, K slot ph s

namespace Rules
variable {E : Env Zc} {slotSize slots n deadline : ℕ} {K : Option ℕ → Phase → State → Prop}
  {X : Exc → State → Prop} {slot : Option ℕ} {s : State} {c : Cqe}

theorem sendCopy_sat (h : Rules E slotSize K) (hn : c.notif = false) (hr : refused c.res)
    (hs : K slot (.held c) s) :
    Sat E (Throughout K) X (sendCopy c.slot) (fun _ u => K slot (.settled c) u) s := by
  have hcopy := h.fellBack hn hr hs
  refine sat_modify_bind.mpr ⟨⟨_, _, hs⟩, sat_get_bind.mpr ⟨⟨_, _, hcopy⟩, ?_⟩⟩
  refine sat_ask_bind.mpr ⟨⟨_, _, hcopy⟩, ?_⟩
  intro r t ht
  cases r with
  | some k =>
    have hdone := h.copied ht hcopy
    exact sat_pure.mpr ⟨⟨_, _, hdone⟩, hdone⟩
  | none =>
    have hlost := h.lost ht hcopy
    have hdone := h.copyLost hlost
    exact sat_modify.mpr ⟨⟨_, _, hlost⟩, ⟨_, _, hdone⟩, hdone⟩

theorem sendError_sat (h : Rules E slotSize K) (hn : c.notif = false)
    (hs : K slot (.held c) s) :
    Sat E (Throughout K) X (sendError c.slot c.res) (fun _ u => K slot (.settled c) u) s := by
  rw [sendError]
  split_ifs with hrefused
  · exact h.sendCopy_sat hn hrefused hs
  · apply Sat.when
    · intro hneg
      have hdone := h.failed hn hrefused hneg hs
      exact sat_modify.mpr ⟨⟨_, _, hs⟩, ⟨_, _, hdone⟩, hdone⟩
    · intro hpos
      exact ⟨⟨_, _, hs⟩, h.sent hn hrefused (by omega) hs⟩

theorem reapSend_sat (h : Rules E slotSize K) (hn : c.notif = false)
    (hs : K slot (.held c) s) :
    Sat E (Throughout K) X (reapSend c.slot c.res c.more) (fun _ u => K slot .idle u) s := by
  have hmark : Sat E (Throughout K) X (markUnsupported c.res)
      (fun _ u => K slot (.held c) u) s := by
    apply Sat.when
    · intro _
      have hmarked := h.unsupported hn hs
      exact sat_modify.mpr ⟨⟨_, _, hs⟩, ⟨_, _, hmarked⟩, hmarked⟩
    · exact fun _ => ⟨⟨_, _, hs⟩, hs⟩
  refine Sat.andThen hmark ?_
  intro _ t ht
  refine Sat.andThen (h.sendError_sat hn ht) ?_
  intro _ u hu
  apply Sat.when
  · intro hmore
    have hdone := h.clear hn hmore hu
    exact sat_modify.mpr ⟨⟨_, _, hu⟩, ⟨_, _, hdone⟩, hdone⟩
  · intro hmore
    exact ⟨⟨_, _, hu⟩, h.more hn (by simpa using hmore) hu⟩

theorem reapOne_sat (h : Rules E slotSize K) (hs : K slot (.held c) s) :
    Sat E (Throughout K) X (reapOne c) (fun _ u => K slot .idle u) s := by
  rw [reapOne]
  split_ifs with hn
  · have hdone := h.notified hn hs
    exact sat_modify.mpr ⟨⟨_, _, hs⟩, ⟨_, _, hdone⟩, hdone⟩
  · exact h.reapSend_sat (by simpa using hn) hs

theorem reapLoop_sat (h : Rules E slotSize K) {cqe : Option Cqe} (hs : K slot .idle s)
    (hcqe : cqe = none ∨ cqe = s.ring.cq.head?) :
    Sat E (Throughout K) X (reapLoop cqe) (fun _ u => K slot .idle u) s := by
  apply Sat.round (fun cqe (u : State) => K slot .idle u ∧ (cqe = none ∨ cqe = u.ring.cq.head?))
  · exact ⟨hs, hcqe⟩
  intro cqe t ht
  obtain ⟨ht, hcqe⟩ := ht
  refine ⟨⟨_, _, ht⟩, ?_⟩
  cases cqe with
  | none => exact sat_pure.mpr ⟨⟨_, _, ht⟩, ⟨_, _, ht⟩, ht⟩
  | some c =>
    have hhead : t.ring.cq.head? = some c := by
      rcases hcqe with hcqe | hcqe
      · cases hcqe
      · exact hcqe.symm
    refine sat_modify_bind.mpr ⟨⟨_, _, ht⟩, ?_⟩
    refine Sat.andThen (h.reapOne_sat (h.seen hhead ht)) ?_
    intro _ u hu
    refine sat_ask_bind.mpr ⟨⟨_, _, hu⟩, ?_⟩
    intro r v hv
    have hidle := h.ring (by trivial) hv hu
    exact sat_pure.mpr ⟨⟨_, _, hidle⟩, hidle, .inr (h.head hv)⟩

theorem reapReady_sat (h : Rules E slotSize K) (hs : K slot .idle s) :
    Sat E (Throughout K) X reapReady (fun _ u => K slot .idle u) s := by
  refine sat_ask_bind.mpr ⟨⟨_, _, hs⟩, ?_⟩
  intro r t ht
  exact h.reapLoop_sat (h.ring (by trivial) ht hs) (.inr (h.head ht))

theorem submitAll_sat (h : Rules E slotSize K) (hs : K slot .idle s) :
    Sat E (Throughout K) X submitAll (fun _ u => K slot .idle u) s := by
  apply Sat.round (fun _ u => K slot .idle u)
  · exact hs
  intro _ t ht
  refine ⟨⟨_, _, ht⟩, sat_get_bind.mpr ⟨⟨_, _, ht⟩, ?_⟩⟩
  split_ifs
  · refine sat_ask_bind.mpr ⟨⟨_, _, ht⟩, ?_⟩
    intro r u hr
    have hu := h.ring (by trivial) hr ht
    by_cases hrv : 0 < r
    · rw [if_pos hrv]
      exact sat_pure.mpr ⟨⟨_, _, hu⟩, hu⟩
    · rw [if_neg hrv]
      refine sat_modify_bind.mpr ⟨⟨_, _, hu⟩, ?_⟩
      dsimp only
      split_ifs with hfatal
      · have hlatched := h.submitFailed hr hfatal.1 hfatal.2.1 hfatal.2.2 hu
        exact sat_pure.mpr ⟨⟨_, _, hlatched⟩, ⟨_, _, hlatched⟩, hlatched⟩
      · exact sat_pure.mpr ⟨⟨_, _, hu⟩, ⟨_, _, hu⟩, hu⟩
  · exact sat_pure.mpr ⟨⟨_, _, ht⟩, ⟨_, _, ht⟩, ht⟩

theorem flush_sat (h : Rules E slotSize K) (hs : K slot .idle s) :
    Sat E (Throughout K) X flush (fun _ u => K slot .idle u) s :=
  Sat.andThen (h.submitAll_sat hs) fun _ _ ht => h.reapReady_sat ht

theorem reap_sat (h : Rules E slotSize K) (wait : Bool) (hs : K slot .idle s) :
    Sat E (Throughout K) X (reap wait) (fun _ u => K slot .idle u) s := by
  rw [reap]
  split_ifs
  · refine sat_get_bind.mpr ⟨⟨_, _, hs⟩, ?_⟩
    refine Sat.andThen (Sat.when (fun _ => h.flush_sat hs) fun _ => ⟨⟨_, _, hs⟩, hs⟩) ?_
    intro _ t ht
    refine sat_ask_bind.mpr ⟨⟨_, _, ht⟩, ?_⟩
    intro r u hu
    exact h.reapLoop_sat (h.ring (by trivial) hu ht) (h.waited hu)
  · exact h.reapReady_sat hs

theorem reserve_sat (h : Rules E slotSize K) (hs : K slot .idle s) :
    Sat E (Throughout K) X ZcEgress.reserve
      (fun r u => (r = none → K slot .idle u ∧ u.err ≠ 0) ∧ ∀ i, r = some i → K (some i) .idle u)
      s := by
  apply Sat.round (fun _ u => K slot .idle u)
  · exact hs
  intro _ t ht
  refine ⟨⟨_, _, ht⟩, sat_get_bind.mpr ⟨⟨_, _, ht⟩, ?_⟩⟩
  cases hr : t.reserved with
  | some i =>
    have hslot : slot = some i := (h.reserved ht).symm.trans hr
    subst hslot
    refine sat_pure.mpr ⟨⟨_, _, ht⟩, ⟨_, _, ht⟩, ?_⟩
    constructor
    · intro hnone
      cases hnone
    · intro j hj
      cases hj
      exact ht
  | none =>
    have hslot : slot = none := (h.reserved ht).symm.trans hr
    subst hslot
    dsimp only
    cases hf : t.free.getLast? with
    | some i =>
      have htook := h.reserve hf ht
      refine sat_modify_bind.mpr ⟨⟨_, _, ht⟩, sat_pure.mpr ⟨⟨_, _, htook⟩, ⟨_, _, htook⟩, ?_⟩⟩
      constructor
      · intro hnone
        cases hnone
      · intro j hj
        cases hj
        exact htook
    | none =>
      dsimp only
      split_ifs with herr
      · refine sat_pure.mpr ⟨⟨_, _, ht⟩, ⟨_, _, ht⟩, fun _ => ⟨ht, herr⟩, ?_⟩
        intro j hj
        cases hj
      · refine Sat.andThen (h.flush_sat ht) ?_
        intro _ u hu
        refine sat_get_bind.mpr ⟨⟨_, _, hu⟩, ?_⟩
        refine Sat.andThen (Sat.when (fun _ => h.reap_sat true hu) fun _ => ⟨⟨_, _, hu⟩, hu⟩) ?_
        intro _ v hv
        exact sat_pure.mpr ⟨⟨_, _, hv⟩, hv⟩

theorem acquireSqe_sat (h : Rules E slotSize K) (hs : K slot .idle s) :
    Sat E (Throughout K) X acquireSqe
      (fun r u => K slot .idle u ∧ (r = false → ∃ t, E .getSqe t false u)) s := by
  refine sat_ask_bind.mpr ⟨⟨_, _, hs⟩, ?_⟩
  intro r t hr
  have ht := h.ring (by trivial) hr hs
  cases r with
  | true => exact sat_pure.mpr ⟨⟨_, _, ht⟩, ht, nofun⟩
  | false =>
    refine Sat.andThen (h.flush_sat ht) ?_
    intro _ u hu
    refine sat_ask_bind.mpr ⟨⟨_, _, hu⟩, ?_⟩
    intro r v hr
    have hv := h.ring (by trivial) hr hu
    cases r with
    | true => exact sat_pure.mpr ⟨⟨_, _, hv⟩, hv, nofun⟩
    | false =>
      refine Sat.andThen (h.reap_sat true hv) ?_
      intro _ w hw
      refine sat_ask.mpr ⟨⟨_, _, hw⟩, ?_⟩
      intro r x hr
      have hx := h.ring (by trivial) hr hw
      refine ⟨⟨_, _, hx⟩, hx, ?_⟩
      intro hfalse
      subst hfalse
      exact ⟨_, hr⟩

theorem commit_sat (h : Rules E slotSize K) (hs : K slot .idle s)
    (hX : ¬ (slot.isSome ∧ 0 < n ∧ n ≤ slotSize) → ∀ e, X e s) :
    Sat E (Throughout K) X (commit slotSize n)
      (fun r u => (r = true → K none .idle u) ∧ (r = false → K slot .idle u ∧ u.err ≠ 0)) s := by
  refine sat_get_bind.mpr ⟨⟨_, _, hs⟩, ?_⟩
  have hslot := h.reserved hs
  cases hr : s.reserved with
  | none =>
    refine sat_raise.mpr ⟨⟨_, _, hs⟩, hX ?_ _⟩
    rw [← hslot, hr]
    simp
  | some i =>
    dsimp only
    split_ifs with hlen herr
    · refine sat_raise.mpr ⟨⟨_, _, hs⟩, hX ?_ _⟩
      intro hgood
      have hpos := hgood.2
      omega
    · exact sat_pure.mpr ⟨⟨_, _, hs⟩, nofun, fun _ => ⟨hs, herr⟩⟩
    · have hsome : slot = some i := hslot.symm.trans hr
      subst hsome
      refine Sat.andThen (h.acquireSqe_sat hs) ?_
      intro r t ht
      obtain ⟨ht, hfull⟩ := ht
      cases r with
      | true =>
        have hnew : K none .idle (t.enqueue i n) := h.enqueue (by omega) (by omega) ht
        exact sat_modify_bind.mpr ⟨⟨_, _, ht⟩, sat_pure.mpr ⟨⟨_, _, hnew⟩, fun _ => hnew, nofun⟩⟩
      | false =>
        obtain ⟨u, hu⟩ := hfull rfl
        have hlatched := h.full hu ht
        refine sat_modify_bind.mpr ⟨⟨_, _, ht⟩, sat_pure.mpr ⟨⟨_, _, hlatched⟩, nofun, ?_⟩⟩
        intro _
        refine ⟨hlatched, ?_⟩
        change EAGAIN ≠ 0
        decide

theorem drain_sat (h : Rules E slotSize K) (hs : K slot .idle s) :
    Sat E (Throughout K) X (drain slots deadline)
      (fun r u => K slot .idle u ∧ (r = true → u.inflightCount slots = 0)) s := by
  refine Sat.andThen (h.flush_sat hs) ?_
  intro _ t ht
  apply Sat.round (fun _ u => K slot .idle u)
  · exact ht
  intro _ u hu
  refine ⟨⟨_, _, hu⟩, sat_get_bind.mpr ⟨⟨_, _, hu⟩, ?_⟩⟩
  split_ifs with hbusy
  · refine sat_ask_bind.mpr ⟨⟨_, _, hu⟩, ?_⟩
    intro r v hr
    have hv := h.ring (by trivial) hr hu
    split_ifs
    · refine sat_ask_bind.mpr ⟨⟨_, _, hv⟩, ?_⟩
      intro _ w hr
      refine Sat.andThen (h.flush_sat (h.ring (by trivial) hr hv)) ?_
      intro _ x hx
      exact sat_pure.mpr ⟨⟨_, _, hx⟩, hx⟩
    · refine sat_pure.mpr ⟨⟨_, _, hv⟩, ⟨_, _, hv⟩, hv, ?_⟩
      intro hzero
      simp only [decide_eq_true_eq] at hzero
      omega
  · refine sat_pure.mpr ⟨⟨_, _, hu⟩, ⟨_, _, hu⟩, hu, ?_⟩
    intro _
    omega

theorem destroy_sat (h : Rules E slotSize K) (hs : K slot .idle s) :
    Sat E (fun _ _ => True) X (destroy slots) (fun _ _ => True) s := by
  refine sat_ask_bind.mpr ⟨trivial, ?_⟩
  intro now t ht
  refine Sat.seq (h.drain_sat (h.ring (by trivial) ht hs)) (fun _ _ _ => trivial) ?_
  intro _ u _
  exact sat_modify.mpr ⟨trivial, trivial, trivial⟩

end Rules

/-- `fill` is the caller writing into the slot it got from `reserve`. -/
inductive Call
  | reserve
  | fill (bs : Bytes)
  | commit (n : ℕ)
  | flush
  | reap (wait : Bool)
  | drain (deadline : ℕ)

inductive Outcome
  | slot (i : Option ℕ)
  | committed (ok : Bool)
  | drained (ok : Bool)
  | done

def fillReserved (bs : Bytes) : Prog Zc Unit :=
  .modify fun s =>
    match s.reserved with
    | some i => s.fill i bs
    | none => s

def Call.run (slotSize slots : ℕ) : Call → Prog Zc Outcome
  | .reserve => do
    let i ← ZcEgress.reserve
    pure (.slot i)
  | .fill bs => do
    fillReserved bs
    pure .done
  | .commit n => do
    let ok ← ZcEgress.commit slotSize n
    pure (.committed ok)
  | .flush => do
    ZcEgress.flush
    pure .done
  | .reap wait => do
    ZcEgress.reap wait
    pure .done
  | .drain deadline => do
    let ok ← ZcEgress.drain slots deadline
    pure (.drained ok)

/-- An egress after calls that have all ended, the first one its constructor. -/
abbrev Used (E : Env Zc) (slotSize slots : ℕ) : State → Prop :=
  Session E (fun p => ∃ c : Call, p = c.run slotSize slots) Prog.Done
    (fun s => ∃ s₀, Reaches E (construct slotSize slots, s₀) (.ret (), s))

namespace Rules
variable {E : Env Zc} {slotSize slots : ℕ} {K : Option ℕ → Phase → State → Prop} {s : State}

theorem call_sat (h : Rules E slotSize K) (c : Call) (hs : ∃ slot, K slot .idle s) :
    Sat E (Throughout K) (fun _ u => ∃ slot, K slot .idle u) (c.run slotSize slots)
      (fun r u => ∃ slot, K slot .idle u ∧ (∀ i, r = .slot (some i) → slot = some i) ∧
        (r = .drained true → u.inflightCount slots = 0)) s := by
  obtain ⟨slot, hs⟩ := hs
  cases c with
  | reserve =>
    refine Sat.andThen (h.reserve_sat hs) ?_
    intro r u hu
    cases r with
    | none =>
      have hu := (hu.1 rfl).1
      exact sat_pure.mpr ⟨⟨_, _, hu⟩, slot, hu, nofun, nofun⟩
    | some i =>
      have hu := hu.2 i rfl
      refine sat_pure.mpr ⟨⟨_, _, hu⟩, some i, hu, ?_, nofun⟩
      intro j hj
      cases hj
      rfl
  | fill bs =>
    have hfill : K slot .idle (match s.reserved with
        | some i => s.fill i bs
        | none => s) := by
      cases hr : s.reserved with
      | none => exact hs
      | some i =>
        have hslot : slot = some i := (h.reserved hs).symm.trans hr
        subst hslot
        exact h.fill hs bs
    exact sat_modify_bind.mpr ⟨⟨_, _, hs⟩, sat_pure.mpr ⟨⟨_, _, hfill⟩, slot, hfill, nofun, nofun⟩⟩
  | commit n =>
    refine Sat.andThen (h.commit_sat hs fun _ _ => ⟨slot, hs⟩) ?_
    intro r u hu
    cases r with
    | true =>
      have hu := hu.1 rfl
      exact sat_pure.mpr ⟨⟨_, _, hu⟩, none, hu, nofun, nofun⟩
    | false =>
      have hu := (hu.2 rfl).1
      exact sat_pure.mpr ⟨⟨_, _, hu⟩, slot, hu, nofun, nofun⟩
  | flush =>
    refine Sat.andThen (h.flush_sat hs) ?_
    intro _ u hu
    exact sat_pure.mpr ⟨⟨_, _, hu⟩, slot, hu, nofun, nofun⟩
  | reap wait =>
    refine Sat.andThen (h.reap_sat wait hs) ?_
    intro _ u hu
    exact sat_pure.mpr ⟨⟨_, _, hu⟩, slot, hu, nofun, nofun⟩
  | drain deadline =>
    refine Sat.andThen (h.drain_sat hs) ?_
    intro r u hu
    refine sat_pure.mpr ⟨⟨_, _, hu.1⟩, slot, hu.1, nofun, ?_⟩
    intro hr
    cases hr
    exact hu.2 rfl

end Rules

namespace Invariant
variable {E : Env Zc} {slotSize slots : ℕ} {K : Option ℕ → Phase → State → Prop}
  {X : Exc → State → Prop} {s : State}

theorem construct_sat (h : Invariant E slotSize slots K) (hX : ∀ e t, X e t) (s : State) :
    Sat E (fun _ _ => True) X (construct slotSize slots) (fun _ u => K none .idle u) s := by
  refine sat_modify_bind.mpr ⟨trivial, ?_⟩
  split_ifs
  · exact sat_raise.mpr ⟨trivial, hX _ _⟩
  · refine sat_ask_bind.mpr ⟨trivial, ?_⟩
    intro r t ht
    rw [h.setup (.inr ⟨_, rfl⟩) ht]
    split_ifs
    · exact sat_raise.mpr ⟨trivial, hX _ _⟩
    · refine sat_ask_bind.mpr ⟨trivial, ?_⟩
      intro r u hu
      rw [h.setup (.inl rfl) hu]
      exact sat_modify.mpr ⟨trivial, trivial, h.built⟩

theorem used (h : Invariant E slotSize slots K) (hs : Used E slotSize slots s) :
    ∃ slot, K slot .idle s := by
  apply Session.inv (I := Throughout K) hs
  · intro u hu
    obtain ⟨s₀, hr⟩ := hu
    exact ⟨none, (h.construct_sat (fun _ _ => trivial) s₀).returned hr⟩
  · intro p hp u hu
    obtain ⟨c, rfl⟩ := hp
    refine (h.toRules.call_sat c hu).weaken ?_
    intro r v hv
    obtain ⟨slot, hv, -⟩ := hv
    exact ⟨slot, hv⟩

end Invariant

end Embr.ZcEgress
