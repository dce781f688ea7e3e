import Embr.Quic
import Embr.SlotOwnership

/-!
# What QUIC may do, and what a pump keeps

`world` answers the calls of a `QuicTransport`: ngtcp2 as its documentation
promises, the socket and the ring as the kernel may. `J` is an invariant of the
sending half and `L` one of the receiving half; each need only be kept by the
callbacks. The functions that pump keep them, and the ring's slots, from there.
-/

open Octets Interact
open Embr.ZcEgress (Tracked tracked_rules)
namespace Embr.QuicTransport

/-! ## ngtcp2 and the kernel -/

def Store.Fails (s t : Store) : Prop := ∃ e, t = { s with errno := e }

def Store.assemble (s : Store) (dest : Option ℕ) (pkt : Bytes) : Store :=
  match dest with
  | some i => { s with toState := s.toState.fill i pkt }
  | none => { s with packetBuf := pkt }

/-- The stream bytes offered, with their block. -/
def Payload.bytes : Payload → List (ℕ × UInt8)
  | .data block _ bs => bs.map fun b => (block, b)
  | _ => []

def Store.accept (s : Store) (bs : List (ℕ × UInt8)) : Store :=
  { s with accepted := s.accepted ++ bs }

def Store.Allows (s : Store) : Event → Prop
  | .ackedStreamDataOffset offset datalen =>
    offset = s.acked ∧ offset + datalen ≤ s.accepted.length
  | .recvStreamData _ offset _ => offset = s.delivered.length
  | .streamOpen streamId => 0 ≤ streamId

def NgCall.answers : (c : NgCall) → Store → c.Reply → Store → Prop
  | .readPkt _, s, _, t => t = s
  | .handleExpiry, s, _, t => t = s
  | .writevStream dest payload, s, r, t => ∃ pkt k, k ≤ payload.bytes.length ∧
      t = (s.assemble dest pkt).accept (payload.bytes.take k) ∧
      match r.1 with
      | .error _ => k = 0
      | .ok n => n ≤ maxPktlen ∧ (n = 0 → k = 0) ∧
          (0 < n → pkt.length = n ∧ (r.2 = k ∨ (k = 0 ∧ r.2 = -1)))
  | .writeConnectionClose _, s, _, t => ∃ pkt, t = { s with packetBuf := pkt }

def world (entries : ℕ) : (o : Op) → Store → o.Reply → Store → Prop
  | .egress o, s, r, t => ∃ z, ZcEgress.kernel entries o s.toState r z ∧ t = { s with toState := z }
  | .callback _, s, r, t => t = s ∧ ∀ e, r = some e → s.Allows e
  | .ng c, s, r, t => c.answers s r t
  | .getExpiry, s, _, t => t = s
  | .inClosingPeriod, s, _, t => t = s
  | .inDrainingPeriod, s, _, t => t = s
  | .handshakeCompleted, s, _, t => t = s
  | .now, s, _, t => t = s
  | .select _ _, s, _, t => s.Fails t
  | .recvmsg, s, r, t =>
      (∃ d : Bytes, r = some (d.take maxRecvPktlen, decide (maxRecvPktlen < d.length)) ∧ t = s) ∨
      (r = none ∧ s.Fails t)
  | .sendmsg buf, s, r, t => (r = some buf.length ∧ t = s) ∨ (r = none ∧ s.Fails t)
  | .getenv _, s, _, t => t = s
  | .pagesize, s, _, t => t = s
  | .mmapRead fd base len, s, r, t =>
      (r = some ((List.range len).map fun i => s.files fd (base + i)) ∧ t = s) ∨
      (r = none ∧ s.Fails t)
  | .mmapShared _ _ _, s, r, t => (r = true ∧ t = s) ∨ (r = false ∧ s.Fails t)

/-! ## Invariants of the two halves -/

def Outgoing.Stable (J : Outgoing → Prop) : Prop := ∀ s datalen, J s →
  s.acked + datalen ≤ s.accepted.length → J (s.onAckedStreamDataOffset s.acked datalen)

structure Incoming.Stable (L : Incoming → Prop) : Prop where
  recv : ∀ s fin data, L s → L (s.onRecvStreamData fin data)
  opened : ∀ s streamId, L s → L { s with streamId := streamId }

/-- ngtcp2 is given bytes of a block that is retained. -/
def Reads (o : Option Op) (s : Outgoing) : Prop :=
  ∀ dest block pos bs, o = some (.ng (.writevStream dest (.data block pos bs))) →
    ∃ u ∈ s.unacked, u.block = block ∧ bs = u.buf.drop pos

structure Points (J : Outgoing → Prop) (L : Incoming → Prop) (o : Option Op) (s : Store) : Prop where
  out : J s.toOutgoing
  inc : L s.toIncoming
  reads : Reads o s.toOutgoing

structure Sound (entries : ℕ) (J : Outgoing → Prop) (L : Incoming → Prop) (s : Store) : Prop where
  out : J s.toOutgoing
  inc : L s.toIncoming
  ring : s.zc = true → ∃ slot, Tracked zcSlots entries slot [] s.toState
  init : s.zc = true → s.egressInit = true

structure Ready (entries : ℕ) (J : Outgoing → Prop) (L : Incoming → Prop) (dest : Option ℕ)
    (s : Store) : Prop where
  out : J s.toOutgoing
  inc : L s.toIncoming
  slot : ∀ i, dest = some i → s.zc = true ∧ Tracked zcSlots entries (some i) [] s.toState
  buffer : dest = none → s.zc = false
  init : s.zc = true → s.egressInit = true

def Heard (s t : Store) : Prop :=
  t = { s with toOutgoing := t.toOutgoing, toIncoming := t.toIncoming }

theorem reads_of_none (s : Outgoing) : Reads none s := by
  intro dest block pos bs h
  cases h

theorem Points.none_of {J : Outgoing → Prop} {L : Incoming → Prop} {s : Store}
    (hout : J s.toOutgoing) (hinc : L s.toIncoming) : Points J L none s :=
  ⟨hout, hinc, reads_of_none _⟩

section
variable {entries : ℕ} {E : Env Quic} {J : Outgoing → Prop} {L : Incoming → Prop}
  {X : Exc → Store → Prop} {s t : Store} {α : Type}

theorem Sound.points (h : Sound entries J L s) : Points J L none s := .none_of h.out h.inc

theorem Sound.pointsAt (h : Sound entries J L s) {o : Op}
    (ho : ∀ dest block pos bs, o ≠ .ng (.writevStream dest (.data block pos bs))) :
    Points J L (some o) s := by
  refine ⟨h.out, h.inc, ?_⟩
  intro dest block pos bs heq
  exact (ho dest block pos bs (Option.some.inj heq)).elim

theorem Sound.fails (h : Sound entries J L s) (ht : s.Fails t) : Sound entries J L t := by
  obtain ⟨e, rfl⟩ := ht
  refine ⟨h.out, h.inc, ?_, h.init⟩
  intro hzc
  obtain ⟨slot, hslot⟩ := h.ring hzc
  exact ⟨slot, (tracked_rules maxPktlen zcSlots entries).errno hslot e⟩

theorem Ready.sound {dest : Option ℕ} (h : Ready entries J L dest s) : Sound entries J L s := by
  refine ⟨h.out, h.inc, ?_, h.init⟩
  intro hzc
  cases dest with
  | none => exact absurd hzc (by simp [h.buffer rfl])
  | some i => exact ⟨_, (h.slot i rfl).2⟩

theorem Ready.heard {dest : Option ℕ} (h : Ready entries J L dest s) (ht : Heard s t)
    (hout : J t.toOutgoing) (hinc : L t.toIncoming) : Ready entries J L dest t := by
  rw [Heard] at ht
  refine ⟨hout, hinc, ?_, ?_, ?_⟩
  · intro i hi
    rw [ht]
    exact h.slot i hi
  · intro hnone
    rw [ht]
    exact h.buffer hnone
  · rw [ht]
    exact h.init

theorem Sound.heard (h : Sound entries J L s) (ht : Heard s t) (hout : J t.toOutgoing)
    (hinc : L t.toIncoming) : Sound entries J L t := by
  rw [Heard] at ht
  refine ⟨hout, hinc, ?_, ?_⟩
  · rw [ht]
    exact h.ring
  · rw [ht]
    exact h.init

theorem throwErrno_sat {I : Option Op → Store → Prop} {Q : α → Store → Prop}
    (what : String) (hI : I none s) (hX : ∀ e, X e s) : Sat E I X (throwErrno what) Q s :=
  sat_get_bind.mpr ⟨hI, sat_raise.mpr ⟨hI, hX _⟩⟩

variable (hE : ∀ o s r t, E o s r t → world entries o s r t) (hJ : Outgoing.Stable J)
  (hL : Incoming.Stable L)
include hE

theorem egress_sat {p : Prog ZcEgress.Zc α} {I : Option ZcEgress.Op → ZcEgress.State → Prop}
    {Y : Exc → ZcEgress.State → Prop} {P : α → ZcEgress.State → Prop} {Q : α → Store → Prop}
    (h : Sat (ZcEgress.kernel entries) I Y p P s.toState)
    (hout : J s.toOutgoing) (hinc : L s.toIncoming)
    (hX : ∀ e z, Y e z → X e { s with toState := z })
    (hQ : ∀ a z, P a z → Q a { s with toState := z }) :
    Sat E (Points J L) X (egress p) Q s := by
  have hanswers : egressPart.Answers (ZcEgress.kernel entries) E := by
    intro o u r v hv
    obtain ⟨z, hz, rfl⟩ := hE _ _ _ _ hv
    exact ⟨hz, rfl⟩
  refine (Sat.embed egressPart hanswers h).mono (fun _ _ _ _ hr => hr) ?_ ?_ ?_
  · intro o u hu
    obtain ⟨⟨o', rfl, -⟩, hframe⟩ := hu
    have hu : u = { s with toState := u.toState } := hframe
    rw [hu]
    refine ⟨hout, hinc, ?_⟩
    intro dest block pos bs heq
    cases o' with
    | none => cases heq
    | some o' => cases heq
  · intro e u hu
    obtain ⟨⟨e', rfl, he⟩, hframe⟩ := hu
    have hu : u = { s with toState := u.toState } := hframe
    rw [hu]
    exact hX _ _ he
  · intro a u hu
    obtain ⟨ha, hframe⟩ := hu
    have hu : u = { s with toState := u.toState } := hframe
    rw [hu]
    exact hQ _ _ ha

include hJ hL

theorem callbacks_sat (c : NgCall) (hout : J s.toOutgoing) (hinc : L s.toIncoming) :
    Sat E (Points J L) X (callbacks c)
      (fun _ u => J u.toOutgoing ∧ L u.toIncoming ∧ Heard s u) s := by
  apply Sat.round (fun _ (u : Store) => J u.toOutgoing ∧ L u.toIncoming ∧ Heard s u)
  · exact ⟨hout, hinc, rfl⟩
  intro _ u hu
  obtain ⟨hout, hinc, hheard⟩ := hu
  refine ⟨.none_of hout hinc, sat_ask_bind.mpr ⟨⟨hout, hinc, ?_⟩, ?_⟩⟩
  · intro dest block pos bs heq
    cases heq
  intro r v hv
  obtain ⟨rfl, hallowed⟩ := hE _ _ _ _ hv
  cases r with
  | none => exact sat_pure.mpr ⟨.none_of hout hinc, .none_of hout hinc, hout, hinc, hheard⟩
  | some e =>
    have hnext : J (e.handle v).toOutgoing ∧ L (e.handle v).toIncoming := by
      cases e with
      | ackedStreamDataOffset offset datalen =>
        obtain ⟨rfl, hle⟩ := hallowed _ rfl
        exact ⟨hJ _ _ hout hle, hinc⟩
      | recvStreamData fin offset data => exact ⟨hout, hL.recv _ _ _ hinc⟩
      | streamOpen streamId => exact ⟨hout, hL.opened _ _ hinc⟩
    have hheard' : Heard s (e.handle v) := by
      rw [Heard] at hheard ⊢
      cases e with
      | ackedStreamDataOffset offset datalen =>
        change { v with toOutgoing := _ } = _
        rw [hheard]
        rfl
      | recvStreamData fin offset data =>
        change { v with toIncoming := _ } = _
        rw [hheard]
        rfl
      | streamOpen streamId =>
        change { v with streamId := _ } = _
        rw [hheard]
        rfl
    exact sat_modify_bind.mpr ⟨.none_of hout hinc,
      sat_pure.mpr ⟨.none_of hnext.1 hnext.2, hnext.1, hnext.2, hheard'⟩⟩

theorem ngtcp2_sat {I : Option Op → Store → Prop} (hI : ∀ o u, Points J L o u → I o u)
    (c : NgCall) {Q : c.Reply → Store → Prop} (hout : J s.toOutgoing) (hinc : L s.toIncoming)
    (hask : ∀ u, J u.toOutgoing → L u.toIncoming → Heard s u → I (some (.ng c)) u ∧
      ∀ r t, E (.ng c) u r t → I none t ∧ Q r t) :
    Sat E I X (ngtcp2 c) Q s := by
  refine Sat.seq (callbacks_sat hE hJ hL c hout hinc) hI ?_
  intro _ u hu
  obtain ⟨hout, hinc, hheard⟩ := hu
  exact sat_ask.mpr (hask u hout hinc hheard)

end

/-! ## Sending packets -/

section packets
variable {entries : ℕ} {E : Env Quic} {J : Outgoing → Prop} {L : Incoming → Prop}
  {X : Exc → Store → Prop} {s t : Store}
  (hE : ∀ o s r t, E o s r t → world entries o s r t)
include hE

theorem resetZc_sat (hs : Sound entries J L s) (hzc : s.zc = true) :
    Sat E (Points J L) X resetZc (fun _ u => Sound entries J L u ∧ u.zc = false) s := by
  obtain ⟨slot, hslot⟩ := hs.ring hzc
  have hdestroy : Sat (ZcEgress.kernel entries) (fun _ _ => True) (fun _ _ => False)
      (ZcEgress.destroy zcSlots) (fun _ _ => True) s.toState :=
    (tracked_rules maxPktlen zcSlots entries).destroy_sat hslot
  refine Sat.andThen (egress_sat hE (Q := fun _ u => J u.toOutgoing ∧ L u.toIncoming) hdestroy
    hs.out hs.inc (fun _ _ he => he.elim) (fun _ _ _ => ⟨hs.out, hs.inc⟩)) ?_
  intro _ u hu
  obtain ⟨hout, hinc⟩ := hu
  exact sat_modify.mpr ⟨.none_of hout hinc, .none_of hout hinc, ⟨hout, hinc, nofun, nofun⟩, rfl⟩

theorem openZc_sat (hs : Sound entries J L s) (hzc : s.zc = false) (hinit : s.egressInit = true) :
    Sat E (Points J L) X openZc (fun _ u => Sound entries J L u) s := by
  have hbuilt := (tracked_rules maxPktlen zcSlots entries).construct_sat
    (X := fun _ _ => True) (fun _ _ => trivial) s.toState
  have hopen : Sat E (Points J L)
      (fun _ u => Sound entries J L u) (egress (ZcEgress.construct maxPktlen zcSlots))
      (fun _ u => Sound entries J L u ∧ u.egressInit = true ∧
        Tracked zcSlots entries none [] u.toState) s := by
    have hsound : ∀ z, Sound entries J L { s with toState := z } := by
      intro z
      refine ⟨hs.out, hs.inc, ?_, ?_⟩
      · intro h
        exact absurd h (by simp [hzc])
      · intro h
        exact absurd h (by simp [hzc])
    exact egress_sat hE hbuilt hs.out hs.inc (fun _ z _ => hsound z)
      (fun _ z hz => ⟨hsound z, hinit, hz⟩)
  refine Sat.andThen hopen.attempt ?_
  intro r t ht
  obtain ⟨hpoint, ht⟩ := ht
  cases r with
  | error e => exact sat_pure.mpr ⟨hpoint, ht⟩
  | ok _ =>
    obtain ⟨hsound, hinit, hslot⟩ := ht
    have hnew : Sound entries J L { t with zc := true } :=
      ⟨hsound.out, hsound.inc, fun _ => ⟨none, hslot⟩, fun _ => hinit⟩
    refine sat_modify_bind.mpr ⟨hpoint, sat_get_bind.mpr ⟨hnew.points, ?_⟩⟩
    apply Sat.when
    · intro _
      refine (resetZc_sat hE hnew rfl).weaken ?_
      intro _ u hu
      exact hu.1
    · intro _
      exact ⟨hnew.points, hnew⟩

theorem initEgress_sat (hs : Sound entries J L s) :
    Sat E (Points J L) X initEgress (fun _ u => Sound entries J L u) s := by
  refine sat_get_bind.mpr ⟨hs.points, ?_⟩
  split_ifs with hinit
  · exact sat_pure.mpr ⟨hs.points, hs⟩
  · have hzc : s.zc = false := by
      cases hz : s.zc with
      | false => rfl
      | true => exact absurd (hs.init hz) hinit
    have hnew : Sound entries J L { s with egressInit := true } :=
      ⟨hs.out, hs.inc, hs.ring, fun _ => rfl⟩
    refine sat_modify_bind.mpr ⟨hs.points, sat_ask_bind.mpr ⟨hnew.pointsAt (by simp), ?_⟩⟩
    intro mode t ht
    have ht := hE _ _ _ _ ht
    subst ht
    exact Sat.when (fun _ => openZc_sat hE hnew hzc rfl) (fun _ => ⟨hnew.points, hnew⟩)

theorem beginPacket_sat (hs : Sound entries J L s) :
    Sat E (Points J L) X beginPacket (fun dest u => Ready entries J L dest u) s := by
  refine Sat.andThen (initEgress_sat hE hs) ?_
  intro _ t ht
  refine sat_get_bind.mpr ⟨ht.points, ?_⟩
  split_ifs with hzc
  · obtain ⟨slot, hslot⟩ := ht.ring hzc
    have hreserve := (tracked_rules maxPktlen zcSlots entries).reserve_sat
      (X := fun _ _ => False) hslot
    refine Sat.andThen (egress_sat hE (Q := fun dest u => u.zc = true ∧ u.egressInit = true ∧
      J u.toOutgoing ∧ L u.toIncoming ∧
      (dest = none → Tracked zcSlots entries slot [] u.toState) ∧
      ∀ i, dest = some i → Tracked zcSlots entries (some i) [] u.toState) hreserve ht.out ht.inc
      (fun _ _ he => he.elim) (fun dest z hz => ⟨hzc, ht.init hzc, ht.out, ht.inc,
        fun hnone => (hz.1 hnone).1, hz.2⟩)) ?_
    intro dest u hu
    obtain ⟨hzc, hinit, hout, hinc, hnone, hsome⟩ := hu
    cases dest with
    | some i =>
      refine sat_pure.mpr ⟨.none_of hout hinc, hout, hinc, ?_, nofun, fun _ => hinit⟩
      intro j hj
      exact ⟨hzc, hsome j hj⟩
    | none =>
      have hu : Sound entries J L u := ⟨hout, hinc, fun _ => ⟨slot, hnone rfl⟩, fun _ => hinit⟩
      refine Sat.andThen (resetZc_sat hE hu hzc) ?_
      intro _ v hv
      exact sat_pure.mpr ⟨hv.1.points, hv.1.out, hv.1.inc, nofun, fun _ => hv.2, hv.1.init⟩
  · have hzc : t.zc = false := by simpa using hzc
    exact sat_pure.mpr ⟨ht.points, ht.out, ht.inc, nofun, fun _ => hzc, ht.init⟩

theorem sendPacket_sat {dest : Option ℕ} {n : ℕ} (hs : Ready entries J L dest s) (hn : 0 < n) (hle : n ≤ maxPktlen) :
    Sat E (Points J L) X (sendPacket n)
      (fun r u => Sound entries J L u ∧ (r = .failed → zcSlots ≤ entries → u.errno ≠ EAGAIN)) s := by
  have hsound := hs.sound
  refine sat_get_bind.mpr ⟨hsound.points, ?_⟩
  split_ifs with hzc
  · cases dest with
    | none => exact absurd hzc (by simp [hs.buffer rfl])
    | some i =>
      have hcommit := (tracked_rules maxPktlen zcSlots entries).commit_sat
        (X := fun _ _ => False) (n := n) (hs.slot i rfl).2 (fun hbad => (hbad ⟨rfl, hn, hle⟩).elim)
      refine Sat.andThen (egress_sat hE (Q := fun _ u => Sound entries J L u ∧
        (zcSlots ≤ entries → u.err ≠ EAGAIN)) hcommit hs.out hs.inc (fun _ _ he => he.elim) ?_) ?_
      · intro ok z hz
        cases ok with
        | true =>
          have htracked := hz.1 rfl
          exact ⟨⟨hs.out, hs.inc, fun _ => ⟨_, htracked⟩, hs.init⟩, htracked.err⟩
        | false =>
          have htracked := (hz.2 rfl).1
          exact ⟨⟨hs.out, hs.inc, fun _ => ⟨_, htracked⟩, hs.init⟩, htracked.err⟩
      · intro ok u hu
        obtain ⟨hu, herr⟩ := hu
        cases ok with
        | true => exact sat_pure.mpr ⟨hu.points, hu, nofun⟩
        | false =>
          have hfail := hu.fails ⟨if u.err ≠ 0 then u.err else EIO, rfl⟩
          refine sat_modify_bind.mpr ⟨hu.points, sat_pure.mpr ⟨hfail.points, hfail, ?_⟩⟩
          intro _ hentries
          change (if u.err ≠ 0 then u.err else EIO) ≠ EAGAIN
          split_ifs
          · exact herr hentries
          · decide
  · refine sat_ask_bind.mpr ⟨hsound.pointsAt nofun, ?_⟩
    intro r t ht
    have ht := hE _ _ _ _ ht
    cases r with
    | some k =>
      rcases ht with ⟨-, rfl⟩ | ⟨hnone, -⟩
      · exact sat_pure.mpr ⟨hsound.points, hsound, nofun⟩
      · cases hnone
    | none =>
      rcases ht with ⟨hsome, -⟩ | ⟨-, hfails⟩
      · cases hsome
      · have ht := hsound.fails hfails
        refine sat_get_bind.mpr ⟨ht.points, ?_⟩
        split_ifs with hblocked
        · exact sat_pure.mpr ⟨ht.points, ht, nofun⟩
        · refine sat_pure.mpr ⟨ht.points, ht, ?_⟩
          intro _ _ hagain
          exact hblocked (.inl hagain)

theorem flushPackets_sat (hs : Sound entries J L s) :
    Sat E (Points J L) X flushPackets (fun _ u => Sound entries J L u) s := by
  refine sat_get_bind.mpr ⟨hs.points, ?_⟩
  apply Sat.when
  · intro hzc
    obtain ⟨slot, hslot⟩ := hs.ring hzc
    have hflush := (tracked_rules maxPktlen zcSlots entries).flush_sat (X := fun _ _ => False) hslot
    refine Sat.andThen (egress_sat hE (Q := fun _ u => Sound entries J L u ∧ u.zc = true) hflush
      hs.out hs.inc (fun _ _ he => he.elim)
      (fun _ z hz => ⟨⟨hs.out, hs.inc, fun _ => ⟨slot, hz⟩, hs.init⟩, hzc⟩)) ?_
    intro _ u hu
    obtain ⟨hu, hzc⟩ := hu
    refine sat_get_bind.mpr ⟨hu.points, ?_⟩
    apply Sat.when
    · intro _
      refine (resetZc_sat hE hu hzc).weaken ?_
      intro _ v hv
      exact hv.1
    · intro _
      exact ⟨hu.points, hu⟩
  · intro _
    exact ⟨hs.points, hs⟩

end packets

/-! ## Pumping -/

section pump
variable {entries : ℕ} {E : Env Quic} {J : Outgoing → Prop} {L : Incoming → Prop}
  {X : Exc → Store → Prop} {s t : Store}
  (hE : ∀ o s r t, E o s r t → world entries o s r t) (hJ : Outgoing.Stable J)
  (hL : Incoming.Stable L)

theorem Sound.closed (hs : Sound entries J L s) : Sound entries J L { s with closed := true } :=
  ⟨hs.out, hs.inc, hs.ring, hs.init⟩

theorem setClosed_sat (hs : Sound entries J L s) :
    Sat E (Points J L) X setClosed (fun _ u => Sound entries J L u) s :=
  sat_modify.mpr ⟨hs.points, hs.closed.points, hs.closed⟩

theorem setErrno_sat (e : ℕ) (hs : Sound entries J L s) :
    Sat E (Points J L) X (setErrno e) (fun _ u => Sound entries J L u ∧ u.errno = e) s := by
  have hfail := hs.fails ⟨e, rfl⟩
  exact sat_modify.mpr ⟨hs.points, hfail.points, hfail, rfl⟩

include hE

theorem alreadyClosing_sat (hs : Sound entries J L s) :
    Sat E (Points J L) X alreadyClosing (fun _ u => Sound entries J L u) s := by
  refine sat_get_bind.mpr ⟨hs.points, ?_⟩
  split_ifs
  · exact sat_pure.mpr ⟨hs.points, hs⟩
  · refine sat_ask_bind.mpr ⟨hs.pointsAt nofun, ?_⟩
    intro closing t ht
    have ht := hE _ _ _ _ ht
    subst ht
    split_ifs
    · exact sat_pure.mpr ⟨hs.points, hs⟩
    · refine sat_ask.mpr ⟨hs.pointsAt nofun, ?_⟩
      intro draining t ht
      have ht := hE _ _ _ _ ht
      subst ht
      exact ⟨hs.points, hs⟩

theorem sendClose_sat (r : Except LibErr ℕ) (hs : Sound entries J L s) :
    Sat E (Points J L) X (sendClose r) (fun _ u => Sound entries J L u) s := by
  cases r with
  | error e => exact sat_pure.mpr ⟨hs.points, hs⟩
  | ok n =>
    apply Sat.when
    · intro _
      refine sat_get_bind.mpr ⟨hs.points, sat_ask_bind.mpr ⟨hs.pointsAt nofun, ?_⟩⟩
      intro r t ht
      have ht : Sound entries J L t := by
        rcases hE _ _ _ _ ht with ⟨-, rfl⟩ | ⟨-, hfails⟩
        · exact hs
        · exact hs.fails hfails
      exact sat_pure.mpr ⟨ht.points, ht⟩
    · intro _
      exact ⟨hs.points, hs⟩

include hJ hL

theorem ngtcp2_plain_sat (c : NgCall) (hc : ∀ dest p, c ≠ .writevStream dest p)
    (hs : Sound entries J L s) :
    Sat E (Points J L) X (ngtcp2 c) (fun _ u => Sound entries J L u) s := by
  refine ngtcp2_sat hE hJ hL (fun _ _ h => h) c hs.out hs.inc ?_
  intro u hout hinc hheard
  have hu := hs.heard hheard hout hinc
  refine ⟨hu.pointsAt ?_, ?_⟩
  · intro dest block pos bs heq
    exact hc dest _ (Op.ng.inj heq)
  · intro r v hv
    have hv := hE _ _ _ _ hv
    have hsound : Sound entries J L v := by
      cases c with
      | readPkt data =>
        have heq : v = u := hv
        rw [heq]
        exact hu
      | handleExpiry =>
        have heq : v = u := hv
        rw [heq]
        exact hu
      | writevStream dest p => exact (hc dest p rfl).elim
      | writeConnectionClose liberr =>
        obtain ⟨pkt, rfl⟩ := hv
        exact ⟨hu.out, hu.inc, hu.ring, hu.init⟩
    exact ⟨hsound.points, hsound⟩

theorem writeClose_sat (liberr : Option LibErr) (hs : Sound entries J L s) :
    Sat E (Points J L) X (writeClose liberr) (fun _ u => Sound entries J L u) s := by
  refine Sat.andThen (ngtcp2_plain_sat hE hJ hL _ nofun hs) ?_
  intro r t ht
  refine Sat.andThen (sendClose_sat hE r ht) ?_
  intro _ u hu
  exact setClosed_sat hu

theorem closeOnError_sat (e : LibErr) (hs : Sound entries J L s) :
    Sat E (Points J L) X (closeOnError e) (fun _ u => Sound entries J L u) s := by
  refine Sat.andThen (alreadyClosing_sat hE hs) ?_
  intro closing t ht
  split_ifs with hclosing
  · exact setClosed_sat ht
  · refine sat_get_bind.mpr ⟨ht.points, ?_⟩
    rw [if_neg (by simp)]
    exact writeClose_sat hE hJ hL _ ht

theorem feedData_sat (data : Bytes) (hs : Sound entries J L s) :
    Sat E (Points J L) X (feedData data) (fun _ u => Sound entries J L u) s := by
  refine Sat.andThen (ngtcp2_plain_sat hE hJ hL _ nofun hs) ?_
  intro r t ht
  cases r with
  | none => exact sat_pure.mpr ⟨ht.points, ht⟩
  | some e =>
    dsimp only
    split_ifs
    · refine Sat.andThen (setClosed_sat ht) ?_
      intro _ u hu
      exact sat_pure.mpr ⟨hu.points, hu⟩
    · refine Sat.andThen (closeOnError_sat hE hJ hL e ht) ?_
      intro _ u hu
      exact sat_pure.mpr ⟨hu.points, hu⟩

theorem readSocket_sat (hs : Sound entries J L s) :
    Sat E (Points J L) X readSocket (fun _ u => Sound entries J L u) s := by
  refine sat_ask_bind.mpr ⟨hs.pointsAt nofun, ?_⟩
  intro r t hr
  have ht : Sound entries J L t := by
    rcases hE _ _ _ _ hr with ⟨d, -, rfl⟩ | ⟨-, hfails⟩
    · exact hs
    · exact hs.fails hfails
  clear hr
  cases r with
  | none => exact sat_get_bind.mpr ⟨ht.points, sat_pure.mpr ⟨ht.points, ht⟩⟩
  | some r =>
    obtain ⟨data, truncated⟩ := r
    dsimp only
    split_ifs
    · exact sat_pure.mpr ⟨ht.points, ht⟩
    · exact feedData_sat hE hJ hL data ht

theorem fireTimer_sat (hs : Sound entries J L s) :
    Sat E (Points J L) X fireTimer (fun _ u => Sound entries J L u) s := by
  refine sat_ask_bind.mpr ⟨hs.pointsAt nofun, ?_⟩
  intro expiry t ht
  have ht := hE _ _ _ _ ht
  subst ht
  refine sat_ask_bind.mpr ⟨hs.pointsAt nofun, ?_⟩
  intro now t ht
  have ht := hE _ _ _ _ ht
  subst ht
  split_ifs
  · refine Sat.andThen (ngtcp2_plain_sat hE hJ hL _ nofun hs) ?_
    intro r u hu
    cases r with
    | none => exact sat_pure.mpr ⟨hu.points, hu⟩
    | some e =>
      dsimp only
      split_ifs
      · refine Sat.andThen (setClosed_sat hu) ?_
        intro _ v hv
        exact sat_pure.mpr ⟨hv.points, hv⟩
      · refine Sat.andThen (closeOnError_sat hE hJ hL e hu) ?_
        intro _ v hv
        exact sat_pure.mpr ⟨hv.points, hv⟩
  · exact sat_pure.mpr ⟨hs.points, hs⟩

def Took (payload : Payload) (k : ℕ) (r : Except LibErr ℕ × ℤ) : Prop :=
  k ≤ payload.bytes.length ∧
    match r.1 with
    | .error _ => k = 0
    | .ok n => n ≤ maxPktlen ∧ (n = 0 → k = 0) ∧ (0 < n → r.2.toNat = k)

theorem writev_sat {I : Option Op → Store → Prop} {F : ℕ → Outgoing → Prop} {dest : Option ℕ}
    (payload : Payload) (hI : ∀ o u, Points J L o u → I o u)
    (hF : ∀ k u, F k u.toOutgoing → L u.toIncoming → I none u)
    (hread : ∀ u, J u → Reads (some (.ng (.writevStream dest payload))) u)
    (haccept : ∀ k o, J o → k ≤ payload.bytes.length →
      F k { o with accepted := o.accepted ++ payload.bytes.take k })
    (hs : Ready entries J L dest s) :
    Sat E I X (ngtcp2 (.writevStream dest payload))
      (fun r u => ∃ k, Took payload k r ∧ Ready entries (F k) L dest u) s := by
  refine ngtcp2_sat hE hJ hL hI _ hs.out hs.inc ?_
  intro u hout hinc hheard
  have hu := hs.heard hheard hout hinc
  refine ⟨hI _ _ ⟨hout, hinc, hread _ hout⟩, ?_⟩
  intro r t ht
  obtain ⟨pkt, k, hk, rfl, hr⟩ := hE _ _ _ _ ht
  have hready : Ready entries (F k) L dest ((u.assemble dest pkt).accept (payload.bytes.take k)) := by
    have hout := haccept k _ hu.out hk
    cases dest with
    | none => exact ⟨hout, hu.inc, nofun, hu.buffer, hu.init⟩
    | some i =>
      refine ⟨hout, hu.inc, ?_, nofun, hu.init⟩
      intro j hj
      obtain ⟨hzc, hslot⟩ := hu.slot j hj
      cases hj
      exact ⟨hzc, (tracked_rules maxPktlen zcSlots entries).fill hslot pkt⟩
  refine ⟨hF k _ hready.out hready.inc, k, ⟨hk, ?_⟩, hready⟩
  cases hcode : r.1 with
  | error e => simpa only [hcode] using hr
  | ok n =>
    simp only [hcode] at hr
    obtain ⟨hle, hzero, hpos⟩ := hr
    refine ⟨hle, hzero, ?_⟩
    intro hn
    rcases (hpos hn).2 with hw | ⟨hk, hw⟩ <;> rw [hw]
    · exact Int.toNat_natCast k
    · rw [hk]
      rfl

theorem writev_plain_sat {dest : Option ℕ} {payload : Payload} (hp : payload.bytes = [])
    (hread : ∀ block pos bs, payload ≠ .data block pos bs) (hs : Ready entries J L dest s) :
    Sat E (Points J L) X (ngtcp2 (.writevStream dest payload))
      (fun r u => Ready entries J L dest u ∧ ∀ n, r.1 = .ok n → n ≤ maxPktlen) s := by
  refine (writev_sat hE hJ hL (F := fun _ => J) payload (fun _ _ h => h)
    (fun _ _ hout hinc => .none_of hout hinc) ?_ ?_ hs).weaken ?_
  · intro o _ dest block pos bs heq
    cases heq
    exact (hread block pos bs rfl).elim
  · intro k o ho _
    simpa [hp] using ho
  · intro r u hu
    obtain ⟨k, ⟨-, hr⟩, hu⟩ := hu
    refine ⟨hu, ?_⟩
    intro n hn
    simp only [hn] at hr
    exact hr.1

theorem drainBurst_sat (hs : Sound entries J L s) :
    Sat E (Points J L) X drainBurst (fun _ u => Sound entries J L u) s := by
  apply Sat.round (fun _ u => Sound entries J L u)
  · exact hs
  intro i t ht
  refine ⟨ht.points, ?_⟩
  split_ifs
  · refine Sat.andThen (beginPacket_sat hE ht) ?_
    intro dest u hu
    refine Sat.andThen (writev_plain_sat hE hJ hL rfl nofun hu) ?_
    intro r v hv
    obtain ⟨hv, hlen⟩ := hv
    have hsound := hv.sound
    cases hcode : r.1 with
    | error e => exact sat_pure.mpr ⟨hsound.points, hsound.points, hsound⟩
    | ok n =>
      dsimp only
      split_ifs with hzero
      · exact sat_pure.mpr ⟨hsound.points, hsound.points, hsound⟩
      · refine Sat.andThen (sendPacket_sat hE hv (by omega) (hlen n hcode)) ?_
        intro sr w hw
        obtain ⟨hw, -⟩ := hw
        cases sr with
        | ok => exact sat_pure.mpr ⟨hw.points, hw⟩
        | blocked => exact sat_pure.mpr ⟨hw.points, hw.points, hw⟩
        | failed => exact sat_pure.mpr ⟨hw.points, hw.points, hw⟩
  · exact sat_pure.mpr ⟨ht.points, ht.points, ht⟩

theorem drainPackets_sat (hs : Sound entries J L s) :
    Sat E (Points J L) X drainPackets (fun _ u => Sound entries J L u) s := by
  refine sat_get_bind.mpr ⟨hs.points, ?_⟩
  split_ifs
  · exact sat_pure.mpr ⟨hs.points, hs⟩
  · refine Sat.andThen (drainBurst_sat hE hJ hL hs) ?_
    intro ok t ht
    split_ifs
    · refine Sat.andThen (flushPackets_sat hE ht) ?_
      intro _ u hu
      exact sat_pure.mpr ⟨hu.points, hu⟩
    · exact sat_pure.mpr ⟨ht.points, ht⟩

theorem runTimers_sat (hs : Sound entries J L s) :
    Sat E (Points J L) X runTimers (fun _ u => Sound entries J L u) s := by
  refine Sat.andThen (fireTimer_sat hE hJ hL hs) ?_
  intro ok t ht
  split_ifs
  · exact drainPackets_sat hE hJ hL ht
  · exact sat_pure.mpr ⟨ht.points, ht⟩

theorem pumpOnce_sat (deadline : ℕ) (hs : Sound entries J L s) :
    Sat E (Points J L) X (pumpOnce deadline) (fun _ u => Sound entries J L u) s := by
  refine sat_get_bind.mpr ⟨hs.points, ?_⟩
  split_ifs
  · exact sat_pure.mpr ⟨hs.points, hs⟩
  · refine sat_ask_bind.mpr ⟨hs.pointsAt nofun, ?_⟩
    intro expiry t ht
    have ht := hE _ _ _ _ ht
    subst ht
    refine sat_ask_bind.mpr ⟨hs.pointsAt nofun, ?_⟩
    intro now t ht
    have ht := hE _ _ _ _ ht
    subst ht
    refine sat_ask_bind.mpr ⟨hs.pointsAt nofun, ?_⟩
    intro sel t hr
    have ht := hs.fails (hE _ _ _ _ hr)
    clear hr
    cases sel with
    | none =>
      refine sat_get_bind.mpr ⟨ht.points, ?_⟩
      split_ifs
      · exact sat_pure.mpr ⟨ht.points, ht⟩
      · exact runTimers_sat hE hJ hL ht
    | some sel =>
      dsimp only
      split_ifs
      · refine Sat.andThen (readSocket_sat hE hJ hL ht) ?_
        intro ok u hu
        split_ifs
        · exact runTimers_sat hE hJ hL hu
        · exact sat_pure.mpr ⟨hu.points, hu⟩
      · exact runTimers_sat hE hJ hL ht

theorem pumpOr_sat (accepted : ℕ) (hs : Sound entries J L s) :
    Sat E (Points J L) X (pumpOr accepted)
      (fun r u => Sound entries J L u ∧ (r = .inl accepted ∨ r = .inr false ∧ u.errno ≠ EAGAIN))
      s := by
  refine Sat.andThen (pumpOnce_sat hE hJ hL never hs) ?_
  intro ok t ht
  split_ifs
  · exact sat_pure.mpr ⟨ht.points, ht, .inl rfl⟩
  · refine Sat.andThen (setErrno_sat ECONNABORTED ht) ?_
    intro _ u hu
    obtain ⟨hu, herrno⟩ := hu
    refine sat_pure.mpr ⟨hu.points, hu, .inr ⟨rfl, ?_⟩⟩
    rw [herrno]
    decide

theorem awaitData_sat (hs : Sound entries J L s) :
    Sat E (Points J L) X awaitData (fun _ u => Sound entries J L u) s := by
  apply Sat.round (fun _ u => Sound entries J L u)
  · exact hs
  intro _ t ht
  refine ⟨ht.points, sat_get_bind.mpr ⟨ht.points, ?_⟩⟩
  split_ifs
  · refine Sat.andThen (pumpOnce_sat hE hJ hL never ht) ?_
    intro ok u hu
    split_ifs
    · exact sat_pure.mpr ⟨hu.points, hu⟩
    · exact sat_pure.mpr ⟨hu.points, hu.points, hu⟩
  · exact sat_pure.mpr ⟨ht.points, ht.points, ht⟩

theorem pumpAgain_sat (hs : Sound entries J L s) :
    Sat E (Points J L) X pumpAgain (fun r u => r.elim (fun _ => Sound entries J L u)
      fun _ => Points J L none u ∧ Sound entries J L u) s := by
  refine Sat.andThen (pumpOnce_sat hE hJ hL never hs) ?_
  intro ok v hv
  split_ifs
  · exact sat_pure.mpr ⟨hv.points, hv⟩
  · exact sat_pure.mpr ⟨hv.points, hv.points, hv⟩

theorem runHandshake_sat (hs : Sound entries J L s) :
    Sat E (Points J L) X runHandshake (fun _ u => Sound entries J L u) s := by
  refine Sat.andThen (drainPackets_sat hE hJ hL hs) ?_
  intro ok t ht
  split_ifs
  · apply Sat.round (fun _ u => Sound entries J L u)
    · exact ht
    intro _ u hu
    refine ⟨hu.points, sat_ask_bind.mpr ⟨hu.pointsAt nofun, ?_⟩⟩
    intro completed v hv
    have hv := hE _ _ _ _ hv
    subst hv
    split_ifs
    · exact sat_pure.mpr ⟨hu.points, hu.points, hu⟩
    · exact pumpAgain_sat hE hJ hL hu
  · exact sat_pure.mpr ⟨ht.points, ht⟩

theorem sendFin_sat (hs : Sound entries J L s) :
    Sat E (Points J L) X sendFin (fun _ u => Sound entries J L u) s := by
  refine sat_get_bind.mpr ⟨hs.points, ?_⟩
  split_ifs
  · exact sat_pure.mpr ⟨hs.points, hs⟩
  · exact sat_pure.mpr ⟨hs.points, hs⟩
  · apply Sat.round (fun _ u => Sound entries J L u)
    · exact hs
    intro _ t ht
    refine ⟨ht.points, sat_get_bind.mpr ⟨ht.points, ?_⟩⟩
    split_ifs
    · exact sat_pure.mpr ⟨ht.points, ht.points, ht⟩
    · refine Sat.andThen (beginPacket_sat hE ht) ?_
      intro dest u hu
      refine Sat.andThen (writev_plain_sat hE hJ hL rfl nofun hu) ?_
      intro r v hv
      obtain ⟨hv, hlen⟩ := hv
      have hsound := hv.sound
      cases hcode : r.1 with
      | error e =>
        dsimp only
        split_ifs
        · exact pumpAgain_sat hE hJ hL hsound
        · refine Sat.andThen (closeOnError_sat hE hJ hL e hsound) ?_
          intro _ w hw
          exact sat_pure.mpr ⟨hw.points, hw.points, hw⟩
      | ok n =>
        dsimp only
        by_cases hzero : n = 0
        · rw [if_pos hzero]
          exact pumpAgain_sat hE hJ hL hsound
        · rw [if_neg hzero]
          refine Sat.andThen (sendPacket_sat hE hv (by omega) (hlen n hcode)) ?_
          intro sr w hw
          obtain ⟨hw, -⟩ := hw
          split_ifs
          · exact sat_pure.mpr ⟨hw.points, hw.points, hw⟩
          · have hfin : Sound entries J L { w with finSent := true } :=
              ⟨hw.out, hw.inc, hw.ring, hw.init⟩
            refine sat_modify_bind.mpr ⟨hw.points, ?_⟩
            refine Sat.andThen (flushPackets_sat hE hfin) ?_
            intro _ x hx
            exact sat_pure.mpr ⟨hx.points, hx.points, hx⟩
          · exact sat_pure.mpr ⟨hw.points, hw⟩

end pump

end Embr.QuicTransport
