import Embr.QuicCalls
import Embr.Lib.Duties

/-!
# Events are passed on at once

Whatever a `QuicTransport` does, an event of ngtcp2 goes to its callback before
the next call, and nothing else touches ngtcp2's account of the bytes accepted
and delivered.
-/

open Octets Interact
namespace Embr.QuicTransport

def Op.event : (o : Op) → o.Reply → Option Event
  | .callback _, r => r
  | _, _ => none

def events : Duties Quic Event where
  due := Op.event
  act := Event.handle
  own s t := t.delivered = s.delivered ∧ t.accepted = s.accepted
  own_refl _ := ⟨rfl, rfl⟩

abbrev Heeds {α : Type} (p : Prog Quic α) : Prop := p.Obeys events none

namespace Heeds
variable {α β σ : Type} {p : Prog Quic α}

theorem pure (a : α) : Heeds (Pure.pure a) := rfl

theorem raise (e : Exc) : Heeds (.raise e : Prog Quic α) := rfl

theorem bind {g : α → Prog Quic β} (hp : Heeds p) (hg : ∀ a, Heeds (g a)) : Heeds (p >>= g) :=
  Prog.Obeys.bind hp hg

theorem get : Heeds (.get : Prog Quic Store) := Prog.Obeys.get

theorem modify {f : Store → Store} (hf : ∀ s, events.own s (f s)) :
    Heeds (.modify f : Prog Quic Unit) := Prog.Obeys.modify hf

theorem act {f : Store → α × Store} (hf : ∀ s, events.own s (f s).2) :
    Heeds (.act f .ret : Prog Quic α) := Prog.Obeys.act hf

theorem ask {o : Op} (ho : ∀ r, Op.event o r = none) : Heeds (quic o) := Prog.Obeys.ask ho

theorem ite {c : Prop} [Decidable c] {q : Prog Quic α} (hp : Heeds p) (hq : Heeds q) :
    Heeds (if c then p else q) := Prog.Obeys.ite hp hq

theorem whenever {c : Prop} [Decidable c] {p : Prog Quic Unit} (hp : Heeds p) :
    Heeds (.when c p) := Prog.Obeys.whenever hp

theorem round {body : σ → Prog Quic (σ ⊕ β)} {x : σ} (h : ∀ y, Heeds (body y)) :
    Heeds (.repeatUntil body x) := Prog.Obeys.round h

theorem attempt (hp : Heeds p) : Heeds p.attempt := Prog.Obeys.attempt hp

theorem egress {p : Prog ZcEgress.Zc α} : Heeds (QuicTransport.egress p) :=
  Prog.Obeys.embed (d := events) egressPart (fun _ _ => ⟨rfl, rfl⟩) (fun _ _ => rfl) p

end Heeds

theorem heeds_callbacks (c : NgCall) : Heeds (callbacks c) := by
  apply Heeds.round
  intro _
  refine Prog.Obeys.ask_bind fun r => ?_
  cases r with
  | none => exact .pure _
  | some e => exact Prog.Obeys.bind (.duty e) fun _ => .pure _

theorem heeds_ngtcp2 (c : NgCall) : Heeds (ngtcp2 c) :=
  Heeds.bind (heeds_callbacks c) fun _ => .ask fun _ => rfl

theorem heeds_setErrno (e : ℕ) : Heeds (setErrno e) := .modify fun _ => ⟨rfl, rfl⟩

theorem heeds_setClosed : Heeds setClosed := .modify fun _ => ⟨rfl, rfl⟩

theorem heeds_resetZc : Heeds resetZc := Heeds.bind .egress fun _ => .modify fun _ => ⟨rfl, rfl⟩

theorem heeds_openZc : Heeds openZc := by
  refine Heeds.bind (.attempt .egress) fun r => ?_
  cases r with
  | error e => exact .pure _
  | ok _ =>
    exact Heeds.bind (.modify fun _ => ⟨rfl, rfl⟩) fun _ => Heeds.bind .get fun _ =>
      .whenever heeds_resetZc

theorem heeds_initEgress : Heeds initEgress := by
  refine Heeds.bind .get fun _ => .ite (.pure _) ?_
  exact Heeds.bind (.modify fun _ => ⟨rfl, rfl⟩) fun _ => Heeds.bind (.ask fun _ => rfl) fun _ =>
    .whenever heeds_openZc

theorem heeds_beginPacket : Heeds beginPacket := by
  refine Heeds.bind heeds_initEgress fun _ => Heeds.bind .get fun _ => .ite ?_ (.pure _)
  refine Heeds.bind .egress fun r => ?_
  cases r with
  | some i => exact .pure _
  | none => exact Heeds.bind heeds_resetZc fun _ => .pure _

theorem heeds_sendPacket (n : ℕ) : Heeds (sendPacket n) := by
  refine Heeds.bind .get fun _ => .ite ?_ ?_
  · refine Heeds.bind .egress fun _ => .ite (.pure _) ?_
    exact Heeds.bind (.modify fun _ => ⟨rfl, rfl⟩) fun _ => .pure _
  · refine Heeds.bind (.ask fun _ => rfl) fun r => ?_
    cases r with
    | some _ => exact .pure _
    | none => exact Heeds.bind .get fun _ => .ite (.pure _) (.pure _)

theorem heeds_flushPackets : Heeds flushPackets :=
  Heeds.bind .get fun _ => .whenever (Heeds.bind .egress fun _ => Heeds.bind .get fun _ =>
    .whenever heeds_resetZc)

theorem heeds_drainPackets : Heeds drainPackets := by
  have hburst : Heeds drainBurst := by
    refine .round fun i => .ite (Heeds.bind heeds_beginPacket fun dest => ?_) (.pure _)
    refine Heeds.bind (heeds_ngtcp2 _) fun r => ?_
    split
    · exact .pure _
    · refine .ite (.pure _) (Heeds.bind (heeds_sendPacket _) fun sr => ?_)
      cases sr <;> exact .pure _
  refine Heeds.bind .get fun _ => .ite (.pure _) (Heeds.bind hburst fun _ => .ite ?_ (.pure _))
  exact Heeds.bind heeds_flushPackets fun _ => .pure _

theorem heeds_alreadyClosing : Heeds alreadyClosing :=
  Heeds.bind .get fun _ => .ite (.pure _) (Heeds.bind (.ask fun _ => rfl) fun _ =>
    .ite (.pure _) (.ask fun _ => rfl))

theorem heeds_writeClose (liberr : Option LibErr) : Heeds (writeClose liberr) := by
  refine Heeds.bind (heeds_ngtcp2 _) fun r => Heeds.bind ?_ fun _ => heeds_setClosed
  cases r with
  | error e => exact .pure _
  | ok n =>
    exact .whenever (Heeds.bind .get fun _ => Heeds.bind (.ask fun _ => rfl) fun _ => .pure _)

theorem heeds_closeConnection {pump : ℕ → Prog Quic Bool} (hpump : ∀ d, Heeds (pump d))
    (liberr : Option LibErr) : Heeds (closeConnection pump liberr) := by
  have hlinger : Heeds (linger pump) := by
    refine Heeds.bind (.ask fun _ => rfl) fun now => .round fun _ => Heeds.bind .get fun _ => ?_
    refine .ite (Heeds.bind (.ask fun _ => rfl) fun _ => .ite ?_ (.pure _)) (.pure _)
    exact Heeds.bind (hpump _) fun _ => .ite (.pure _) (.pure _)
  refine Heeds.bind heeds_alreadyClosing fun _ => .ite heeds_setClosed (Heeds.bind .get fun _ => ?_)
  refine .ite (Heeds.bind hlinger fun _ => Heeds.bind .get fun _ => ?_) (heeds_writeClose _)
  exact .whenever (heeds_writeClose _)

theorem heeds_closeOnError (e : LibErr) : Heeds (closeOnError e) :=
  heeds_closeConnection (fun _ => .pure _) _

theorem heeds_feedData (data : Bytes) : Heeds (feedData data) := by
  refine Heeds.bind (heeds_ngtcp2 _) fun r => ?_
  cases r with
  | none => exact .pure _
  | some e =>
    refine .ite (Heeds.bind heeds_setClosed fun _ => .pure _) ?_
    exact Heeds.bind (heeds_closeOnError e) fun _ => .pure _

theorem heeds_readSocket : Heeds readSocket := by
  refine Heeds.bind (.ask fun _ => rfl) fun r => ?_
  cases r with
  | none => exact Heeds.bind .get fun _ => .pure _
  | some r => exact .ite (.pure _) (heeds_feedData _)

theorem heeds_fireTimer : Heeds fireTimer := by
  refine Heeds.bind (.ask fun _ => rfl) fun _ => Heeds.bind (.ask fun _ => rfl) fun _ => ?_
  refine .ite (Heeds.bind (heeds_ngtcp2 _) fun r => ?_) (.pure _)
  cases r with
  | none => exact .pure _
  | some e =>
    refine .ite (Heeds.bind heeds_setClosed fun _ => .pure _) ?_
    exact Heeds.bind (heeds_closeOnError e) fun _ => .pure _

theorem heeds_pumpOnce (deadline : ℕ) : Heeds (pumpOnce deadline) := by
  have htimers : Heeds runTimers :=
    Heeds.bind heeds_fireTimer fun _ => .ite heeds_drainPackets (.pure _)
  refine Heeds.bind .get fun _ => .ite (.pure _) ?_
  refine Heeds.bind (.ask fun _ => rfl) fun expiry => Heeds.bind (.ask fun _ => rfl) fun now => ?_
  refine Heeds.bind (.ask fun _ => rfl) fun r => ?_
  cases r with
  | none => exact Heeds.bind .get fun _ => .ite (.pure _) htimers
  | some sel =>
    exact .ite (Heeds.bind heeds_readSocket fun _ => .ite htimers (.pure _)) htimers

theorem heeds_pumpOr (accepted : ℕ) : Heeds (pumpOr accepted) :=
  Heeds.bind (heeds_pumpOnce _) fun _ => .ite (.pure _) (Heeds.bind (heeds_setErrno _) fun _ => .pure _)

theorem heeds_pumpAgain : Heeds pumpAgain :=
  Heeds.bind (heeds_pumpOnce _) fun _ => .ite (.pure _) (.pure _)

theorem heeds_writeStream (block : ℕ) (buf : Bytes) : Heeds (writeStream block buf) := by
  refine Heeds.bind (.round fun accepted => .ite ?_ (.pure _)) fun _ => .ite ?_ (.pure _)
  · refine Heeds.bind heeds_beginPacket fun dest => Heeds.bind (heeds_ngtcp2 _) fun r => ?_
    split
    · refine .ite (heeds_pumpOr _) (Heeds.bind (heeds_closeOnError _) fun _ => ?_)
      exact Heeds.bind (heeds_setErrno _) fun _ => .pure _
    · refine .ite (heeds_pumpOr _) (Heeds.bind (.modify fun _ => ⟨rfl, rfl⟩) fun _ => ?_)
      refine Heeds.bind (heeds_sendPacket _) fun sr => ?_
      cases sr with
      | ok => exact .pure _
      | blocked => exact heeds_pumpOr _
      | failed => exact .pure _
  · exact Heeds.bind heeds_flushPackets fun _ => .pure _

theorem heeds_retain (buf : Bytes) : Heeds (retain buf) := .act fun _ => ⟨rfl, rfl⟩

theorem heeds_send (buf : Bytes) : Heeds (send buf) := by
  refine Heeds.bind .get fun _ => .ite (Heeds.bind (heeds_setErrno _) fun _ => .pure _) ?_
  refine .ite (.raise _) (.ite (.pure _) ?_)
  exact Heeds.bind (heeds_retain buf) fun _ => heeds_writeStream _ _

theorem heeds_recv (len : ℕ) : Heeds (recv len) := by
  have hawait : Heeds awaitData := .round fun _ => Heeds.bind .get fun _ =>
    .ite (Heeds.bind (heeds_pumpOnce _) fun _ => .ite (.pure _) (.pure _)) (.pure _)
  refine Heeds.bind hawait fun _ => Heeds.bind .get fun _ => .ite ?_ (.ite (.pure _) (.pure _))
  exact Heeds.bind (.act fun _ => ⟨rfl, rfl⟩) fun _ => .pure _

theorem heeds_sendFin : Heeds sendFin := by
  refine Heeds.bind .get fun _ => .ite (.pure _) (.ite (.pure _) (.round fun _ => ?_))
  refine Heeds.bind .get fun _ => .ite (.pure _) ?_
  refine Heeds.bind heeds_beginPacket fun dest => Heeds.bind (heeds_ngtcp2 _) fun r => ?_
  split
  · exact .ite heeds_pumpAgain (Heeds.bind (heeds_closeOnError _) fun _ => .pure _)
  · refine .ite heeds_pumpAgain (Heeds.bind (heeds_sendPacket _) fun sr => .ite (.pure _) ?_)
    refine .ite (Heeds.bind (.modify fun _ => ⟨rfl, rfl⟩) fun _ => ?_) (.pure _)
    exact Heeds.bind heeds_flushPackets fun _ => .pure _

theorem heeds_throwErrno {α : Type} (what : String) : Heeds (throwErrno what : Prog Quic α) :=
  Heeds.bind .get fun _ => .raise _

theorem heeds_sendFile (fd : Path) (offset len : ℕ) : Heeds (sendFile fd offset len) := by
  refine .ite (.pure _) (Heeds.bind .get fun _ => .ite (.raise _) (.ite (.raise _) ?_))
  refine Heeds.bind (.ask fun _ => rfl) fun page => Heeds.bind (.ask fun _ => rfl) fun map => ?_
  cases map with
  | none => exact heeds_throwErrno _
  | some map =>
    refine Heeds.bind (heeds_retain _) fun _ => Heeds.bind (heeds_writeStream _ _) fun r => ?_
    cases r with
    | none => exact heeds_throwErrno _
    | some _ => exact .pure _

theorem copyTo_delivered (i : Incoming) (dest : ℕ × ℕ) (pos : ℕ) (bs : Bytes) :
    (i.copyTo dest pos bs).delivered = i.delivered := by
  rw [Incoming.copyTo]
  split <;> rfl

theorem heeds_recvFile (fd : Path) (offset len : ℕ) : Heeds (recvFile fd offset len) := by
  have hawait : Heeds (awaitFile len) := by
    refine .round fun _ => Heeds.bind .get fun _ => .ite (.ite (.raise _) ?_) (.pure _)
    exact Heeds.bind (heeds_pumpOnce _) fun _ => .ite (.pure _) (.raise _)
  have hexpect : ∀ m delta, Heeds (expectFile m delta len) := by
    intro m delta
    exact .act fun s => ⟨copyTo_delivered _ _ _ _, rfl⟩
  refine .ite (.pure _) (Heeds.bind (.ask fun _ => rfl) fun page => ?_)
  refine Heeds.bind (.ask fun _ => rfl) fun ok => .ite ?_ (heeds_throwErrno _)
  refine Heeds.bind (hexpect _ _) fun map => Heeds.bind (.attempt hawait) fun r => ?_
  refine Heeds.bind (.modify fun _ => ⟨rfl, rfl⟩) fun _ => ?_
  cases r with
  | ok _ => exact .pure _
  | error e => exact .raise e

theorem heeds_runHandshake : Heeds runHandshake := by
  refine Heeds.bind heeds_drainPackets fun _ => .ite (.round fun _ => ?_) (.pure _)
  exact Heeds.bind (.ask fun _ => rfl) fun _ => .ite (.pure _) heeds_pumpAgain

theorem heeds_sendExact (buf : Bytes) : Heeds (Embr.sendExact quicTransport buf) := by
  refine .round fun sent => .ite (Heeds.bind (heeds_send _) fun r => ?_) (.pure _)
  cases r with
  | some n => exact .ite (.raise _) (.pure _)
  | none => exact Heeds.bind .get fun _ => .ite (.pure _) (.raise _)

theorem heeds_recvExact (len : ℕ) : Heeds (Embr.recvExact quicTransport len) := by
  refine .round fun received => .ite (Heeds.bind (heeds_recv _) fun r => ?_) (.pure _)
  cases r with
  | some bs => exact .ite (.raise _) (.pure _)
  | none => exact Heeds.bind .get fun _ => .ite (.pure _) (.raise _)

theorem heeds_call (c : Call) : Heeds c.run := by
  cases c with
  | handshake => exact Heeds.bind heeds_runHandshake fun _ => .pure _
  | openStream streamId => exact Heeds.bind (.modify fun _ => ⟨rfl, rfl⟩) fun _ => .pure _
  | send buf => exact Heeds.bind (heeds_send _) fun _ => .pure _
  | sendExact buf => exact Heeds.bind (heeds_sendExact _) fun _ => .pure _
  | sendFile fd offset len => exact Heeds.bind (heeds_sendFile _ _ _) fun _ => .pure _
  | sendFin => exact Heeds.bind heeds_sendFin fun _ => .pure _
  | recv len => exact Heeds.bind (heeds_recv _) fun _ => .pure _
  | recvExact len => exact Heeds.bind (heeds_recvExact _) fun _ => .pure _
  | recvFile fd offset len => exact Heeds.bind (heeds_recvFile _ _ _) fun _ => .pure _

end Embr.QuicTransport
