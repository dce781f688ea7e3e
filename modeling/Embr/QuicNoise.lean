import Embr.QuicCalls
import Embr.Lib.Trace

/-!
# What a pump does not heed

A socket error that an ICMP message has left, reported by `recvmsg`, and a
datagram that ngtcp2 drops: in both cases the pump goes on as if `select` had
found nothing. Every function of the transport takes them so, since all of
them read the socket through `pump_once`.
-/

open Octets Interact
namespace Embr.QuicTransport

def icmpErrno (e : ℕ) : Prop := e = ECONNREFUSED ∨ e = ENETUNREACH ∨ e = EHOSTUNREACH

/-- `recvmsg` reports the error that was pending on the socket. -/
inductive Pending : (o : Op) → o.Reply → Store → List (Label Quic) → o.Reply → Store → Prop
  | icmp {sec usec sel : ℕ} {u v : Store} : 0 < sel → icmpErrno v.errno → u.Fails v →
      Pending (.select sec usec) (some sel) u [⟨Op.recvmsg, none, v⟩] (some 0) v

inductive Junk : (o : Op) → o.Reply → Store → List (Label Quic) → o.Reply → Store → Prop
  | dropped {sec usec sel : ℕ} {u : Store} {data : Bytes} : 0 < sel →
      Junk (.select sec usec) (some sel) u
        [⟨Op.recvmsg, some (data, false), u⟩, ⟨Op.callback (.readPkt data), none, u⟩,
          ⟨Op.ng (.readPkt data), none, u⟩] (some 0) u

def Noise (o : Op) (r : o.Reply) (u : Store) (js : List (Label Quic)) (r' : o.Reply) (u' : Store) :
    Prop := Pending o r u js r' u' ∨ Junk o r u js r' u'

def Icmp (a : Label Quic) : Prop := ∃ v, a = ⟨Op.recvmsg, none, v⟩ ∧ icmpErrno v.errno

def Readable (a : Label Quic) : Prop :=
  ∃ sec usec sel u, a = ⟨Op.select sec usec, some sel, u⟩ ∧ 0 < sel

def Stray (last : Option (Label Quic)) (a : Label Quic) : Prop :=
  Icmp a ∧ ¬ ∃ b, last = some b ∧ Readable b

theorem stray_lenient : Lenient Stray := by
  intro a b h
  refine ⟨h.1, ?_⟩
  intro hnone
  obtain ⟨_, hnone, -⟩ := hnone
  cases hnone

def Op.looks : Op → Bool
  | .select _ _ => true
  | .recvmsg => true
  | _ => false

abbrev Deaf {α : Type} (p : Prog Quic α) (last : Option (Label Quic)) : Prop :=
  p.Ignores Noise Stray last

namespace Deaf
variable {α β σ : Type} {p : Prog Quic α} {last : Option (Label Quic)}

theorem pure (a : α) : Deaf (Pure.pure a) last := trivial

theorem raise (e : Exc) : Deaf (.raise e : Prog Quic α) last := trivial

theorem bind {g : α → Prog Quic β} (hp : Deaf p last) (hg : ∀ a, Deaf (g a) none) :
    Deaf (p >>= g) last := Prog.Ignores.bind stray_lenient hp hg

theorem get : Deaf (.get : Prog Quic Store) last := fun _ => trivial

theorem modify (f : Store → Store) : Deaf (.modify f : Prog Quic Unit) last := fun _ => trivial

theorem act (f : Store → α × Store) : Deaf (.act f .ret : Prog Quic α) last := fun _ => trivial

theorem ite {c : Prop} [Decidable c] {q : Prog Quic α} (hp : Deaf p last) (hq : Deaf q last) :
    Deaf (if c then p else q) last := by
  split
  · exact hp
  · exact hq

theorem when {c : Prop} [Decidable c] {p : Prog Quic Unit} (hp : Deaf p last) :
    Deaf (.when c p) last := ite hp trivial

theorem round {body : σ → Prog Quic (σ ⊕ β)} {x : σ} (h : ∀ y, Deaf (body y) none) :
    Deaf (.repeatUntil body x) last := ⟨h, fun _ => trivial⟩

theorem ask {o : Op} (ho : o.looks = false) : Deaf (quic o) last := by
  refine ⟨?_, fun r u => ⟨?_, trivial⟩⟩
  · intro r u js r' u' hcut
    rcases hcut with hcut | hcut
    · cases hcut
      cases ho
    · cases hcut
      cases ho
  · intro hstray
    obtain ⟨⟨v, heq, -⟩, -⟩ := hstray
    cases heq
    cases ho

theorem egress {p : Prog ZcEgress.Zc α} : Deaf (QuicTransport.egress p) last := by
  rw [QuicTransport.egress]
  induction p generalizing last with
  | ret a => trivial
  | raise e => trivial
  | act f k ih => exact fun b => ih _
  | call o k ih =>
    have hask : Deaf (quic (.egress o)) last := ask rfl
    refine ⟨fun r u js r' u' hcut => ?_, fun r u => ⟨(hask.2 r u).1, ih _⟩⟩
    rcases hcut with hcut | hcut <;> cases hcut
  | loop body x k ihb ihk => exact ⟨fun y => ihb y, fun b => ihk b⟩

end Deaf

theorem deaf_callbacks (c : NgCall) : Deaf (callbacks c) none := by
  apply Deaf.round
  intro _
  refine Deaf.bind (.ask rfl) ?_
  intro r
  cases r with
  | none => exact .pure _
  | some e => exact Deaf.bind (.modify _) fun _ => .pure _

theorem deaf_ngtcp2 (c : NgCall) : Deaf (ngtcp2 c) none :=
  Deaf.bind (deaf_callbacks c) fun _ => .ask rfl

theorem deaf_resetZc : Deaf resetZc none := Deaf.bind .egress fun _ => .modify _

theorem deaf_openZc : Deaf openZc none := by
  refine Deaf.bind (Prog.Ignores.attempt stray_lenient Deaf.egress) ?_
  intro r
  cases r with
  | error e => exact .pure _
  | ok _ => exact Deaf.bind (.modify _) fun _ => Deaf.bind .get fun _ => .when deaf_resetZc

theorem deaf_initEgress : Deaf initEgress none := by
  refine Deaf.bind .get fun _ => .ite (.pure _) ?_
  exact Deaf.bind (.modify _) fun _ => Deaf.bind (.ask rfl) fun _ => .when deaf_openZc

theorem deaf_beginPacket : Deaf beginPacket none := by
  refine Deaf.bind deaf_initEgress fun _ => Deaf.bind .get fun _ => .ite ?_ (.pure _)
  refine Deaf.bind .egress ?_
  intro r
  cases r with
  | some i => exact .pure _
  | none => exact Deaf.bind deaf_resetZc fun _ => .pure _

theorem deaf_sendPacket (n : ℕ) : Deaf (sendPacket n) none := by
  refine Deaf.bind .get fun _ => .ite ?_ ?_
  · refine Deaf.bind .egress fun _ => .ite (.pure _) ?_
    exact Deaf.bind (.modify _) fun _ => .pure _
  · refine Deaf.bind (.ask rfl) ?_
    intro r
    cases r with
    | some _ => exact .pure _
    | none => exact Deaf.bind .get fun _ => .ite (.pure _) (.pure _)

theorem deaf_flushPackets : Deaf flushPackets none :=
  Deaf.bind .get fun _ => .when (Deaf.bind .egress fun _ => Deaf.bind .get fun _ =>
    .when deaf_resetZc)

theorem deaf_drainBurst : Deaf drainBurst none := by
  apply Deaf.round
  intro i
  refine .ite ?_ (.pure _)
  refine Deaf.bind deaf_beginPacket fun dest => Deaf.bind (deaf_ngtcp2 _) ?_
  intro r
  split
  · exact .pure _
  · refine .ite (.pure _) (Deaf.bind (deaf_sendPacket _) ?_)
    intro sr
    cases sr <;> exact .pure _

theorem deaf_drainPackets : Deaf drainPackets none := by
  refine Deaf.bind .get fun _ => .ite (.pure _) (Deaf.bind deaf_drainBurst fun _ => .ite ?_ (.pure _))
  exact Deaf.bind deaf_flushPackets fun _ => .pure _

theorem deaf_writeClose (liberr : Option LibErr) : Deaf (writeClose liberr) none := by
  refine Deaf.bind (deaf_ngtcp2 _) ?_
  intro r
  refine Deaf.bind ?_ fun _ => .modify _
  cases r with
  | error e => exact .pure _
  | ok n => exact .when (Deaf.bind .get fun _ => Deaf.bind (.ask rfl) fun _ => .pure _)

theorem deaf_alreadyClosing : Deaf alreadyClosing none :=
  Deaf.bind .get fun _ => .ite (.pure _) (Deaf.bind (.ask rfl) fun _ => .ite (.pure _) (.ask rfl))

theorem deaf_linger {pump : ℕ → Prog Quic Bool} (hpump : ∀ d, Deaf (pump d) none) :
    Deaf (linger pump) none := by
  refine Deaf.bind (.ask rfl) fun now => .round fun _ => Deaf.bind .get fun _ => .ite ?_ (.pure _)
  refine Deaf.bind (.ask rfl) fun _ => .ite ?_ (.pure _)
  exact Deaf.bind (hpump _) fun _ => .ite (.pure _) (.pure _)

theorem deaf_closeConnection {pump : ℕ → Prog Quic Bool} (hpump : ∀ d, Deaf (pump d) none)
    (liberr : Option LibErr) : Deaf (closeConnection pump liberr) none := by
  refine Deaf.bind deaf_alreadyClosing fun _ => .ite (.modify _) (Deaf.bind .get fun _ => ?_)
  refine .ite (Deaf.bind (deaf_linger hpump) fun _ => Deaf.bind .get fun _ => ?_) (deaf_writeClose _)
  exact .when (deaf_writeClose _)

theorem deaf_closeOnError (e : LibErr) : Deaf (closeOnError e) none :=
  deaf_closeConnection (fun _ => .pure _) _

theorem deaf_feedData (data : Bytes) : Deaf (feedData data) none := by
  refine Deaf.bind (deaf_ngtcp2 _) ?_
  intro r
  cases r with
  | none => exact .pure _
  | some e =>
    refine .ite (Deaf.bind (.modify _) fun _ => .pure _) ?_
    exact Deaf.bind (deaf_closeOnError e) fun _ => .pure _

theorem deaf_readSocket {a : Label Quic} (ha : Readable a) : Deaf readSocket (some a) := by
  refine Deaf.bind ⟨fun r u js r' u' hcut => ?_, fun r u => ⟨?_, trivial⟩⟩ ?_
  · rcases hcut with hcut | hcut <;> cases hcut
  · intro hstray
    exact hstray.2 ⟨a, rfl, ha⟩
  · intro r
    cases r with
    | none => exact Deaf.bind .get fun _ => .pure _
    | some r => exact .ite (.pure _) (deaf_feedData _)

theorem deaf_fireTimer : Deaf fireTimer none := by
  refine Deaf.bind (.ask rfl) fun _ => Deaf.bind (.ask rfl) fun _ => .ite ?_ (.pure _)
  refine Deaf.bind (deaf_ngtcp2 _) ?_
  intro r
  cases r with
  | none => exact .pure _
  | some e =>
    refine .ite (Deaf.bind (.modify _) fun _ => .pure _) ?_
    exact Deaf.bind (deaf_closeOnError e) fun _ => .pure _

theorem deaf_runTimers : Deaf runTimers none :=
  Deaf.bind deaf_fireTimer fun _ => .ite deaf_drainPackets (.pure _)

def afterSelect : Option ℕ → Prog Quic Bool
  | none => do
    let s ← .get
    if s.errno ≠ EINTR then pure false else runTimers
  | some sel =>
    if 0 < sel then do
      let ok ← readSocket
      if ok then runTimers else pure false
    else runTimers

theorem softErrno_of_icmp {e : ℕ} (h : icmpErrno e) : softErrno e := by
  rcases h with rfl | rfl | rfl <;> decide

theorem afterSelect_noise {sec usec : ℕ} {r r' : Option ℕ} {u u' : Store} {js : List (Label Quic)}
    (h : Noise (.select sec usec) r u js r' u') :
    Follows (afterSelect r) u js (afterSelect r') u' := by
  have hnothing : afterSelect (some 0) = runTimers := by
    rw [afterSelect, if_neg (lt_irrefl 0)]
  rcases h with h | h
  · obtain ⟨hsel, hicmp, -⟩ := h
    rw [hnothing, afterSelect, if_pos hsel]
    refine .call trivial (.act ?_)
    have hsoft : decide (softErrno u'.errno) = true := decide_eq_true (softErrno_of_icmp hicmp)
    change Follows (if decide (softErrno u'.errno) = true then runTimers else pure false) u' [] _ _
    rw [if_pos hsoft]
    exact .done
  · cases h with
    | dropped hsel =>
      rw [hnothing, afterSelect, if_pos hsel]
      exact .call trivial (.loop (.call trivial (.call trivial .done)))

theorem pumpOnce_eq (deadline : ℕ) : pumpOnce deadline = (do
    let s : Store ← @Prog.get Quic
    if s.closed then pure false
    else do
      let expiry : ℕ ← quic .getExpiry
      let now : ℕ ← quic .now
      let r : Option ℕ ← quic (.select (waitTime (min expiry deadline) now).1
        (waitTime (min expiry deadline) now).2)
      afterSelect r) := by
  unfold pumpOnce
  congr 1
  funext s
  split_ifs
  · rfl
  · congr 1
    funext expiry
    congr 1
    funext now
    dsimp only
    congr 1
    funext r
    cases r with
    | none => rfl
    | some sel => simp only [afterSelect]

theorem deaf_pumpOnce (deadline : ℕ) : Deaf (pumpOnce deadline) none := by
  rw [pumpOnce_eq]
  refine Deaf.bind .get fun _ => .ite (.pure _) ?_
  refine Deaf.bind (.ask rfl) fun expiry => Deaf.bind (.ask rfl) fun now => ?_
  refine ⟨fun r u js r' u' h => afterSelect_noise h, fun r u => ⟨?_, ?_⟩⟩
  · intro hstray
    obtain ⟨⟨v, heq, -⟩, -⟩ := hstray
    cases heq
  · cases r with
    | none =>
      change Deaf (afterSelect none) _
      exact Deaf.bind .get fun _ => .ite (.pure _) deaf_runTimers
    | some sel =>
      by_cases hsel : 0 < sel
      · change Deaf (afterSelect (some sel)) _
        rw [afterSelect, if_pos hsel]
        exact Deaf.bind (deaf_readSocket ⟨_, _, _, _, rfl, hsel⟩) fun _ =>
          .ite deaf_runTimers (.pure _)
      · change Deaf (afterSelect (some sel)) _
        rw [afterSelect, if_neg hsel]
        exact deaf_runTimers.later stray_lenient

theorem deaf_pumpOr (accepted : ℕ) : Deaf (pumpOr accepted) none := by
  refine Deaf.bind (deaf_pumpOnce _) fun _ => .ite (.pure _) ?_
  exact Deaf.bind (.modify _) fun _ => .pure _

theorem deaf_pumpAgain : Deaf pumpAgain none :=
  Deaf.bind (deaf_pumpOnce _) fun _ => .ite (.pure _) (.pure _)

theorem deaf_writeStream (block : ℕ) (buf : Bytes) : Deaf (writeStream block buf) none := by
  refine Deaf.bind (.round fun accepted => .ite ?_ (.pure _)) fun _ => .ite ?_ (.pure _)
  · refine Deaf.bind deaf_beginPacket fun dest => Deaf.bind (deaf_ngtcp2 _) fun r => ?_
    split
    · refine .ite (deaf_pumpOr _) (Deaf.bind (deaf_closeOnError _) fun _ => ?_)
      exact Deaf.bind (.modify _) fun _ => .pure _
    · refine .ite (deaf_pumpOr _) (Deaf.bind (.modify _) fun _ => ?_)
      refine Deaf.bind (deaf_sendPacket _) fun sr => ?_
      cases sr with
      | ok => exact .pure _
      | blocked => exact deaf_pumpOr _
      | failed => exact .pure _
  · exact Deaf.bind deaf_flushPackets fun _ => .pure _

theorem deaf_send (buf : Bytes) : Deaf (send buf) none := by
  refine Deaf.bind .get fun _ => .ite (Deaf.bind (.modify _) fun _ => .pure _) ?_
  refine .ite (.raise _) (.ite (.pure _) ?_)
  exact Deaf.bind (.act _) fun _ => deaf_writeStream _ _

theorem deaf_awaitData : Deaf awaitData none :=
  .round fun _ => Deaf.bind .get fun _ => .ite (Deaf.bind (deaf_pumpOnce _) fun _ =>
    .ite (.pure _) (.pure _)) (.pure _)

theorem deaf_recv (len : ℕ) : Deaf (recv len) none := by
  refine Deaf.bind deaf_awaitData fun _ => Deaf.bind .get fun _ => .ite ?_ ?_
  · exact Deaf.bind (.act _) fun _ => .pure _
  · exact .ite (.pure _) (.pure _)

theorem deaf_sendFin : Deaf sendFin none := by
  refine Deaf.bind .get fun _ => .ite (.pure _) (.ite (.pure _) (.round fun _ => ?_))
  refine Deaf.bind .get fun _ => .ite (.pure _) ?_
  refine Deaf.bind deaf_beginPacket fun dest => Deaf.bind (deaf_ngtcp2 _) fun r => ?_
  split
  · exact .ite deaf_pumpAgain (Deaf.bind (deaf_closeOnError _) fun _ => .pure _)
  · refine .ite deaf_pumpAgain (Deaf.bind (deaf_sendPacket _) fun sr => .ite (.pure _) (.ite ?_ (.pure _)))
    exact Deaf.bind (.modify _) fun _ => Deaf.bind deaf_flushPackets fun _ => .pure _

theorem deaf_throwErrno {α : Type} (what : String) : Deaf (throwErrno what : Prog Quic α) none :=
  Deaf.bind .get fun _ => .raise _

theorem deaf_sendFile (fd : Path) (offset len : ℕ) : Deaf (sendFile fd offset len) none := by
  refine .ite (.pure _) (Deaf.bind .get fun _ => .ite (.raise _) (.ite (.raise _) ?_))
  refine Deaf.bind (.ask rfl) fun page => Deaf.bind (.ask rfl) fun map => ?_
  cases map with
  | none => exact deaf_throwErrno _
  | some map =>
    refine Deaf.bind (.act _) fun _ => Deaf.bind (deaf_writeStream _ _) fun r => ?_
    cases r with
    | none => exact deaf_throwErrno _
    | some _ => exact .pure _

theorem deaf_awaitFile (len : ℕ) : Deaf (awaitFile len) none :=
  .round fun _ => Deaf.bind .get fun _ => .ite (.ite (.raise _) (Deaf.bind (deaf_pumpOnce _) fun _ =>
    .ite (.pure _) (.raise _))) (.pure _)

theorem deaf_recvFile (fd : Path) (offset len : ℕ) : Deaf (recvFile fd offset len) none := by
  refine .ite (.pure _) (Deaf.bind (.ask rfl) fun page => Deaf.bind (.ask rfl) fun ok => ?_)
  refine .ite (Deaf.bind (.act _) fun map => ?_) (deaf_throwErrno _)
  refine Deaf.bind (Prog.Ignores.attempt stray_lenient (deaf_awaitFile len)) fun r => ?_
  refine Deaf.bind (.modify _) fun _ => ?_
  cases r with
  | ok _ => exact .pure _
  | error e => exact .raise e

theorem deaf_runHandshake : Deaf runHandshake none := by
  refine Deaf.bind deaf_drainPackets fun _ => .ite (.round fun _ => ?_) (.pure _)
  exact Deaf.bind (.ask rfl) fun _ => .ite (.pure _) deaf_pumpAgain

theorem deaf_sendExact (buf : Bytes) : Deaf (Embr.sendExact quicTransport buf) none := by
  refine .round fun sent => .ite (Deaf.bind (deaf_send _) fun r => ?_) (.pure _)
  cases r with
  | some n => exact .ite (.raise _) (.pure _)
  | none => exact Deaf.bind .get fun _ => .ite (.pure _) (.raise _)

theorem deaf_recvExact (len : ℕ) : Deaf (Embr.recvExact quicTransport len) none := by
  refine .round fun received => .ite (Deaf.bind (deaf_recv _) fun r => ?_) (.pure _)
  cases r with
  | some bs => exact .ite (.raise _) (.pure _)
  | none => exact Deaf.bind .get fun _ => .ite (.pure _) (.raise _)

theorem deaf_call (c : Call) : Deaf c.run none := by
  cases c with
  | handshake => exact Deaf.bind deaf_runHandshake fun _ => .pure _
  | openStream streamId => exact Deaf.bind (.modify _) fun _ => .pure _
  | send buf => exact Deaf.bind (deaf_send _) fun _ => .pure _
  | sendExact buf => exact Deaf.bind (deaf_sendExact _) fun _ => .pure _
  | sendFile fd offset len => exact Deaf.bind (deaf_sendFile _ _ _) fun _ => .pure _
  | sendFin => exact Deaf.bind deaf_sendFin fun _ => .pure _
  | recv len => exact Deaf.bind (deaf_recv _) fun _ => .pure _
  | recvExact len => exact Deaf.bind (deaf_recvExact _) fun _ => .pure _
  | recvFile fd offset len => exact Deaf.bind (deaf_recvFile _ _ _) fun _ => .pure _

end Embr.QuicTransport
