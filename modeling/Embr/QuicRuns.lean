import Embr.QuicCalls

/-!
# Runs that the world allows

What a connection in sendmsg mode can do when nothing is due: a packet that is
not needed, a timer that does not fire, a pump that hears one datagram. Runs on
given inputs are put together from these.
-/

open Octets Interact
namespace Embr.QuicTransport

section runs
variable {entries : ℕ} {s t : Store}

theorem quic_returns {o : Op} {Q : o.Reply → Store → Prop} (r : o.Reply)
    (he : world entries o s r t) (h : Q r t) : Returns (world entries) (quic o) Q s :=
  Returns.ask he h

theorem callbacks_returns {c : NgCall} : Returns (world entries) (callbacks c) (fun _ t => t = s) s := by
  apply Returns.round
  apply Returns.bind
  apply quic_returns (o := .callback c) none ⟨rfl, nofun⟩
  exact Returns.ret rfl

theorem callback_returns {c : NgCall} {e : Event} (he : s.Allows e) :
    Returns (world entries) (callbacks c) (fun _ t => t = e.handle s) s := by
  apply Returns.round
  apply Returns.bind
  apply quic_returns (o := .callback c) (some e)
  · refine ⟨rfl, fun e' he' => ?_⟩
    cases he'
    exact he
  apply Returns.bind
  apply Returns.modify
  apply Returns.ret
  exact callbacks_returns

theorem ngtcp2_returns {c : NgCall} {Q : c.Reply → Store → Prop} (r : c.Reply)
    (he : c.answers s r t) (h : Q r t) : Returns (world entries) (ngtcp2 c) Q s := by
  apply Returns.bind
  refine callbacks_returns.mono ?_
  intro _ u hu
  subst hu
  exact quic_returns (o := .ng c) r he h

theorem beginPacket_returns (hzc : s.zc = false) :
    Returns (world entries) beginPacket (fun r t => r = none ∧ t = { s with egressInit := true })
      s := by
  have hrest (k : Prog Quic (Option ℕ)) : Returns (world entries) (do
      let s : Store ← @Prog.get Quic
      if s.zc then k else pure none) (fun r t => r = none ∧ t = { s with egressInit := true })
      { s with egressInit := true } := by
    apply Returns.bind
    apply Returns.get
    rw [if_neg (by simp [hzc])]
    exact Returns.ret ⟨rfl, rfl⟩
  apply Returns.bind
  apply Returns.bind
  apply Returns.get
  by_cases hinit : s.egressInit = true
  · rw [if_pos hinit]
    apply Returns.ret
    have hsame : { s with egressInit := true } = s := by
      rw [← hinit]
    rw [hsame] at hrest ⊢
    exact hrest _
  · rw [if_neg hinit]
    apply Returns.bind
    apply Returns.modify
    apply Returns.bind
    apply quic_returns (o := .getenv "EMBR_QUIC_EGRESS") (some "sendmsg") rfl
    rw [Prog.when, if_neg (by decide)]
    exact Returns.ret (hrest _)

theorem flushPackets_returns (hzc : s.zc = false) :
    Returns (world entries) flushPackets (fun _ t => t = s) s := by
  apply Returns.bind
  apply Returns.get
  rw [Prog.when, if_neg (by simp [hzc])]
  exact Returns.ret rfl

theorem drainPackets_returns (hzc : s.zc = false) (hclosed : s.closed = false) :
    Returns (world entries) drainPackets (fun ok t => ok = true ∧ t = { s with egressInit := true })
      s := by
  apply Returns.bind
  apply Returns.get
  rw [if_neg (by simp [hclosed])]
  apply Returns.bind
  apply Returns.round
  rw [if_pos (by decide)]
  apply Returns.bind
  refine (beginPacket_returns hzc).mono ?_
  intro dest t ht
  obtain ⟨rfl, rfl⟩ := ht
  apply Returns.bind
  apply ngtcp2_returns (c := .writevStream none .control) (t := { s with egressInit := true })
    (.ok 0, 0)
  · refine ⟨s.packetBuf, 0, le_refl _, ?_, by decide, fun _ => rfl, nofun⟩
    simp [Store.assemble, Store.accept, Payload.bytes]
  apply Returns.ret
  dsimp only [Sum.elim_inr]
  rw [if_pos rfl]
  apply Returns.bind
  refine (flushPackets_returns (s := { s with egressInit := true }) hzc).mono ?_
  intro _ u hu
  exact Returns.ret ⟨rfl, hu⟩

theorem fireTimer_returns : Returns (world entries) fireTimer (fun ok t => ok = true ∧ t = s) s := by
  apply Returns.bind
  apply quic_returns (o := .getExpiry) 1 rfl
  apply Returns.bind
  apply quic_returns (o := .now) 0 rfl
  rw [if_neg (by decide)]
  exact Returns.ret ⟨rfl, rfl⟩

theorem runTimers_returns (hzc : s.zc = false) (hclosed : s.closed = false) :
    Returns (world entries) runTimers (fun ok t => ok = true ∧ t = { s with egressInit := true })
      s := by
  apply Returns.bind
  refine fireTimer_returns.mono ?_
  intro ok t ht
  obtain ⟨rfl, rfl⟩ := ht
  rw [if_pos rfl]
  exact drainPackets_returns hzc hclosed

theorem idleTimer_returns : Returns (world entries) runTimers
    (fun ok t => ok = false ∧ t = { s with closed := true }) s := by
  have htimer : Returns (world entries) fireTimer
      (fun ok t => ok = false ∧ t = { s with closed := true }) s := by
    apply Returns.bind
    apply quic_returns (o := .getExpiry) 0 rfl
    apply Returns.bind
    apply quic_returns (o := .now) 0 rfl
    rw [if_pos (le_refl _)]
    apply Returns.bind
    apply ngtcp2_returns (c := .handleExpiry) (t := s) (some .idleClose) rfl
    dsimp only
    rw [if_pos rfl]
    apply Returns.bind
    apply Returns.modify
    exact Returns.ret ⟨rfl, rfl⟩
  apply Returns.bind
  refine htimer.mono ?_
  intro ok t ht
  obtain ⟨rfl, rfl⟩ := ht
  rw [if_neg Bool.false_ne_true]
  exact Returns.ret ⟨rfl, rfl⟩

theorem pumpOnce_returns {deadline : ℕ} {Q : Bool → Store → Prop} (hclosed : s.closed = false)
    (h : Returns (world entries) readSocket
      (fun ok t => Returns (world entries) (if ok then runTimers else pure false) Q t) s) :
    Returns (world entries) (pumpOnce deadline) Q s := by
  apply Returns.bind
  apply Returns.get
  rw [if_neg (by simp [hclosed])]
  apply Returns.bind
  apply quic_returns (o := .getExpiry) never rfl
  apply Returns.bind
  apply quic_returns (o := .now) 0 rfl
  have hself : s.Fails s := ⟨s.errno, rfl⟩
  apply Returns.bind
  refine quic_returns (o := .select _ _) (some 1) hself ?_
  dsimp only
  rw [if_pos (by decide)]
  exact Returns.bind h

end runs

end Embr.QuicTransport
