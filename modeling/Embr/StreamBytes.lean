import Embr.QuicRuns

/-!
# The bytes of a QUIC stream

What ngtcp2 has accepted is what the writes were given, in order and once; what
the receives took is what it delivered. The blocks of the writes are retained
until every byte of them that was accepted has been acknowledged.
-/

open Octets Interact
namespace Embr.QuicTransport

structure Kept (entries : ℕ) (h : List Past) (s : Store) : Prop where
  sound : Sound entries (Between (s.accepted.map Prod.snd) (AllWrote entries h))
    (Received (taken h) (AllTook h) s.files) s
  sent : AllWrote entries h → s.accepted.map Prod.snd = sent h

section history
variable {entries : ℕ} {h : List Past} {s t : Store} {c : Call} {q : Prog Quic Outcome}

theorem forall_mem_concat {P : Past → Prop} {r : Past} :
    (∀ x ∈ h ++ [r], P x) ↔ (∀ x ∈ h, P x) ∧ P r := by
  simp [or_imp, forall_and]

theorem sent_concat (r : Past) : sent (h ++ [r]) = sent h ++ r.call.buffer r.before := by
  simp [sent]

theorem taken_concat (r : Past) :
    taken (h ++ [r]) = taken h ++ r.call.taken r.after r.outcome := by
  simp [taken]

theorem kept_fresh (hs : Fresh s) : Kept entries [] s := by
  obtain ⟨z, files, packetBuf, rfl⟩ := hs
  refine ⟨⟨⟨⟨Nat.zero_le _, nofun, nofun, nofun, nofun⟩, rfl, rfl, fun _ => ⟨.nil, nofun⟩⟩,
    ⟨rfl, rfl, fun _ => rfl⟩, nofun, nofun⟩, fun _ => rfl⟩

theorem call_sat (c : Call) (hk : Kept entries h s) :
    Sat (world entries) (c.During entries (s.accepted.map Prod.snd) (AllWrote entries h) s)
      (fun e u => c.After entries (s.accepted.map Prod.snd) (AllWrote entries h) (taken h)
        (AllTook h) s (.error e) u)
      c.run (fun r u => c.After entries (s.accepted.map Prod.snd) (AllWrote entries h) (taken h)
        (AllTook h) s (.ok r) u) s := by
  cases hw : c.writes with
  | true => exact write_sat (fun _ _ _ _ hr => hr) hw hk.sound
  | false => exact idle_sat (fun _ _ _ _ hr => hr) hw hk.sound

theorem Kept.concat {o : Except Exc Outcome} (hk : Kept entries h s)
    (ha : c.After entries (s.accepted.map Prod.snd) (AllWrote entries h) (taken h) (AllTook h) s o t) :
    Kept entries (h ++ [⟨c, s, t, o⟩]) t := by
  constructor
  · refine ha.sound.recast (fun hall => forall_mem_concat.mp hall) ?_
    intro hall
    exact ⟨forall_mem_concat.mp hall, taken_concat _⟩
  · intro hall
    obtain ⟨hall, hlast⟩ := forall_mem_concat.mp hall
    rw [ha.sent hlast, hk.sent hall, sent_concat]

theorem history_kept (hh : History (world entries) Call.run Fresh h s) : Kept entries h s := by
  apply hh.inv (I := fun _ _ => True) (fun s hs => kept_fresh hs)
  intro h s c hk
  refine (((call_sat c hk).throws ?_).inside fun _ _ _ => trivial).weaken ?_
  · intro e t ha
    exact hk.concat ha
  · intro r t ha
    exact hk.concat ha

theorem Whole.released {o : Outgoing} (h : Whole o.accepted.length o)
    (hacked : o.acked = o.accepted.length) : o.unacked = [] := by
  apply List.eq_nil_iff_forall_not_mem.mpr
  intro u hu
  have hends := h.ends u hu
  omega

end history

/-- The bytes accepted are those of the calls that returned and a prefix of the
next one's, which is offered once: a `send` that fails does not ask to be
repeated. -/
theorem stream_once {entries : ℕ} (hentries : 2 * zcSlots ≤ entries) {h : List Past} {s t : Store}
    {c : Call} {q : Prog Quic Outcome} (hh : History (world entries) Call.run Fresh h s)
    (hr : Reaches (world entries) (c.run, s) (q, t)) :
    ((∀ r ∈ h, r.call.writes = true → r.outcome = .ok .done) →
      ∃ p, p <+: c.buffer s ∧ t.accepted.map Prod.snd = sent h ++ p ∧
        (q = .ret .done → p = c.buffer s)) ∧
    ∀ buf, c = .send buf → q = .ret .failed → t.errno ≠ EAGAIN ∧ t.errno ≠ EWOULDBLOCK := by
  have hk := history_kept hh
  have hsat := call_sat c hk
  have hfits : ∀ c : Call, c.Fits entries := by
    intro c
    cases c <;> first | trivial | (change zcSlots ≤ entries; omega)
  constructor
  · intro hok
    have hall : AllWrote entries h := fun r hmem hw => ⟨hok r hmem hw, hfits _⟩
    have hsent := hk.sent hall
    have hpoint := (hsat.visited hr).out
    cases hw : c.writes with
    | false =>
      refine ⟨[], List.nil_prefix, ?_, fun _ => (buffer_of_idle hw s).symm⟩
      rw [(hpoint.idle hw).stream, hsent, List.append_nil]
    | true =>
      obtain ⟨p, hp, hstream⟩ := (hpoint.writing hw (hfits c)).sent
      rw [hsent] at hstream
      refine ⟨p, hp, hstream, ?_⟩
      intro hq
      subst hq
      have hdone := (hsat.returned hr).sent fun _ => ⟨rfl, hfits c⟩
      rw [hstream, hsent] at hdone
      exact List.append_cancel_left hdone
  · intro buf hc hq
    subst hq
    have herrno := (hsat.returned hr).errno buf hc rfl (by omega)
    exact ⟨herrno, herrno⟩

def newborn : Store := members (ZcEgress.members 0 zcSlots) (fun _ _ => 0) []

def opened : Store := { newborn with streamId := 0 }

theorem opened_history {entries : ℕ} :
    History (world entries) Call.run Fresh [⟨.openStream 0, newborn, opened, .ok .done⟩] opened := by
  have hopen : Returns (world entries) (Call.openStream 0).run (fun r t => r = .done ∧ t = opened)
      newborn := by
    apply Returns.bind
    apply Returns.modify
    exact Returns.ret ⟨rfl, rfl⟩
  obtain ⟨_, _, hr, rfl, rfl⟩ := hopen
  have hstart : History (world entries) Call.run Fresh [] newborn := .start ⟨_, _, _, rfl⟩
  exact hstart.returned (Call.openStream 0) hr

def letterHeld : Store := { opened with toOutgoing := opened.toOutgoing.retain [104] }

def letterTaken : Store :=
  { letterHeld with egressInit := true, accepted := [(0, 104)], packetBuf := [104] }

theorem send_letter {entries : ℕ} : Reaches (world entries) ((Call.send [104]).run, opened)
    (writeStream 0 [104] >>= fun r => pure (.of r.isSome), letterHeld) :=
  .tail (.single (.act _ _ _)) (.act _ _ _)

theorem write_letter {entries : ℕ} : Returns (world entries) (writeStream 0 [104])
    (fun r t => r = some 1 ∧ t.accepted = [(0, 104)]) letterHeld := by
  apply Returns.bind
  apply Returns.round
  rw [if_pos (by decide)]
  apply Returns.bind
  refine (beginPacket_returns rfl).mono ?_
  intro dest t ht
  obtain ⟨rfl, rfl⟩ := ht
  apply Returns.bind
  apply ngtcp2_returns (c := .writevStream none (.data 0 0 [104])) (t := letterTaken) (.ok 1, 1)
  · exact ⟨[104], 1, le_refl _, rfl, by decide, nofun, fun _ => ⟨rfl, .inl rfl⟩⟩
  dsimp only
  rw [if_neg (by decide)]
  apply Returns.bind
  apply Returns.modify
  apply Returns.bind
  apply Returns.bind
  apply Returns.get
  rw [if_neg (by decide)]
  apply Returns.bind
  apply quic_returns (o := .sendmsg [104]) (some 1) (.inl ⟨rfl, rfl⟩)
  apply Returns.ret
  apply Returns.ret
  apply Returns.round
  rw [if_neg (by decide)]
  apply Returns.ret
  dsimp only [Sum.elim_inr]
  rw [if_pos rfl]
  apply Returns.bind
  refine (flushPackets_returns rfl).mono ?_
  intro _ t ht
  subst ht
  exact Returns.ret ⟨rfl, rfl⟩

theorem send_returns {entries : ℕ} : Returns (world entries) (Call.send [104]).run
    (fun r t => r = .done ∧ t.accepted = [(0, 104)]) opened := by
  apply Returns.of_reaches send_letter
  apply Returns.bind
  refine write_letter.mono ?_
  intro r t hr
  obtain ⟨rfl, hone⟩ := hr
  exact Returns.ret ⟨rfl, hone⟩

/-- The letter is accepted once. -/
theorem stream_once_letter : ∃ h s t, History (world 128) Call.run Fresh h s ∧
    Reaches (world 128) ((Call.send [104]).run, s) (.ret .done, t) ∧
    t.accepted.map Prod.snd = [104] ∧ t.accepted.length = 1 := by
  obtain ⟨_, t, hsend, rfl, hone⟩ : Returns (world 128) (Call.send [104]).run _ opened := send_returns
  have honce := (stream_once (by decide) opened_history hsend).1
  obtain ⟨p, -, hstream, hall⟩ := honce (by simp [Call.writes])
  rw [hall rfl] at hstream
  exact ⟨_, opened, t, opened_history, hsend, hstream, by rw [hone]; rfl⟩

/-- A block goes when its last accepted byte has been acknowledged and no write
reads from it, and then it does go. -/
theorem retained_until_acked {entries : ℕ} {h : List Past} {s t : Store} {c : Call}
    {q : Prog Quic Outcome} (hh : History (world entries) Call.run Fresh h s)
    (hr : Reaches (world entries) (c.run, s) (q, t)) :
    (∀ k x, t.acked ≤ k → t.accepted[k]? = some x → ∃ u ∈ t.unacked, u.block = x.1) ∧
    Reads q.head t.toOutgoing ∧
    (AllWrote entries h → c.writes = false ∨ (q = .ret .done ∧ c.Fits entries) →
      t.acked = t.accepted.length → t.unacked = []) := by
  have hk := history_kept hh
  have hsat := call_sat c hk
  have hpoint := hsat.visited hr
  refine ⟨hpoint.out.held.retained, hpoint.reads, ?_⟩
  intro hall hidle hacked
  rcases hidle with hw | ⟨rfl, hfits⟩
  · exact ((hpoint.out.idle hw).all hall).released hacked
  · have hdone := (hsat.returned hr).sound.out.all ⟨hall, fun _ => ⟨rfl, hfits⟩⟩
    exact hdone.released hacked

/-- In the middle of a write nothing is unacknowledged and a block is retained. -/
theorem retained_before_accepted : ∃ h s t, ∃ q : Prog Quic Outcome,
    History (world 128) Call.run Fresh h s ∧ AllWrote 128 h ∧
    Reaches (world 128) ((Call.send [104]).run, s) (q, t) ∧
    t.acked = t.accepted.length ∧ t.unacked ≠ [] :=
  ⟨_, opened, letterHeld, _, opened_history, by simp [AllWrote, Call.Wrote, Call.writes], send_letter,
    rfl, nofun⟩

/-- The letter has been accepted and is retained until it is acknowledged. -/
theorem retained_until_acked_letter : ∃ h s t, ∃ q : Prog Quic Outcome,
    History (world 128) Call.run Fresh h s ∧
    Reaches (world 128) ((Call.send [104]).run, s) (q, t) ∧
    t.accepted = [(0, 104)] ∧ (t.acked = 0 → ∃ u ∈ t.unacked, u.block = 0) := by
  obtain ⟨_, t, hsend, rfl, hone⟩ : Returns (world 128) (Call.send [104]).run _ opened := send_returns
  have hheld := (retained_until_acked opened_history hsend).1
  refine ⟨_, opened, t, _, opened_history, hsend, hone, ?_⟩
  intro hacked
  exact hheld 0 (0, 104) (by omega) (by rw [hone]; rfl)

/-- What the receives took and what is buffered is what ngtcp2 delivered; the
callback writes into a live mapping, and only the range of the call. -/
theorem stream_received {entries : ℕ} {h : List Past} {s : Store}
    (hh : History (world entries) Call.run Fresh h s) :
    (AllTook h → taken h ++ s.recvBuf = s.delivered) ∧
    ∀ (c : Call) (q : Prog Quic Outcome) (t : Store), Reaches (world entries) (c.run, s) (q, t) →
      Aimed t.toIncoming ∧ Within s.files c.range.1 c.range.2.1 c.range.2.2 t.toIncoming := by
  have hk := history_kept hh
  refine ⟨hk.sound.inc.stream, ?_⟩
  intro c q t hr
  have hpoint := (call_sat c hk).visited hr
  exact ⟨hpoint.inc.aimed, hpoint.inc.within⟩

def letterArrived : Store :=
  { (Event.recvStreamData false 0 [104]).handle opened with egressInit := true }

theorem await_letter (entries : ℕ) (b : Bool) : Returns (world entries) awaitData
    (fun _ t => t = letterArrived) { opened with egressInit := b } := by
  apply Returns.round
  apply Returns.bind
  apply Returns.get
  rw [if_pos ⟨rfl, rfl, rfl⟩]
  apply Returns.bind
  apply pumpOnce_returns rfl
  apply Returns.bind
  refine quic_returns (o := .recvmsg) (some ([104], false)) (.inl ⟨[104], by decide, rfl⟩) ?_
  dsimp only
  rw [if_neg (by decide)]
  apply Returns.bind
  apply Returns.bind
  have hallows : Store.Allows { opened with egressInit := b } (.recvStreamData false 0 [104]) := rfl
  refine (callback_returns hallows).mono ?_
  intro _ t ht
  subst ht
  refine quic_returns (o := .ng (.readPkt [104])) none rfl ?_
  apply Returns.ret
  rw [if_pos rfl]
  refine (runTimers_returns rfl rfl).mono ?_
  intro ok t ht
  obtain ⟨rfl, rfl⟩ := ht
  rw [if_pos rfl]
  apply Returns.ret
  apply Returns.round
  apply Returns.bind
  apply Returns.get
  rw [if_neg fun hempty => nomatch hempty.1]
  exact Returns.ret rfl

theorem recv_letter {entries : ℕ} : Returns (world entries) (Call.recv 1).run
    (fun r t => r = .received [104] ∧ t.delivered = [104]) opened := by
  apply Returns.bind
  apply Returns.bind
  refine (await_letter _ false).mono ?_
  intro _ t ht
  subst ht
  apply Returns.bind
  apply Returns.get
  rw [if_pos nofun]
  apply Returns.bind
  apply Returns.act
  exact Returns.ret (Returns.ret ⟨rfl, rfl⟩)

/-- It is taken once. -/
theorem stream_received_letter : ∃ h s, History (world 128) Call.run Fresh h s ∧
    AllTook h ∧ taken h = [104] ∧ taken h ++ s.recvBuf = s.delivered := by
  obtain ⟨_, t, hrecv, rfl, -⟩ : Returns (world 128) (Call.recv 1).run _ opened := recv_letter
  have hpast := opened_history.returned (Call.recv 1) hrecv
  have hall : AllTook [⟨.openStream 0, newborn, opened, .ok .done⟩,
      ⟨.recv 1, opened, t, .ok (.received [104])⟩] := by
    simp [AllTook, Call.Took]
  exact ⟨_, t, hpast, hall, rfl, (stream_received hpast).1 hall⟩

end Embr.QuicTransport
