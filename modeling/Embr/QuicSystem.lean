import Embr.QuicDuties
import Embr.StreamBytes
import Embr.Lib.Parties

/-!
# Two ends of a QUIC connection

Each end makes its own calls, and ngtcp2 delivers at one end only what it has
accepted at the other, in order. Both directions are carried at once.
-/

open Octets Interact
namespace Embr.QuicTransport

def Outgoing.stream (s : Outgoing) : Bytes := s.accepted.map Prod.snd

def Event.data : Event → Bytes
  | .recvStreamData _ _ data => data
  | _ => []

/-- The world of one end: stream data are what the peer has put into the stream. -/
def connected (entries : ℕ) (peer : Store) : Env Quic := fun o s r t =>
  world entries o s r t ∧ ∀ fin offset data, o.event r = some (.recvStreamData fin offset data) →
    s.delivered ++ data <+: peer.stream

/-- What an event that is on hand will deliver. -/
def pending (e : Option Event) : Bytes := (e.map Event.data).getD []

@[simp] theorem pending_none : pending none = [] := rfl

@[simp] theorem pending_some (e : Event) : pending (some e) = e.data := rfl

section steps
variable {entries : ℕ} {peer s t : Store} {p q : Prog Quic Outcome} {e : Option Event} {X : Bytes}

theorem handle_delivered (e : Event) (s : Store) : (e.handle s).delivered = s.delivered ++ e.data := by
  cases e with
  | ackedStreamDataOffset offset datalen => exact (List.append_nil _).symm
  | streamOpen streamId => exact (List.append_nil _).symm
  | recvStreamData fin offset data =>
    change (s.toIncoming.onRecvStreamData fin data).delivered = _
    rw [Incoming.onRecvStreamData]
    split
    · split_ifs
      · change (s.toIncoming.copyTo _ _ _).delivered ++ data = _
        rw [copyTo_delivered]
        rfl
      · rfl
    · rfl

theorem handle_accepted (e : Event) (s : Store) : (e.handle s).accepted = s.accepted := by
  cases e <;> rfl

theorem world_streams {o : Op} {r : o.Reply} (h : world entries o s r t) :
    t.delivered = s.delivered ∧ s.stream <+: t.stream := by
  have hsame : s = t → t.delivered = s.delivered ∧ s.stream <+: t.stream := by
    intro heq
    subst heq
    exact ⟨rfl, List.prefix_rfl⟩
  have hfails : s.Fails t → t.delivered = s.delivered ∧ s.stream <+: t.stream := by
    intro hfails
    obtain ⟨e, rfl⟩ := hfails
    exact ⟨rfl, List.prefix_rfl⟩
  cases o with
  | egress o =>
    obtain ⟨z, -, rfl⟩ := h
    exact ⟨rfl, List.prefix_rfl⟩
  | callback c => exact hsame h.1.symm
  | ng c =>
    cases c with
    | writevStream dest payload =>
      obtain ⟨pkt, k, -, rfl, -⟩ := h
      have hgrown : ∀ u : Store, u.stream <+: (u.accept (payload.bytes.take k)).stream := by
        intro u
        simp [Store.accept, Outgoing.stream]
      cases dest with
      | none => exact ⟨rfl, hgrown { s with packetBuf := pkt }⟩
      | some i => exact ⟨rfl, hgrown { s with toState := s.toState.fill i pkt }⟩
    | readPkt data => exact hsame (show t = s from h).symm
    | handleExpiry => exact hsame (show t = s from h).symm
    | writeConnectionClose liberr =>
      obtain ⟨pkt, rfl⟩ := h
      exact ⟨rfl, List.prefix_rfl⟩
  | select sec usec => exact hfails h
  | recvmsg =>
    rcases h with ⟨d, -, rfl⟩ | ⟨-, h⟩
    · exact ⟨rfl, List.prefix_rfl⟩
    · exact hfails h
  | sendmsg buf =>
    rcases h with ⟨-, rfl⟩ | ⟨-, h⟩
    · exact ⟨rfl, List.prefix_rfl⟩
    · exact hfails h
  | mmapRead fd base len =>
    rcases h with ⟨-, rfl⟩ | ⟨-, h⟩
    · exact ⟨rfl, List.prefix_rfl⟩
    · exact hfails h
  | mmapShared fd base len =>
    rcases h with ⟨-, rfl⟩ | ⟨-, h⟩
    · exact ⟨rfl, List.prefix_rfl⟩
    · exact hfails h
  | _ => exact hsame (show t = s from h).symm

theorem event_pending {o : Op} {r : o.Reply} (h : connected entries peer o s r t)
    (hs : s.delivered <+: peer.stream) : s.delivered ++ pending (o.event r) <+: peer.stream := by
  have hnone : s.delivered ++ [] <+: peer.stream := by
    rwa [List.append_nil]
  generalize he : o.event r = e
  cases e with
  | none => exact hnone
  | some e =>
    cases e with
    | recvStreamData fin offset data => exact h.2 fin offset data he
    | ackedStreamDataOffset offset datalen => exact hnone
    | streamOpen streamId => exact hnone

theorem obeys_step {E : Env Quic} (hE : ∀ o s r t, E o s r t → world entries o s r t)
    (hp : p.Obeys events e) (h : Step E (p, s) (q, t)) :
    s.stream <+: t.stream ∧
      ((t.delivered = s.delivered ++ pending e ∧ q.Obeys events none ∧ ∀ F, Step F (p, s) (q, t)) ∨
        ∃ o r, e = none ∧ t.delivered = s.delivered ∧ E o s r t ∧
          q.Obeys events (Op.event o r) ∧ ∀ F : Env Quic, F o s r t → Step F (p, s) (q, t)) := by
  rcases hp.step h with ⟨hmeets, hrest⟩ | ⟨o, r, rfl, hr, hrest⟩
  · cases e with
    | none =>
      obtain ⟨hdelivered, haccepted⟩ := hmeets
      refine ⟨?_, .inl ⟨?_, hrest⟩⟩
      · simp [Outgoing.stream, haccepted]
      · simp [hdelivered]
    | some e =>
      obtain rfl : t = e.handle s := hmeets
      refine ⟨?_, .inl ⟨handle_delivered e s, hrest⟩⟩
      simp [Outgoing.stream, handle_accepted]
  · obtain ⟨hdelivered, hgrown⟩ := world_streams (hE _ _ _ _ hr)
    exact ⟨hgrown, .inr ⟨o, r, rfl, hdelivered, hr, hrest⟩⟩

def Sourced (X : Bytes) (p : Prog Quic Outcome) (s : Store) : Prop :=
  ∃ e, p.Obeys events e ∧ s.delivered ++ pending e <+: X

theorem Sourced.here (h : Sourced X p s) : s.delivered <+: X := by
  obtain ⟨e, -, hX⟩ := h
  exact (List.prefix_append _ _).trans hX

theorem Sourced.grown {Y : Bytes} (h : Sourced X p s) (hXY : X <+: Y) : Sourced Y p s := by
  obtain ⟨e, hp, hX⟩ := h
  exact ⟨e, hp, hX.trans hXY⟩

theorem sourced_start (c : Call) (h : s.delivered <+: X) : Sourced X c.run s := by
  refine ⟨none, heeds_call c, ?_⟩
  rwa [pending, Option.map_none, Option.getD_none, List.append_nil]

theorem Sourced.step (h : Sourced peer.stream p s)
    (hs : Step (connected entries peer) (p, s) (q, t)) :
    Sourced peer.stream q t ∧ s.stream <+: t.stream := by
  obtain ⟨e, hp, hX⟩ := id h
  obtain ⟨hgrown, hnext⟩ := obeys_step (fun _ _ _ _ hr => hr.1) hp hs
  refine ⟨?_, hgrown⟩
  rcases hnext with ⟨hd, hq, -⟩ | ⟨o, r, -, hd, hr, hq, -⟩
  · refine ⟨none, hq, ?_⟩
    rw [hd]
    simpa using hX
  · refine ⟨_, hq, ?_⟩
    rw [hd]
    exact event_pending hr h.here

theorem reaches_connected {r : Outcome} (hp : p.Obeys events e)
    (h : Reaches (world entries) (p, s) (.ret r, t)) :
    s.delivered ++ pending e <+: t.delivered ∧
      (t.delivered <+: peer.stream → Reaches (connected entries peer) (p, s) (.ret r, t)) := by
  generalize hc : (p, s) = c at h
  induction h using Relation.ReflTransGen.head_induction_on generalizing e p s with
  | refl =>
    cases hc
    obtain rfl : e = none := hp
    exact ⟨by simp, fun _ => .refl⟩
  | head hs _ ih =>
    subst hc
    rcases (obeys_step (fun _ _ _ _ hr => hr) hp hs).2 with ⟨hd, hq, hstep⟩ | ⟨o, r', rfl, hd, hr, hq, hstep⟩
    · obtain ⟨hgrown, hrest⟩ := ih hq rfl
      rw [hd, pending_none, List.append_nil] at hgrown
      exact ⟨hgrown, fun hX => .head (hstep _) (hrest hX)⟩
    · obtain ⟨hgrown, hrest⟩ := ih hq rfl
      rw [hd] at hgrown
      refine ⟨?_, fun hX => .head (hstep _ ⟨hr, fun fin offset data he => ?_⟩) (hrest hX)⟩
      · rw [pending_none, List.append_nil]
        exact (List.prefix_append _ _).trans hgrown
      · rw [he] at hgrown
        exact hgrown.trans hX

end steps

def offered (x : Party Quic Call Outcome) : Bytes :=
  (x.turn.map fun c => c.1.buffer c.2.1).getD []

/-- What the receives of `y` took, and what is buffered there, is what `x` has written, in order
and once, as long as the writes and the receives that have ended have succeeded. -/
def Conveys (x y : Party Quic Call Outcome) : Prop :=
  (∀ r ∈ x.past, r.call.writes = true → r.outcome = .ok .done) → AllTook y.past →
    taken y.past ++ y.rest.recvBuf <+: sent x.past ++ offered x

inductive Linked (entries : ℕ) : Party Quic Call Outcome → Store → Prop where
  | idle {h : List Past} {s peer : Store} : History (world entries) Call.run Fresh h s →
      s.delivered <+: peer.stream → Linked entries (.idle h s) peer
  | busy {h : List Past} {c : Call} {b s peer : Store} {p : Prog Quic Outcome} :
      History (world entries) Call.run Fresh h b → Reaches (world entries) (c.run, b) (p, s) →
      Sourced peer.stream p s → Linked entries (.busy h c b p s) peer

section linked
variable {entries : ℕ} {x x' y : Party Quic Call Outcome} {peer peer' : Store}

theorem Linked.grown (h : Linked entries x peer) (hpeer : peer.stream <+: peer'.stream) :
    Linked entries x peer' := by
  cases h with
  | idle hh hd => exact .idle hh (hd.trans hpeer)
  | busy hh hr hs => exact .busy hh hr (hs.grown hpeer)

theorem Linked.moves (h : Linked entries x peer) (hm : x.Moves (connected entries peer) Call.run x') :
    Linked entries x' peer ∧ x.store.stream <+: x'.store.stream := by
  cases hm with
  | begins c =>
    cases h with
    | idle hh hd => exact ⟨.busy hh .refl (sourced_start c hd), List.prefix_rfl⟩
  | steps hs =>
    cases h with
    | busy hh hr hsourced =>
      obtain ⟨hnext, hgrown⟩ := hsourced.step hs
      exact ⟨.busy hh (hr.tail (hs.mono fun _ _ _ h => h.1)) hnext, hgrown⟩
  | returns =>
    cases h with
    | busy hh hr hsourced => exact ⟨.idle (hh.returned _ hr) hsourced.here, List.prefix_rfl⟩
  | raises =>
    cases h with
    | busy hh hr hsourced => exact ⟨.idle (hh.raised _ hr) hsourced.here, List.prefix_rfl⟩

theorem delivered_grows {p q : Prog Quic Outcome} {s t : Store} {e : Option Event}
    (hp : p.Obeys events e) (h : Reaches (world entries) (p, s) (q, t)) :
    s.delivered <+: t.delivered := by
  have hall : ∀ c : Config Quic Outcome, Reaches (world entries) (p, s) c →
      (∃ e, c.1.Obeys events e) ∧ s.delivered <+: c.2.delivered := by
    intro c hc
    induction hc with
    | refl => exact ⟨⟨e, hp⟩, List.prefix_rfl⟩
    | tail _ hs ih =>
      obtain ⟨⟨e, hq⟩, hgrown⟩ := ih
      rcases (obeys_step (fun _ _ _ _ hr => hr) hq hs).2 with ⟨hd, hq, -⟩ | ⟨o, r, -, hd, -, hq, -⟩
      · refine ⟨⟨_, hq⟩, ?_⟩
        rw [hd]
        exact hgrown.trans (List.prefix_append _ _)
      · refine ⟨⟨_, hq⟩, ?_⟩
        rwa [hd]
  exact (hall _ h).2

theorem Linked.written (hentries : 2 * zcSlots ≤ entries) (h : Linked entries x peer)
    (hok : ∀ r ∈ x.past, r.call.writes = true → r.outcome = .ok .done) :
    x.store.stream <+: sent x.past ++ offered x := by
  have hwrote : AllWrote entries x.past := by
    intro r hr hw
    refine ⟨hok r hr hw, ?_⟩
    generalize r.call = c
    cases c <;> first | trivial | (change zcSlots ≤ entries; omega)
  cases h with
  | idle hh _ =>
    have hsent := (history_kept hh).sent hwrote
    exact hsent ▸ List.prefix_append _ _
  | @busy h c b s peer p hh hr _ =>
    have hk := history_kept hh
    have hsent : b.stream = sent h := hk.sent hwrote
    have hpoint := ((call_sat c hk).visited hr).out
    have hfits : c.Fits entries := by
      cases c <;> first | trivial | (change zcSlots ≤ entries; omega)
    change s.stream <+: sent h ++ c.buffer b
    rw [← hsent]
    cases hw : c.writes with
    | false =>
      have hstream : s.stream = b.stream := (hpoint.idle hw).stream
      rw [hstream]
      exact List.prefix_append _ _
    | true =>
      obtain ⟨p, hp, hstream⟩ := (hpoint.writing hw hfits).sent
      have hstream : s.stream = b.stream ++ p := hstream
      rw [hstream]
      exact (List.prefix_append_right_inj _).mpr hp

theorem Linked.heard (h : Linked entries x peer) (htook : AllTook x.past) :
    taken x.past ++ x.rest.recvBuf <+: peer.stream := by
  cases h with
  | idle hh hd => exact ((history_kept hh).sound.inc.stream htook).symm ▸ hd
  | busy hh hr hs =>
    have hgrown := (delivered_grows (heeds_call _) hr).trans hs.here
    exact ((history_kept hh).sound.inc.stream htook).symm ▸ hgrown

theorem Linked.conveys (hentries : 2 * zcSlots ≤ entries) (hx : Linked entries x y.store)
    (hy : Linked entries y x.store) : Conveys x y := fun hok htook =>
  (hy.heard htook).trans (hx.written hentries hok)

end linked

/-- In every interleaving of two ends, whatever each of them calls, each direction of the
stream is carried exactly. -/
theorem duplex_stream {entries : ℕ} (hentries : 2 * zcSlots ≤ entries) {s₀ t₀ : Store}
    (hs : Fresh s₀) (ht : Fresh t₀) {x y : Party Quic Call Outcome}
    (h : Talk (connected entries) Call.run (.idle [] s₀, .idle [] t₀) (x, y)) :
    Conveys x y ∧ Conveys y x := by
  have hstart : ∀ {s : Store}, Fresh s → ∀ peer, Linked entries (.idle [] s) peer := by
    intro s hs peer
    refine .idle (.start hs) ?_
    obtain ⟨z, files, packetBuf, rfl⟩ := hs
    exact List.nil_prefix
  have hboth : Linked entries x y.store ∧ Linked entries y x.store := by
    refine Talk.inv (fun _ _ _ hx hy hm => ?_) h (hstart hs _) (hstart ht _)
    obtain ⟨hx, hgrown⟩ := hx.moves hm
    exact ⟨hx, hy.grown hgrown⟩
  exact ⟨hboth.1.conveys hentries hboth.2, hboth.2.conveys hentries hboth.1⟩

theorem letter_leaves {entries : ℕ} : Returns (world entries) (Call.send [104]).run
    (fun r t => r = .done ∧ t.stream = [104] ∧ t.delivered = []) opened := by
  apply Returns.of_reaches send_letter
  apply Returns.bind
  apply Returns.bind
  apply Returns.round
  rw [if_pos (by decide)]
  apply Returns.bind
  refine (beginPacket_returns rfl).mono fun dest t ht => ?_
  obtain ⟨rfl, rfl⟩ := ht
  apply Returns.bind
  apply ngtcp2_returns (c := .writevStream none (.data 0 0 [104])) (t := letterTaken) (.ok 1, 1)
  · exact ⟨[104], 1, le_rfl, rfl, by decide, by decide, fun _ => ⟨rfl, .inl rfl⟩⟩
  dsimp only
  rw [if_neg (by decide)]
  apply Returns.bind
  apply Returns.modify
  apply Returns.bind
  apply Returns.bind
  apply Returns.get
  rw [if_neg (by decide)]
  apply Returns.bind
  apply quic_returns (o := .sendmsg [104]) (some 1) (.inl ⟨rfl, rfl⟩)
  refine .ret (.ret (.round ?_))
  rw [if_neg (by decide)]
  apply Returns.ret
  dsimp only [Sum.elim_inr]
  rw [if_pos rfl]
  apply Returns.bind
  refine (flushPackets_returns rfl).mono fun _ t ht => ?_
  subst ht
  exact .ret (.ret ⟨rfl, rfl, rfl⟩)

theorem letter_opens {entries : ℕ} : Reaches (world entries) ((Call.openStream 0).run, newborn)
    (.ret .done, opened) := .single (.act _ _ _)

theorem talk_calls {entries : ℕ} {h : List Past} {c : Call} {s t : Store} {r : Outcome}
    {y : Party Quic Call Outcome} (hr : Reaches (world entries) (c.run, s) (.ret r, t))
    (hd : t.delivered <+: y.store.stream) :
    Talk (connected entries) Call.run (.idle h s, y) (.idle (h ++ [⟨c, s, t, .ok r⟩]) t, y) ∧
    Talk (connected entries) Call.run (y, .idle h s) (y, .idle (h ++ [⟨c, s, t, .ok r⟩]) t) :=
  have hcall := Party.Moves.call ((reaches_connected (heeds_call c) hr).2 hd)
  ⟨.left hcall, .right hcall⟩

theorem duplex_stream_letter : ∃ x y : Party Quic Call Outcome,
    Talk (connected 128) Call.run (.idle [] newborn, .idle [] newborn) (x, y) ∧
    taken y.past = [104] ∧ Conveys x y ∧ Conveys y x := by
  obtain ⟨_, t, hsend, rfl, hstream, hnone⟩ : Returns (world 128) (Call.send [104]).run _ opened :=
    letter_leaves
  obtain ⟨_, u, hrecv, rfl, hone⟩ : Returns (world 128) (Call.recv 1).run _ opened := recv_letter
  have hfresh : Fresh newborn := ⟨_, _, _, rfl⟩
  have htalk := (talk_calls (h := []) (y := .idle [] newborn) letter_opens List.nil_prefix).1.trans
    ((talk_calls (h := []) letter_opens List.nil_prefix).2.trans
      ((talk_calls hsend (hnone ▸ List.nil_prefix)).1.trans
        (talk_calls hrecv (by rw [hone]; exact hstream ▸ List.prefix_rfl)).2))
  exact ⟨_, _, htalk, rfl, duplex_stream (by decide) hfresh hfresh htalk⟩

end Embr.QuicTransport
