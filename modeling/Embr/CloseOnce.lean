import Embr.QuicCalls
import Embr.Lib.Watch

/-!
# Closing a connection

`close_connection` lingers in `pump_once`, which may close the connection itself.
Whatever comes in meanwhile, one CONNECTION_CLOSE datagram is written at most and
none once the peer is gone, and no close is nested in a close of a close.
-/

open Octets Interact
namespace Embr.QuicTransport

/-- What is known of the calls so far. `armed`: ngtcp2 has just made a CONNECTION_CLOSE packet;
`closes`: the datagrams with such a packet; `gone`: the peer has closed or dropped the connection,
or it was idle for too long; `late`: the datagrams with such a packet after that. -/
structure Account where
  armed : Bool
  closes : ℕ
  gone : Bool
  late : ℕ

namespace Account

def start : Account := ⟨false, 0, false, 0⟩

def arm (m : Account) : Except LibErr ℕ → Account
  | .ok n => { m with armed := decide (0 < n) }
  | .error _ => { m with armed := false }

def leave (m : Account) (gone : Bool) : Account :=
  { m with armed := false, gone := m.gone || gone }

def see (m : Account) : Label Quic → Account
  | ⟨.ng (.writeConnectionClose _), r, _⟩ => m.arm r
  | ⟨.ng (.readPkt _), r, _⟩ => m.leave (r = some .draining || r = some .dropConn)
  | ⟨.ng .handleExpiry, r, _⟩ => m.leave (r = some .idleClose)
  | ⟨.sendmsg _, _, _⟩ =>
    if m.armed then
      { m with armed := false, closes := m.closes + 1, late := m.late + if m.gone then 1 else 0 }
    else m
  | _ => { m with armed := false }

/-- After the calls of a trace. -/
def of (l : List (Label Quic)) : Account := l.foldl see start

def Fine (m : Account) : Prop := m.closes ≤ 1 ∧ m.late = 0

structure Rest (m : Account) (s : Store) : Prop where
  fine : m.Fine
  armed : m.armed = false
  opened : s.closed = false → m.closes = 0 ∧ m.gone = false

end Account

def Op.neutral : Op → Bool
  | .ng (.writeConnectionClose _) => false
  | .ng (.readPkt _) => false
  | .ng .handleExpiry => false
  | _ => true

open Account

abbrev Watched (entries : ℕ) {α : Type} (p : Prog Quic α) (Q : α → Account → Store → Prop)
    (m : Account) (s : Store) : Prop :=
  Sat (@Env.watched Quic Account (world entries) see) (fun _ u => u.2.Fine) (fun _ u => u.2.Rest u.1)
    (p.watched Account) (fun a u => Q a u.2 u.1) (s, m)

structure Tidy (entries : ℕ) {α : Type} (p : Prog Quic α) : Prop where
  keeps : p.Keeps (world entries) fun s : Store => s.closed = true
  once : ∀ m s, m.Rest s → Watched entries p (fun _ => Rest) m s

section closing
variable {entries : ℕ} {α β σ : Type} {m : Account} {s t : Store} {p : Prog Quic α}

theorem see_neutral {o : Op} (ho : o.neutral = true) (harmed : m.armed = false) (r : o.Reply)
    (t : Store) : m.see ⟨o, r, t⟩ = m := by
  have hsame : { m with armed := false } = m := by
    rw [← harmed]
  cases o with
  | ng c =>
    cases c with
    | writevStream dest payload => exact hsame
    | readPkt data => cases ho
    | handleExpiry => cases ho
    | writeConnectionClose liberr => cases ho
  | sendmsg buf => simp [see, harmed]
  | _ => exact hsame

theorem world_closed {o : Op} {r : o.Reply} (h : world entries o s r t) : t.closed = s.closed := by
  have hfails : s.Fails t → t.closed = s.closed := by
    rintro ⟨e, rfl⟩
    rfl
  cases o with
  | egress o =>
    obtain ⟨z, -, rfl⟩ := h
    rfl
  | callback c => rw [h.1]
  | ng c =>
    cases c with
    | writevStream dest payload =>
      obtain ⟨pkt, k, -, rfl, -⟩ := h
      cases dest <;> rfl
    | readPkt data => rw [show t = s from h]
    | handleExpiry => rw [show t = s from h]
    | writeConnectionClose liberr =>
      obtain ⟨pkt, rfl⟩ := h
      rfl
  | select sec usec => exact hfails h
  | recvmsg =>
    rcases h with ⟨d, -, rfl⟩ | ⟨-, h⟩
    · rfl
    · exact hfails h
  | sendmsg buf =>
    rcases h with ⟨-, rfl⟩ | ⟨-, h⟩
    · rfl
    · exact hfails h
  | mmapRead fd base len =>
    rcases h with ⟨-, rfl⟩ | ⟨-, h⟩
    · rfl
    · exact hfails h
  | mmapShared fd base len =>
    rcases h with ⟨-, rfl⟩ | ⟨-, h⟩
    · rfl
    · exact hfails h
  | _ => rw [show t = s from h]

theorem Account.Rest.congr (h : m.Rest s) (hclosed : t.closed = s.closed) : m.Rest t :=
  ⟨h.fine, h.armed, fun ht => h.opened (hclosed ▸ ht)⟩

namespace Watched
variable {Q : α → Account → Store → Prop}

theorem pure {a : α} (hfine : m.Fine) (h : Q a m s) : Watched entries (Pure.pure a) Q m s :=
  ⟨hfine, h⟩

theorem bind {R : β → Account → Store → Prop} {g : α → Prog Quic β}
    (h : Watched entries p Q m s) (hg : ∀ a m t, Q a m t → Watched entries (g a) R m t) :
    Watched entries (p >>= g) R m s := by
  rw [Watched, Prog.watched_bind]
  exact Sat.andThen h fun a u hu => hg a u.2 u.1 hu

theorem get_bind {g : Store → Prog Quic α} (hfine : m.Fine) (h : Watched entries (g s) Q m s) :
    Watched entries (.get >>= g) Q m s := ⟨hfine, h⟩

theorem ask_bind {o : Op} {g : o.Reply → Prog Quic α} (hfine : m.Fine)
    (h : ∀ r t, world entries o s r t → Watched entries (g r) Q (m.see ⟨o, r, t⟩) t) :
    Watched entries (quic o >>= g) Q m s := by
  refine ⟨hfine, fun r u hu => ?_⟩
  obtain ⟨u, m'⟩ := u
  obtain ⟨hworld, hsee⟩ := hu
  have hm : m' = m.see ⟨o, r, u⟩ := hsee
  subst hm
  exact h r u hworld

theorem round {body : σ → Prog Quic (σ ⊕ α)} {x : σ} (J : σ → Account → Store → Prop)
    (hx : J x m s) (hJ : ∀ y m t, J y m t → m.Fine ∧ Watched entries (body y)
      (fun r m' u => r.elim (fun z => J z m' u) fun b => m'.Fine ∧ Q b m' u) m t) :
    Watched entries (.repeatUntil body x) Q m s :=
  Sat.round (fun y u => J y u.2 u.1) hx fun y u hu => hJ y u.2 u.1 hu

end Watched

namespace Tidy

theorem pure (a : α) : Tidy entries (Pure.pure a) := ⟨trivial, fun _ _ h => ⟨h.fine, h⟩⟩

theorem raise (e : Exc) : Tidy entries (.raise e : Prog Quic α) :=
  ⟨trivial, fun _ _ h => ⟨h.fine, h⟩⟩

theorem bind {g : α → Prog Quic β} (hp : Tidy entries p) (hg : ∀ a, Tidy entries (g a)) :
    Tidy entries (p >>= g) :=
  ⟨hp.keeps.bind fun a => (hg a).keeps,
    fun m s h => (hp.once m s h).bind fun a m t ht => (hg a).once m t ht⟩

theorem ite {c : Prop} [Decidable c] {q : Prog Quic α} (hp : Tidy entries p) (hq : Tidy entries q) :
    Tidy entries (if c then p else q) := by
  split
  · exact hp
  · exact hq

theorem when {c : Prop} [Decidable c] {p : Prog Quic Unit} (hp : Tidy entries p) :
    Tidy entries (.when c p) := ite hp (pure ())

theorem act {f : Store → α × Store} (hf : ∀ s, (f s).2.closed = s.closed) :
    Tidy entries (.act f .ret : Prog Quic α) :=
  ⟨⟨fun s hs => (hf s).trans hs, fun _ => trivial⟩,
    fun _ s h => ⟨h.fine, h.fine, h.congr (hf s)⟩⟩

theorem get : Tidy entries (.get : Prog Quic Store) := act fun _ => rfl

theorem modify {f : Store → Store} (hf : ∀ s, (f s).closed = s.closed) :
    Tidy entries (.modify f : Prog Quic Unit) := act hf

theorem round {body : σ → Prog Quic (σ ⊕ β)} {x : σ} (h : ∀ y, Tidy entries (body y)) :
    Tidy entries (.repeatUntil body x) := by
  refine ⟨⟨fun y => (h y).keeps, fun _ => trivial⟩, fun m s hs => ?_⟩
  refine Sat.round (fun _ u => u.2.Rest u.1) hs fun y u hu => ⟨hu.fine, ?_⟩
  refine ((h y).once u.2 u.1 hu).weaken fun r v hv => ?_
  cases r with
  | inl z => exact hv
  | inr b => exact ⟨hv.fine, hv⟩

theorem ask {o : Op} (ho : o.neutral = true) : Tidy entries (quic o) := by
  refine ⟨⟨fun s r t hs ht => (world_closed ht).trans hs, fun _ => trivial⟩, fun m s h => ?_⟩
  refine sat_ask.mpr ⟨h.fine, fun r u hu => ?_⟩
  have hsame : u.2 = m := hu.2.trans (see_neutral ho h.armed r u.1)
  have hrest : u.2.Rest u.1 := by
    rw [hsame]
    exact h.congr (world_closed hu.1)
  exact ⟨hrest.fine, hrest⟩

theorem attempt (hp : Tidy entries p) : Tidy entries p.attempt := by
  refine ⟨hp.keeps.attempt, fun m s h => ?_⟩
  rw [Watched, Prog.watched_attempt]
  refine (hp.once m s h).attempt.weaken fun r u hu => ?_
  cases r with
  | ok a => exact hu.2
  | error e => exact hu.2

theorem egress {p : Prog ZcEgress.Zc α} : Tidy entries (QuicTransport.egress p) := by
  rw [QuicTransport.egress]
  induction p with
  | ret a => exact pure a
  | raise e => exact raise _
  | act f k ih =>
    have hf : Tidy entries (.act (fun s : Store =>
        ((f s.toState).1, { s with toState := (f s.toState).2 })) .ret) := act fun _ => rfl
    exact bind hf ih
  | call o k ih =>
    have ho : Tidy entries (quic (.egress o)) := ask rfl
    exact bind ho ih
  | loop body x k ihb ihk =>
    have hbody : Tidy entries (.repeatUntil (fun y => (body y).embed egressPart) x) := round ihb
    exact bind hbody ihk

end Tidy

theorem handle_closed (e : Event) (s : Store) : (e.handle s).closed = s.closed := by
  cases e <;> rfl

theorem callbacks_watched (c : NgCall) (h : m.Rest s) :
    Watched entries (callbacks c) (fun _ m' t => m' = m ∧ t.closed = s.closed) m s := by
  refine Watched.round (fun _ m' t => m' = m ∧ t.closed = s.closed) ⟨rfl, rfl⟩ fun _ m' t ht => ?_
  obtain ⟨rfl, hclosed⟩ := ht
  refine ⟨h.fine, Watched.ask_bind h.fine fun r u hu => ?_⟩
  rw [see_neutral rfl h.armed]
  have hsame : u.closed = s.closed := (world_closed hu).trans hclosed
  cases r with
  | none => exact Watched.pure h.fine ⟨h.fine, rfl, hsame⟩
  | some e => exact ⟨h.fine, h.fine, rfl, (handle_closed e u).trans hsame⟩

theorem tidy_callbacks (c : NgCall) : Tidy entries (callbacks c) := by
  refine .round fun _ => .bind (.ask rfl) fun r => ?_
  cases r with
  | none => exact .pure _
  | some e => exact .bind (.modify (handle_closed e)) fun _ => .pure _

theorem tidy_writevStream (dest : Option ℕ) (payload : Payload) :
    Tidy entries (ngtcp2 (.writevStream dest payload)) :=
  .bind (tidy_callbacks _) fun _ => .ask rfl

theorem ngtcp2_keeps (c : NgCall) :
    (ngtcp2 c).Keeps (world entries) fun s : Store => s.closed = true :=
  (tidy_callbacks c).keeps.bind fun _ => .ask fun _ _ _ hs ht => (world_closed ht).trans hs

theorem ngtcp2_watched (c : NgCall) (h : m.Rest s) {Q : c.Reply → Account → Store → Prop}
    (hask : ∀ r t, t.closed = s.closed →
      (m.see ⟨.ng c, r, t⟩).Fine ∧ Q r (m.see ⟨.ng c, r, t⟩) t) :
    Watched entries (ngtcp2 c) Q m s := by
  refine (callbacks_watched c h).bind fun _ m' t ht => ?_
  obtain ⟨rfl, hclosed⟩ := ht
  have hcall : Watched entries (quic (.ng c) >>= Pure.pure) Q m' t :=
    Watched.ask_bind h.fine fun r u hu => hask r u ((world_closed hu).trans hclosed)
  rwa [bind_pure] at hcall

theorem setClosed_watched (hfine : m.Fine) (harmed : m.armed = false) :
    Watched entries setClosed (fun _ => Rest) m s :=
  ⟨hfine, hfine, hfine, harmed, nofun⟩

theorem setClosed_keeps : setClosed.Keeps (world entries) fun s : Store => s.closed = true :=
  ⟨fun _ _ => rfl, fun _ => trivial⟩

theorem arm_fine (h : m.Fine) (r : Except LibErr ℕ) : (m.arm r).Fine := by
  cases r <;> exact h

theorem sendClose_watched (r : Except LibErr ℕ) (hfine : m.Fine) (hcloses : m.closes = 0)
    (hgone : m.gone = false) :
    Watched entries (sendClose r) (fun _ m' _ => m'.Fine ∧ m'.armed = false) (m.arm r) s := by
  cases r with
  | error e => exact Watched.pure hfine ⟨hfine, rfl⟩
  | ok n =>
    rw [sendClose, Prog.when]
    split_ifs with hn
    · refine Watched.get_bind hfine (Watched.ask_bind hfine fun r t _ => ?_)
      have hsent : (m.arm (.ok n)).see ⟨.sendmsg (s.packetBuf.take n), r, t⟩ =
          { m with armed := false, closes := m.closes + 1,
                   late := m.late + if m.gone then 1 else 0 } := by
        simp [see, arm, hn]
      rw [hsent]
      have hfirst : Fine { m with armed := false, closes := m.closes + 1,
                                  late := m.late + if m.gone then 1 else 0 } := by
        simp [Fine, hcloses, hgone, hfine.2]
      exact Watched.pure hfirst ⟨hfirst, rfl⟩
    · have hnone : m.arm (.ok n) = { m with armed := false } := by
        simp [arm, hn]
      rw [hnone]
      exact Watched.pure hfine ⟨hfine, rfl⟩

theorem writeClose_watched (liberr : Option LibErr) (h : m.Rest s) (hs : s.closed = false) :
    Watched entries (writeClose liberr) (fun _ => Rest) m s := by
  obtain ⟨hcloses, hgone⟩ := h.opened hs
  have hmade : Watched entries (ngtcp2 (.writeConnectionClose liberr))
      (fun r m' _ => m' = m.arm r) m s :=
    ngtcp2_watched _ h fun r _ _ => ⟨arm_fine h.fine r, rfl⟩
  refine hmade.bind fun r m' t hm' => ?_
  subst hm'
  refine (sendClose_watched r h.fine hcloses hgone).bind fun _ m' u hu => ?_
  exact setClosed_watched hu.1 hu.2

theorem writeClose_keeps (liberr : Option LibErr) :
    (writeClose liberr).Keeps (world entries) fun s : Store => s.closed = true := by
  refine (ngtcp2_keeps _).bind fun r => Prog.Keeps.bind ?_ fun _ => setClosed_keeps
  cases r with
  | error e => trivial
  | ok n =>
    refine .ite (.get_bind fun s => ?_) trivial
    exact Prog.Keeps.bind (.ask fun _ _ _ hs ht => (world_closed ht).trans hs) fun _ => trivial

theorem alreadyClosing_watched (h : m.Rest s) :
    Watched entries alreadyClosing (fun r m' t => m'.Rest t ∧ (r = false → t.closed = false)) m s := by
  rw [alreadyClosing]
  refine Watched.get_bind h.fine ?_
  split_ifs with hs
  · exact Watched.pure h.fine ⟨h, nofun⟩
  refine Watched.ask_bind h.fine fun r t ht => ?_
  rw [see_neutral rfl h.armed]
  have hsame := world_closed ht
  have hopen : t.closed = false := hsame.trans (Bool.eq_false_of_not_eq_true hs)
  have hrest : m.Rest t := h.congr hsame
  split_ifs
  · exact Watched.pure hrest.fine ⟨hrest, nofun⟩
  · have hdraining : Watched entries (quic .inDrainingPeriod >>= Pure.pure)
        (fun r m' t => m'.Rest t ∧ (r = false → t.closed = false)) m t := by
      refine Watched.ask_bind h.fine fun r u hu => ?_
      rw [see_neutral rfl h.armed]
      exact Watched.pure h.fine ⟨hrest.congr (world_closed hu), fun _ => (world_closed hu).trans hopen⟩
    rwa [bind_pure] at hdraining

theorem tidy_alreadyClosing : Tidy entries alreadyClosing :=
  .bind .get fun _ => .ite (.pure _) (.bind (.ask rfl) fun _ => .ite (.pure _) (.ask rfl))

theorem tidy_linger {pump : ℕ → Prog Quic Bool} (hpump : ∀ d, Tidy entries (pump d)) :
    Tidy entries (linger pump) := by
  refine .bind (.ask rfl) fun now => .round fun _ => .bind .get fun _ => .ite ?_ (.pure _)
  refine .bind (.ask rfl) fun _ => .ite ?_ (.pure _)
  exact .bind (hpump _) fun _ => .ite (.pure _) (.pure _)

theorem tidy_closeConnection {pump : ℕ → Prog Quic Bool} (hpump : ∀ d, Tidy entries (pump d))
    (liberr : Option LibErr) : Tidy entries (closeConnection pump liberr) := by
  constructor
  · refine tidy_alreadyClosing.keeps.bind fun _ => .ite setClosed_keeps (.get_bind fun _ => ?_)
    refine .ite ((tidy_linger hpump).keeps.bind fun _ => .get_bind fun _ => ?_) (writeClose_keeps _)
    exact .ite (writeClose_keeps _) trivial
  · intro m s h
    refine (alreadyClosing_watched h).bind fun closing m t ht => ?_
    split_ifs with hclosing
    · exact setClosed_watched ht.1.fine ht.1.armed
    have hopen := ht.2 (Bool.eq_false_of_not_eq_true hclosing)
    refine Watched.get_bind ht.1.fine ?_
    split_ifs
    · refine ((tidy_linger hpump).once m t ht.1).bind fun _ m u hu => ?_
      refine Watched.get_bind hu.fine ?_
      rw [Prog.when]
      split_ifs with hstill
      · exact writeClose_watched liberr hu hstill
      · exact Watched.pure hu.fine hu
    · exact writeClose_watched liberr ht.1 hopen

theorem tidy_closeOnError (e : LibErr) : Tidy entries (closeOnError e) :=
  tidy_closeConnection (fun _ => .pure _) _

theorem closeConnection_closes {E : Env Quic} (pump : ℕ → Prog Quic Bool) (liberr : Option LibErr) :
    Sat E (fun _ _ => True) (fun _ _ => True) (closeConnection pump liberr)
      (fun _ t => t.closed = true) s := by
  have hwrite : ∀ t, Sat E (fun _ _ => True) (fun _ _ => True) (writeClose liberr)
      (fun _ (t : Store) => t.closed = true) t := by
    intro t
    refine Sat.andThen (Sat.top _ t) fun r u _ => Sat.andThen (Sat.top _ u) fun _ v _ => ?_
    exact ⟨trivial, trivial, rfl⟩
  refine Sat.andThen (Sat.top alreadyClosing s) fun closing t _ => ?_
  split_ifs
  · exact ⟨trivial, trivial, rfl⟩
  refine sat_get_bind.mpr ⟨trivial, ?_⟩
  split_ifs
  · refine Sat.andThen (Sat.top _ t) fun _ u _ => sat_get_bind.mpr ⟨trivial, ?_⟩
    exact Sat.when (fun _ => hwrite u) fun hu => ⟨trivial, Bool.eq_true_of_not_eq_false hu⟩
  · exact hwrite t

theorem tidy_resetZc : Tidy entries resetZc := .bind .egress fun _ => .modify fun _ => rfl

theorem tidy_openZc : Tidy entries openZc := by
  refine .bind (.attempt .egress) fun r => ?_
  cases r with
  | error e => exact .pure _
  | ok _ => exact .bind (.modify fun _ => rfl) fun _ => .bind .get fun _ => .when tidy_resetZc

theorem tidy_initEgress : Tidy entries initEgress := by
  refine .bind .get fun _ => .ite (.pure _) ?_
  exact .bind (.modify fun _ => rfl) fun _ => .bind (.ask rfl) fun _ => .when tidy_openZc

theorem tidy_beginPacket : Tidy entries beginPacket := by
  refine .bind tidy_initEgress fun _ => .bind .get fun _ => .ite ?_ (.pure _)
  refine .bind .egress fun r => ?_
  cases r with
  | some i => exact .pure _
  | none => exact .bind tidy_resetZc fun _ => .pure _

theorem tidy_sendPacket (n : ℕ) : Tidy entries (sendPacket n) := by
  refine .bind .get fun _ => .ite ?_ ?_
  · refine .bind .egress fun _ => .ite (.pure _) ?_
    exact .bind (.modify fun _ => rfl) fun _ => .pure _
  · refine .bind (.ask rfl) fun r => ?_
    cases r with
    | some _ => exact .pure _
    | none => exact .bind .get fun _ => .ite (.pure _) (.pure _)

theorem tidy_flushPackets : Tidy entries flushPackets :=
  .bind .get fun _ => .when (.bind .egress fun _ => .bind .get fun _ => .when tidy_resetZc)

theorem tidy_drainPackets : Tidy entries drainPackets := by
  refine .bind .get fun _ => .ite (.pure _) (.bind (.round fun i => ?_) fun _ => .ite ?_ (.pure _))
  · refine .ite ?_ (.pure _)
    refine .bind tidy_beginPacket fun dest => .bind (tidy_writevStream _ _) fun r => ?_
    split
    · exact .pure _
    · refine .ite (.pure _) (.bind (tidy_sendPacket _) fun sr => ?_)
      cases sr <;> exact .pure _
  · exact .bind tidy_flushPackets fun _ => .pure _

theorem silent_watched {β : Type} {b : β} {m' : Account} (h : m'.Fine) (harmed : m'.armed = false) :
    Watched entries (do
      setClosed
      pure b) (fun _ => Rest) m' s :=
  (setClosed_watched h harmed).bind fun _ _ _ hu => Watched.pure hu.fine hu

theorem leave_false (harmed : m.armed = false) : m.leave false = m := by
  rw [leave, Bool.or_false, ← harmed]

theorem tidy_feedData (data : Bytes) : Tidy entries (feedData data) := by
  constructor
  · refine (ngtcp2_keeps _).bind fun r => ?_
    cases r with
    | none => trivial
    | some e =>
      refine .ite (setClosed_keeps.bind fun _ => trivial) ?_
      exact (tidy_closeOnError e).keeps.bind fun _ => trivial
  · intro m s h
    have hread : Watched entries (ngtcp2 (.readPkt data)) (fun r m' t =>
        m' = m.leave (r = some .draining || r = some .dropConn) ∧ t.closed = s.closed) m s :=
      ngtcp2_watched _ h fun r t ht => ⟨h.fine, rfl, ht⟩
    refine hread.bind fun r m' t ht => ?_
    obtain ⟨rfl, hclosed⟩ := ht
    cases r with
    | none =>
      have hsame : m.leave (none = some LibErr.draining || none = some LibErr.dropConn) = m := by
        simp [leave_false h.armed]
      rw [hsame]
      exact Watched.pure h.fine (h.congr hclosed)
    | some e =>
      dsimp only
      split_ifs with hgone
      · exact silent_watched h.fine rfl
      · rw [not_or] at hgone
        have hsame : m.leave (some e = some .draining || some e = some .dropConn) = m := by
          simp [hgone.1, hgone.2, leave_false h.armed]
        rw [hsame]
        refine ((tidy_closeOnError e).once m t (h.congr hclosed)).bind fun _ m' u hu => ?_
        exact Watched.pure hu.fine hu

theorem tidy_readSocket : Tidy entries readSocket := by
  refine .bind (.ask rfl) fun r => ?_
  cases r with
  | none => exact .bind .get fun _ => .pure _
  | some r => exact .ite (.pure _) (tidy_feedData _)

theorem tidy_fireTimer : Tidy entries fireTimer := by
  constructor
  · refine (Tidy.ask rfl).keeps.bind fun _ => (Tidy.ask rfl).keeps.bind fun _ => .ite ?_ trivial
    refine (ngtcp2_keeps _).bind fun r => ?_
    cases r with
    | none => trivial
    | some e =>
      refine .ite (setClosed_keeps.bind fun _ => trivial) ?_
      exact (tidy_closeOnError e).keeps.bind fun _ => trivial
  · intro m s h
    refine ((Tidy.ask rfl).once m s h).bind fun expiry m t h => ?_
    refine ((Tidy.ask rfl).once m t h).bind fun now m u h => ?_
    split_ifs with hdue
    · have hfire : Watched entries (ngtcp2 .handleExpiry) (fun r m' t =>
          m' = m.leave (r = some .idleClose) ∧ t.closed = u.closed) m u :=
        ngtcp2_watched _ h fun r t ht => ⟨h.fine, rfl, ht⟩
      refine hfire.bind fun r m' t ht => ?_
      obtain ⟨rfl, hclosed⟩ := ht
      cases r with
      | none =>
        have hsame : m.leave (none = some LibErr.idleClose) = m := by
          simp [leave_false h.armed]
        rw [hsame]
        exact Watched.pure h.fine (h.congr hclosed)
      | some e =>
        dsimp only
        split_ifs with hidle
        · exact silent_watched h.fine rfl
        · have hsame : m.leave (some e = some .idleClose) = m := by
            simp [hidle, leave_false h.armed]
          rw [hsame]
          refine ((tidy_closeOnError e).once m t (h.congr hclosed)).bind fun _ m' v hv => ?_
          exact Watched.pure hv.fine hv
    · exact Watched.pure h.fine h

theorem tidy_runTimers : Tidy entries runTimers :=
  .bind tidy_fireTimer fun _ => .ite tidy_drainPackets (.pure _)

theorem tidy_pumpOnce (deadline : ℕ) : Tidy entries (pumpOnce deadline) := by
  refine .bind .get fun _ => .ite (.pure _) ?_
  refine .bind (.ask rfl) fun expiry => .bind (.ask rfl) fun now => .bind (.ask rfl) fun sel => ?_
  cases sel with
  | none => exact .bind .get fun _ => .ite (.pure _) tidy_runTimers
  | some sel =>
    refine .ite (.bind tidy_readSocket fun _ => .ite tidy_runTimers (.pure _)) tidy_runTimers

theorem tidy_pumpOr (accepted : ℕ) : Tidy entries (pumpOr accepted) :=
  .bind (tidy_pumpOnce _) fun _ => .ite (.pure _) (.bind (.modify fun _ => rfl) fun _ => .pure _)

theorem tidy_pumpAgain : Tidy entries pumpAgain :=
  .bind (tidy_pumpOnce _) fun _ => .ite (.pure _) (.pure _)

theorem tidy_writeStream (block : ℕ) (buf : Bytes) : Tidy entries (writeStream block buf) := by
  refine .bind (.round fun accepted => .ite ?_ (.pure _)) fun _ => .ite ?_ (.pure _)
  · refine .bind tidy_beginPacket fun dest => .bind (tidy_writevStream _ _) fun r => ?_
    split
    · refine .ite (tidy_pumpOr _) (.bind (tidy_closeOnError _) fun _ => ?_)
      exact .bind (.modify fun _ => rfl) fun _ => .pure _
    · refine .ite (tidy_pumpOr _) (.bind (.modify fun _ => rfl) fun _ => ?_)
      refine .bind (tidy_sendPacket _) fun sr => ?_
      cases sr with
      | ok => exact .pure _
      | blocked => exact tidy_pumpOr _
      | failed => exact .pure _
  · exact .bind tidy_flushPackets fun _ => .pure _

theorem tidy_send (buf : Bytes) : Tidy entries (send buf) := by
  refine .bind .get fun _ => .ite (.bind (.modify fun _ => rfl) fun _ => .pure _) ?_
  refine .ite (.raise _) (.ite (.pure _) ?_)
  exact .bind (.act fun _ => rfl) fun _ => tidy_writeStream _ _

theorem tidy_recv (len : ℕ) : Tidy entries (recv len) := by
  refine .bind (.round fun _ => .bind .get fun _ => .ite (.bind (tidy_pumpOnce _) fun _ =>
    .ite (.pure _) (.pure _)) (.pure _)) fun _ => .bind .get fun _ => .ite ?_ ?_
  · exact .bind (.act fun _ => rfl) fun _ => .pure _
  · exact .ite (.pure _) (.pure _)

theorem tidy_sendFin : Tidy entries sendFin := by
  refine .bind .get fun _ => .ite (.pure _) (.ite (.pure _) (.round fun _ => ?_))
  refine .bind .get fun _ => .ite (.pure _) ?_
  refine .bind tidy_beginPacket fun dest => .bind (tidy_writevStream _ _) fun r => ?_
  split
  · exact .ite tidy_pumpAgain (.bind (tidy_closeOnError _) fun _ => .pure _)
  · refine .ite tidy_pumpAgain (.bind (tidy_sendPacket _) fun sr => .ite (.pure _) (.ite ?_ (.pure _)))
    exact .bind (.modify fun _ => rfl) fun _ => .bind tidy_flushPackets fun _ => .pure _

theorem tidy_throwErrno (what : String) : Tidy entries (throwErrno what : Prog Quic α) :=
  .bind .get fun _ => .raise _

theorem tidy_sendFile (fd : Path) (offset len : ℕ) : Tidy entries (sendFile fd offset len) := by
  refine .ite (.pure _) (.bind .get fun _ => .ite (.raise _) (.ite (.raise _) ?_))
  refine .bind (.ask rfl) fun page => .bind (.ask rfl) fun map => ?_
  cases map with
  | none => exact tidy_throwErrno _
  | some map =>
    refine .bind (.act fun _ => rfl) fun _ => .bind (tidy_writeStream _ _) fun r => ?_
    cases r with
    | none => exact tidy_throwErrno _
    | some _ => exact .pure _

theorem tidy_recvFile (fd : Path) (offset len : ℕ) : Tidy entries (recvFile fd offset len) := by
  refine .ite (.pure _) (.bind (.ask rfl) fun page => .bind (.ask rfl) fun ok => ?_)
  refine .ite (.bind (.act fun _ => rfl) fun map => ?_) (tidy_throwErrno _)
  refine .bind (.attempt (.round fun _ => ?_)) fun r => .bind (.modify fun _ => rfl) fun _ => ?_
  · exact .bind .get fun _ => .ite (.ite (.raise _) (.bind (tidy_pumpOnce _) fun _ =>
      .ite (.pure _) (.raise _))) (.pure _)
  · cases r with
    | ok _ => exact .pure _
    | error e => exact .raise e

theorem tidy_runHandshake : Tidy entries runHandshake := by
  refine .bind tidy_drainPackets fun _ => .ite (.round fun _ => ?_) (.pure _)
  exact .bind (.ask rfl) fun _ => .ite (.pure _) tidy_pumpAgain

theorem tidy_sendExact (buf : Bytes) : Tidy entries (Embr.sendExact quicTransport buf) := by
  refine .round fun sent => .ite (.bind (tidy_send _) fun r => ?_) (.pure _)
  cases r with
  | some n => exact .ite (.raise _) (.pure _)
  | none => exact .bind .get fun _ => .ite (.pure _) (.raise _)

theorem tidy_recvExact (len : ℕ) : Tidy entries (Embr.recvExact quicTransport len) := by
  refine .round fun received => .ite (.bind (tidy_recv _) fun r => ?_) (.pure _)
  cases r with
  | some bs => exact .ite (.raise _) (.pure _)
  | none => exact .bind .get fun _ => .ite (.pure _) (.raise _)

theorem tidy_call (c : Call) : Tidy entries c.run := by
  cases c with
  | handshake => exact .bind tidy_runHandshake fun _ => .pure _
  | openStream streamId => exact .bind (.modify fun _ => rfl) fun _ => .pure _
  | send buf => exact .bind (tidy_send _) fun _ => .pure _
  | sendExact buf => exact .bind (tidy_sendExact _) fun _ => .pure _
  | sendFile fd offset len => exact .bind (tidy_sendFile _ _ _) fun _ => .pure _
  | sendFin => exact .bind tidy_sendFin fun _ => .pure _
  | recv len => exact .bind (tidy_recv _) fun _ => .pure _
  | recvExact len => exact .bind (tidy_recvExact _) fun _ => .pure _
  | recvFile fd offset len => exact .bind (tidy_recvFile _ _ _) fun _ => .pure _

theorem tidy_destruct : Tidy entries destruct :=
  .bind .get fun _ => .bind (.when (tidy_closeConnection tidy_pumpOnce none)) fun _ =>
    .bind .get fun _ => .when tidy_resetZc

end closing

end Embr.QuicTransport
