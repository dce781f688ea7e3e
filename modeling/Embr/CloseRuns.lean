import Embr.CloseOnce
import Embr.StreamBytes

/-!
# Closes over the life of a transport

The account of a whole life: the first packet of an accepted connection, any
calls, and the destructor. `closeFrames` is `close_connection` with the
`pump_once` that calls it, given a number of frames; two are as good as any.
-/

open Octets Interact
namespace Embr.QuicTransport

def feedDataIn (close : LibErr → Prog Quic Unit) (data : Bytes) : Prog Quic Bool := do
  match ← ngtcp2 (.readPkt data) with
  | none => pure true
  | some e =>
    if e = .draining ∨ e = .dropConn then do
      setClosed
      pure false
    else do
      close e
      pure false

def readSocketIn (close : LibErr → Prog Quic Unit) : Prog Quic Bool := do
  match ← quic .recvmsg with
  | none => do
    let s ← .get
    pure (decide (softErrno s.errno))
  | some (data, truncated) => if truncated then pure false else feedDataIn close data

def fireTimerIn (close : LibErr → Prog Quic Unit) : Prog Quic Bool := do
  let expiry : ℕ ← quic .getExpiry
  let now : ℕ ← quic .now
  if expiry ≤ now then do
    match ← ngtcp2 .handleExpiry with
    | none => pure true
    | some e =>
      if e = .idleClose then do
        setClosed
        pure false
      else do
        close e
        pure false
  else pure true

def runTimersIn (close : LibErr → Prog Quic Unit) : Prog Quic Bool := do
  let ok ← fireTimerIn close
  if ok then drainPackets else pure false

/-- `pump_once` with the `close_connection` that it calls. -/
def pumpOnceIn (close : LibErr → Prog Quic Unit) (deadline : ℕ) : Prog Quic Bool := do
  let s ← .get
  if s.closed then pure false
  else do
    let expiry : ℕ ← quic .getExpiry
    let now : ℕ ← quic .now
    let tv := waitTime (min expiry deadline) now
    match ← quic (.select tv.1 tv.2) with
    | none => do
      let s ← .get
      if s.errno ≠ EINTR then pure false else runTimersIn close
    | some sel =>
      if 0 < sel then do
        let ok ← readSocketIn close
        if ok then runTimersIn close else pure false
      else runTimersIn close

/-- `close_connection` with so many frames for itself; a call too deep throws. -/
def closeFrames : ℕ → Option LibErr → Prog Quic Unit
  | 0, _ => .raise (.logicError "close_connection: no frame left")
  | frames + 1, liberr => closeConnection (pumpOnceIn fun e => closeFrames frames (some e)) liberr

theorem pumpOnceIn_closeOnError : pumpOnceIn closeOnError = pumpOnce := rfl

theorem closeFrames_error (frames : ℕ) (e : LibErr) :
    closeFrames (frames + 1) (some e) = closeOnError e := by
  rw [closeFrames, closeOnError_eq]

theorem pumpOnceIn_frames (frames : ℕ) :
    (pumpOnceIn fun e => closeFrames (frames + 1) (some e)) = pumpOnce := by
  have hclose : (fun e => closeFrames (frames + 1) (some e)) = closeOnError :=
    funext (closeFrames_error frames)
  rw [hclose, pumpOnceIn_closeOnError]

theorem closeFrames_two (frames : ℕ) (liberr : Option LibErr) :
    closeFrames (frames + 2) liberr = closeConnection pumpOnce liberr := by
  rw [closeFrames, pumpOnceIn_frames]

/-- After a packet of the peer's close, ngtcp2 says that the connection is draining. -/
def draining (entries : ℕ) : Env Quic := fun o s r t =>
  world entries o s r t ∧ match o, r with
    | .inDrainingPeriod, r => r = true
    | _, _ => True

abbrev Mute {α : Type} (entries : ℕ) (p : Prog Quic α) (Q : α → Store → Prop) (s : Store) : Prop :=
  Sat (draining entries) (fun o _ => ∀ buf, o ≠ some (.sendmsg buf)) (fun _ _ => True) p Q s

section first
variable {entries : ℕ} {α : Type}

theorem egress_mute (p : Prog ZcEgress.Zc α) (s : Store) :
    Mute entries (egress p) (fun _ _ => True) s := by
  rw [egress]
  induction p generalizing s with
  | ret a => exact ⟨by rintro _ ⟨⟩, trivial⟩
  | raise e => exact ⟨by rintro _ ⟨⟩, trivial⟩
  | act f k ih => exact ⟨by rintro _ ⟨⟩, ih _ _⟩
  | call o k ih => exact ⟨by rintro _ ⟨⟩, fun r t _ => ih r t⟩
  | loop body x k ihb ihk =>
    refine ⟨fun _ _ => True, trivial, fun y t _ => ⟨by rintro _ ⟨⟩, (ihb y t).weaken fun r u _ => ?_⟩⟩
    cases r with
    | inl z => trivial
    | inr b => exact ihk b u

theorem destruct_mute (s : Store) : Mute entries destruct (fun _ _ => True) s := by
  have halready : ∀ t, Mute entries alreadyClosing (fun closing _ => closing = true) t := by
    intro t
    refine sat_get_bind.mpr ⟨nofun, ?_⟩
    split_ifs
    · exact ⟨nofun, rfl⟩
    refine sat_ask_bind.mpr ⟨nofun, fun r u _ => ?_⟩
    split_ifs
    · exact ⟨nofun, rfl⟩
    · exact sat_ask.mpr ⟨nofun, fun r v hv => ⟨nofun, hv.2⟩⟩
  have hclose : Mute entries (closeConnection pumpOnce none) (fun _ _ => True) s := by
    refine Sat.andThen (halready s) fun closing t ht => ?_
    rw [if_pos ht]
    exact sat_modify.mpr ⟨nofun, nofun, trivial⟩
  have hwhen : Mute entries (.when (s.closed = false) (closeConnection pumpOnce none))
      (fun _ _ => True) s := Sat.when (fun _ => hclose) fun _ => ⟨nofun, trivial⟩
  refine sat_get_bind.mpr ⟨nofun, Sat.andThen hwhen fun _ t _ => sat_get_bind.mpr ⟨nofun, ?_⟩⟩
  refine Sat.when (fun _ => ?_) fun _ => ⟨nofun, trivial⟩
  exact Sat.andThen (egress_mute _ t) fun _ u _ => sat_modify.mpr ⟨nofun, nofun, trivial⟩

end first

inductive Entry : Prog Quic Outcome → Prop
  | call (c : Call) : Entry c.run
  | destruct : Entry (do
      destruct
      pure .done)

/-- The calls of a transport so far, and the members after them. -/
inductive Life (entries : ℕ) : List (Label Quic) → Store → Prop
  | connected {s : Store} : Fresh s → Life entries [] s
  | accepted {s t : Store} {l : List (Label Quic)} {first : Bytes} : Fresh s →
      Trace (world entries) (ngtcp2 (.readPkt first)) s l (.ret none) t → Life entries l t
  | next {s t : Store} {l l' : List (Label Quic)} {p q : Prog Quic Outcome} : Life entries l s →
      Entry p → Trace (world entries) p s l' q t → q.Done → Life entries (l ++ l') t

section life
variable {entries : ℕ} {s t : Store} {l l' : List (Label Quic)} {α : Type}

theorem tidy_entry {p : Prog Quic Outcome} (h : Entry p) : Tidy entries p := by
  cases h with
  | call c => exact tidy_call c
  | destruct => exact .bind tidy_destruct fun _ => .pure _

theorem Account.of_append (l l' : List (Label Quic)) :
    Account.of (l ++ l') = l'.foldl Account.see (Account.of l) := List.foldl_append

theorem start_rest (s : Store) : Account.start.Rest s :=
  ⟨⟨Nat.zero_le 1, rfl⟩, rfl, fun _ => ⟨rfl, rfl⟩⟩

theorem Watched.fine {p q : Prog Quic α} {Q : α → Account → Store → Prop}
    (h : Watched entries p Q (.of l) s) (hrun : Trace (world entries) p s l' q t) :
    (Account.of (l ++ l')).Fine := by
  rw [Account.of_append]
  exact h.visited (hrun.watched Account.see (.of l))

theorem Watched.ended {p q : Prog Quic α} (h : Watched entries p (fun _ => Account.Rest) (.of l) s)
    (hrun : Trace (world entries) p s l' q t) (hq : q.Done) : (Account.of (l ++ l')).Rest t := by
  rw [Account.of_append]
  have hend := h.reaches (hrun.watched Account.see (.of l))
  cases q with
  | ret a => exact hend.2
  | raise e => exact hend.2
  | act f k => exact hq.elim
  | call o k => exact hq.elim
  | loop body x k => exact hq.elim

theorem firstPacket_rest {first : Bytes}
    (hrun : Trace (world entries) (ngtcp2 (.readPkt first)) s l (.ret none) t) :
    (Account.of l).Rest t := by
  have hread : Watched entries (ngtcp2 (.readPkt first))
      (fun r m t => r = none → m.Rest t) Account.start s := by
    refine ngtcp2_watched _ (start_rest s) fun r t _ => ⟨(start_rest s).fine, ?_⟩
    rintro rfl
    exact start_rest t
  exact hread.returned (hrun.watched Account.see Account.start) rfl

theorem Life.rest (h : Life entries l s) : (Account.of l).Rest s := by
  induction h with
  | @connected s _ => exact start_rest s
  | accepted _ hrun => exact firstPacket_rest hrun
  | next _ hp hrun hq ih => exact ((tidy_entry hp).once _ _ ih).ended hrun hq

theorem Trace.closed_kept {p q q' : Prog Quic Outcome} {u : Store} (hp : Entry p)
    (hrun : Trace (world entries) p s l q t) (hclosed : t.closed = true)
    (hlater : Reaches (world entries) (q, t) (q', u)) : u.closed = true :=
  ((tidy_entry hp).keeps.after hrun.reaches).reaches hclosed hlater

end life

/-- A life of any length, the first packet that ends one before it starts, and the frames. -/
theorem close_fires_once (entries : ℕ) :
    (∀ l s p l' q t, Life entries l s → Entry p → Trace (world entries) p s l' q t →
      (Account.of (l ++ l')).closes ≤ 1 ∧ (Account.of (l ++ l')).late = 0 ∧
        (s.closed = true → t.closed = true) ∧
        ∀ q' u, t.closed = true → Reaches (world entries) (q, t) (q', u) → u.closed = true) ∧
    (∀ first e l s l' q t u, Fresh s →
      Trace (world entries) (ngtcp2 (.readPkt first)) s l (.ret (some e)) t →
      (Trace (world entries) destruct t l' q u → (Account.of l').closes ≤ 1) ∧
        (e = .draining → Trace (draining entries) destruct t l' q u →
          ∀ x ∈ l', ∀ buf, x.op ≠ .sendmsg buf)) ∧
    (∀ (E : Env Quic) pump liberr s t, Reaches E (closeConnection pump liberr, s) (.ret (), t) →
      t.closed = true) ∧
    ∀ frames, (pumpOnceIn fun e => closeFrames (frames + 1) (some e)) = pumpOnce ∧
      ∀ liberr, closeFrames (frames + 2) liberr = closeConnection pumpOnce liberr := by
  refine ⟨?_, ?_, ?_, fun frames => ⟨pumpOnceIn_frames frames, closeFrames_two frames⟩⟩
  · intro l s p l' q t hlife hp hrun
    have hfine := ((tidy_entry hp).once _ _ hlife.rest).fine hrun
    refine ⟨hfine.1, hfine.2, fun hs => (tidy_entry hp).keeps.reaches hs hrun.reaches, ?_⟩
    exact fun q' u ht hlater => Trace.closed_kept hp hrun ht hlater
  · intro first e l s l' q t u _ _
    refine ⟨fun hrun => ?_, fun _ hrun x hx buf hop => ?_⟩
    · have hfine := Watched.fine (l := []) (tidy_destruct.once _ _ (start_rest t)) hrun
      exact hfine.1
    · obtain ⟨q', v, hr, hhead⟩ := hrun.heads hx
      exact (destruct_mute t).visited hr buf (hop ▸ hhead)
  · intro E pump liberr s t hr
    exact (closeConnection_closes pump liberr).returned hr

theorem newborn_closes : ∃ l t, Trace (world 0) (do
      destruct
      pure Outcome.done) newborn l (.ret .done) t ∧ t.closed = true ∧ (Account.of l).closes = 1 := by
  let sent : Store := { newborn with packetBuf := [28] }
  have hpacket : world 0 (.ng (.writeConnectionClose none)) newborn (.ok 1) sent := ⟨[28], rfl⟩
  have hsent : world 0 (.sendmsg [28]) sent (some 1) sent := .inl ⟨rfl, rfl⟩
  have hnone : world 0 (.callback (.writeConnectionClose none)) newborn none newborn := ⟨rfl, nofun⟩
  refine ⟨[⟨.inClosingPeriod, false, newborn⟩, ⟨.inDrainingPeriod, false, newborn⟩,
    ⟨.callback (.writeConnectionClose none), none, newborn⟩,
    ⟨.ng (.writeConnectionClose none), .ok 1, sent⟩, ⟨.sendmsg [28], some 1, sent⟩],
    { sent with closed := true }, ?_, rfl, rfl⟩
  refine .act (.act (.call rfl (.call rfl (.act (.loop (.call hnone ?_))))))
  exact .call hpacket (.act (.call hsent (.act (.act .done))))

theorem close_fires_once_newborn : ∃ l, ∃ t : Store, t.closed = true ∧ (Account.of l).closes = 1 ∧
    (Account.of l).closes ≤ 1 ∧ (Account.of l).late = 0 := by
  obtain ⟨l, t, hrun, hclosed, hcloses⟩ := newborn_closes
  have hlife : Life 0 [] newborn := .connected ⟨_, _, _, rfl⟩
  obtain ⟨hone, hlate, -⟩ := (close_fires_once 0).1 [] newborn _ l _ t hlife .destruct hrun
  exact ⟨l, t, hclosed, hcloses, hone, hlate⟩

end Embr.QuicTransport
