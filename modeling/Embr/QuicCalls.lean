import Embr.QuicReceive
import Embr.Lib.History

/-!
# Any sequence of calls on a QUIC transport

The calls of `Transport` and those of the factories, one after another from a
new connection. What the calls wrote and took is read off their history.
-/

open Octets Interact
namespace Embr.QuicTransport

def members (z : ZcEgress.State) (files : Path → ℕ → UInt8) (packetBuf : Bytes) : Store where
  toState := z
  unacked := []
  streamOffset := 0
  blocks := 0
  accepted := []
  acked := 0
  streamId := -1
  finReceived := false
  recvBuf := []
  recvDest := none
  recvDestLen := 0
  recvDestGot := 0
  maps := []
  files := files
  delivered := []
  zc := false
  egressInit := false
  packetBuf := packetBuf
  finSent := false
  closed := false

def Fresh (s : Store) : Prop := ∃ z files packetBuf, s = members z files packetBuf

/-- `openStream` is `quic_connect` with the number of the stream it has opened. -/
inductive Call
  | handshake
  | openStream (streamId : ℕ)
  | send (buf : Bytes)
  | sendExact (buf : Bytes)
  | sendFile (fd : Path) (offset len : ℕ)
  | sendFin
  | recv (len : ℕ)
  | recvExact (len : ℕ)
  | recvFile (fd : Path) (offset len : ℕ)

inductive Outcome
  | done
  | failed
  | received (bs : Bytes)

def openStream (streamId : ℕ) : Prog Quic Unit := .modify fun s => { s with streamId := streamId }

def Outcome.of (ok : Bool) : Outcome := if ok then .done else .failed

def Outcome.ofRecv : Option Bytes → Outcome
  | some bs => .received bs
  | none => .failed

def Call.run : Call → Prog Quic Outcome
  | .handshake => do
    let ok ← runHandshake
    pure (.of ok)
  | .openStream streamId => do
    QuicTransport.openStream streamId
    pure .done
  | .send buf => do
    let r ← QuicTransport.send buf
    pure (.of r.isSome)
  | .sendExact buf => do
    Embr.sendExact quicTransport buf
    pure .done
  | .sendFile fd offset len => do
    QuicTransport.sendFile fd offset len
    pure .done
  | .sendFin => do
    let ok ← QuicTransport.sendFin
    pure (.of ok)
  | .recv len => do
    let r ← QuicTransport.recv len
    pure (.ofRecv r)
  | .recvExact len => do
    let bs ← Embr.recvExact quicTransport len
    pure (.received bs)
  | .recvFile fd offset len => do
    QuicTransport.recvFile fd offset len
    pure .done

/-- The bytes a call is to write. -/
def Call.buffer (s : Store) : Call → Bytes
  | .send buf => buf
  | .sendExact buf => buf
  | .sendFile fd offset len => fileRange s.files fd offset len
  | _ => []

def Call.writes : Call → Bool
  | .send _ => true
  | .sendExact _ => true
  | .sendFile _ _ _ => true
  | _ => false

def Call.reads : Call → Bool
  | .recv _ => true
  | .recvExact _ => true
  | .recvFile _ _ _ => true
  | _ => false

/-- The range of a file that a call may write. -/
def Call.range : Call → Path × ℕ × ℕ
  | .recvFile fd offset len => (fd, offset, len)
  | _ => ([], 0, 0)

/-- The bytes a call has taken, by its outcome and the files it left. -/
def Call.taken (after : Store) : Call → Except Exc Outcome → Bytes
  | .recv _, .ok (.received bs) => bs
  | .recvExact _, .ok (.received bs) => bs
  | .recvFile fd offset len, .ok _ => fileRange after.files fd offset len
  | _, _ => []

/-- `send_exact` offers its buffer once if the submission queue cannot fill. -/
def Call.Fits (entries : ℕ) : Call → Prop
  | .sendExact _ => zcSlots ≤ entries
  | _ => True

def Call.Wrote (entries : ℕ) (c : Call) (o : Except Exc Outcome) : Prop :=
  c.writes = true → o = .ok .done ∧ c.Fits entries

def Call.Took (c : Call) (o : Except Exc Outcome) : Prop := c.reads = true → ∃ r, o = .ok r

abbrev Past : Type := Record Quic Call Outcome

def sent (h : List Past) : Bytes := (h.map fun r => r.call.buffer r.before).flatten

def taken (h : List Past) : Bytes := (h.map fun r => r.call.taken r.after r.outcome).flatten

def AllWrote (entries : ℕ) (h : List Past) : Prop := ∀ r ∈ h, r.call.Wrote entries r.outcome

def AllTook (h : List Past) : Prop := ∀ r ∈ h, r.call.Took r.outcome

structure Call.Stage (entries : ℕ) (sent : Bytes) (whole : Prop) (s : Store) (c : Call)
    (o : Outgoing) : Prop where
  held : Held o
  writing : c.writes = true → c.Fits entries → Offered sent (c.buffer s) o
  idle : c.writes = false → Between sent whole o

abbrev Call.During (entries : ℕ) (sent : Bytes) (whole : Prop) (s : Store) (c : Call) :
    Option Op → Store → Prop :=
  Points (c.Stage entries sent whole s) (Landed s.files c.range.1 c.range.2.1 c.range.2.2)

structure Call.After (entries : ℕ) (sent : Bytes) (whole : Prop) (got : Bytes) (all : Prop)
    (s : Store) (c : Call) (o : Except Exc Outcome) (u : Store) : Prop where
  sound : Sound entries (Between (u.accepted.map Prod.snd) (whole ∧ c.Wrote entries o))
    (Received (got ++ c.taken u o) (all ∧ c.Took o) u.files) u
  sent : c.Wrote entries o → u.accepted.map Prod.snd = sent ++ c.buffer s
  errno : ∀ buf, c = .send buf → o = .ok .failed → zcSlots ≤ entries → u.errno ≠ EAGAIN

section call
variable {entries : ℕ} {E : Env Quic} {sent' got got' : Bytes} {whole whole' all all' : Prop}
  {files : Path → ℕ → UInt8} {s u : Store} {buf : Bytes} {c : Call}

theorem Sound.recast (h : Sound entries (Between sent' whole) (Received got all files) u)
    (hwhole : whole' → whole) (hall : all' → all ∧ got' = got) :
    Sound entries (Between (u.accepted.map Prod.snd) whole') (Received got' all' u.files) u := by
  refine ⟨⟨h.out.held, rfl, h.out.offset, fun hw => h.out.all (hwhole hw)⟩,
    ⟨h.inc.dest, rfl, ?_⟩, h.ring, h.init⟩
  intro ha
  obtain ⟨ha, rfl⟩ := hall ha
  exact h.inc.stream ha

theorem buffer_of_idle (hw : c.writes = false) (s : Store) : c.buffer s = [] := by
  cases c <;> first | rfl | cases hw

theorem taken_of_idle (hr : c.reads = false) (u : Store) (o : Except Exc Outcome) :
    c.taken u o = [] := by
  cases c <;> first | rfl | cases hr

theorem reads_of_writes (hw : c.writes = true) : c.reads = false := by
  cases c <;> first | rfl | cases hw

theorem during_writing {o : Option Op} (hw : c.writes = true)
    (h : Points (Offered sent' (c.buffer s)) (Received got all s.files) o u) :
    c.During entries sent' whole s o u := by
  refine ⟨⟨h.out.held, fun _ _ => h.out, ?_⟩, h.inc.landed _ _ _, h.reads⟩
  intro hidle
  rw [hw] at hidle
  cases hidle

theorem during_written {o : Option Op} (hw : c.writes = true)
    (h : Points (Between (sent' ++ c.buffer s) whole) (Received got all s.files) o u) :
    c.During entries sent' whole s o u :=
  during_writing hw ⟨⟨h.out.held, _, List.prefix_refl _, h.out.stream⟩, h.inc, h.reads⟩

theorem during_idle {o : Option Op} {L : Incoming → Prop} (hw : c.writes = false)
    (h : Points (Between sent' whole) L o u)
    (hL : ∀ {i}, L i → Landed s.files c.range.1 c.range.2.1 c.range.2.2 i) :
    c.During entries sent' whole s o u := by
  refine ⟨⟨h.out.held, ?_, fun _ => h.out⟩, hL h.inc, h.reads⟩
  intro hbusy
  rw [hw] at hbusy
  cases hbusy

theorem after_wrote (hw : c.writes = true)
    (h : Sound entries (Between (sent' ++ c.buffer s) whole) (Received got all files) u) :
    c.After entries sent' whole got all s (.ok .done) u := by
  have htaken := taken_of_idle (reads_of_writes hw) u (.ok .done)
  refine ⟨h.recast And.left fun ha => ⟨ha.1, by rw [htaken, List.append_nil]⟩, ?_, nofun⟩
  intro _
  exact h.out.stream

theorem after_cut {o : Except Exc Outcome} {sent'' : Bytes} (hw : c.writes = true)
    (ho : ¬ c.Wrote entries o) (h : Sound entries (Between sent'' False) (Received got all files) u)
    (herrno : ∀ buf, c = .send buf → o = .ok .failed → zcSlots ≤ entries → u.errno ≠ EAGAIN) :
    c.After entries sent' whole got all s o u := by
  have htaken := taken_of_idle (reads_of_writes hw) u o
  exact ⟨h.recast (fun hwrote => ho hwrote.2) fun ha => ⟨ha.1, by rw [htaken, List.append_nil]⟩,
    fun hwrote => (ho hwrote).elim, herrno⟩

theorem not_wrote_of_ne {o : Except Exc Outcome} (hw : c.writes = true) (ho : o ≠ .ok .done) :
    ¬ c.Wrote entries o := fun h => ho (h hw).1

theorem after_took {o : Except Exc Outcome} (hw : c.writes = false)
    (h : Sound entries (Between sent' whole) (Received (got ++ c.taken u o) all files) u) :
    c.After entries sent' whole got all s o u := by
  refine ⟨h.recast And.left fun ha => ⟨ha.1, rfl⟩, ?_, ?_⟩
  · intro _
    rw [buffer_of_idle hw, List.append_nil]
    exact h.out.stream
  · intro buf heq
    subst heq
    cases hw

theorem after_plain {o : Except Exc Outcome} (hw : c.writes = false) (hr : c.reads = false)
    (h : Sound entries (Between sent' whole) (Received got all files) u) :
    c.After entries sent' whole got all s o u := by
  have htook : Sound entries (Between sent' whole) (Received (got ++ c.taken u o) all files) u := by
    rw [taken_of_idle hr, List.append_nil]
    exact h
  exact after_took hw htook

theorem after_lost {e : Exc} (hw : c.writes = false) (hr : c.reads = true)
    (h : Sound entries (Between sent' whole) (Received [] False files) u) :
    c.After entries sent' whole got all s (.error e) u := by
  refine ⟨h.recast And.left ?_, ?_, nofun⟩
  · intro ha
    obtain ⟨r, hr⟩ := ha.2 hr
    cases hr
  · intro _
    rw [buffer_of_idle hw, List.append_nil]
    exact h.out.stream

variable (hE : ∀ o s r t, E o s r t → world entries o s r t)
include hE

theorem write_sat (hw : c.writes = true)
    (hs : Sound entries (Between sent' whole) (Received got all s.files) s) :
    Sat E (c.During entries sent' whole s)
      (fun e u => c.After entries sent' whole got all s (.error e) u)
      c.run (fun r u => c.After entries sent' whole got all s (.ok r) u) s := by
  have hL := received_stable got all s.files
  cases c with
  | send buf =>
    refine Sat.seq (send_sat hE hL hs fun e u hu => ?_) (fun _ _ h => during_writing hw h) ?_
    · obtain ⟨p, -, hcut⟩ := hu.cut buf
      exact after_cut hw (not_wrote_of_ne hw nofun) hcut nofun
    intro r u hu
    rcases hu with ⟨rfl, hu⟩ | ⟨rfl, hu⟩
    · exact sat_pure.mpr ⟨during_written hw hu.points, after_wrote hw hu⟩
    · obtain ⟨⟨a, hcut⟩, herrno⟩ := id hu
      exact sat_pure.mpr ⟨during_writing hw hu.points,
        after_cut hw (not_wrote_of_ne hw nofun) hcut fun _ _ _ => herrno⟩
  | sendExact buf =>
    by_cases hentries : zcSlots ≤ entries
    · refine Sat.seq ((sendExact_sat hE hL hentries hs).throws fun e u hu => ?_)
        (fun _ _ h => during_writing hw h) ?_
      · obtain ⟨p, -, hcut⟩ := hu
        exact after_cut hw (not_wrote_of_ne hw nofun) hcut nofun
      intro _ u hu
      exact sat_pure.mpr ⟨during_written hw hu.points, after_wrote hw hu⟩
    · have hshort : ∀ o, ¬ (Call.sendExact buf).Wrote entries o := fun o h => hentries (h rfl).2
      have hpoints : ∀ {o u}, Points Held (Received got all s.files) o u →
          (Call.sendExact buf).During entries sent' whole s o u :=
        fun h => ⟨⟨h.out, fun _ hfits => (hentries hfits).elim, nofun⟩, h.inc.landed _ _ _, h.reads⟩
      refine Sat.seq ((sendExact_held_sat hE hL hs).throws fun e u hu => ?_)
        (fun _ _ h => hpoints h) ?_
      · obtain ⟨_, hcut⟩ := hu
        exact after_cut hw (hshort _) hcut nofun
      intro _ u hu
      obtain ⟨_, hcut⟩ := hu
      exact sat_pure.mpr ⟨hpoints (.none_of hcut.out.held hcut.inc),
        after_cut hw (hshort _) hcut nofun⟩
  | sendFile fd offset len =>
    refine Sat.seq ((sendFile_sat hE hL fd offset len hs rfl).throws fun e u hu => ?_)
      (fun _ _ h => during_writing hw h) ?_
    · obtain ⟨p, -, hcut⟩ := hu
      exact after_cut hw (not_wrote_of_ne hw nofun) hcut nofun
    intro _ u hu
    exact sat_pure.mpr ⟨during_written hw hu.points, after_wrote hw hu⟩
  | handshake => cases hw
  | openStream _ => cases hw
  | sendFin => cases hw
  | recv _ => cases hw
  | recvExact _ => cases hw
  | recvFile _ _ _ => cases hw

theorem idle_sat (hw : c.writes = false)
    (hs : Sound entries (Between sent' whole) (Received got all s.files) s) :
    Sat E (c.During entries sent' whole s)
      (fun e u => c.After entries sent' whole got all s (.error e) u)
      c.run (fun r u => c.After entries sent' whole got all s (.ok r) u) s := by
  have hJ := between_stable sent' whole
  have hL := received_stable got all s.files
  have hreceived : ∀ {g a o u}, Points (Between sent' whole) (Received g a s.files) o u →
      c.During entries sent' whole s o u :=
    fun h => during_idle hw h fun hi => hi.landed _ _ _
  cases c with
  | handshake =>
    refine Sat.seq (runHandshake_sat hE hJ hL hs) (fun _ _ h => hreceived h) ?_
    intro ok u hu
    exact sat_pure.mpr ⟨hreceived hu.points, after_plain hw rfl hu⟩
  | openStream streamId =>
    have hu : Sound entries (Between sent' whole) (Received got all s.files)
        { s with streamId := streamId } := ⟨hs.out, hL.opened _ _ hs.inc, hs.ring, hs.init⟩
    exact sat_modify_bind.mpr ⟨hreceived hs.points,
      sat_pure.mpr ⟨hreceived hu.points, after_plain hw rfl hu⟩⟩
  | sendFin =>
    refine Sat.seq (sendFin_sat hE hJ hL hs) (fun _ _ h => hreceived h) ?_
    intro ok u hu
    exact sat_pure.mpr ⟨hreceived hu.points, after_plain hw rfl hu⟩
  | recv len =>
    refine Sat.seq (recv_sat hE hJ len hs) (fun _ _ h => during_idle hw h id) ?_
    intro r u hu
    obtain ⟨bs, hr, hu⟩ := hu
    rcases hr with rfl | ⟨rfl, rfl⟩
    · exact sat_pure.mpr ⟨hreceived hu.points, after_took hw hu⟩
    · exact sat_pure.mpr ⟨hreceived hu.points, after_took hw hu⟩
  | recvExact len =>
    refine Sat.seq ((recvExact_sat hE hJ len hs).throws fun e u hu => after_lost hw rfl hu)
      (fun _ _ h => during_idle hw h id) ?_
    intro bs u hu
    exact sat_pure.mpr ⟨hreceived hu.points, after_took hw hu⟩
  | recvFile fd offset len =>
    refine Sat.andThen (((recvFile_sat hE hJ fd offset len hs).throws
      fun e u hu => after_lost hw rfl hu).inside fun _ _ h => during_idle hw h id) ?_
    intro _ u hu
    obtain ⟨hu, hwithin⟩ := hu
    have hpoint : Points (Between sent' whole) (Landed s.files fd offset len) none u :=
      .none_of hu.out ⟨.inl hu.inc.dest, hwithin⟩
    exact sat_pure.mpr ⟨during_idle hw hpoint id, after_took hw hu⟩
  | send _ => cases hw
  | sendExact _ => cases hw
  | sendFile _ _ _ => cases hw

end call

end Embr.QuicTransport
