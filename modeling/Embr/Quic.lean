import Embr.Egress
import Embr.Transport
import Embr.Lib.Embed

/-!
# The QUIC transport

`transport/quic_transport.cpp` over ngtcp2 and a connected UDP socket. The
callbacks ngtcp2 may run inside one of its calls are run before that call is
answered. A `ZcEgress` is a part of the store, and its programs run embedded.
An `int` result that is only compared with 0 is `true` for 0, an ngtcp2 error
code is named, and blocks of memory and mappings are numbered.
-/

open Octets Interact
open Embr.System (Sys)
namespace Embr.QuicTransport

def maxPktlen : ℕ := 1350
def maxRecvPktlen : ℕ := 1500
def maxBurst : ℕ := 10
def closeLinger : ℕ := 1000000000
def zcSlots : ℕ := 64

/-- `UINT64_MAX` as a time. -/
def never : ℕ := 2 ^ 64 - 1

inductive LibErr
  | streamDataBlocked
  | draining
  | dropConn
  | idleClose
  | crypto
  | other
  deriving DecidableEq

structure Unacked where
  endOffset : ℕ
  block : ℕ
  buf : Bytes

/-- The sending half. `accepted` and `acked` are ngtcp2's account: the bytes it
accepted for the stream, each with the block it came from, and how many of them
the peer has acknowledged. -/
structure Outgoing where
  unacked : List Unacked
  streamOffset : ℕ
  blocks : ℕ
  accepted : List (ℕ × UInt8)
  acked : ℕ

structure Mapping where
  fd : Path
  base : ℕ
  len : ℕ

/-- The receiving half. `recvDest` is a mapping and a position in it, and a file
is what its mappings show. `delivered` is ngtcp2's account of the bytes it passed
to `on_recv_stream_data`. -/
structure Incoming where
  streamId : ℤ
  finReceived : Bool
  recvBuf : Bytes
  recvDest : Option (ℕ × ℕ)
  recvDestLen : ℕ
  recvDestGot : ℕ
  maps : List (Option Mapping)
  files : Path → ℕ → UInt8
  delivered : Bytes

structure Store extends ZcEgress.State, Outgoing, Incoming where
  zc : Bool
  egressInit : Bool
  packetBuf : Bytes
  finSent : Bool
  closed : Bool

/-- What `ngtcp2_conn_writev_stream` is asked to send: no stream data, an empty
STREAM frame with FIN, or data that starts at a position of a block. -/
inductive Payload
  | control
  | fin
  | data (block pos : ℕ) (bytes : Bytes)

/-- The calls of ngtcp2 that may run callbacks. `dest` is a slot of the egress,
or `none` for `packet_buf_`. -/
inductive NgCall
  | readPkt (data : Bytes)
  | handleExpiry
  | writevStream (dest : Option ℕ) (payload : Payload)
  | writeConnectionClose (liberr : Option LibErr)

abbrev NgCall.Reply : NgCall → Type
  | .readPkt _ => Option LibErr
  | .handleExpiry => Option LibErr
  | .writevStream _ _ => Except LibErr ℕ × ℤ
  | .writeConnectionClose _ => Except LibErr ℕ

inductive Event
  | ackedStreamDataOffset (offset datalen : ℕ)
  | recvStreamData (fin : Bool) (offset : ℕ) (data : Bytes)
  | streamOpen (streamId : ℤ)

inductive Op
  | egress (o : ZcEgress.Op)
  | callback (c : NgCall)
  | ng (c : NgCall)
  | getExpiry
  | inClosingPeriod
  | inDrainingPeriod
  | handshakeCompleted
  | now
  | select (sec usec : ℕ)
  | recvmsg
  | sendmsg (buf : Bytes)
  | getenv (name : String)
  | pagesize
  | mmapRead (fd : Path) (base len : ℕ)
  | mmapShared (fd : Path) (base len : ℕ)

abbrev Op.Reply : Op → Type
  | .egress o => o.Reply
  | .callback _ => Option Event
  | .ng c => c.Reply
  | .getExpiry => ℕ
  | .inClosingPeriod => Bool
  | .inDrainingPeriod => Bool
  | .handshakeCompleted => Bool
  | .now => ℕ
  | .select _ _ => Option ℕ
  | .recvmsg => Option (Bytes × Bool)
  | .sendmsg _ => Option ℕ
  | .getenv _ => Option String
  | .pagesize => ℕ
  | .mmapRead _ _ _ => Option Bytes
  | .mmapShared _ _ _ => Bool

abbrev Quic : Iface := Sys Store Op Op.Reply

abbrev quic (o : Op) : Prog Quic o.Reply := @Prog.ask Quic o

def Outgoing.onAckedStreamDataOffset (s : Outgoing) (offset datalen : ℕ) : Outgoing :=
  { s with
    unacked := s.unacked.dropWhile fun u => u.endOffset ≤ offset + datalen
    acked := offset + datalen }

/-- `memcpy` into a file through a mapping of it. -/
def overwrite (f : ℕ → UInt8) (pos : ℕ) (bs : Bytes) : ℕ → UInt8 := fun k =>
  if pos ≤ k ∧ k < pos + bs.length then bs.getD (k - pos) 0 else f k

def Incoming.copyTo (s : Incoming) (dest : ℕ × ℕ) (pos : ℕ) (bs : Bytes) : Incoming :=
  match s.maps[dest.1]? with
  | some (some m) => { s with
      files := Function.update s.files m.fd (overwrite (s.files m.fd) (m.base + dest.2 + pos) bs) }
  | _ => s

/-- recv_file waiting and nothing queued ahead: straight into the mapping. -/
def Incoming.land (s : Incoming) (dest : ℕ × ℕ) (data : Bytes) (taken : ℕ) : Incoming :=
  { s.copyTo dest s.recvDestGot (data.take taken) with recvDestGot := s.recvDestGot + taken }

def Incoming.queue (s : Incoming) (fin : Bool) (data rest : Bytes) : Incoming :=
  { s with
    recvBuf := s.recvBuf ++ rest
    finReceived := fin || s.finReceived
    delivered := s.delivered ++ data }

def Incoming.onRecvStreamData (s : Incoming) (fin : Bool) (data : Bytes) : Incoming :=
  match s.recvDest with
  | some dest =>
    if s.recvBuf = [] then
      let taken := min data.length (s.recvDestLen - s.recvDestGot)
      (s.land dest data taken).queue fin data (data.drop taken)
    else s.queue fin data data
  | none => s.queue fin data data

def Event.handle : Event → Store → Store
  | .ackedStreamDataOffset offset datalen, s =>
    { s with toOutgoing := s.toOutgoing.onAckedStreamDataOffset offset datalen }
  | .recvStreamData fin _ data, s =>
    { s with toIncoming := s.toIncoming.onRecvStreamData fin data }
  | .streamOpen streamId, s => { s with streamId := streamId }

def callbacks (c : NgCall) : Prog Quic Unit :=
  .repeatUntil (fun _ => do
    match ← quic (.callback c) with
    | none => pure (.inr ())
    | some e => do
      .modify e.handle
      pure (.inl ())) ()

def ngtcp2 (c : NgCall) : Prog Quic c.Reply := do
  callbacks c
  quic (.ng c)

def egressPart : Part ZcEgress.Zc Quic where
  get s := s.toState
  put z s := { s with toState := z }
  exc e := e
  op := .egress
  reply _ r := r
  get_put _ _ := rfl
  put_get _ := rfl
  put_put _ _ _ := rfl

def egress {α : Type} (p : Prog ZcEgress.Zc α) : Prog Quic α := p.embed egressPart

def setErrno (e : ℕ) : Prog Quic Unit := .modify fun s => { s with errno := e }

def setClosed : Prog Quic Unit := .modify fun s => { s with closed := true }

def resetZc : Prog Quic Unit := do
  egress (ZcEgress.destroy zcSlots)
  .modify fun s => { s with zc := false }

def openZc : Prog Quic Unit := do
  match ← (egress (ZcEgress.construct maxPktlen zcSlots)).attempt with
  | .error _ => pure ()
  | .ok _ => do
    .modify fun s => { s with zc := true }
    let s ← .get
    .when (s.registered = false) resetZc

def initEgress : Prog Quic Unit := do
  let s ← .get
  if s.egressInit then pure ()
  else do
    .modify fun s => { s with egressInit := true }
    let mode : Option String ← quic (.getenv "EMBR_QUIC_EGRESS")
    .when (mode ≠ some "sendmsg") openZc

def beginPacket : Prog Quic (Option ℕ) := do
  initEgress
  let s ← .get
  if s.zc then do
    match ← egress ZcEgress.reserve with
    | some i => pure (some i)
    | none => do
      resetZc
      pure none
  else pure none

inductive SendResult
  | ok
  | blocked
  | failed
  deriving DecidableEq

def sendPacket (n : ℕ) : Prog Quic SendResult := do
  let s ← .get
  if s.zc then do
    let ok : Bool ← egress (ZcEgress.commit maxPktlen n)
    if ok then pure .ok
    else do
      .modify fun s => { s with errno := if s.err ≠ 0 then s.err else EIO }
      pure .failed
  else do
    match ← quic (.sendmsg (s.packetBuf.take n)) with
    | some _ => pure .ok
    | none => do
      let s ← .get
      if s.errno = EAGAIN ∨ s.errno = EWOULDBLOCK then pure .blocked
      else pure .failed

def flushPackets : Prog Quic Unit := do
  let s ← .get
  .when (s.zc = true) (do
    egress ZcEgress.flush
    let s ← .get
    .when (s.unsupported = true) resetZc)

/-- One burst of control packets; the burst may end with a blocked datagram. -/
def drainBurst : Prog Quic Bool :=
  .repeatUntil (fun i =>
    if i < maxBurst then do
      let dest ← beginPacket
      let r : Except LibErr ℕ × ℤ ← ngtcp2 (.writevStream dest .control)
      match r.1 with
      | .error _ => pure (.inr false)
      | .ok n =>
        if n = 0 then pure (.inr true)
        else do
          match ← sendPacket n with
          | .ok => pure (.inl (i + 1))
          | .blocked => pure (.inr true)
          | .failed => pure (.inr false)
    else pure (.inr true)) 0

def drainPackets : Prog Quic Bool := do
  let s ← .get
  if s.closed then pure true
  else do
    let ok ← drainBurst
    if ok then do
      flushPackets
      pure true
    else pure false

def alreadyClosing : Prog Quic Bool := do
  let s ← .get
  if s.closed then pure true
  else do
    let closing : Bool ← quic .inClosingPeriod
    if closing then pure true else quic .inDrainingPeriod

def linger (pump : ℕ → Prog Quic Bool) : Prog Quic Unit := do
  let now : ℕ ← quic .now
  let deadline := now + closeLinger
  .repeatUntil (fun _ => do
    let s ← .get
    if s.unacked ≠ [] ∧ s.closed = false then do
      let now : ℕ ← quic .now
      if now < deadline then do
        let ok ← pump deadline
        if ok then pure (.inl ()) else pure (.inr ())
      else pure (.inr ())
    else pure (.inr ())) ()

/-- The CONNECTION_CLOSE packet, sent from `packet_buf_` whatever becomes of it. -/
def sendClose : Except LibErr ℕ → Prog Quic Unit
  | .error _ => pure ()
  | .ok n => .when (0 < n) (do
    let s ← .get
    let _ : Option ℕ ← quic (.sendmsg (s.packetBuf.take n))
    pure ())

def writeClose (liberr : Option LibErr) : Prog Quic Unit := do
  let r : Except LibErr ℕ ← ngtcp2 (.writeConnectionClose liberr)
  sendClose r
  setClosed

/-- `pump` is `pump_once`, of which this function is a part. `none` is a
`liberr` of 0. -/
def closeConnection (pump : ℕ → Prog Quic Bool) (liberr : Option LibErr) : Prog Quic Unit := do
  let closing ← alreadyClosing
  if closing then setClosed
  else do
    let s ← .get
    if liberr = none ∧ s.unacked ≠ [] then do
      linger pump
      let s ← .get
      .when (s.closed = false) (writeClose liberr)
    else writeClose liberr

/-- A close after an error does not linger, so it makes no use of `pump_once`. -/
def closeOnError (e : LibErr) : Prog Quic Unit := closeConnection (fun _ => pure false) (some e)

theorem closeOnError_eq (pump : ℕ → Prog Quic Bool) (e : LibErr) :
    closeConnection pump (some e) = closeOnError e := by
  simp [closeOnError, closeConnection]

def feedData (data : Bytes) : Prog Quic Bool := do
  match ← ngtcp2 (.readPkt data) with
  | none => pure true
  | some e =>
    if e = .draining ∨ e = .dropConn then do
      setClosed
      pure false
    else do
      closeOnError e
      pure false

def softErrno (e : ℕ) : Prop :=
  e = EAGAIN ∨ e = EWOULDBLOCK ∨ e = ECONNREFUSED ∨ e = ENETUNREACH ∨ e = EHOSTUNREACH

instance (e : ℕ) : Decidable (softErrno e) := by
  unfold softErrno
  infer_instance

def readSocket : Prog Quic Bool := do
  match ← quic .recvmsg with
  | none => do
    let s ← .get
    pure (decide (softErrno s.errno))
  | some (data, truncated) => if truncated then pure false else feedData data

def fireTimer : Prog Quic Bool := do
  let expiry : ℕ ← quic .getExpiry
  let now : ℕ ← quic .now
  if expiry ≤ now then do
    match ← ngtcp2 .handleExpiry with
    | none => pure true
    | some e =>
      if e = .idleClose then do
        setClosed
        pure false
      else do
        closeOnError e
        pure false
  else pure true

def waitTime (expiry now : ℕ) : ℕ × ℕ :=
  if expiry = never then (0, 100000)
  else if now < expiry then ((expiry - now) / 1000000000, (expiry - now) % 1000000000 / 1000)
  else (0, 0)

def runTimers : Prog Quic Bool := do
  let ok ← fireTimer
  if ok then drainPackets else pure false

def pumpOnce (deadline : ℕ) : Prog Quic Bool := do
  let s ← .get
  if s.closed then pure false
  else do
    let expiry : ℕ ← quic .getExpiry
    let now : ℕ ← quic .now
    let tv := waitTime (min expiry deadline) now
    match ← quic (.select tv.1 tv.2) with
    | none => do
      let s ← .get
      if s.errno ≠ EINTR then pure false else runTimers
    | some sel =>
      if 0 < sel then do
        let ok ← readSocket
        if ok then runTimers else pure false
      else runTimers

def pumpOr (accepted : ℕ) : Prog Quic (ℕ ⊕ Bool) := do
  let ok ← pumpOnce never
  if ok then pure (.inl accepted)
  else do
    setErrno ECONNABORTED
    pure (.inr false)

def writeSome (block : ℕ) (buf : Bytes) (accepted : ℕ) : Prog Quic (ℕ ⊕ Bool) := do
  let dest ← beginPacket
  let r : Except LibErr ℕ × ℤ ←
    ngtcp2 (.writevStream dest (.data block accepted (buf.drop accepted)))
  match r.1 with
  | .error e =>
    if e = .streamDataBlocked then pumpOr accepted
    else do
      closeOnError e
      setErrno EIO
      pure (.inr false)
  | .ok n =>
    if n = 0 then pumpOr accepted
    else do
      .modify fun s => { s with streamOffset := s.streamOffset + r.2.toNat }
      match ← sendPacket n with
      | .failed => pure (.inr false)
      | .blocked => pumpOr (accepted + r.2.toNat)
      | .ok => pure (.inl (accepted + r.2.toNat))

def writeStream (block : ℕ) (buf : Bytes) : Prog Quic (Option ℕ) := do
  let ok ← .repeatUntil (fun accepted =>
    if accepted < buf.length then writeSome block buf accepted else pure (.inr true)) 0
  if ok then do
    flushPackets
    pure (some buf.length)
  else pure none

def pumpAgain : Prog Quic (Unit ⊕ Bool) := do
  let ok ← pumpOnce never
  if ok then pure (.inl ()) else pure (.inr false)

def runHandshake : Prog Quic Bool := do
  let ok ← drainPackets
  if ok then
    .repeatUntil (fun _ => do
      let completed : Bool ← quic .handshakeCompleted
      if completed then pure (.inr true) else pumpAgain) ()
  else pure false

def Outgoing.retain (s : Outgoing) (buf : Bytes) : Outgoing :=
  { s with
    unacked := s.unacked ++ [⟨s.streamOffset + buf.length, s.blocks, buf⟩]
    blocks := s.blocks + 1 }

def retain (buf : Bytes) : Prog Quic ℕ :=
  .act (fun s => (s.blocks, { s with toOutgoing := s.toOutgoing.retain buf })) .ret

def send (buf : Bytes) : Prog Quic (Option ℕ) := do
  let s ← .get
  if s.closed then do
    setErrno ENOTCONN
    pure none
  else if s.streamId < 0 then .raise (.runtimeError "QuicTransport::send: no open stream")
  else if buf.length = 0 then pure (some 0)
  else do
    let block ← retain buf
    writeStream block buf

def takeBuffered (len : ℕ) : Prog Quic Bytes :=
  .act (fun s => (s.recvBuf.take len, { s with recvBuf := s.recvBuf.drop len })) .ret

def awaitData : Prog Quic Unit :=
  .repeatUntil (fun _ => do
    let s ← .get
    if s.recvBuf = [] ∧ s.finReceived = false ∧ s.closed = false then do
      let ok ← pumpOnce never
      if ok then pure (.inl ()) else pure (.inr ())
    else pure (.inr ())) ()

def recv (len : ℕ) : Prog Quic (Option Bytes) := do
  awaitData
  let s ← .get
  if s.recvBuf ≠ [] then do
    let bs ← takeBuffered len
    pure (some bs)
  else if s.finReceived then pure (some [])
  else pure none

def sendFin : Prog Quic Bool := do
  let s ← .get
  if s.streamId < 0 then pure false
  else if s.finSent then pure true
  else
    .repeatUntil (fun _ => do
      let s ← .get
      if s.closed then pure (.inr false)
      else do
        let dest ← beginPacket
        let r : Except LibErr ℕ × ℤ ← ngtcp2 (.writevStream dest .fin)
        match r.1 with
        | .error e =>
          if e = .streamDataBlocked then pumpAgain
          else do
            closeOnError e
            pure (.inr false)
        | .ok n =>
          if n = 0 then pumpAgain
          else do
            let sr ← sendPacket n
            if sr = .failed then pure (.inr false)
            else if 0 ≤ r.2 then do
              .modify fun s => { s with finSent := true }
              flushPackets
              pure (.inr true)
            else pure (.inl ())) ()

def pageBase (offset page : ℕ) : ℕ := offset &&& (2 ^ 64 - page)

def throwErrno {α : Type} (what : String) : Prog Quic α := do
  let s ← .get
  .raise (.systemError what s.errno)

def sendFile (fd : Path) (offset len : ℕ) : Prog Quic Unit := do
  if len = 0 then pure ()
  else do
    let s ← .get
    if s.closed then .raise (.runtimeError "QuicTransport::send_file: connection closed")
    else if s.streamId < 0 then .raise (.runtimeError "QuicTransport::send_file: no open stream")
    else do
      let page : ℕ ← quic .pagesize
      let delta := offset - pageBase offset page
      match ← quic (.mmapRead fd (pageBase offset page) (len + delta)) with
      | none => throwErrno "QuicTransport::send_file: mmap failed: "
      | some map => do
        let chunk := slice map delta len
        let block ← retain chunk
        match ← writeStream block chunk with
        | none => throwErrno "QuicTransport::send_file: send failed: "
        | some _ => pure ()

/-- The bytes buffered before the call precede the file bytes in stream order. -/
def Incoming.expect (s : Incoming) (dest : ℕ × ℕ) (len : ℕ) : Incoming :=
  { s.copyTo dest 0 (s.recvBuf.take len) with
    recvBuf := s.recvBuf.drop len
    recvDest := some dest
    recvDestLen := len
    recvDestGot := min len s.recvBuf.length }

def Incoming.mapFile (s : Incoming) (m : Mapping) (delta len : ℕ) : Incoming :=
  { s with maps := s.maps ++ [some m] }.expect (s.maps.length, delta) len

def expectFile (m : Mapping) (delta len : ℕ) : Prog Quic ℕ :=
  .act (fun s => (s.maps.length, { s with toIncoming := s.toIncoming.mapFile m delta len })) .ret

def Incoming.unmap (s : Incoming) (map : ℕ) : Incoming :=
  { s with recvDest := none, maps := s.maps.set map none }

def awaitFile (len : ℕ) : Prog Quic Unit :=
  .repeatUntil (fun _ => do
    let s ← .get
    if s.recvDestGot < len then
      if s.finReceived = true ∨ s.closed = true then
        .raise (.runtimeError "QuicTransport::recv_file: connection closed")
      else do
        let ok ← pumpOnce never
        if ok then pure (.inl ())
        else .raise (.runtimeError "QuicTransport::recv_file: pump failed")
    else pure (.inr ())) ()

def recvFile (fd : Path) (offset len : ℕ) : Prog Quic Unit := do
  if len = 0 then pure ()
  else do
    let page : ℕ ← quic .pagesize
    let delta := offset - pageBase offset page
    let ok : Bool ← quic (.mmapShared fd (pageBase offset page) (len + delta))
    if ok then do
      let map ← expectFile ⟨fd, pageBase offset page, len + delta⟩ delta len
      let r ← (awaitFile len).attempt
      .modify fun s => { s with toIncoming := s.toIncoming.unmap map }
      System.lift r
    else throwErrno "QuicTransport::recv_file: mmap failed: "

/-- `~QuicTransport`. -/
def destruct : Prog Quic Unit := do
  let s ← .get
  .when (s.closed = false) (closeConnection pumpOnce none)
  let s ← .get
  .when (s.zc = true) resetZc

end QuicTransport

/-- `QuicTransport` as a `Transport`. -/
def quicTransport : Transport QuicTransport.Quic where
  send := QuicTransport.send
  recv := QuicTransport.recv
  sendFile := QuicTransport.sendFile
  recvFile := QuicTransport.recvFile
  errno s := s.errno

end Embr
