import Embr.DataPlane
import Embr.Lib.Embed

/-!
# The UDP data plane

`transport/udp_transport.cpp` and the ring of `util/io_uring_ctx.cpp`: chunks
are read into two buffers and sent as datagrams, and datagrams are received into
a pool of buffers and written where their header says. Control traffic goes over
the TCP connection of the process, whose store is a part of this one.
-/

open Octets Interact
open Embr.System (World Sys)
namespace Embr.UdpTransport

def UDP_MTU : ℕ := 65000
def FRAG_HDR_SIZE : ℕ := 10
def UDP_PAYLOAD_SIZE : ℕ := UDP_MTU - FRAG_HDR_SIZE
def MAX_FRAGS_PER_CHUNK : ℕ := (chunkSize + UDP_PAYLOAD_SIZE - 1) / UDP_PAYLOAD_SIZE
def UDP_CHUNK_BUFS : ℕ := 2
def UDP_FRAG_BUFS : ℕ := 32
def QUEUE_DEPTH : ℕ := 256

inductive SqeTag
  | read | send | recv | write
  deriving DecidableEq, Repr

def SqeTag.toByte : SqeTag → UInt8
  | .read => 1
  | .send => 2
  | .recv => 3
  | .write => 4

def makeUserData (tag : SqeTag) (idx : ℕ) : UInt64 :=
  (tag.toByte.toUInt64 <<< 56) ||| UInt64.ofNat idx

def getTag (userData : UInt64) : UInt8 := (userData >>> 56).toUInt8

def getIndex (userData : UInt64) : ℕ := (userData &&& 0x00FFFFFFFFFFFFFF).toNat

structure FragHdr where
  chunkIndex : UInt32
  fragIndex : UInt32
  fragLen : UInt16
  deriving DecidableEq, Repr

def parseFragHdr (buf : Bytes) : FragHdr :=
  ⟨UInt32.ofNat (ofBE (slice buf 0 4)), UInt32.ofNat (ofBE (slice buf 4 4)),
    UInt16.ofNat (ofBE (slice buf 8 2))⟩

def writeFragHdr (hdr : FragHdr) : Bytes :=
  be 4 hdr.chunkIndex.toNat ++ be 4 hdr.fragIndex.toNat ++ be 2 hdr.fragLen.toNat

/-- What an SQE asks for. Buffers are named by their index, `fixed` says that they are registered. -/
inductive Request
  | read (fd : Path) (chunkBuf len offset : ℕ) (fixed : Bool)
  | sendmsg (slot : ℕ)
  | recv (fragBuf len : ℕ)
  | write (fd : Path) (fragBuf pos len offset : ℕ) (fixed : Bool)
  deriving DecidableEq

structure Sqe where
  request : Request
  userData : UInt64
  deriving DecidableEq

structure Cqe where
  userData : UInt64
  res : ℤ
  deriving DecidableEq

/-- The two parts of a datagram: a header and `len` bytes of a chunk buffer. -/
structure SendSlot where
  hdr : Bytes
  chunkBuf : ℕ
  pos : ℕ
  len : ℕ

/-- Requests prepared, and requests submitted whose completion was not reaped. The last two
fields are an account: the datagrams sent, and those received, each with the number of bytes sent
on the control connection before it. -/
structure Store where
  os : World
  registered : Bool
  chunkBuf : ℕ → Bytes
  fragBuf : ℕ → Bytes
  slots : ℕ → SendSlot
  sq : List Sqe
  inflight : List Sqe
  readCompleted : Bool
  readResult : ℤ
  sent : List Bytes
  arrived : List (ℕ × Bytes)

inductive Op
  | os (o : System.Op)
  | submit
  | waitCqe

abbrev Op.Reply : Op → Type
  | .os o => o.Reply
  | .submit => ℤ
  | .waitCqe => Option Cqe

abbrev Udp : Iface := Sys Store Op Op.Reply

abbrev udp (o : Op) : Prog Udp o.Reply := @Prog.ask Udp o

/-- The control connection. -/
def control : Part System.Os Udp where
  get := Store.os
  put w s := { s with os := w }
  exc e := e
  op := Op.os
  reply _ r := r
  get_put _ _ := rfl
  put_get _ := rfl
  put_put _ _ _ := rfl

namespace Store

/-- A transport that was just constructed. -/
def init (os : World) (registered : Bool) : Store :=
  ⟨os, registered, fun _ => List.replicate chunkSize 0, fun _ => List.replicate UDP_MTU 0,
    fun _ => ⟨[], 0, 0, 0⟩, [], [], false, 0, [], []⟩

def prepare (s : Store) (sqe : Sqe) : Store := { s with sq := s.sq ++ [sqe] }

def submitted (s : Store) (k : ℕ) : Store :=
  { s with sq := s.sq.drop k, inflight := s.inflight ++ s.sq.take k }

def fillChunk (s : Store) (buf : ℕ) (bs : Bytes) : Store :=
  { s with chunkBuf := Function.update s.chunkBuf buf (writeAt (s.chunkBuf buf) 0 bs) }

def fillFrag (s : Store) (buf : ℕ) (bs : Bytes) : Store :=
  { s with fragBuf := Function.update s.fragBuf buf (writeAt (s.fragBuf buf) 0 bs) }

def fillSlot (s : Store) (slot : ℕ) (x : SendSlot) : Store :=
  { s with slots := Function.update s.slots slot x }

def write (s : Store) (fd : Path) (f : Bytes) : Store := { s with os := s.os.store fd (some f) }

/-- The bytes a slot points to. -/
def datagram (s : Store) (slot : ℕ) : Bytes :=
  (s.slots slot).hdr ++ slice (s.chunkBuf (s.slots slot).chunkBuf) (s.slots slot).pos (s.slots slot).len

end Store

/-- What a request comes to. `arrives` says which datagrams can come in, `short` whether a file
transfer may stop short of what it could move. What lies behind a buffer is not known. -/
def completes (arrives : Store → Bytes → Prop) (short : Prop) : Request → ℤ → Store → Store → Prop
  | .read fd chunkBuf len offset _, res, s, s' => (res < 0 ∧ s' = s) ∨
      ∃ f k, s.os.files fd = some f ∧ k ≤ len ∧ k ≤ f.length - offset ∧
        (k < min len (f.length - offset) → short) ∧ res = k ∧
        s' = s.fillChunk chunkBuf (slice f offset k)
  | .sendmsg slot, res, s, s' => (res < 0 ∧ s' = s) ∨
      (res = (s.datagram slot).length ∧ s' = { s with sent := s.sent ++ [s.datagram slot] })
  | .recv fragBuf len, res, s, s' => (res < 0 ∧ s' = s) ∨
      ∃ d, arrives s d ∧ res = (d.take len).length ∧
        s' = { s.fillFrag fragBuf (d.take len) with
          arrived := s.arrived ++ [(s.os.out.length, d)] }
  | .write fd fragBuf pos len offset _, res, s, s' => (res < 0 ∧ s' = s) ∨
      ∃ f bs, s.os.files fd = some f ∧ bs.length ≤ len ∧ (bs.length < len → short) ∧
        (pos + bs.length ≤ (s.fragBuf fragBuf).length →
          bs = slice (s.fragBuf fragBuf) pos bs.length) ∧
        res = bs.length ∧ s' = s.write fd (DataPlane.overwrite f offset bs)

/-- The kernel: it may take some of the requests submitted, and completes them in any order. -/
def kernel (os : Env System.Os) (arrives : Store → Bytes → Prop) (short : Prop) :
    (o : Op) → Store → o.Reply → Store → Prop
  | .os o, s, r, s' => os o s.os r s'.os ∧ s' = { s with os := s'.os }
  | .submit, s, r, s' => (r < 0 ∧ s' = s) ∨ ∃ k ≤ s.sq.length, r = k ∧ s' = s.submitted k
  | .waitCqe, s, r, s' => (r = none ∧ s' = s) ∨
      ∃ a sqe b res, s.inflight = a ++ sqe :: b ∧ r = some ⟨sqe.userData, res⟩ ∧
        completes arrives short sqe.request res { s with inflight := a ++ b } s'

def prepare (what : String) (sqe : Sqe) : Prog Udp Unit := do
  let s ← .get
  if s.sq.length < QUEUE_DEPTH then .modify (·.prepare sqe)
  else .raise (.runtimeError what)

def ioUringSubmit : Prog Udp Unit := do
  let _ : ℤ ← udp .submit
  pure ()

def inRange (what : String) (idx count : ℕ) : Prog Udp Unit :=
  .when (count ≤ idx) (.raise (.runtimeError what))

def submitRead (bufIdx : ℕ) (fileFd : Path) (offset len : ℕ) : Prog Udp Unit := do
  inRange "IoUringCtx::chunk_buf index out of range" bufIdx UDP_CHUNK_BUFS
  let s ← .get
  prepare "submit_read: io_uring_get_sqe failed (ring full)"
    ⟨.read fileFd bufIdx (len % 2 ^ 32) offset s.registered, makeUserData .read bufIdx⟩
  ioUringSubmit

def waitRead : Prog Udp Unit := do
  let s ← .get
  if s.readCompleted then do
    .modify fun s => { s with readCompleted := false }
    .when (s.readResult < 0)
      (.raise (.systemError "wait_read: READ_FIXED failed: " (-s.readResult).toNat))
  else do
    match ← udp .waitCqe with
    | none => .raise (.runtimeError "wait_read: io_uring_wait_cqe failed")
    | some cqe =>
      if getTag cqe.userData = SqeTag.toByte .read then
        .when (cqe.res < 0)
          (.raise (.systemError "wait_read: READ_FIXED failed: " (-cqe.res).toNat))
      else .raise (.runtimeError "wait_read: unexpected CQE tag")

def fragCount (len : ℕ) : ℕ := (len + UDP_PAYLOAD_SIZE - 1) / UDP_PAYLOAD_SIZE % 2 ^ 32

def fragLen (len fragIdx : ℕ) : ℕ :=
  if fragIdx + 1 < fragCount len then UDP_PAYLOAD_SIZE else len - fragIdx * UDP_PAYLOAD_SIZE

def fragHdr (chunkIndex len fragIdx : ℕ) : FragHdr :=
  ⟨UInt32.ofNat chunkIndex, UInt32.ofNat fragIdx, UInt16.ofNat (fragLen len fragIdx)⟩

def drainSends (waitFailed sendFailed : String) (limit pendingFrags : ℕ) : Prog Udp ℕ :=
  .repeatUntil (fun pendingFrags =>
    if limit ≤ pendingFrags then do
      match ← udp .waitCqe with
      | none => .raise (.runtimeError waitFailed)
      | some cqe =>
        if getTag cqe.userData = SqeTag.toByte .read then do
          .modify fun s => { s with readCompleted := true, readResult := cqe.res }
          pure (.inl pendingFrags)
        else if getTag cqe.userData = SqeTag.toByte .send then
          if cqe.res < 0 then .raise (.systemError sendFailed (-cqe.res).toNat)
          else pure (.inl (pendingFrags - 1))
        else pure (.inl pendingFrags)
    else pure (.inr pendingFrags)) pendingFrags

def awaitSlot (pendingFrags : ℕ) : Prog Udp ℕ :=
  if QUEUE_DEPTH ≤ pendingFrags then do
    ioUringSubmit
    drainSends "send_chunk: io_uring_wait_cqe failed" "send_chunk: send_msg failed: " QUEUE_DEPTH
      pendingFrags
  else pure pendingFrags

def prepareSends (bufIdx chunkIndex len : ℕ) : Prog Udp ℕ :=
  .repeatUntil (fun (fragIdx, pendingFrags) =>
    if fragIdx < fragCount len then do
      let pendingFrags ← awaitSlot pendingFrags
      let slot := pendingFrags % QUEUE_DEPTH
      prepare "send_chunk: io_uring_get_sqe failed" ⟨.sendmsg slot, makeUserData .send fragIdx⟩
      .modify (·.fillSlot slot ⟨writeFragHdr (fragHdr chunkIndex len fragIdx), bufIdx,
        fragIdx * UDP_PAYLOAD_SIZE, fragLen len fragIdx⟩)
      pure (.inl (fragIdx + 1, pendingFrags + 1))
    else pure (.inr pendingFrags)) (0, 0)

def sendChunk (bufIdx chunkIndex len : ℕ) : Prog Udp Unit := do
  inRange "IoUringCtx::chunk_buf index out of range" bufIdx UDP_CHUNK_BUFS
  let pendingFrags ← prepareSends bufIdx chunkIndex len
  ioUringSubmit
  let _ ← drainSends "send_chunk: final drain failed" "send_chunk: final drain failed: " 1
    pendingFrags
  pure ()

def chunkCount (len : ℕ) : ℕ := (len + chunkSize - 1) / chunkSize % 2 ^ 32

def chunkLenAt (len chunkIdx : ℕ) : ℕ := min (len - chunkIdx * chunkSize) chunkSize

def recvAck (chunkIdx : ℕ) : Prog Udp Unit := do
  let ack ← (recvExact tcp 4).embed control
  .when (ofBE ack ≠ chunkIdx) (.raise (.runtimeError ("send_file: ACK mismatch - expected "
    ++ toString chunkIdx ++ " got " ++ toString (ofBE ack))))

def sendNext (fileFd : Path) (offset len chunkIdx : ℕ) : Prog Udp (ℕ ⊕ Unit) :=
  if chunkIdx < chunkCount len then do
    .when (chunkIdx + 1 < chunkCount len)
      (submitRead ((chunkIdx + 1) % 2) fileFd (offset + (chunkIdx + 1) * chunkSize)
        (chunkLenAt len (chunkIdx + 1)))
    sendChunk (chunkIdx % 2) chunkIdx (chunkLenAt len chunkIdx)
    recvAck chunkIdx
    .when (chunkIdx + 1 < chunkCount len) waitRead
    pure (.inl (chunkIdx + 1))
  else pure (.inr ())

def sendFile (fileFd : Path) (offset len : ℕ) : Prog Udp Unit := do
  -- cold start: wait for the receive side to submit its requests
  let _ ← (recvExact tcp 1).embed control
  submitRead 0 fileFd offset (min len chunkSize)
  waitRead
  .repeatUntil (sendNext fileFd offset len) 0

structure RecvState where
  fileFd : Path
  chunkOffset : ℕ
  fragCount : ℕ
  received : ℕ → Bool
  fragRemaining : ℕ

/-- A fragment that is new is written where it belongs; answers `false` for one seen before. -/
def processFragment (fragBufIdx : ℕ) (bytesReceived : ℤ) (state : RecvState) :
    Prog Udp (Bool × RecvState) :=
  if bytesReceived < FRAG_HDR_SIZE then
    .raise (.runtimeError ("process_fragment: datagram too short: " ++ toString bytesReceived))
  else do
    inRange "IoUringCtx::frag_buf index out of range" fragBufIdx UDP_FRAG_BUFS
    let s ← .get
    let hdr := parseFragHdr (s.fragBuf fragBufIdx)
    let fragIndex := hdr.fragIndex.toNat
    if state.fragCount ≤ fragIndex then
      .raise (.runtimeError ("process_fragment: frag_index out of range: " ++ toString fragIndex))
    else if MAX_FRAGS_PER_CHUNK ≤ fragIndex then .raise (.outOfRange "bitset::test")
    else if state.received fragIndex then pure (false, state)
    else do
      let fileOffset := state.chunkOffset + fragIndex * UDP_PAYLOAD_SIZE
      prepare "process_fragment: io_uring_get_sqe failed (ring full)"
        ⟨.write state.fileFd fragBufIdx FRAG_HDR_SIZE hdr.fragLen.toNat fileOffset s.registered,
          makeUserData .write fragBufIdx⟩
      pure (true, { state with
        received := Function.update state.received fragIndex true
        fragRemaining := state.fragRemaining - 1 })

def submitRecv (fragBufIdx : ℕ) : Prog Udp Unit := do
  inRange "IoUringCtx::frag_buf index out of range" fragBufIdx UDP_FRAG_BUFS
  prepare "submit_recv: io_uring_get_sqe failed (ring full)"
    ⟨.recv fragBufIdx UDP_MTU, makeUserData .recv fragBufIdx⟩

def submitRecvs : List ℕ → Prog Udp Unit
  | [] => pure ()
  | i :: is => do
    submitRecv i
    submitRecvs is

def reclaim (fragBufIdx pendingRecvs : ℕ) : Prog Udp ℕ := do
  submitRecv fragBufIdx
  let pendingRecvs := pendingRecvs + 1
  .when (UDP_FRAG_BUFS / 2 ≤ pendingRecvs) ioUringSubmit
  pure pendingRecvs

/-- What the receive loop of one chunk carries from round to round. -/
structure Progress where
  state : RecvState
  pendingWrites : ℕ
  pendingRecvs : ℕ

def reapRecv (fragBufIdx : ℕ) (res : ℤ) (x : Progress) : Prog Udp Progress :=
  let pendingRecvs := x.pendingRecvs - 1
  if res ≤ 0 then .raise (.systemError "recv_file: RECV failed: " (-res).toNat)
  else do
    let (written, state) ← processFragment fragBufIdx res x.state
    if written then do
      let pendingWrites := x.pendingWrites + 1
      -- flush at threshold or last fragment
      .when (UDP_FRAG_BUFS / 2 ≤ pendingWrites ∨ state.fragRemaining = 0) ioUringSubmit
      pure ⟨state, pendingWrites, pendingRecvs⟩
    else do
      let pendingRecvs ← reclaim fragBufIdx pendingRecvs
      pure ⟨state, x.pendingWrites, pendingRecvs⟩

def reapWrite (fragBufIdx : ℕ) (res : ℤ) (x : Progress) : Prog Udp Progress :=
  if res < 0 then .raise (.systemError "recv_file: WRITE_FIXED failed: " (-res).toNat)
  else do
    let pendingRecvs ← reclaim fragBufIdx x.pendingRecvs
    pure ⟨x.state, x.pendingWrites - 1, pendingRecvs⟩

def recvRound (x : Progress) : Prog Udp (Progress ⊕ ℕ) :=
  if 0 < x.state.fragRemaining ∨ 0 < x.pendingWrites then do
    match ← udp .waitCqe with
    | none => .raise (.runtimeError "recv_file: io_uring_wait_cqe failed")
    | some cqe =>
      if getTag cqe.userData = SqeTag.toByte .recv then do
        let x ← reapRecv (getIndex cqe.userData) cqe.res x
        pure (.inl x)
      else if getTag cqe.userData = SqeTag.toByte .write then do
        let x ← reapWrite (getIndex cqe.userData) cqe.res x
        pure (.inl x)
      else pure (.inl x)
  else pure (.inr x.pendingRecvs)

def recvChunk (state : RecvState) (pendingRecvs : ℕ) : Prog Udp ℕ :=
  .repeatUntil recvRound ⟨state, 0, pendingRecvs⟩

def recvState (fileFd : Path) (offset len chunkIdx : ℕ) : RecvState :=
  { fileFd
    chunkOffset := offset + chunkIdx * chunkSize
    fragCount := fragCount (chunkLenAt len chunkIdx)
    received := fun _ => false
    fragRemaining := fragCount (chunkLenAt len chunkIdx) }

def sendAck (chunkIdx : ℕ) : Prog Udp Unit := (sendExact tcp (be 4 chunkIdx)).embed control

def recvNext (fileFd : Path) (offset len : ℕ) : ℕ × ℕ → Prog Udp (ℕ × ℕ ⊕ Unit)
  | (chunkIdx, pendingRecvs) =>
    if chunkIdx < chunkCount len then do
      let pendingRecvs ← recvChunk (recvState fileFd offset len chunkIdx) pendingRecvs
      sendAck chunkIdx
      pure (.inl (chunkIdx + 1, pendingRecvs))
    else pure (.inr ())

def recvFile (fileFd : Path) (offset len : ℕ) : Prog Udp Unit := do
  -- cold start: submit the requests, then signal the sender
  submitRecvs (List.range UDP_FRAG_BUFS)
  ioUringSubmit
  (sendExact tcp [1]).embed control
  .repeatUntil (recvNext fileFd offset len) (0, UDP_FRAG_BUFS)

end Embr.UdpTransport
