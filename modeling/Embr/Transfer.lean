import Embr.Framing
import Embr.PartialFile

/-!
# The two sides of a transfer

`core/pull.cpp` and `run_push` of `core/push.cpp`. The hash of a chunk comes
from OpenSSL and is a parameter. A `FileMeta` without chunks has no first hash;
the zero hash stands for the one `run_pull` reads there.
-/

open Octets Interact
open Embr.System Embr.Protocol
namespace Embr

def zeroHash : Hash := .ofBytes []

def hashAt (fileMeta : FileMeta) (i : ℕ) : Hash := fileMeta.chunkHashes.getD i zeroHash

/-- `min(CHUNK_SIZE, file_size - chunk_index * CHUNK_SIZE)` in `uint64_t`. -/
def chunkLen (fileSize chunkIndex : ℕ) : ℕ :=
  min chunkSize ((fileSize + 2 ^ 64 - chunkIndex * chunkSize) % 2 ^ 64)

theorem chunkLen_le (fileSize i : ℕ) : chunkLen fileSize i ≤ chunkSize := Nat.min_le_left _ _

theorem chunk_start {fileSize i : ℕ} (hi : i < (fileSize + chunkSize - 1) / chunkSize) :
    i * chunkSize < fileSize := by
  have hmul := Nat.div_mul_le_self (fileSize + chunkSize - 1) chunkSize
  have hstep : (i + 1) * chunkSize ≤ (fileSize + chunkSize - 1) / chunkSize * chunkSize :=
    Nat.mul_le_mul_right _ hi
  rw [Nat.add_mul, Nat.one_mul] at hstep
  have hpos : 0 < chunkSize := by decide
  omega

theorem chunkLen_of_le {fileSize i : ℕ} (hlt : fileSize < 2 ^ 64) (hi : i * chunkSize ≤ fileSize) :
    chunkLen fileSize i = min chunkSize (fileSize - i * chunkSize) := by
  rw [chunkLen]
  congr 1
  omega

theorem chunkLen_eq {fileSize i : ℕ} (hlt : fileSize < 2 ^ 64)
    (hi : i < (fileSize + chunkSize - 1) / chunkSize) :
    chunkLen fileSize i = min chunkSize (fileSize - i * chunkSize) :=
  chunkLen_of_le hlt (chunk_start hi).le

section
variable (sha256 : Bytes → Hash)

def openOutput (out : Path) (fileMeta : FileMeta) : Option ChunkManager → Prog Os ChunkManager
  | some cm => do
    let opened : Bool ← sys (.openReadWrite out)
    if opened then pure cm
    else do
      -- output file gone while partial file existing, fallback to fresh
      let opened : Bool ← sys (.openTrunc out)
      if opened then pure (.new fileMeta.chunkCount)
      else throwErrno ("run_pull: failed to open file " ++ text out ++ " - ")
  | none => do
    let opened : Bool ← sys (.openTrunc out)
    if opened then do
      let truncated : Bool ← sys (.ftruncate out fileMeta.fileSize.toNat)
      if truncated then pure (.new fileMeta.chunkCount)
      else throwErrno "run_pull: failed to truncate file - "
    else throwErrno ("run_pull: failed to open file " ++ text out ++ " - ")

def sendRequests (t : Transport Os) : List ℕ → Prog Os Unit
  | [] => pure ()
  | chunkIndex :: needed => do
    sendMsg t (makeChunkReq ⟨UInt32.ofNat chunkIndex⟩)
    sendRequests t needed

def verifyChunk (fileMeta : FileMeta) (chunkIndex : ℕ) (mapped : Bytes) (cm : ChunkManager) :
    Prog Os ChunkManager :=
  if sha256 mapped = hashAt fileMeta chunkIndex then lift (cm.markDone chunkIndex)
  else do
    let cm ← lift (cm.markTodo chunkIndex)
    sys (.print (.pullMismatch chunkIndex))
    pure cm

def recvChunk (t : Transport Os) (out : Path) (fileMeta : FileMeta) (chunkIndex : ℕ)
    (cm : ChunkManager) : Prog Os ChunkManager := do
  let hdrMsg ← recvMsg t
  if hdrMsg.type ≠ .chunkHdr then
    .raise (.runtimeError ("run_pull: expected CHUNK_HDR for chunk " ++ toString chunkIndex))
  else do
    let hdr ← lift (parseChunkHdr hdrMsg)
    if hdr.chunkIndex.toNat ≠ chunkIndex then
      .raise (.runtimeError ("run_pull: chunk index mismatch - expected " ++ toString chunkIndex
        ++ " got " ++ toString hdr.chunkIndex.toNat))
    else do
      let offset := chunkIndex * chunkSize
      let len := chunkLen fileMeta.fileSize.toNat chunkIndex
      t.recvFile out offset len
      match ← sys (.mmap out offset len) with
      | none =>
        throwErrno ("run_pull: mmap for verify failed at chunk " ++ toString chunkIndex ++ " - ")
      | some mapped => do
        let cm ← verifyChunk sha256 fileMeta chunkIndex mapped cm
        PartialFile.save out (hashAt fileMeta 0) cm
        sys (.print (.pullReceived (chunkIndex + 1) fileMeta.chunkCount.toNat))
        pure cm

def recvChunks (t : Transport Os) (out : Path) (fileMeta : FileMeta) :
    List ℕ → ChunkManager → Prog Os ChunkManager
  | [], cm => pure cm
  | chunkIndex :: needed, cm => do
    let cm ← recvChunk sha256 t out fileMeta chunkIndex cm
    recvChunks t out fileMeta needed cm

def finish (out : Path) (cm : ChunkManager) : Prog Os Unit :=
  if cm.allDone then do
    PartialFile.remove out
    sys (.print (.pullComplete out))
  else sys (.print (.pullIncomplete cm.neededChunks.length))

def recvMeta (t : Transport Os) : Prog Os FileMeta := do
  let metaMsg ← recvMsg t
  if metaMsg.type ≠ .fileMeta then .raise (.runtimeError "run_pull: expected FILE_META")
  else lift (parseFilemeta metaMsg)

def pullInto (t : Transport Os) (fileMeta : FileMeta) (out : Path) : Prog Os Unit := do
  let prior ← PartialFile.load out (hashAt fileMeta 0) fileMeta.chunkCount
  let cm ← openOutput out fileMeta prior
  let needed := cm.neededChunks
  sys (.print (.pullRequesting needed.length fileMeta.chunkCount.toNat))
  sendRequests t needed
  sendMsg t makeComplete
  let cm ← recvChunks sha256 t out fileMeta needed cm
  finish out cm

def runPull (t : Transport Os) (outputPath : Path) : Prog Os Unit := do
  sendMsg t (makeHandshake ⟨[]⟩)
  let fileMeta ← recvMeta t
  sys (.print (.pullFile fileMeta))
  pullInto sha256 t fileMeta (if outputPath = [] then fileMeta.fileName else outputPath)

end

def serveChunk (t : Transport Os) (fd : Path) (fileSize : ℕ) (chunkIndex : UInt32) :
    Prog Os Unit := do
  sendMsg t (makeChunkHdr ⟨chunkIndex⟩)
  t.sendFile fd (chunkIndex.toNat * chunkSize) (chunkLen fileSize chunkIndex.toNat)

def serve (t : Transport Os) (fd : Path) (fileSize : ℕ) (chunkCount : UInt32) :
    Prog Os UInt32 :=
  .repeatUntil (fun chunksSent => do
    let msg ← recvMsg t
    if msg.type = .complete then pure (.inr chunksSent)
    else if msg.type ≠ .chunkReq then
      .raise (.runtimeError ("run_push: unexpected message type: "
        ++ toString msg.type.toByte.toNat))
    else do
      let chunkReq ← lift (parseChunkReq msg)
      if chunkCount ≤ chunkReq.chunkIndex then
        .raise (.runtimeError ("run_push: chunk_index out of range: "
          ++ toString chunkReq.chunkIndex.toNat))
      else do
        serveChunk t fd fileSize chunkReq.chunkIndex
        sys (.print (.pushSentChunk chunkReq.chunkIndex.toNat (chunksSent + 1).toNat))
        pure (.inl (chunksSent + 1))) 0

def runPush (t : Transport Os) (fd : Path) (fileMeta : FileMeta) : Prog Os Unit := do
  let hsMsg ← recvMsg t
  if hsMsg.type ≠ .handshake then .raise (.runtimeError "run_push: expected HANDSHAKE")
  else do
    let handshake ← lift (parseHandshake hsMsg)
    sys (.print (.pushConnected handshake.token))
    let metaMsg ← lift (makeFilemeta fileMeta)
    sendMsg t metaMsg
    sys (.print (.pushSentMeta fileMeta.fileName fileMeta.fileSize.toNat
      fileMeta.chunkCount.toNat))
    let chunksSent ← serve t fd fileMeta.fileSize.toNat fileMeta.chunkCount
    sys (.print (.pushComplete chunksSent.toNat))

end Embr
