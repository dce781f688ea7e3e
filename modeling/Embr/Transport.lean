import Embr.System

/-!
# Transports

`transport/transport.hpp`, with `send_exact` and `recv_exact`, and
`transport/tcp_transport.cpp`. A transfer answers the count it moved, and
`none` for -1; a receive answers the bytes it put into the buffer. The pipe of
a `TcpTransport` belongs to the store of the process.
-/

open Octets Interact
open Embr.System
namespace Embr

structure Transport (Γ : Iface) where
  send : Bytes → Prog Γ (Option ℕ)
  recv : ℕ → Prog Γ (Option Bytes)
  sendFile : Path → ℕ → ℕ → Prog Γ Unit
  recvFile : Path → ℕ → ℕ → Prog Γ Unit
  errno : Γ.Store → ℕ

section exact
variable {S Op : Type} {R : Op → Type}

def sendExact (t : Transport (Sys S Op R)) (buf : Bytes) : Prog (Sys S Op R) Unit :=
  .repeatUntil (fun sent =>
    if sent < buf.length then do
      match ← t.send (buf.drop sent) with
      | some n =>
        if n = 0 then .raise (.runtimeError "send exact: connection closed")
        else pure (.inl (sent + n))
      | none => do
        let s ← .get
        if t.errno s = EAGAIN ∨ t.errno s = EWOULDBLOCK then pure (.inl sent)
        else .raise (.systemError "send exact: send failed: " (t.errno s))
    else pure (.inr ())) 0

def recvExact (t : Transport (Sys S Op R)) (len : ℕ) : Prog (Sys S Op R) Bytes :=
  .repeatUntil (fun received =>
    if received.length < len then do
      match ← t.recv (len - received.length) with
      | some bs =>
        if bs.length = 0 then .raise (.runtimeError "recv exact: connection closed")
        else pure (.inl (received ++ bs))
      | none => do
        let s ← .get
        if t.errno s = EAGAIN ∨ t.errno s = EWOULDBLOCK then pure (.inl received)
        else .raise (.systemError "recv exact: recv failed: " (t.errno s))
    else pure (.inr received)) []

end exact

namespace TcpTransport

def sendFile (fd : Path) (offset len : ℕ) : Prog Os Unit :=
  .repeatUntil (fun (offset, remain) =>
    if 0 < remain then do
      match ← sys (.sendfile fd offset remain) with
      | none => retry "TcpTransport::send_file: sendfile failed: " (offset, remain)
      | some sent =>
        if sent = 0 then .raise (.runtimeError "TcpTransport::send_file: connection closed")
        else pure (.inl (offset + sent, remain - sent))
    else pure (.inr ())) (offset, len)

def openPipe : Prog Os Unit := do
  let s ← .get
  if s.pipe.isSome then pure ()
  else do
    let ok : Bool ← sys .pipe
    if ok then pure () else throwErrno "TcpTransport::recv_file: pipe failed: "

/-- splice pipe -> file at `fileOffset`; answers where the next byte goes. -/
def drainPipe (fd : Path) (fileOffset remainPipe : ℕ) : Prog Os ℕ :=
  .repeatUntil (fun (fileOffset, remainPipe) =>
    if 0 < remainPipe then do
      match ← sys (.spliceOut fd fileOffset remainPipe) with
      | none => retry "TcpTransport::recv_file: pipe->file failed: " (fileOffset, remainPipe)
      | some written =>
        if written = 0 then .raise (.runtimeError "TcpTransport::recv_file: pipe->file EOF")
        else pure (.inl (fileOffset + written, remainPipe - written))
    else pure (.inr fileOffset)) (fileOffset, remainPipe)

def recvFile (fd : Path) (offset len : ℕ) : Prog Os Unit := do
  openPipe
  .repeatUntil (fun (fileOffset, remain) =>
    if 0 < remain then do
      match ← sys (.spliceIn remain) with
      | none => retry "TcpTransport::recv_file: socket->pipe failed: " (fileOffset, remain)
      | some spliced =>
        if spliced = 0 then .raise (.runtimeError "TcpTransport::recv_file: connection closed")
        else do
          let fileOffset ← drainPipe fd fileOffset spliced
          pure (.inl (fileOffset, remain - spliced))
    else pure (.inr ())) (offset, len)

end TcpTransport

def tcp : Transport Os where
  send buf := sys (.send buf)
  recv len := sys (.recv len)
  sendFile := TcpTransport.sendFile
  recvFile := TcpTransport.recvFile
  errno s := s.errno

end Embr
