import Embr.Shell

/-!
# Where transports come from

The factories `transport/tcp_server.cpp`, `tcp_client.cpp`, `udp_data_server.cpp`,
`udp_data_client.cpp`, `quic_server.cpp` and `quic_client.cpp`, with the constructors and
the destructors of the transports and of `util/io_uring_ctx.cpp`. Options set on a socket
are left out: nothing looks at how that ended.
-/

open Octets Interact Text
open Embr.System (lift)
namespace Embr.Cli

def closeFd (fd : ℕ) : Prog Shell Unit := do
  let _ : Bool ← shell (.close fd)
  pure ()

def socketFd (fd : Option ℕ) : Prog Shell ℕ :=
  match fd with
  | some fd => pure fd
  | none => .raise (.runtimeError "invalid socket fd")

def failed (what : String) : Prog Shell Unit := .raise (.runtimeError what)

/-- A call that must succeed: else something is released, and `raise` throws. -/
def require (c : Check) (release raise : Prog Shell Unit) : Prog Shell Unit := do
  let ok : Bool ← shell (.check c)
  if ok then pure ()
  else do
    release
    raise

def requireNgtcp2 (c : Ngtcp2) (release : Prog Shell Unit) (what : String) : Prog Shell Unit := do
  match ← shell (.ngtcp2 c) with
  | none => pure ()
  | some error => do
    release
    .raise (.runtimeError (what ++ error))

def dot : UInt8 := 46

def octet (part : Bytes) : Option UInt8 :=
  if part = [] ∨ (part.any fun c => !isDigit c) then none
  else if 1 < part.length ∧ part.head? = some 48 then none
  else if 255 < value part then none
  else some (UInt8.ofNat (value part))

def inetPton (src : Bytes) : Option (List UInt8) :=
  let parts := src.splitOn dot
  if parts.length = 4 then parts.mapM octet else none

def newTcpTransport (fd : ℕ) : Conn := .tcp fd none

def tcpListen (port : UInt16) : Prog Shell ℕ := do
  match ← shell (.socket false) with
  | none => throwErrno "tcp_listen: socket() failed: "
  | some fd => do
    require (.bind fd port) (closeFd fd) (throwErrno "tcp_listen: bind() failed: ")
    require (.listen fd) (closeFd fd) (throwErrno "tcp_listen: listen() failed: ")
    pure fd

def tcpAccept (listenFd : ℕ) : Prog Shell Conn := do
  match ← shell (.accept listenFd) with
  | none => throwErrno "tcp_accept: accept() failed: "
  | some fd => pure (newTcpTransport fd)

def tcpConnect (host : Bytes) (port : UInt16) : Prog Shell Conn := do
  match ← shell (.socket false) with
  | none => throwErrno "tcp_connect: socket() failed: "
  | some fd => do
    .when (inetPton host = none) (do
      closeFd fd
      failed ("tcp_connect: invalid address: " ++ text host))
    require (.connect fd host port) (closeFd fd) (throwErrno "tcp_connect: connect() failed: ")
    pure (newTcpTransport fd)

def udpMtu : ℕ := 65000
def udpChunkBufs : ℕ := 2
def udpFragBufs : ℕ := 32

/-- The ring, the two mappings, and whether the buffers are registered. -/
def newIoUringCtx (chunkBufCount chunkBufSize fragBufCount fragBufSize : ℕ) :
    Prog Shell (ℕ × ℕ × ℕ × Bool) := do
  match ← shell .queueInit with
  | .error e => .raise (.systemError "IoUringCtx: io_uring_queue_init failed: " e)
  | .ok ring => do
    match ← shell (.mmap (chunkBufCount * chunkBufSize)) with
    | none => do
      shell (.free .ring ring)
      throwErrno "IoUringCtx: mmap chunk_mem failed: "
    | some chunkMem => do
      match ← shell (.mmap (fragBufCount * fragBufSize)) with
      | none => do
        shell (.free .mem chunkMem)
        shell (.free .ring ring)
        throwErrno "IoUringCtx: mmap frag_mem failed: "
      | some fragMem => do
        match ← shell (.registerBuffers ring) with
        | none => pure (ring, chunkMem, fragMem, true)
        | some e =>
          if e = ENOMEM then do
            cerr ("[io_uring] memlock limit exceeded, falling back to " ++
              "unregistered buffers (zero-copy disabled)")
            pure (ring, chunkMem, fragMem, false)
          else do
            shell (.free .mem fragMem)
            shell (.free .mem chunkMem)
            shell (.free .ring ring)
            .raise (.systemError "IoUringCtx: register_buffers failed: " e)

def newUdpTransport (fd : ℕ) : Prog Shell Conn := do
  let (ring, chunkMem, fragMem, registeredBuffers) ←
    newIoUringCtx udpChunkBufs chunkSize udpFragBufs udpMtu
  pure (.udp fd ring chunkMem fragMem registeredBuffers)

def udpDataServerBind (port : UInt16) : Prog Shell ℕ := do
  match ← shell (.socket true) with
  | none => throwErrno "udp_data_server_bind: socket() failed: "
  | some fd => do
    (require (.bind fd port) (pure ())
      (throwErrno "udp_data_server_bind: bind() failed: ")).onThrow (closeFd fd)
    pure fd

def udpDataServerConnect (fd : ℕ) : Prog Shell Conn :=
  let connected : Prog Shell Conn := do
    require (.recvProbe fd) (pure ()) (throwErrno "udp_data_server_connect: recvfrom() failed: ")
    require (.connectPeer fd) (pure ()) (throwErrno "udp_data_server_connect: connect() failed: ")
    newUdpTransport fd
  connected.onThrow (closeFd fd)

def udpDataClientConnect (host : Bytes) (port : UInt16) : Prog Shell Conn := do
  match ← shell (.socket true) with
  | none => throwErrno "udp_data_client_connect: socket() failed: "
  | some fd => do
    let connected : Prog Shell Conn := do
      .when (inetPton host = none)
        (failed ("udp_data_client_connect: invalid address: " ++ text host))
      require (.connect fd host port) (pure ())
        (throwErrno "udp_data_client_connect: connect() failed: ")
      require (.sendProbe fd) (pure ())
        (throwErrno "udp_data_client_connect: probe send() failed: ")
      newUdpTransport fd
    connected.onThrow (closeFd fd)

def newQuicTransport (udpFd : ℕ) : Prog Shell Unit :=
  require (.getsockname udpFd) (pure ()) (throwErrno "QuicTransport: getsockname failed: ")

/-- `zc_.reset()`: with the ring go the buffers that are registered on it. -/
def resetZc : Option ℕ → Prog Shell Unit
  | none => pure ()
  | some ring => do
    shell (.free .buffers ring)
    shell (.free .ring ring)

def releaseUnacked : List ℕ → Prog Shell Unit
  | [] => pure ()
  | mapped :: unacked => do
    shell (.free .mem mapped)
    releaseUnacked unacked

/-- The destructor of the transport in a `std::unique_ptr`. -/
def destroy : Conn → Prog Shell Unit
  | .tcp fd pipe => do
    match pipe with
    | none => pure ()
    | some (pipeRd, pipeWr) => do
      closeFd pipeRd
      closeFd pipeWr
    closeFd fd
  | .udp fd ring chunkMem fragMem registeredBuffers => do
    .when (registeredBuffers = true) (shell (.free .buffers ring))
    shell (.free .ring ring)
    shell (.free .mem fragMem)
    shell (.free .mem chunkMem)
    closeFd fd
  | .quic udpFd ssl sslCtx conn own => do
    let own ← match conn with
      | none => pure own
      | some conn => do
        let own : Own ← shell (.closeConnection conn own)
        shell (.free .conn conn)
        pure own
    shell (.free .ssl ssl)
    shell (.free .sslCtx sslCtx)
    resetZc own.zc
    closeFd udpFd
    releaseUnacked own.unacked

def quicListen (port : UInt16) : Prog Shell ℕ := do
  match ← shell (.socket true) with
  | none => throwErrno "quic_listen: socket() failed: "
  | some fd => do
    require (.bind fd port) (closeFd fd) (throwErrno "quic_listen: bind() failed: ")
    pure fd

/-- From the context of wolfSSL to a transport that keeps it, for the factory `what`. Only a
server has something to `load` into the context. -/
def secure (what side : String) (server : Bool) (fd : ℕ)
    (load : ℕ → Prog Shell Unit → Prog Shell Unit) : Prog Shell (ℕ × ℕ) := do
  match ← shell (.sslCtxNew server) with
  | none => do
    closeFd fd
    .raise (.runtimeError (what ++ ": wolfSSL_CTX_new() failed"))
  | some sslCtx => do
    let freeCtx : Prog Shell Unit := do
      shell (.free .sslCtx sslCtx)
      closeFd fd
    require (.configureContext sslCtx) freeCtx (.raise (.runtimeError
      (what ++ ": ngtcp2_crypto_wolfssl_configure_" ++ side ++ "_context() failed")))
    load sslCtx freeCtx
    match ← shell (.sslNew sslCtx) with
    | none => do
      freeCtx
      .raise (.runtimeError (what ++ ": wolfSSL_new() failed"))
    | some ssl => do
      let freeSsl : Prog Shell Unit := do
        shell (.free .ssl ssl)
        freeCtx
      require (.useAlpn ssl) freeSsl (.raise (.runtimeError (what ++ ": wolfSSL_UseALPN() failed")))
      (newQuicTransport fd).onThrow freeSsl
      pure (ssl, sslCtx)

def nothing : Own := ⟨none, []⟩

/-- The transport is in a `std::unique_ptr` by now. `start` and `finish` are what is done with the
connection before and after the handshake. -/
def attach (what side : String) (server : Bool) (fd ssl sslCtx : ℕ)
    (start finish : ℕ → Prog Shell Unit) : Prog Shell Conn := do
  match ← shell (.connNew server ssl) with
  | .error error => do
    destroy (.quic fd ssl sslCtx none nothing)
    .raise (.runtimeError (what ++ ": ngtcp2_conn_" ++ side ++ "_new() failed: " ++ error))
  | .ok conn => do
    (start conn).onThrow (destroy (.quic fd ssl sslCtx (some conn) nothing))
    let (ok, own) ← shell (.runHandshake conn nothing)
    (do
      Prog.when (ok = false) (failed (what ++ ": handshake failed"))
      finish conn).onThrow (destroy (.quic fd ssl sslCtx (some conn) own))
    pure (.quic fd ssl sslCtx (some conn) own)

def quicAccept (listenFd : ℕ) (certPath keyPath : Path) : Prog Shell Conn := do
  match ← shell (.recvInitial listenFd) with
  | none => do
    closeFd listenFd
    throwErrno "quic_accept: recvmsg() failed: "
  | some (firstPkt, truncated) => do
    .when (truncated = true) (do
      closeFd listenFd
      failed "quic_accept: first packet truncated")
    requireNgtcp2 (.decodeVersionCid firstPkt) (closeFd listenFd)
      "quic_accept: decode_version_cid() failed: "
    requireNgtcp2 (.accept firstPkt) (closeFd listenFd) "quic_accept: not a valid Initial: "
    require (.connectPeer listenFd) (closeFd listenFd)
      (throwErrno "quic_accept: connect() failed: ")
    require (.setNonblock listenFd) (closeFd listenFd)
      (throwErrno "quic_accept: fcntl(O_NONBLOCK) failed: ")
    let (ssl, sslCtx) ← secure "quic_accept" "server" true listenFd fun sslCtx freeCtx => do
      require (.useCertificateChain sslCtx certPath) freeCtx
        (failed ("quic_accept: failed to load cert: " ++ text certPath))
      require (.usePrivateKey sslCtx keyPath) freeCtx
        (failed ("quic_accept: failed to load key: " ++ text keyPath))
    attach "quic_accept" "server" true listenFd ssl sslCtx
      (fun conn => require (.feedData conn firstPkt) (pure ())
        (failed "quic_accept: first packet rejected"))
      fun _ => pure ()

def quicConnect (host : Bytes) (port : UInt16) : Prog Shell Conn := do
  match ← shell (.socket true) with
  | none => throwErrno "quic_connect: socket() failed: "
  | some udpFd => do
    .when (inetPton host = none) (do
      closeFd udpFd
      failed ("quic_connect: invalid address: " ++ text host))
    require (.connect udpFd host port) (closeFd udpFd)
      (throwErrno "quic_connect: connect() failed: ")
    require (.setNonblock udpFd) (closeFd udpFd)
      (throwErrno "quic_connect: fcntl(O_NONBLOCK) failed: ")
    let (ssl, sslCtx) ← secure "quic_connect" "client" false udpFd fun _ _ => pure ()
    attach "quic_connect" "client" false udpFd ssl sslCtx (fun _ => pure ()) fun conn =>
      requireNgtcp2 (.openBidiStream conn) (pure ()) "quic_connect: open_bidi_stream failed: "

end Embr.Cli
