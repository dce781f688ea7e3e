import Embr.Transport
import Embr.Lib.Scoped
import Embr.Lib.Text
import Mathlib.Data.Multiset.AddSub

/-!
# The process around a transfer

What the factories of the transports and the commands of `embr` ask of the
system, of wolfSSL and ngtcp2, of the tracker and of a transfer. Descriptors and
the other things that must be released are numbered, each kind for itself, and a
number that was released may be given out again. Memory of the heap is not counted,
nor is the descriptor of a ring apart from the ring.
-/

open Octets Interact
open Embr.System (Sys)
namespace Embr.Cli
open Protocol (FileMeta)

inductive Kind
  | fd
  | sslCtx
  | ssl
  | conn
  | ring
  | buffers
  | mem
  deriving DecidableEq

abbrev Handle := Kind × ℕ

/-- What a `QuicTransport` makes while it works: the ring of its zero-copy egress, on which the
packets are registered, and the mappings of the blocks that the peer has not acknowledged. -/
structure Own where
  zc : Option ℕ
  unacked : List ℕ

def ringHolds : Option ℕ → Multiset Handle
  | none => 0
  | some ring => (.buffers, ring) ::ₘ {(.ring, ring)}

def blocksHold (unacked : List ℕ) : Multiset Handle := unacked.map (Prod.mk Kind.mem)

def Own.holds (own : Own) : Multiset Handle := ringHolds own.zc + blocksHold own.unacked

/-- What a `std::unique_ptr<Transport>` may hold. A `QuicTransport` is made before
its connection, and the buffers of a ring need not be registered. -/
inductive Conn
  | tcp (fd : ℕ) (pipe : Option (ℕ × ℕ))
  | udp (fd ring chunkMem fragMem : ℕ) (registeredBuffers : Bool)
  | quic (fd ssl sslCtx : ℕ) (conn : Option ℕ) (own : Own)

inductive Status
  | fresh
  | bound (port : UInt16)
  | listening (port : UInt16)

inductive Event
  | out (line : String)
  | err (line : String)
  | error (e : Exc)
  | awaited (fd : ℕ)
  | connect (host : Bytes) (port : UInt16)
  | register (url token : Bytes) (port : UInt16)
  | resolve (url token : Bytes) (answer : Except Exc (Bytes × UInt16))
  | unregister (url token : Bytes)
  | push (fileMeta : FileMeta) (ended : Except Exc Unit)
  | pull (outPath : Path) (ended : Except Exc Unit)

/-- `stray` counts the calls of `close` with a number that is not open. -/
structure Process where
  errno : ℕ
  files : Path → Option Bytes
  live : Multiset Handle
  stray : ℕ
  status : ℕ → Status
  log : List Event

/-- A process that has done nothing. -/
def blank : Process := ⟨0, fun _ => none, 0, 0, fun _ => .fresh, []⟩

inductive Check
  | bind (fd : ℕ) (port : UInt16)
  | listen (fd : ℕ)
  | connect (fd : ℕ) (host : Bytes) (port : UInt16)
  | connectPeer (fd : ℕ)
  | setNonblock (fd : ℕ)
  | sendProbe (fd : ℕ)
  | recvProbe (fd : ℕ)
  | getsockname (fd : ℕ)
  | configureContext (sslCtx : ℕ)
  | useCertificateChain (sslCtx : ℕ) (certPath : Path)
  | usePrivateKey (sslCtx : ℕ) (keyPath : Path)
  | useAlpn (ssl : ℕ)
  | feedData (conn : ℕ) (firstPkt : Bytes)

inductive Ngtcp2
  | decodeVersionCid (firstPkt : Bytes)
  | accept (firstPkt : Bytes)
  | openBidiStream (conn : ℕ)

inductive Op
  | getenv (name : String)
  | exists (path : Path)
  | read (path : Path)
  | createDirectories (path : Path)
  | overwrite (path : Path) (content : Bytes)
  | remove (path : Path)
  | socket (datagram : Bool)
  | accept (fd : ℕ)
  | openRead (path : Path)
  | sslCtxNew (server : Bool)
  | sslNew (sslCtx : ℕ)
  | connNew (server : Bool) (ssl : ℕ)
  | queueInit
  | mmap (len : ℕ)
  | registerBuffers (ring : ℕ)
  | check (c : Check)
  | ngtcp2 (c : Ngtcp2)
  | recvInitial (fd : ℕ)
  | close (fd : ℕ)
  | free (k : Kind) (n : ℕ)
  | runHandshake (conn : ℕ) (own : Own)
  | closeConnection (conn : ℕ) (own : Own)
  | precomputeMeta (path : Path)
  | runPush (c : Conn) (fileFd : ℕ) (fileMeta : FileMeta)
  | runPull (c : Conn) (outPath : Path)
  | trackerRegister (url token : Bytes) (port : UInt16)
  | trackerResolve (url token : Bytes)
  | trackerUnregister (url token : Bytes)
  | runTrackerServer (bindAddr : Bytes) (bindPort : UInt16) (ttl : ℤ)

abbrev Op.Reply : Op → Type
  | .getenv _ => Option Bytes
  | .exists _ => Except Exc Bool
  | .read _ => Bytes
  | .createDirectories _ => Except Exc Unit
  | .overwrite _ _ => Unit
  | .remove _ => Except Exc Unit
  | .socket _ => Option ℕ
  | .accept _ => Option ℕ
  | .openRead _ => Option ℕ
  | .sslCtxNew _ => Option ℕ
  | .sslNew _ => Option ℕ
  | .connNew _ _ => Except String ℕ
  | .queueInit => Except ℕ ℕ
  | .mmap _ => Option ℕ
  | .registerBuffers _ => Option ℕ
  | .check _ => Bool
  | .ngtcp2 _ => Option String
  | .recvInitial _ => Option (Bytes × Bool)
  | .close _ => Bool
  | .free _ _ => Unit
  | .runHandshake _ _ => Bool × Own
  | .closeConnection _ _ => Own
  | .precomputeMeta _ => Except Exc FileMeta
  | .runPush _ _ _ => Conn × Except Exc Unit
  | .runPull _ _ => Conn × Except Exc Unit
  | .trackerRegister _ _ _ => Except Exc Unit
  | .trackerResolve _ _ => Except Exc (Bytes × UInt16)
  | .trackerUnregister _ _ => Unit
  | .runTrackerServer _ _ _ => Unit

abbrev Shell : Iface := Sys Process Op Op.Reply

abbrev shell (o : Op) : Prog Shell o.Reply := @Prog.ask Shell o

def throwErrno {α : Type} (what : String) : Prog Shell α := do
  let s ← .get
  .raise (.systemError what s.errno)

def EBADF : ℕ := 9

def Process.note (s : Process) (e : Event) : Process := { s with log := s.log ++ [e] }

def say (e : Event) : Prog Shell Unit := .modify fun s => s.note e

def cout (line : String) : Prog Shell Unit := say (.out line)

def cerr (line : String) : Prog Shell Unit := say (.err line)

def Process.Stays (s t : Process) : Prop := ∃ e, t = { s with errno := e }

def Process.Works (s t : Process) : Prop := ∃ e f, t = { s with errno := e, files := f }

def Process.grab (s : Process) (k : Kind) (n : ℕ) : Process :=
  { s with
    live := (k, n) ::ₘ s.live
    status := if k = .fd then Function.update s.status n .fresh else s.status }

def Process.Makes (s : Process) (k : Kind) (r : Option ℕ) (t : Process) : Prop :=
  (∃ n, r = some n ∧ (k, n) ∉ s.live ∧ t = s.grab k n) ∨ (r = none ∧ s.Stays t)

def Process.Closes (s : Process) (fd : ℕ) (r : Bool) (t : Process) : Prop :=
  (r = true ∧ (Kind.fd, fd) ∈ s.live ∧ t = { s with live := s.live.erase (.fd, fd) }) ∨
  (r = false ∧ (Kind.fd, fd) ∉ s.live ∧ t = { s with errno := EBADF, stray := s.stray + 1 })

def Status.listen : Status → Status
  | .bound port => .listening port
  | st => st

def Process.passed (s : Process) : Check → Process
  | .bind fd port => { s with status := Function.update s.status fd (.bound port) }
  | .listen fd => { s with status := Function.update s.status fd (s.status fd).listen }
  | _ => s

def Process.tried (s : Process) : Check → Process
  | .connect _ host port => s.note (.connect host port)
  | _ => s

/-- A `QuicTransport` sends and receives packets. What it held is replaced by what it holds. -/
def Process.Pumps (s : Process) (own own' : Own) (t : Process) : Prop :=
  (own'.holds + (s.live - own.holds)).Nodup ∧
    ∃ e, t = { s with errno := e, live := own'.holds + (s.live - own.holds) }

/-- A transfer over a connection, which is the same afterwards but for what it holds. -/
def Process.Carries (s : Process) (c c' : Conn) (t : Process) : Prop :=
  (c' = c ∧ t = s) ∨ ∃ fd ssl sslCtx conn own own', c = .quic fd ssl sslCtx conn own ∧
    c' = .quic fd ssl sslCtx conn own' ∧ s.Pumps own own' t

def Process.OpensPipe (s : Process) (c c' : Conn) (t : Process) : Prop :=
  ∃ fd rd wr, c = .tcp fd none ∧ c' = .tcp fd (some (rd, wr)) ∧
    (Kind.fd, rd) ∉ s.live ∧ (Kind.fd, wr) ∉ (s.grab .fd rd).live ∧
    t = (s.grab .fd rd).grab .fd wr

def Process.Leaves {α : Type} (s : Process) (r : Except Exc α) (t : Process) : Prop :=
  t = s ∨ ∃ e k n, r = .error e ∧ (k = .fd ∨ k = .mem) ∧ (k, n) ∉ s.live ∧ t = s.grab k n

/-- The process finds `vars` in its environment. A file operation fails only if `fails`
says so; anything else may. -/
def world (vars : String → Option Bytes) (fails : Prop) :
    (o : Op) → Process → o.Reply → Process → Prop
  | .getenv name, s, r, t => r = vars name ∧ t = s
  | .exists path, s, r, t => (r = .ok (decide (path ≠ []) && (s.files path).isSome) ∧ t = s) ∨
      (fails ∧ ∃ e, r = .error e ∧ t = s)
  | .read path, s, r, t => ((r = (s.files path).getD []) ∨ (fails ∧ r = [])) ∧ t = s
  | .createDirectories _, s, r, t => t = s ∧ (r = .ok () ∨ (fails ∧ ∃ e, r = .error e))
  | .overwrite path content, s, _, t =>
      t = { s with files := Function.update s.files path (some content) } ∨
      (fails ∧ (t = s ∨ ∃ n,
        t = { s with files := Function.update s.files path (some (content.take n)) }))
  | .remove path, s, r, t =>
      (r = .ok () ∧ t = { s with files := Function.update s.files path none }) ∨
      (fails ∧ ∃ e, r = .error e ∧ t = s)
  | .socket _, s, r, t => s.Makes .fd r t
  | .accept _, s, r, t => s.Makes .fd r t
  | .openRead _, s, r, t => s.Makes .fd r t
  | .sslCtxNew _, s, r, t => s.Makes .sslCtx r t
  | .sslNew _, s, r, t => s.Makes .ssl r t
  | .connNew _ _, s, r, t => s.Makes .conn r.toOption t
  | .queueInit, s, r, t => s.Makes .ring r.toOption t
  | .mmap _, s, r, t => s.Makes .mem r t
  | .registerBuffers ring, s, r, t =>
      (r = none ∧ (Kind.buffers, ring) ∉ s.live ∧ t = s.grab .buffers ring) ∨
      (r ≠ none ∧ s.Stays t)
  | .check c, s, r, t => (r = true ∧ t = (s.tried c).passed c) ∨ (r = false ∧ (s.tried c).Stays t)
  | .ngtcp2 _, s, _, t => s.Stays t
  | .recvInitial fd, s, _, t => (s.note (.awaited fd)).Stays t
  | .close fd, s, r, t => s.Closes fd r t
  | .free k n, s, _, t => t = { s with live := s.live.erase (k, n) }
  | .runHandshake _ own, s, r, t => s.Pumps own r.2 t
  | .closeConnection _ own, s, r, t => s.Pumps own r t
  | .precomputeMeta _, s, r, t => ∃ u, s.Works u ∧ u.Leaves r t
  | .runPush c _ fileMeta, s, r, t =>
      ∃ u, (s.note (.push fileMeta r.2)).Carries c r.1 u ∧ u.Works t
  | .runPull c outPath, s, r, t => ∃ u v, ((s.note (.pull outPath r.2)).Carries c r.1 u ∨
      (s.note (.pull outPath r.2)).OpensPipe c r.1 u) ∧ u.Works v ∧ v.Leaves r.2 t
  | .trackerRegister url token port, s, _, t => (s.note (.register url token port)).Stays t
  | .trackerResolve url token, s, r, t => (s.note (.resolve url token r)).Stays t
  | .trackerUnregister url token, s, _, t => (s.note (.unregister url token)).Stays t
  | .runTrackerServer _ _ _, s, _, t => s.Stays t

end Embr.Cli
