import Embr.Config
import Embr.Factories
import Embr.Senders

/-!
# The commands

`cli/push_cli.cpp`, `cli/pull_cli.cpp`, `cli/tracker_cli.cpp` and `main.cpp`. What
`std::stoi` throws is thrown outside any `try`.
-/

open Octets Interact Text
open Embr.System (lift)
open Embr.Protocol (Hash)
open Embr.Tracker (deriveToken)
namespace Embr.Cli

def embrPort : UInt16 := 10007
def trackerPort : UInt16 := 10009

def stoi (str : Bytes) : Except Exc ℤ :=
  match integer str with
  | none => .error (.invalidArgument "stoi")
  | some n => if -2 ^ 31 ≤ n ∧ n < 2 ^ 31 then .ok n else .error (.outOfRange "stoi")

def toU16 (n : ℤ) : UInt16 := UInt16.ofNat (n % 65536).toNat

section flags
variable {Opts : Type}

abbrev Setter (Opts : Type) := Opts → Bytes → Except Exc Opts

inductive Parsed (Opts : Type)
  | options (o : Opts)
  | help
  | unknown (flag : Bytes)

def leave (flag : Bytes) : Parsed Opts := if flag = ascii "--help" then .help else .unknown flag

/-- The loop over the arguments. A flag that is last has no value and is not known. -/
def parseFlags (flags : Bytes → Option (Setter Opts)) (o : Opts) :
    List Bytes → Except Exc (Parsed Opts)
  | [] => .ok (.options o)
  | [flag] => .ok (leave flag)
  | flag :: arg :: args =>
    match flags flag with
    | none => .ok (leave flag)
    | some set =>
      match set o arg with
      | .error e => .error e
      | .ok o => parseFlags flags o args

end flags

def pushUsage : String :=
  "Usage: embr push <file> [--port PORT] [--tracker URL] [--ip IP]\n" ++
  "\n" ++
  "  --port PORT     listen port (default: 10007)\n" ++
  "  --tracker URL   tracker URL; overrides EMBR_TRACKER env var\n" ++
  "  --ip IP         override sender IP under NAT\n" ++
  "  --transport T   tcp (default) or quic\n" ++
  "  --cert PATH     QUIC server cert (default: cert.pem)\n" ++
  "  --key PATH      QUIC server key (default: key.pem)"

structure PushOpts where
  port : UInt16 := embrPort
  trackerUrl : Bytes := []
  senderIp : Bytes := []
  transport : Bytes := ascii "tcp"
  certPath : Path := ascii "cert.pem"
  keyPath : Path := ascii "key.pem"

def pushFlags (flag : Bytes) : Option (Setter PushOpts) :=
  if flag = ascii "--port" then some fun o arg => do
    let n ← stoi arg
    pure { o with port := toU16 n }
  else if flag = ascii "--tracker" then some fun o arg => pure { o with trackerUrl := arg }
  else if flag = ascii "--ip" then some fun o arg => pure { o with senderIp := arg }
  else if flag = ascii "--transport" then some fun o arg => pure { o with transport := arg }
  else if flag = ascii "--cert" then some fun o arg => pure { o with certPath := arg }
  else if flag = ascii "--key" then some fun o arg => pure { o with keyPath := arg }
  else none

def useQuic (transport : Bytes) : Bool := transport = ascii "quic"

def listenOn (o : PushOpts) : Prog Shell ℕ :=
  if useQuic o.transport then quicListen o.port else tcpListen o.port

def acceptOn (o : PushOpts) (listenFd : ℕ) : Prog Shell Conn :=
  if useQuic o.transport then quicAccept listenFd o.certPath o.keyPath else tcpAccept listenFd

def announce (url token : Bytes) (o : PushOpts) : Prog Shell Unit := do
  cout ("[push] listening on port " ++ text (decimal o.port.toNat) ++ " (" ++ text o.transport ++ ")")
  .when (url ≠ []) (do
    let r : Except Exc Unit ← shell (.trackerRegister url token o.port)
    lift r
    cout ("[push] token: " ++ text token)
    .when (o.senderIp ≠ []) (cout ("[push] sender ip: " ++ text o.senderIp)))

/-- The descriptor of the file is moved into `run_push`, whose parameter closes it. The transport
goes at the end. -/
def serve (url token : Bytes) (fileFd : ℕ) (fileMeta : Protocol.FileMeta) (conn : Conn) :
    Prog Shell Unit := do
  cout "[push] connection established"
  let (conn, r) ← shell (.runPush conn fileFd fileMeta)
  closeFd fileFd
  Prog.always (do
    lift r
    .when (url ≠ []) (shell (.trackerUnregister url token))) (destroy conn)

/-- From the listening socket to the end of its scope. What is thrown before the file is
moved is thrown, what is thrown later is the result. -/
def pushOver (url token : Bytes) (o : PushOpts) (fileFd : ℕ) (fileMeta : Protocol.FileMeta)
    (listenFd : ℕ) : Prog Shell (Except Exc Unit) :=
  Prog.always (do
    announce url token o
    let conn ← acceptOn o listenFd
    (serve url token fileFd fileMeta conn).attempt) (closeFd listenFd)

/-- The body of the `try`. -/
def push (sha256 : Bytes → Hash) (filePath : Path) (url : Bytes) (o : PushOpts) : Prog Shell Unit := do
  let r : Except Exc Protocol.FileMeta ← shell (.precomputeMeta filePath)
  let fileMeta ← lift r
  let opened : Option ℕ ← shell (.openRead filePath)
  let fileFd ← socketFd opened
  let token := deriveToken sha256 fileMeta.chunkHashes
  let owning : Prog Shell (Except Exc Unit) := do
    let listenFd ← listenOn o
    pushOver url token o fileFd fileMeta listenFd
  let r ← owning.onThrow (closeFd fileFd)
  lift r

def caught (p : Prog Shell ℕ) : Prog Shell ℕ := do
  match ← p.attempt with
  | .ok code => pure code
  | .error e => do
    say (.error e)
    pure 1

def runPushCli (sha256 : Bytes → Hash) : List Bytes → Prog Shell ℕ
  | [] => do
    cerr pushUsage
    pure 1
  | filePath :: args => do
    match ← lift (parseFlags pushFlags {} args) with
    | .help => do
      cerr pushUsage
      pure 0
    | .unknown flag => do
      cerr ("embr push: unknown flag: " ++ text flag)
      cerr pushUsage
      pure 1
    | .options o =>
      if o.transport ≠ ascii "tcp" ∧ o.transport ≠ ascii "quic" then do
        cerr "embr push: --transport must be tcp or quic"
        pure 1
      else do
        let url ← resolveTrackerUrl o.trackerUrl
        .when (url ≠ []) (cout ("[push] tracker: " ++ text url))
        caught (do
          push sha256 filePath url o
          pure 0)

def pullUsage : String :=
  "Usage: embr pull <token-or-ip> [--port PORT] [--tracker URL] [--out PATH]\n" ++
  "\n" ++
  "  <token-or-ip>   16 hex char token or IPv4 address\n" ++
  "  --port PORT     sender port for direct IP mode (default 10007)\n" ++
  "  --tracker URL   tracker URL; overrides EMBR_TRACKER env var\n" ++
  "  --out PATH      output file path (default filename from sender)\n" ++
  "  --transport T   tcp (default) or quic"

structure PullOpts where
  port : UInt16 := embrPort
  trackerUrl : Bytes := []
  outPath : Path := []
  transport : Bytes := ascii "tcp"

def pullFlags (flag : Bytes) : Option (Setter PullOpts) :=
  if flag = ascii "--port" then some fun o arg => do
    let n ← stoi arg
    pure { o with port := toU16 n }
  else if flag = ascii "--tracker" then some fun o arg => pure { o with trackerUrl := arg }
  else if flag = ascii "--out" then some fun o arg => pure { o with outPath := arg }
  else if flag = ascii "--transport" then some fun o arg => pure { o with transport := arg }
  else none

def isIpv4 (arg : Bytes) : Bool := (inetPton arg).isSome

def isToken (arg : Bytes) : Bool :=
  if arg.length ≠ tokenSize then false
  else arg.all fun c => (48 ≤ c && c ≤ 57) || (97 ≤ c && c ≤ 102)

def address (ip : Bytes) (port : UInt16) : String := text ip ++ ":" ++ text (decimal port.toNat)

def findSender (arg url : Bytes) (o : PullOpts) : Prog Shell (Option (Bytes × UInt16)) :=
  if isIpv4 arg then do
    cout ("[pull] direct mode: " ++ address arg o.port)
    pure (some (arg, o.port))
  else if isToken arg then
    if url = [] then do
      cerr ("[error] token provided but no tracker configured\n" ++
        "        set EMBR_TRACKER or pass --tracker URL")
      pure none
    else do
      cout ("[pull] resolving token: " ++ text arg ++ " tracker: " ++ text url)
      let r : Except Exc (Bytes × UInt16) ← shell (.trackerResolve url arg)
      let resolved ← lift r
      cout ("[pull] resolved to " ++ address resolved.1 resolved.2)
      pure (some resolved)
  else do
    cerr ("[error] '" ++ text arg ++ "' is neither a valid IPv4 address nor a valid token")
    pure none

def connectOn (transport : Bytes) (ip : Bytes) (port : UInt16) : Prog Shell Conn :=
  if useQuic transport then quicConnect ip port else tcpConnect ip port

def pull (arg url : Bytes) (o : PullOpts) : Prog Shell ℕ := do
  match ← findSender arg url o with
  | none => pure 1
  | some (senderIp, senderPort) => do
    let conn ← connectOn o.transport senderIp senderPort
    cout ("[pull] connect to " ++ address senderIp senderPort)
    let (conn, r) ← shell (.runPull conn o.outPath)
    destroy conn
    lift r
    pure 0

def runPullCli : List Bytes → Prog Shell ℕ
  | [] => do
    cerr pullUsage
    pure 1
  | arg :: args => do
    match ← lift (parseFlags pullFlags {} args) with
    | .help => do
      cerr pullUsage
      pure 0
    | .unknown flag => do
      cerr ("embr pull: unknown flag: " ++ text flag)
      cerr pullUsage
      pure 1
    | .options o =>
      if o.transport ≠ ascii "tcp" ∧ o.transport ≠ ascii "quic" then do
        cerr "embr pull: --transport must be tcp or quic"
        pure 1
      else do
        let url ← resolveTrackerUrl o.trackerUrl
        caught (pull arg url o)

def trackerUsage : String :=
  "Usage: embr tracker [--bind ADDR] [--port PORT] [--ttl MINUTES]\n" ++
  "\n" ++
  "  --bind ADDR     bind address (default: 0.0.0.0)\n" ++
  "  --port PORT     listening port (default: 10009)\n" ++
  "  --ttl MINUTES   token TTL in minutes (default 10)"

structure TrackerConfig where
  bindAddr : Bytes := ascii "0.0.0.0"
  bindPort : UInt16 := trackerPort
  ttl : ℤ := 10

def trackerFlags (flag : Bytes) : Option (Setter TrackerConfig) :=
  if flag = ascii "--bind" then some fun config arg => pure { config with bindAddr := arg }
  else if flag = ascii "--port" then some fun config arg => do
    let n ← stoi arg
    pure { config with bindPort := toU16 n }
  else if flag = ascii "--ttl" then some fun config arg => do
    let n ← stoi arg
    pure { config with ttl := n }
  else none

def runTrackerCli (args : List Bytes) : Prog Shell ℕ := do
  match ← lift (parseFlags trackerFlags {} args) with
  | .help => do
    cerr trackerUsage
    pure 0
  | .unknown flag => do
    cerr ("embr tracker: unknown flag: " ++ text flag)
    cerr trackerUsage
    pure 1
  | .options config => do
    shell (.runTrackerServer config.bindAddr config.bindPort config.ttl)
    pure 0

def usage : String :=
  "Usage:\n" ++
  "  embr push <file>        [--port PORT] [--tracker URL] [--ip IP]\n" ++
  "  embr pull <token-or-ip> [--port PORT] [--tracker URL] [--out PATH]\n" ++
  "  embr tracker            [--bind ADDR] [--port PORT] [--ttl MINUTES]\n" ++
  "  embr trust <url>        [--list] [--clear]"

/-- The arguments behind the name of the program. -/
def main (sha256 : Bytes → Hash) : List Bytes → Prog Shell ℕ
  | [] => do
    cerr usage
    pure 1
  | verb :: args =>
    if verb = ascii "push" then runPushCli sha256 args
    else if verb = ascii "pull" then runPullCli args
    else if verb = ascii "tracker" then runTrackerCli args
    else if verb = ascii "trust" then runTrustCli args
    else do
      cerr ("Unknown command: " ++ text verb)
      cerr usage
      pure 1

end Embr.Cli
