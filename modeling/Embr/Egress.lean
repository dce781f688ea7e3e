import Embr.System

/-!
# The SEND_ZC egress

`transport/quic_egress.cpp`: an io_uring with a slab of packet slots, and the
ring as the kernel moves it. The slots are named by their index. A non-empty
`inflight_` entry is the size of the Buffer over the slot, and emptying it runs
the release, which puts the slot back to `free_`.
-/

open Octets Interact
open Embr.System (Sys)
namespace Embr.ZcEgress

structure Sqe where
  slot : ℕ
  size : ℕ
  fixed : Bool
  seq : ℕ
  deriving DecidableEq

/-- `more` and `notif` are the flags F_MORE and F_NOTIF. -/
structure Cqe where
  slot : ℕ
  res : ℤ
  more : Bool
  notif : Bool
  deriving DecidableEq

/-- Requests queued and not submitted, submitted and not completed, those that
will still get a NOTIF, and completions not reaped. The rest is an account: the
datagrams committed, which of them each slot was last given to, the completions
reaped, the `errno` of each copying send that failed and `none` for one that did
not, and the datagrams sent. -/
structure Ring where
  sq : List Sqe
  submitted : List Sqe
  notifDue : List ℕ
  cq : List Cqe
  queued : List (ℕ × Bytes)
  owner : ℕ → ℕ
  reaped : List Cqe
  copies : List (Option ℕ)
  wire : List (ℕ × Bytes)

structure Stats where
  sends : ℕ
  notifs : ℕ
  copied : ℕ
  fallback : ℕ
  errors : ℕ

structure State where
  errno : ℕ
  slab : ℕ → Bytes
  free : List ℕ
  inflight : List (Option ℕ)
  reserved : Option ℕ
  err : ℕ
  registered : Bool
  unsupported : Bool
  stats : Stats
  ring : Ring

inductive Op
  | queueInit (entries : ℕ)
  | registerBuffers
  | getSqe
  | submit
  | waitCqe
  | peekCqe
  | waitCqeTimeout
  | send (slot : ℕ) (buf : Bytes)
  | now

abbrev Op.Reply : Op → Type
  | .queueInit _ => ℤ
  | .registerBuffers => ℤ
  | .getSqe => Bool
  | .submit => ℤ
  | .waitCqe => Option Cqe
  | .peekCqe => Option Cqe
  | .waitCqeTimeout => Unit
  | .send _ _ => Option ℕ
  | .now => ℕ

abbrev Zc : Iface := Sys State Op Op.Reply

abbrev zc (o : Op) : Prog Zc o.Reply := @Prog.ask Zc o

def refused (res : ℤ) : Prop :=
  res = -ENOMEM ∨ res = -ENOBUFS ∨ res = -EAGAIN ∨ res = -EINVAL ∨ res = -EOPNOTSUPP

instance (res : ℤ) : Decidable (refused res) := by
  unfold refused
  infer_instance

/-- One send completion for each request submitted, a NOTIF after those with
F_MORE, in any order across the slots. -/
inductive Moves : State → State → Prop
  | complete {s : State} {a b : List Sqe} {q : Sqe} (res : ℤ) (more : Bool)
      (sent : List (ℕ × Bytes)) : s.ring.submitted = a ++ q :: b →
      (sent = [] ∨ (sent = [(q.seq, (s.slab q.slot).take q.size)] ∧ ¬ refused res)) →
      Moves s { s with ring := { s.ring with
        submitted := a ++ b
        notifDue := if more then s.ring.notifDue ++ [q.slot] else s.ring.notifDue
        cq := s.ring.cq ++ [⟨q.slot, res, more, false⟩]
        wire := s.ring.wire ++ sent } }
  | notify {s : State} {a b : List ℕ} {i : ℕ} (res : ℤ) :
      s.ring.notifDue = a ++ i :: b →
      Moves s { s with ring := { s.ring with
        notifDue := a ++ b
        cq := s.ring.cq ++ [⟨i, res, false, true⟩] } }

abbrev Idles : State → State → Prop := Relation.ReflTransGen Moves

/-- An `errno` of the copying send that is more than loss. -/
def fatal (e : ℕ) : Prop := e ≠ EAGAIN ∧ e ≠ ENOBUFS ∧ e ≠ ENOMEM

instance (e : ℕ) : Decidable (fatal e) := by
  unfold fatal
  infer_instance

/-- What the calls on the ring may do; `entries` is the length of the
submission queue, and `getSqe` fails only when it is full. -/
def kernel (entries : ℕ) : (o : Op) → State → o.Reply → State → Prop
  | .queueInit _, s, _, s' => s' = s
  | .registerBuffers, s, _, s' => s' = s
  | .getSqe, s, r, s' => Idles s s' ∧ (r = false → entries ≤ s'.ring.sq.length)
  | .submit, s, r, s' => ∃ t, Idles s t ∧ ((r ≤ 0 ∧ s' = t) ∨
      ∃ k, 0 < k ∧ k ≤ t.ring.sq.length ∧ r = k ∧ s' = { t with ring := { t.ring with
        sq := t.ring.sq.drop k
        submitted := t.ring.submitted ++ t.ring.sq.take k } })
  | .waitCqe, s, r, s' => Idles s s' ∧ (r = none ∨ r = s'.ring.cq.head?)
  | .peekCqe, s, r, s' => Idles s s' ∧ r = s'.ring.cq.head?
  | .waitCqeTimeout, s, _, s' => Idles s s'
  | .send slot buf, s, r, s' => (r = some buf.length ∧ s' = { s with ring := { s.ring with
        copies := s.ring.copies ++ [none]
        wire := s.ring.wire ++ [(s.ring.owner slot, buf)] } }) ∨
      (r = none ∧ ∃ e, e ≠ 0 ∧ s' = { s with
        errno := e
        ring := { s.ring with copies := s.ring.copies ++ [some e] } })
  | .now, s, _, s' => s' = s

def members (errno slots : ℕ) : State :=
  ⟨errno, fun _ => [], [], List.replicate slots none, none, 0, false, false, ⟨0, 0, 0, 0, 0⟩,
    ⟨[], [], [], [], [], fun _ => 0, [], [], []⟩⟩

def construct (slotSize slots : ℕ) : Prog Zc Unit := do
  .modify fun s => members s.errno slots
  if slots = 0 ∨ slotSize = 0 then .raise (.invalidArgument "ZcEgress: empty pool")
  else do
    -- one CQE per send plus one NOTIF: the ring is sized for both
    let rv : ℤ ← zc (.queueInit (slots * 2))
    if rv < 0 then
      .raise (.runtimeError ("ZcEgress: io_uring_queue_init: " ++ toString (-rv)))
    else do
      let rv : ℤ ← zc .registerBuffers
      .modify fun s => { s with registered := rv = 0, free := (List.range slots).reverse }

def State.clear (s : State) (i : ℕ) : State :=
  match s.inflight[i]? with
  | some (some _) => { s with inflight := s.inflight.set i none, free := s.free ++ [i] }
  | _ => s

/-- `slots_ - free_.size() - (reserved_ >= 0)` in `unsigned`. -/
def State.inflightCount (slots : ℕ) (s : State) : ℕ :=
  (((slots : ℤ) - s.free.length - (if s.reserved.isSome then 1 else 0)) % 2 ^ 32).toNat

def State.seen (s : State) : State := { s with ring := { s.ring with
  cq := s.ring.cq.tail
  reaped := s.ring.reaped ++ s.ring.cq.head?.toList } }

def State.latch (s : State) (e : ℕ) : State := if s.err = 0 then { s with err := e } else s

def usageCopied (res : ℤ) : Bool := 2 ^ 31 ≤ res % 2 ^ 32

def State.notified (s : State) (i : ℕ) (res : ℤ) : State :=
  { s.clear i with stats := { s.stats with
    notifs := s.stats.notifs + 1
    copied := s.stats.copied + if usageCopied res then 1 else 0 } }

def State.fellBack (s : State) : State :=
  { s with stats := { s.stats with fallback := s.stats.fallback + 1 } }

/-- The `Buffer` over a slot. -/
def State.content (s : State) (i : ℕ) : Bytes :=
  (s.slab i).take ((s.inflight.getD i none).getD 0)

def State.copyLost (s : State) : State :=
  if fatal s.errno then
    { s.latch s.errno with stats := { s.stats with errors := s.stats.errors + 1 } }
  else s

def State.failed (s : State) (res : ℤ) : State :=
  { s.latch (-res).toNat with stats := { s.stats with errors := s.stats.errors + 1 } }

def reapNotif (i : ℕ) (res : ℤ) : Prog Zc Unit := .modify fun s => s.notified i res

def sendCopy (i : ℕ) : Prog Zc Unit := do
  .modify State.fellBack
  let s ← .get
  match ← zc (.send i (s.content i)) with
  | some _ => pure ()
  | none => .modify State.copyLost

def sendError (i : ℕ) (res : ℤ) : Prog Zc Unit :=
  if refused res then sendCopy i
  else .when (res < 0) (.modify fun s => s.failed res)

def markUnsupported (res : ℤ) : Prog Zc Unit :=
  .when (res = -EINVAL ∨ res = -EOPNOTSUPP) (.modify fun s => { s with unsupported := true })

def reapSend (i : ℕ) (res : ℤ) (more : Bool) : Prog Zc Unit := do
  markUnsupported res
  sendError i res
  .when (more = false) (.modify fun s => s.clear i)

def reapOne (c : Cqe) : Prog Zc Unit :=
  if c.notif then reapNotif c.slot c.res else reapSend c.slot c.res c.more

def reapLoop (cqe : Option Cqe) : Prog Zc Unit :=
  .repeatUntil (fun cqe =>
    match cqe with
    | none => pure (.inr ())
    | some c => do
      .modify State.seen
      reapOne c
      let cqe : Option Cqe ← zc .peekCqe
      pure (.inl cqe)) cqe

def submitAll : Prog Zc Unit :=
  .repeatUntil (fun _ => do
    let s ← .get
    if 0 < s.ring.sq.length then do
      let rv : ℤ ← zc .submit
      if 0 < rv then pure (.inl ())
      else do
        .modify fun s =>
          if rv < 0 ∧ rv ≠ -EINTR ∧ rv ≠ -EAGAIN then s.latch (-rv).toNat else s
        pure (.inr ())
    else pure (.inr ())) ()

def reapReady : Prog Zc Unit := do
  let cqe : Option Cqe ← zc .peekCqe
  reapLoop cqe

def flush : Prog Zc Unit := do
  submitAll
  reapReady

def reap (wait : Bool) : Prog Zc Unit :=
  if wait then do
    let s ← .get
    .when (0 < s.ring.sq.length) flush
    let cqe : Option Cqe ← zc .waitCqe
    reapLoop cqe
  else reapReady

/-- The slot for the next datagram, the same one until `commit` takes it. -/
def reserve : Prog Zc (Option ℕ) :=
  .repeatUntil (fun _ => do
    let s ← .get
    match s.reserved with
    | some i => pure (.inr (some i))
    | none =>
      match s.free.getLast? with
      | some i => do
        .modify fun s => { s with reserved := some i, free := s.free.dropLast }
        pure (.inr (some i))
      | none =>
        if s.err ≠ 0 then pure (.inr none)
        else do
          flush
          let s ← .get
          .when (s.free = []) (reap true)
          pure (.inl ())) ()

def State.enqueue (s : State) (i n : ℕ) : State :=
  { s.clear i with
    inflight := (s.clear i).inflight.set i (some n)
    reserved := none
    stats := { s.stats with sends := s.stats.sends + 1 }
    ring := { s.ring with
      sq := s.ring.sq ++ [⟨i, n, s.registered, s.ring.queued.length⟩]
      queued := s.ring.queued ++ [(s.ring.queued.length, (s.slab i).take n)]
      owner := Function.update s.ring.owner i s.ring.queued.length } }

def acquireSqe : Prog Zc Bool := do
  let sqe : Bool ← zc .getSqe
  if sqe then pure true
  else do
    flush
    let sqe : Bool ← zc .getSqe
    if sqe then pure true
    else do
      reap true
      zc .getSqe

def commit (slotSize n : ℕ) : Prog Zc Bool := do
  let s ← .get
  match s.reserved with
  | none => .raise (.logicError "ZcEgress::commit without reserve")
  | some i =>
    if n = 0 ∨ slotSize < n then .raise (.invalidArgument "ZcEgress::commit bad length")
    else if s.err ≠ 0 then pure false
    else do
      let sqe ← acquireSqe
      if sqe then do
        .modify fun s => s.enqueue i n
        pure true
      else do
        .modify fun s => { s with err := EAGAIN }
        pure false

def State.fill (s : State) (i : ℕ) (bs : Bytes) : State :=
  { s with slab := Function.update s.slab i bs }

/-- `deadline` is an absolute time; each wait is bounded. -/
def drain (slots deadline : ℕ) : Prog Zc Bool := do
  flush
  .repeatUntil (fun _ => do
    let s ← .get
    if 0 < s.inflightCount slots then do
      let now : ℕ ← zc .now
      if now < deadline then do
        zc .waitCqeTimeout
        flush
        pure (.inl ())
      else pure (.inr (s.inflightCount slots = 0 : Bool))
    else pure (.inr (s.inflightCount slots = 0 : Bool))) ()

/-- Empties `inflight_`; a slab the kernel may still read is leaked. -/
def destroy (slots : ℕ) : Prog Zc Unit := do
  let now : ℕ ← zc .now
  let _ ← drain slots (now + 1000000000)
  .modify fun s => (List.range slots).foldl State.clear s

end Embr.ZcEgress
