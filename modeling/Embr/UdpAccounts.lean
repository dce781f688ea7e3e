import Embr.Deadlock
import Embr.RecvRing
import Embr.Lib.Linked

/-!
# The accounts of a UDP transport

The steps of `send_file` and `recv_file` between two calls move the ring and
the buffers, never the process or the datagrams sent and received. A property
of these is kept where each kind of call keeps it.
-/

open Octets Interact
namespace Embr.UdpTransport
open Prog.Keeps

def OfAccounts (P : Store → Prop) : Prop :=
  ∀ s t : Store, t.os = s.os → t.sent = s.sent → t.arrived = s.arrived → P s → P t

def KeptBy (E : Env Udp) (P : Store → Prop) (o : Op) : Prop :=
  ∀ (s : Store) (r : o.Reply) (t : Store), P s → E o s r t → P t

section keeps
variable {E : Env Udp} {P : Store → Prop} {fd : Path} {offset len : ℕ}

theorem prepare_keeps (hP : OfAccounts P) (what : String) (sqe : Sqe) :
    (prepare what sqe).Keeps E P :=
  get_bind fun _ => ite (modify fun s hs => hP s _ rfl rfl rfl hs) (raise _)

theorem inRange_keeps (what : String) (idx count : ℕ) : (inRange what idx count).Keeps E P :=
  whenever (raise _)

theorem ioUringSubmit_keeps (hsubmit : KeptBy E P .submit) : ioUringSubmit.Keeps E P :=
  bind (ask hsubmit) fun _ => pure _

theorem submitRecv_keeps (hP : OfAccounts P) (b : ℕ) : (submitRecv b).Keeps E P :=
  bind (inRange_keeps _ _ _) fun _ => prepare_keeps hP _ _

theorem submitRecvs_keeps (hP : OfAccounts P) (is : List ℕ) : (submitRecvs is).Keeps E P := by
  induction is with
  | nil => exact pure _
  | cons i is ih => exact bind (submitRecv_keeps hP i) fun _ => ih

theorem reclaim_keeps (hP : OfAccounts P) (hsubmit : KeptBy E P .submit) (b n : ℕ) :
    (reclaim b n).Keeps E P :=
  bind (submitRecv_keeps hP b) fun _ => bind (whenever (ioUringSubmit_keeps hsubmit)) fun _ => pure _

theorem processFragment_keeps (hP : OfAccounts P) (b : ℕ) (n : ℤ) (state : RecvState) :
    (processFragment b n state).Keeps E P :=
  ite (raise _) (bind (inRange_keeps _ _ _) fun _ => get_bind fun _ => ite (raise _)
    (ite (raise _) (ite (pure _) (bind (prepare_keeps hP _ _) fun _ => pure _))))

theorem recvRound_keeps (hP : OfAccounts P) (hsubmit : KeptBy E P .submit)
    (hwait : KeptBy E P .waitCqe) (x : Progress) : (recvRound x).Keeps E P := by
  refine ite (bind (ask hwait) fun r => ?_) (pure _)
  cases r with
  | none => exact raise (Γ := Udp) _
  | some cqe =>
    refine ite (bind (ite (raise _) (bind (processFragment_keeps hP _ _ _) fun r => ?_)) fun _ => pure _)
      (ite (bind (ite (raise _) (bind (reclaim_keeps hP hsubmit _ _) fun _ => pure _))
        fun _ => pure _) (pure _))
    exact ite (bind (whenever (ioUringSubmit_keeps hsubmit)) fun _ => pure _)
      (bind (reclaim_keeps hP hsubmit _ _) fun _ => pure _)

theorem recvChunk_keeps (hP : OfAccounts P) (hsubmit : KeptBy E P .submit)
    (hwait : KeptBy E P .waitCqe) (state : RecvState) (n : ℕ) : (recvChunk state n).Keeps E P :=
  repeatUntil fun x => recvRound_keeps hP hsubmit hwait x

theorem sendExact_asks (buf : Bytes) :
    (sendExact tcp buf).Asks fun o => ∃ bs, o = System.Op.send bs := by
  refine .repeatUntil fun sent => .ite (.bind (.ask ⟨_, rfl⟩) fun r => ?_) (.pure _)
  cases r with
  | some n => exact .ite (.raise _) (.pure _)
  | none => exact .bind .get fun _ => .ite (.pure _) (.raise _)

theorem recvExact_asks (len : ℕ) :
    (recvExact tcp len).Asks fun o => ∃ n, o = System.Op.recv n := by
  refine .repeatUntil fun received => .ite (.bind (.ask ⟨_, rfl⟩) fun r => ?_) (.pure _)
  cases r with
  | some bs => exact .ite (.raise _) (.pure _)
  | none => exact .bind .get fun _ => .ite (.pure _) (.raise _)

theorem sendControl_keeps (hsend : ∀ bs, KeptBy E P (.os (.send bs))) (buf : Bytes) :
    ((sendExact tcp buf).embed control).Keeps E P := by
  refine (Deadlock.sendExact_observes buf).embed control (sendExact_asks buf) fun o ho => ?_
  obtain ⟨bs, rfl⟩ := ho
  exact hsend bs

theorem recvControl_keeps (hrecv : ∀ n, KeptBy E P (.os (.recv n))) (len : ℕ) :
    ((recvExact tcp len).embed control).Keeps E P := by
  refine (Deadlock.recvExact_observes len).embed control (recvExact_asks len) fun o ho => ?_
  obtain ⟨n, rfl⟩ := ho
  exact hrecv n

theorem recvFile_keeps (hP : OfAccounts P) (hsubmit : KeptBy E P .submit)
    (hwait : KeptBy E P .waitCqe) (hsend : ∀ bs, KeptBy E P (.os (.send bs))) :
    (recvFile fd offset len).Keeps E P := by
  refine bind (submitRecvs_keeps hP _) fun _ => bind (ioUringSubmit_keeps hsubmit) fun _ =>
    bind (sendControl_keeps hsend _) fun _ => repeatUntil fun x => ?_
  obtain ⟨k, n⟩ := x
  exact ite (bind (recvChunk_keeps hP hsubmit hwait _ _) fun _ =>
    bind (sendControl_keeps hsend _) fun _ => pure _) (pure _)

theorem submitRead_keeps (hP : OfAccounts P) (hsubmit : KeptBy E P .submit) (buf pos n : ℕ) :
    (submitRead buf fd pos n).Keeps E P :=
  bind (inRange_keeps _ _ _) fun _ => get_bind fun _ => bind (prepare_keeps hP _ _) fun _ =>
    ioUringSubmit_keeps hsubmit

theorem waitRead_keeps (hP : OfAccounts P) (hwait : KeptBy E P .waitCqe) : waitRead.Keeps E P := by
  refine get_bind fun s => ite (bind (modify fun s hs => hP s _ rfl rfl rfl hs) fun _ =>
    whenever (raise _)) (bind (ask hwait) fun r => ?_)
  cases r with
  | none => exact raise (Γ := Udp) _
  | some cqe => exact ite (whenever (raise _)) (raise _)

theorem drainSends_keeps (hP : OfAccounts P) (hwait : KeptBy E P .waitCqe) (a b : String)
    (limit n : ℕ) : (drainSends a b limit n).Keeps E P := by
  refine repeatUntil fun n => ite (bind (ask hwait) fun r => ?_) (pure _)
  cases r with
  | none => exact raise (Γ := Udp) _
  | some cqe =>
    exact ite (bind (modify fun s hs => hP s _ rfl rfl rfl hs) fun _ => pure _)
      (ite (ite (raise _) (pure _)) (pure _))

theorem sendChunk_keeps (hP : OfAccounts P) (hsubmit : KeptBy E P .submit)
    (hwait : KeptBy E P .waitCqe) (buf k n : ℕ) : (sendChunk buf k n).Keeps E P := by
  refine bind (inRange_keeps _ _ _) fun _ => bind (repeatUntil fun x => ?_) fun _ =>
    bind (ioUringSubmit_keeps hsubmit) fun _ => bind (drainSends_keeps hP hwait _ _ _ _) fun _ => pure _
  obtain ⟨i, m⟩ := x
  refine ite (bind (ite (bind (ioUringSubmit_keeps hsubmit) fun _ => drainSends_keeps hP hwait _ _ _ _)
    (pure _)) fun m => bind (prepare_keeps hP _ _) fun _ => ?_) (pure _)
  exact bind (modify fun s hs => hP s _ rfl rfl rfl hs) fun _ => pure _

theorem recvAck_keeps (hrecv : ∀ n, KeptBy E P (.os (.recv n))) (k : ℕ) : (recvAck k).Keeps E P :=
  bind (recvControl_keeps hrecv 4) fun _ => whenever (raise _)

theorem sendFile_keeps (hP : OfAccounts P) (hsubmit : KeptBy E P .submit)
    (hwait : KeptBy E P .waitCqe) (hrecv : ∀ n, KeptBy E P (.os (.recv n))) :
    (sendFile fd offset len).Keeps E P := by
  refine bind (recvControl_keeps hrecv 1) fun _ => bind (submitRead_keeps hP hsubmit _ _ _) fun _ =>
    bind (waitRead_keeps hP hwait) fun _ => repeatUntil fun k => ite ?_ (pure _)
  exact bind (whenever (submitRead_keeps hP hsubmit _ _ _)) fun _ =>
    bind (sendChunk_keeps hP hsubmit hwait _ _ _) fun _ => bind (recvAck_keeps hrecv _) fun _ =>
      bind (whenever (waitRead_keeps hP hwait)) fun _ => pure _

end keeps

end Embr.UdpTransport
