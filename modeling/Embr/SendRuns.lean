import Embr.RecvRuns
import Embr.SendRing

/-!
# Runs of a sender

How a kernel can answer the parts of `send_file`: a read moves some of what it was
asked for, and the datagram of a chunk that fits into one goes out.
-/

open Octets Interact
namespace Embr.UdpTransport
open Embr.System (World)
open DataPlane (socket)

variable {os : Env System.Os} {arrives : Store → Bytes → Prop} {short : Prop} {t : Store}
  {Y f : Bytes} {fd : Path} {k n m pos len buf : ℕ} {fixed : Bool}

theorem took_returns (hlen : t.os.read + n ≤ Y.length) :
    Returns (kernel (socket fun _ => Y) arrives short) ((recvExact tcp n).embed control)
      (fun bs u => bs = slice Y t.os.read n ∧ u = { t with os := t.os.skip n }) t := by
  have htook : Total (stream fun _ => Y) (fun _ _ => True)
      (fun bs w => bs = slice Y t.os.read n ∧ w = t.os.skip n) (recvExact tcp n) t.os :=
    recvExact_total (fun _ => rfl) hlen (fun _ _ => trivial) (fun _ _ => trivial) ⟨rfl, rfl⟩
  have hoffers : control.Offers (socket fun _ => Y) (kernel (socket fun _ => Y) arrives short) :=
    fun _ _ r _ h => ⟨r, rfl, h, rfl⟩
  have hthere : Returns (socket fun _ => Y) (recvExact tcp n)
      (fun bs w => bs = slice Y t.os.read n ∧ w = t.os.skip n) t.os :=
    htook.returns.env DataPlane.socket_of_stream
  refine (Returns.embed control hoffers hthere).mono fun bs u hu => ?_
  obtain ⟨w, ⟨rfl, rfl⟩, rfl⟩ := hu
  exact ⟨rfl, rfl⟩

theorem submitRead_returns (hbuf : buf < UDP_CHUNK_BUFS) (hidle : t.sq = []) :
    Returns (kernel os arrives short) (submitRead buf fd pos len)
      (fun _ u => u = t.ring [] (t.inflight ++
        [⟨.read fd buf (len % 2 ^ 32) pos t.registered, makeUserData .read buf⟩])) t := by
  have hindex : Returns (kernel os arrives short)
      (inRange "IoUringCtx::chunk_buf index out of range" buf UDP_CHUNK_BUFS) (fun _ u => u = t) t :=
    (inRange_total hbuf).returns
  have hroom : t.sq.length < QUEUE_DEPTH := by
    rw [hidle]
    decide
  refine .bind (hindex.mono fun _ u hu => ?_)
  subst hu
  refine .bind (.get (.bind (prepare_returns hroom ((submit_returns ?_).env fun _ _ _ _ h => h.1))))
  simp only [Store.prepare, Store.ring, hidle, List.nil_append]

theorem waitRead_returns (hfresh : t.readCompleted = false) (hbuf : buf < UDP_CHUNK_BUFS)
    (hring : t.inflight = [⟨.read fd buf len pos fixed, makeUserData .read buf⟩])
    (hf : t.os.files fd = some f) (hlen : m ≤ len) (hm : m ≤ f.length - pos)
    (hshort : m < min len (f.length - pos) → short) :
    Returns (kernel os arrives short) waitRead
      (fun _ u => u = (t.ring t.sq []).fillChunk buf (slice f pos m)) t := by
  have hwait : kernel os arrives short .waitCqe t (some ⟨makeUserData .read buf, m⟩)
      ((t.ring t.sq []).fillChunk buf (slice f pos m)) :=
    Or.inr ⟨[], _, [], m, hring, rfl, Or.inr ⟨f, m, hf, hlen, hm, hshort, rfl, rfl⟩⟩
  have hindex : buf < 2 ^ 56 := Nat.lt_trans hbuf (by decide)
  refine .bind (.get ?_)
  rw [if_neg (by simp [hfresh])]
  refine .bind (.ask hwait ?_)
  simp only [getTag_makeUserData _ hindex, if_true, Prog.when]
  rw [if_neg (by omega)]
  exact .ret rfl

def onlySlot (buf k len : ℕ) : SendSlot := ⟨writeFragHdr (fragHdr k len 0), buf, 0, len⟩

def Store.queued (t : Store) (buf k len : ℕ) : Store :=
  (t.prepare (sendSqe 0)).fillSlot 0 (onlySlot buf k len)

theorem prepareSends_returns (hone : fragCount len = 1) (hsq : t.sq = []) :
    Returns (kernel os arrives short) (prepareSends buf k len)
      (fun r u => r = 1 ∧ u = t.queued buf k len) t := by
  have hlast : fragLen len 0 = len := by simp [fragLen, hone]
  have hroom : t.sq.length < QUEUE_DEPTH := by
    rw [hsq]
    decide
  have hdone : Returns (kernel os arrives short) (.repeatUntil (fun x : ℕ × ℕ =>
      if x.1 < fragCount len then do
        let pendingFrags ← awaitSlot x.2
        let slot := pendingFrags % QUEUE_DEPTH
        prepare "send_chunk: io_uring_get_sqe failed" ⟨.sendmsg slot, makeUserData .send x.1⟩
        .modify (·.fillSlot slot ⟨writeFragHdr (fragHdr k len x.1), buf, x.1 * UDP_PAYLOAD_SIZE,
          fragLen len x.1⟩)
        pure (.inl (x.1 + 1, pendingFrags + 1))
      else pure (.inr x.2)) (1, 1)) (fun r u => r = 1 ∧ u = t.queued buf k len)
      (t.queued buf k len) := by
    refine Returns.round ?_
    rw [if_neg (by simp [hone])]
    exact .ret ⟨rfl, rfl⟩
  refine Returns.round ?_
  dsimp only
  rw [if_pos (by simp [hone]), awaitSlot, if_neg (by decide), pure_bind]
  refine .bind (prepare_returns hroom (.bind (.modify (.ret ?_))))
  rw [hlast]
  exact hdone

theorem sendChunk_returns (hbuf : buf < UDP_CHUNK_BUFS) (hone : fragCount len = 1)
    (hsq : t.sq = []) (hinflight : t.inflight = []) :
    Returns (kernel os arrives short) (sendChunk buf k len)
      (fun _ u => u = { t.fillSlot 0 (onlySlot buf k len) with
        sent := t.sent ++ [(t.fillSlot 0 (onlySlot buf k len)).datagram 0] }) t := by
  have hindex : Returns (kernel os arrives short)
      (inRange "IoUringCtx::chunk_buf index out of range" buf UDP_CHUNK_BUFS) (fun _ u => u = t) t :=
    (inRange_total hbuf).returns
  refine .bind (hindex.mono fun _ u hu => ?_)
  subst hu
  refine .bind ((prepareSends_returns hone hsq).mono fun r v hv => ?_)
  obtain ⟨rfl, rfl⟩ := hv
  have hsubmitted : Returns (kernel os arrives short) ioUringSubmit
      (fun _ v => v = (u.queued buf k len).ring [] ((u.queued buf k len).inflight ++
        (u.queued buf k len).sq)) (u.queued buf k len) :=
    (submit_returns rfl).env fun _ _ _ _ h => h.1
  refine .bind (hsubmitted.mono fun _ v hv => .bind ?_)
  subst hv
  have hring : ((u.queued buf k len).ring [] ((u.queued buf k len).inflight ++
      (u.queued buf k len).sq)).inflight = [sendSqe 0] := by
    simp [Store.queued, Store.ring, Store.fillSlot, Store.prepare, hsq, hinflight]
  have hwait : kernel os arrives short .waitCqe _ (some ⟨(sendSqe 0).userData, _⟩) _ :=
    Or.inr ⟨[], _, [], _, hring, rfl, Or.inr ⟨rfl, rfl⟩⟩
  have htag : SqeTag.send.toByte ≠ SqeTag.read.toByte := by decide
  refine Returns.round ?_
  rw [if_pos le_rfl]
  refine .bind (.ask hwait ?_)
  simp only [sendSqe_tag (show 0 < 2 ^ 56 by decide), if_neg htag, if_true]
  rw [if_neg (by omega)]
  refine .ret (Returns.round ?_)
  rw [if_neg (by decide)]
  refine .ret (.ret ?_)
  simp [Store.queued, Store.ring, Store.fillSlot, Store.prepare, Store.datagram, hsq, hinflight]

end Embr.UdpTransport
