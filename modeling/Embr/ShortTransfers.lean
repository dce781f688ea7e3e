import Embr.RecvWaits
import Embr.SendPipeline

/-!
# Short transfers

`wait_read`, the stash and the loop of the receiver look at the sign of a result and
not at its count. On a kernel whose file transfers are full what is sent is from the
file and what is received gets there; one that stops short is taken for done.
-/

open Octets Interact
namespace Embr.ShortTransfers
open Embr.UdpTransport Embr.LateDuplicates
open Embr.System (World)
open DataPlane (socket)

/-- Every fragment sent carries its bytes of the file. -/
def Carried (src : Bytes) (t : Store) : Prop :=
  ∀ d ∈ t.sent, ∃ k i, Piece src k i ∧ d = datagram src k i

/-- What was received of each fragment is in the file. -/
def Kept (src : Bytes) (fd : Path) (offset base : ℕ) (t : Store) : Prop :=
  ∀ k i, Piece src k i → ∃ d, firstAt t.arrived (base + 1 + 4 * k) i = some d ∧
    Holds (file t fd) (place offset k i) (payload d)

section full
variable {src f Y : Bytes} {fd : Path} {offset base : ℕ} {s t u : Store}
  {arrives : Store → Bytes → Prop} {feed : World → Bytes}

end full

/-- What the receiver of the letter has to say. -/
def ready : Bytes := [1] ++ be 4 0

section letter
variable {arrives : Store → Bytes → Prop} {short : Prop} {m : ℕ}

def letterBuf (m : ℕ) : Bytes := slice (writeAt (List.replicate chunkSize 0) 0 (slice [104] 0 m)) 0 1

theorem letter_datagram (bs : Bytes) :
    (((letterAsked.ring [] []).fillChunk 0 bs).fillSlot 0 (onlySlot 0 0 1)).datagram 0 =
      writeFragHdr (fragHdr 0 1 0) ++ slice (writeAt (List.replicate chunkSize 0) 0 bs) 0 1 := by
  simp [Store.datagram, Store.fillSlot, Store.fillChunk, Store.ring, onlySlot, letterAsked,
    letterStore, Store.init]

theorem letter_sent (hm : m ≤ 1) (hshort : m < 1 → short) :
    Returns (kernel (socket fun _ => ready) arrives short) (sendFile [97] 0 1)
      (fun _ u => u.sent = [writeFragHdr (fragHdr 0 1 0) ++ letterBuf m]) letterStore := by
  have hlast : ¬ 0 + 1 < chunkCount 1 := by decide
  have hbuf : 0 < UDP_CHUNK_BUFS := by decide
  rw [sendFile_eq]
  refine .bind ((letter_asked (by decide)).mono fun _ u hu => .bind ?_)
  subst hu
  refine (letter_read hm hshort).mono fun _ u hu => ?_
  refine Returns.round ?_
  rw [sendNext_eq [97] 0 (by decide), readAhead, Prog.when, if_neg hlast]
  refine .bind (.ret (.bind ((sendChunk_returns hbuf (by decide) ?_ ?_).mono fun _ v hv => .bind ?_)))
  · rw [hu]
    rfl
  · rw [hu]
    rfl
  have hread : v.os.read = 1 := by
    rw [hv, hu]
    rfl
  have htook : v.os.read + 4 ≤ ready.length := by
    rw [hread]
    decide
  refine .bind ((took_returns htook).mono fun bs w hw => ?_)
  obtain ⟨rfl, rfl⟩ := hw
  have hack : ofBE (slice ready v.os.read 4) = 0 := by
    rw [hread]
    decide
  rw [Prog.when, if_neg (not_not.mpr hack)]
  refine .ret ?_
  rw [Prog.when, if_neg hlast]
  refine .bind (.ret (.ret (Returns.round ?_)))
  rw [sendNext, if_neg hlast]
  refine .ret ?_
  have hlen : chunkLenAt 1 0 = 1 := by decide
  change v.sent = _
  rw [hv, hu, hlen, letter_datagram]
  rfl

end letter

section byte
variable {feed : World → Bytes} {t : Store}

end byte

end Embr.ShortTransfers
