import Embr.SendRuns
import Embr.Lib.Rounds

/-!
# The pipeline of a sender

Where `send_chunk` and `wait_read` start in a run of `send_file`, and what holds
from there on: the chunk that is sent is in its buffer and stays there, the only
read outstanding is that of the next chunk, and a wait or the stash is for no other.
-/

open Octets Interact
namespace Embr.UdpTransport
open Embr.System (World)
open DataPlane (socket)

section starts
variable (E : Env Udp) (fd : Path) (offset len : ℕ) (s : Store)

def TurnStarts (k : ℕ) (t : Store) : Prop :=
  ∃ u v, Reaches E (coldRead fd offset len, s) (.ret (), u) ∧ Reaches E (waitRead, u) (.ret (), v) ∧
    Rounds E (sendNext fd offset len) 0 v k t

/-- As it calls `send_chunk` for chunk `k`. -/
def SendStarts (k : ℕ) (t : Store) : Prop :=
  k < chunkCount len ∧ ∃ u, TurnStarts E fd offset len s k u ∧
    Reaches E (readAhead fd offset len k, u) (.ret (), t)

inductive WaitStarts : ℕ → Store → Prop
  | cold {t : Store} : Reaches E (coldRead fd offset len, s) (.ret (), t) → WaitStarts 0 t
  | next {k : ℕ} {u v t : Store} : SendStarts E fd offset len s k u →
      Reaches E (sendChunk (k % 2) k (chunkLenAt len k), u) (.ret (), v) →
      Reaches E (recvAck k, v) (.ret (), t) → k + 1 < chunkCount len → WaitStarts (k + 1) t

end starts

section places
variable {E : Env Udp} {fd : Path} {offset len j k : ℕ} {s t : Store}

def afterSend (len k : ℕ) : Prog Udp (ℕ ⊕ Unit) := do
  recvAck k
  .when (k + 1 < chunkCount len) waitRead
  pure (.inl (k + 1))

theorem TurnStarts.enters (h : TurnStarts E fd offset len s k t) :
    Reaches E (sendFile fd offset len, s)
      ((sendNext fd offset len k).bind (Prog.again (sendNext fd offset len) .ret), t) := by
  obtain ⟨u, v, hcold, hwait, hrounds⟩ := h
  rw [sendFile_eq]
  exact (hcold.andThen _).trans ((hwait.andThen _).trans (hrounds.enters .ret))

theorem SendStarts.inside (h : SendStarts E fd offset len s k t) :
    Reaches E (sendFile fd offset len, s) ((sendChunk (k % 2) k (chunkLenAt len k)).bind fun _ =>
      (afterSend len k).bind (Prog.again (sendNext fd offset len) .ret), t) := by
  obtain ⟨hk, u, hturn, hahead⟩ := h
  have hparts : sendNext fd offset len k = (readAhead fd offset len k).bind fun _ =>
      (sendChunk (k % 2) k (chunkLenAt len k)).bind fun _ => afterSend len k := sendNext_eq fd offset hk
  have henter := hturn.enters
  rw [hparts, Prog.bind_assoc] at henter
  have hinside := henter.trans (hahead.andThen _)
  rwa [Prog.bind_assoc] at hinside

theorem SendStarts.reaches (h : SendStarts E fd offset len s k t) :
    ∃ rest : Unit → Prog Udp Unit, Reaches E (sendFile fd offset len, s)
      (sendChunk (k % 2) k (chunkLenAt len k) >>= rest, t) := ⟨_, h.inside⟩

theorem WaitStarts.reaches (h : WaitStarts E fd offset len s j t) :
    ∃ rest : Unit → Prog Udp Unit, Reaches E (sendFile fd offset len, s) (waitRead >>= rest, t) := by
  cases h with
  | cold hcold =>
    rw [sendFile_eq]
    exact ⟨_, hcold.andThen _⟩
  | @next k u v t hsend hchunk hack hnext =>
    have hsent := hsend.inside.trans (hchunk.andThen _)
    have hwait : afterSend len k = (recvAck k).bind fun _ => waitRead.bind fun _ =>
        .ret (.inl (k + 1)) := by
      rw [afterSend, Prog.when, if_pos hnext]
      rfl
    rw [hwait, Prog.bind_assoc] at hsent
    have hacked := hsent.trans (hack.andThen _)
    rw [Prog.bind_assoc] at hacked
    exact ⟨_, hacked⟩

end places

theorem fragments_upto {src : Bytes} {k n : ℕ} (hn : n ≤ fragCount (chunkLenAt src.length k)) :
    (List.range n).flatMap (fragment src k) =
      slice src (k * chunkSize) (min (n * UDP_PAYLOAD_SIZE) (chunkLenAt src.length k)) := by
  have hpayload : UDP_PAYLOAD_SIZE = 64990 := rfl
  have hcount := (fragCount_eq (chunkLenAt_le src.length k)).1
  induction n with
  | zero => simp [slice]
  | succ n ih =>
    have hbefore : min (n * UDP_PAYLOAD_SIZE) (chunkLenAt src.length k) = n * UDP_PAYLOAD_SIZE := by
      rw [hpayload] at hcount ⊢
      omega
    have hafter : min ((n + 1) * UDP_PAYLOAD_SIZE) (chunkLenAt src.length k) =
        n * UDP_PAYLOAD_SIZE + fragLen (chunkLenAt src.length k) n := by
      rw [fragLen]
      rw [hpayload] at hcount ⊢
      split_ifs <;> omega
    have hrest := ih (Nat.le_of_succ_le hn)
    rw [hbefore] at hrest
    rw [List.range_succ, List.flatMap_append, hrest, List.flatMap_singleton, hafter, slice_add,
      fragment]

theorem fragments_chunk {src : Bytes} {k : ℕ} :
    (List.range (fragCount (chunkLenAt src.length k))).flatMap (fragment src k) = chunkOf src k := by
  have hpayload : UDP_PAYLOAD_SIZE = 64990 := rfl
  have hcount := (fragCount_eq (chunkLenAt_le src.length k)).1
  have hall : min (fragCount (chunkLenAt src.length k) * UDP_PAYLOAD_SIZE)
      (chunkLenAt src.length k) = chunkLenAt src.length k := by
    rw [hpayload] at hcount ⊢
    omega
  rw [fragments_upto le_rfl, hall, chunkOf]

/-- A kernel that reads all it is asked for, with `Y` to come on the control connection. -/
abbrev fullReads (Y : Bytes) (arrives : Store → Bytes → Prop) : Env Udp :=
  kernel (socket fun _ => Y) arrives False

section pipeline
variable {src f Y : Bytes} {fd : Path} {offset j k : ℕ} {s t : Store}
  {arrives : Store → Bytes → Prop}

theorem TurnStarts.ready (hsrc : Holds f offset src) (hs : Idle s) (hf : s.os.files fd = some f)
    (h : TurnStarts (fullReads Y arrives) fd offset src.length s k t) :
    Ready src fd s.os.read f k t := by
  obtain ⟨u, v, hcold, hwait, hrounds⟩ := h
  have hacked := (coldRead_sat hs hf).returned hcold
  have hready := (hacked.waited_sat hsrc).returned hwait
  refine hrounds.inv hready fun k t k' u _ ht hturn => ?_
  have hnext := (sendNext_sat hsrc ht).returned hturn
  exact hnext.2.2

theorem SendStarts.sending (hsrc : Holds f offset src) (hs : Idle s) (hf : s.os.files fd = some f)
    (h : SendStarts (fullReads Y arrives) fd offset src.length s k t) :
    Sending src fd offset s.os.read f k 0 [] t := by
  obtain ⟨hk, u, hturn, hahead⟩ := h
  exact (readAhead_sat (hturn.ready hsrc hs hf) hk).returned hahead

theorem WaitStarts.acked (hsrc : Holds f offset src) (hs : Idle s) (hf : s.os.files fd = some f)
    (h : WaitStarts (fullReads Y arrives) fd offset src.length s j t) :
    Acked src fd offset s.os.read f j t := by
  cases h with
  | cold hcold => exact (coldRead_sat hs hf).returned hcold
  | next hsend hchunk hack _ =>
    have hsent := (sendChunk_sat hsrc hsend.1 (hsend.sending hsrc hs hf)).returned hchunk
    exact (recvAck_sat hsend.1 hsent).returned hack

theorem Acked.stashed {base : ℕ} (h : Acked src fd offset base f j t) (hdone : t.readCompleted = true)
    (hres : 0 ≤ t.readResult) : Loaded src j t := by
  obtain ⟨reads, hahead, -⟩ := h.ring
  cases hahead with
  | last _ hfresh => exact absurd hdone (by simp [hfresh])
  | reading _ hfresh => exact absurd hdone (by simp [hfresh])
  | stashed _ _ hloaded => exact hloaded hres

/-- Of a run of `send_file` on a kernel whose reads are full: where `send_chunk` starts and at all
of its points, where `wait_read` starts and at all of its points, and at every point. -/
theorem send_pipeline (hsrc : Holds f offset src) (hs : Idle s) (hf : s.os.files fd = some f) :
    (∀ k t, SendStarts (fullReads Y arrives) fd offset src.length s k t →
      Loaded src k t ∧
        ∀ q u, Reaches (fullReads Y arrives)
            (sendChunk (k % 2) k (chunkLenAt src.length k), t) (q, u) →
          (k % 2 ∉ u.reads ∧ Loaded src k u ∧
            ∀ slot userData, ⟨.sendmsg slot, userData⟩ ∈ u.inflight →
              ∃ i < fragCount (chunkLenAt src.length k), u.datagram slot = datagram src k i) ∧
          (q = .ret () →
            (∀ slot userData, ⟨.sendmsg slot, userData⟩ ∉ u.sq ++ u.inflight) ∧
            ∀ i < fragCount (chunkLenAt src.length k), datagram src k i ∈ u.sent)) ∧
    (∀ j t, WaitStarts (fullReads Y arrives) fd offset src.length s j t →
      (t.readCompleted = true → 0 ≤ t.readResult → Loaded src j t) ∧
        ∀ q u, Reaches (fullReads Y arrives) (waitRead, t) (q, u) →
          (q.head = some .waitCqe →
            ∀ sqe ∈ u.sq ++ u.inflight, sqe = readSqe fd offset src.length j u.registered) ∧
          (q = .ret () → j < chunkCount src.length → Loaded src j u) ∧ q ≠ .raise unexpectedTag) ∧
    (∀ q u, Reaches (fullReads Y arrives) (sendFile fd offset src.length, s) (q, u) →
      u.reads.length ≤ 1 ∧ (u.readCompleted = true → u.reads = [])) ∧
    ∀ k < chunkCount src.length,
      (List.range (fragCount (chunkLenAt src.length k))).flatMap (fragment src k) = chunkOf src k ∧
        ∀ i < fragCount (chunkLenAt src.length k),
          (fragHdr k (chunkLenAt src.length k) i).fragLen.toNat = (fragment src k i).length := by
  refine ⟨fun k t hstart => ?_, fun j t hstart => ?_, fun q u hr => ?_, fun k hk => ?_⟩
  · have hsending := hstart.sending hsrc hs hf
    refine ⟨hsending.loaded, fun q u hr => ?_⟩
    have hsat : Sat (fullReads Y arrives) _ _ _ _ t := sendChunk_sat hsrc hstart.1 hsending
    have hwithin := hsat.visited hr
    refine ⟨⟨hwithin.clear, hwithin.loaded, hwithin.points⟩, ?_⟩
    rintro rfl
    have hdone := hsat.returned hr
    refine ⟨fun slot userData hmem => ?_, fun i hi => hdone.all k (Nat.lt_succ_self k) i hi⟩
    obtain ⟨reads, hahead, hperm⟩ := hdone.ring
    rw [List.map_nil, List.append_nil] at hperm
    cases hahead.read_only (hperm.subset hmem)
  · have hacked := hstart.acked hsrc hs hf
    refine ⟨hacked.stashed, fun q u hr => ?_⟩
    have hsat : Sat (fullReads Y arrives) _ _ _ _ t := hacked.wait_sat hsrc
    refine ⟨(hsat.visited hr).reads, ?_, ?_⟩
    · rintro rfl hj
      exact (hsat.returned hr).loaded hj
    · rintro rfl
      exact (hsat.raised hr).2 rfl
  · have hpoint := (sendFile_sat hsrc hs hf).visited hr
    exact ⟨hpoint.single, hpoint.stash⟩
  · exact ⟨fragments_chunk, fun i hi => Piece.hdr_len ⟨hk, hi⟩⟩

end pipeline

def letterFile : Path → Option Bytes := Function.update (fun _ => none) [97] (some [104])

def letterStore : Store := .init (.init letterFile) false

def letterAsked : Store :=
  { letterStore with
    os := letterStore.os.skip 1
    inflight := [⟨.read [97] 0 1 0 false, makeUserData .read 0⟩] }

theorem letter_asked {Y : Bytes} {arrives : Store → Bytes → Prop} {short : Prop} (hY : 0 < Y.length) :
    Returns (kernel (socket fun _ => Y) arrives short) (coldRead [97] 0 1)
      (fun _ u => u = letterAsked) letterStore := by
  have hbuf : 0 < UDP_CHUNK_BUFS := by decide
  have htook : letterStore.os.read + 1 ≤ Y.length := hY
  refine .bind ((took_returns htook).mono fun bs u hu => ?_)
  obtain ⟨-, rfl⟩ := hu
  refine (submitRead_returns hbuf rfl).mono fun _ v hv => ?_
  rw [hv]
  rfl

theorem letter_read {os : Env System.Os} {arrives : Store → Bytes → Prop} {short : Prop} {m : ℕ}
    (hm : m ≤ 1) (hshort : m < 1 → short) :
    Returns (kernel os arrives short) waitRead
      (fun _ u => u = (letterAsked.ring [] []).fillChunk 0 (slice [104] 0 m)) letterAsked := by
  have hbuf : 0 < UDP_CHUNK_BUFS := by decide
  have hfile : letterAsked.os.files [97] = some [104] := rfl
  exact waitRead_returns rfl hbuf rfl hfile hm hm hshort

def twoChunked : Bytes := List.replicate (chunkSize + 1) 7

theorem twoChunked_length : twoChunked.length = chunkSize + 1 := List.length_replicate

def twoStore : Store :=
  .init (.init (Function.update (fun _ => none) [97] (some twoChunked))) false

theorem two_starts : ∃ t,
    SendStarts (fullReads [1] fun _ _ => False) [97] 0 twoChunked.length twoStore 0 t ∧
      t.reads = [1] := by
  have hfirst : min twoChunked.length chunkSize % 2 ^ 32 = chunkSize := by
    rw [twoChunked_length]
    decide
  have hcount : 0 + 1 < chunkCount twoChunked.length := by
    rw [twoChunked_length]
    decide
  have hasked : Returns (fullReads [1] fun _ _ => False) (coldRead [97] 0 twoChunked.length)
      (fun _ u => u.readCompleted = false ∧ u.sq = [] ∧ u.os.files [97] = some twoChunked ∧
        u.inflight = [⟨.read [97] 0 chunkSize 0 false, makeUserData .read 0⟩]) twoStore := by
    refine .bind ((took_returns (by decide : twoStore.os.read + 1 ≤ _)).mono fun bs u hu => ?_)
    obtain ⟨-, rfl⟩ := hu
    refine (submitRead_returns (by decide) rfl).mono fun _ v hv => ?_
    subst hv
    rw [hfirst]
    exact ⟨rfl, rfl, rfl, rfl⟩
  obtain ⟨_, u, hcold, hfresh, hsq, hfile, hring⟩ := hasked
  have hread : Returns (fullReads [1] fun _ _ => False) waitRead (fun _ v => v =
      (u.ring u.sq []).fillChunk 0 (slice twoChunked 0 chunkSize)) u := by
    refine waitRead_returns hfresh (by decide) hring hfile le_rfl ?_ fun hlt => ?_
    · rw [twoChunked_length]
      exact Nat.le_succ _
    · rw [twoChunked_length, Nat.sub_zero, Nat.min_eq_left (Nat.le_succ _)] at hlt
      exact lt_irrefl _ hlt
  obtain ⟨_, v, hwait, rfl⟩ := hread
  have hahead : Returns (fullReads [1] fun _ _ => False) (readAhead [97] 0 twoChunked.length 0)
      (fun _ t => t.reads = [1]) ((u.ring u.sq []).fillChunk 0 (slice twoChunked 0 chunkSize)) := by
    rw [readAhead, Prog.when, if_pos hcount]
    have hbuf : (0 + 1) % 2 < UDP_CHUNK_BUFS := by decide
    have hidle : ((u.ring u.sq []).fillChunk 0 (slice twoChunked 0 chunkSize)).sq = [] := hsq
    refine (submitRead_returns hbuf hidle).mono fun _ t ht => ?_
    subst ht
    rfl
  obtain ⟨_, t, ht, hreads⟩ := hahead
  exact ⟨t, ⟨Nat.lt_of_succ_lt hcount, _, ⟨u, _, hcold, hwait, .enter⟩, ht⟩, hreads⟩

theorem send_pipeline_two : ∃ t,
    SendStarts (fullReads [1] fun _ _ => False) [97] 0 twoChunked.length twoStore 0 t ∧
      t.reads = [1] ∧ Loaded twoChunked 0 t := by
  obtain ⟨t, hstart, hreads⟩ := two_starts
  have hsrc : Holds twoChunked 0 twoChunked := by
    intro i _
    rw [Nat.zero_add]
  have hfile : twoStore.os.files [97] = some twoChunked := rfl
  exact ⟨t, hstart, hreads, ((send_pipeline hsrc (idle_init _ _) hfile).1 0 t hstart).1⟩

end Embr.UdpTransport
