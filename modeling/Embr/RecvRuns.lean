import Embr.RecvRing
import Embr.Lib.Rounds

/-!
# Runs of a receiver

How a kernel that does all it is asked to can answer the loop of a chunk: the
datagrams come in one after another, then their writes are done.
-/

open Octets Interact
namespace Embr.UdpTransport
open Embr.System (World)
open DataPlane (socket)

/-- A kernel that takes all requests and whose file transfers are full. -/
abbrev eager (os : Env System.Os) (arrives : Store → Bytes → Prop) : Env Udp :=
  takesAll (kernel os arrives False)

def Store.flushed (s : Store) (c : Prop) [Decidable c] : Store :=
  if c then s.ring [] (s.inflight ++ s.sq) else s

section rounds
variable {os : Env System.Os} {arrives : Store → Bytes → Prop} {short : Prop} {x : Progress}
  {s t : Store} {b : ℕ} {d : Bytes} {hdr : FragHdr} {l r : List Sqe} {Q : ℕ → Store → Prop}
  {J : Progress → Store → Prop}

theorem submit_returns {Q : Unit → Store → Prop}
    (h : Q () (t.ring [] (t.inflight ++ t.sq))) :
    Returns (taking os arrives short) ioUringSubmit Q t := by
  have hsubmit : taking os arrives short .submit t (t.sq.length : ℤ)
      (t.submitted t.sq.length) :=
    ⟨Or.inr ⟨_, le_rfl, rfl, rfl⟩, fun _ => List.drop_length⟩
  refine .bind (.ask hsubmit (.ret ?_))
  rw [Store.submitted, List.drop_length, List.take_length]
  exact h

theorem flush_returns {c : Prop} [Decidable c] {Q : Unit → Store → Prop}
    (h : Q () (t.flushed c)) : Returns (taking os arrives short) (.when c ioUringSubmit) Q t := by
  rw [Prog.when]
  rw [Store.flushed] at h
  split_ifs with hc
  · rw [if_pos hc] at h
    exact submit_returns h
  · rw [if_neg hc] at h
    exact .ret h

theorem prepare_returns {E : Env Udp} {what : String} {sqe : Sqe} {Q : Unit → Store → Prop}
    (hroom : t.sq.length < QUEUE_DEPTH) (h : Q () (t.prepare sqe)) :
    Returns E (prepare what sqe) Q t :=
  (prepare_total hroom).returns.mono fun _ u hu => by rwa [hu]

theorem reclaim_returns {n : ℕ} (hb : b < UDP_FRAG_BUFS) (hroom : t.sq.length < QUEUE_DEPTH)
    (h : Q (n + 1) ((t.prepare (recvSqe b)).flushed (UDP_FRAG_BUFS / 2 ≤ n + 1))) :
    Returns (taking os arrives short) (reclaim b n) Q t := by
  have hindex : Returns (taking os arrives short)
      (inRange "IoUringCtx::frag_buf index out of range" b UDP_FRAG_BUFS) (fun _ u => u = t) t :=
    (inRange_total hb).returns
  refine .bind (.bind (hindex.mono fun _ u hu => ?_))
  subst hu
  exact prepare_returns hroom (.bind (flush_returns (.ret h)))

theorem land_leads (hmore : 0 < x.state.fragRemaining)
    (hin : t.inflight = l ++ recvSqe b :: r) (hd : arrives (t.ring t.sq (l ++ r)) d)
    (hfresh : Fresh ((t.heard b d).ring t.sq (l ++ r)) b (d.take UDP_MTU).length x.state hdr)
    (h : Leads (taking os arrives short) recvRound
      ⟨x.state.mark hdr.fragIndex.toNat, x.pendingWrites + 1, x.pendingRecvs - 1⟩ J
      ((((t.heard b d).ring t.sq (l ++ r)).prepare (writeSqe x.state b hdr t.registered)).flushed
        (UDP_FRAG_BUFS / 2 ≤ x.pendingWrites + 1 ∨
          (x.state.mark hdr.fragIndex.toNat).fragRemaining = 0))) :
    Leads (taking os arrives short) recvRound x J t := by
  refine Leads.round ?_
  rw [recvRound, if_pos (Or.inl hmore)]
  have hwait : taking os arrives short .waitCqe t (some ⟨(recvSqe b).userData, (d.take UDP_MTU).length⟩)
      ((t.heard b d).ring t.sq (l ++ r)) :=
    ⟨Or.inr ⟨l, recvSqe b, r, _, hin, rfl, Or.inr ⟨d, hd, rfl, rfl⟩⟩, by rintro ⟨⟩⟩
  refine .bind (.ask hwait ?_)
  simp only [recvSqe, getTag_makeUserData _ (index_small hfresh.buffer),
    getIndex_makeUserData _ (index_small hfresh.buffer), if_true]
  refine .bind ?_
  have hpos : ¬ ((d.take UDP_MTU).length : ℤ) ≤ 0 := by
    have hwhole := hfresh.whole
    have hhdr : (0 : ℤ) < FRAG_HDR_SIZE := by decide
    omega
  rw [reapRecv, if_neg hpos]
  have hland : Returns (taking os arrives short) _ _ _ := (processFragment_total hfresh).returns
  refine .bind (hland.mono fun a u hu => ?_)
  obtain ⟨rfl, rfl⟩ := hu
  simp only [if_true]
  exact .bind (flush_returns (.ret (.ret h)))

theorem wrote_leads {f bs : Bytes} (hmore : 0 < x.pendingWrites) (hb : b < UDP_FRAG_BUFS)
    (hin : t.inflight = l ++ writeSqe x.state b hdr t.registered :: r)
    (hf : t.os.files x.state.fileFd = some f) (hroom : t.sq.length < QUEUE_DEPTH)
    (hlen : bs.length ≤ hdr.fragLen.toNat) (hshort : bs.length < hdr.fragLen.toNat → short)
    (hbs : FRAG_HDR_SIZE + bs.length ≤ (t.fragBuf b).length →
      bs = slice (t.fragBuf b) FRAG_HDR_SIZE bs.length)
    (h : Leads (taking os arrives short) recvRound
      ⟨x.state, x.pendingWrites - 1, x.pendingRecvs + 1⟩ J
      ((((t.write x.state.fileFd (DataPlane.overwrite f
        (x.state.chunkOffset + hdr.fragIndex.toNat * UDP_PAYLOAD_SIZE) bs)).ring t.sq (l ++ r)).prepare
        (recvSqe b)).flushed (UDP_FRAG_BUFS / 2 ≤ x.pendingRecvs + 1))) :
    Leads (taking os arrives short) recvRound x J t := by
  have hwait : taking os arrives short .waitCqe t
      (some ⟨(writeSqe x.state b hdr t.registered).userData, bs.length⟩) _ :=
    ⟨Or.inr ⟨l, writeSqe x.state b hdr t.registered, r, _, hin, rfl,
      Or.inr ⟨f, bs, hf, hlen, hshort, hbs, rfl, rfl⟩⟩, nofun⟩
  have htag : SqeTag.write.toByte ≠ SqeTag.recv.toByte := by decide
  refine Leads.round ?_
  rw [recvRound, if_pos (Or.inr hmore)]
  refine .bind (.ask hwait ?_)
  simp only [writeSqe, getTag_makeUserData _ (index_small hb),
    getIndex_makeUserData _ (index_small hb), if_neg htag, if_true]
  refine .bind ?_
  rw [reapWrite, if_neg (by omega)]
  exact .bind (reclaim_returns hb hroom (.ret (.ret h)))

theorem stored_leads {f : Bytes} (hmore : 0 < x.pendingWrites) (hb : b < UDP_FRAG_BUFS)
    (hin : t.inflight = l ++ writeSqe x.state b hdr t.registered :: r)
    (hf : t.os.files x.state.fileFd = some f) (hroom : t.sq.length < QUEUE_DEPTH)
    (h : ∀ g, Leads (taking os arrives short) recvRound
      ⟨x.state, x.pendingWrites - 1, x.pendingRecvs + 1⟩ J
      ((((t.write x.state.fileFd g).ring t.sq (l ++ r)).prepare (recvSqe b)).flushed
        (UDP_FRAG_BUFS / 2 ≤ x.pendingRecvs + 1))) :
    Leads (taking os arrives short) recvRound x J t := by
  obtain ⟨bs, hlen, hbs⟩ : ∃ bs : Bytes, bs.length = hdr.fragLen.toNat ∧
      (FRAG_HDR_SIZE + bs.length ≤ (t.fragBuf b).length →
        bs = slice (t.fragBuf b) FRAG_HDR_SIZE bs.length) := by
    by_cases hroom : FRAG_HDR_SIZE + hdr.fragLen.toNat ≤ (t.fragBuf b).length
    · have hlen := slice_length hroom
      refine ⟨slice (t.fragBuf b) FRAG_HDR_SIZE hdr.fragLen.toNat, hlen, fun _ => ?_⟩
      rw [hlen]
    · refine ⟨List.replicate hdr.fragLen.toNat 0, List.length_replicate, fun hle => ?_⟩
      rw [List.length_replicate] at hle
      exact absurd hle hroom
  have hfull : bs.length < hdr.fragLen.toNat → short := fun hlt => absurd hlen (Nat.ne_of_lt hlt)
  exact wrote_leads hmore hb hin hf hroom (le_of_eq hlen) hfull hbs (h _)

theorem processFragment_again {E : Env Udp} {state : RecvState} {n : ℤ} (hb : b < UDP_FRAG_BUFS)
    (hwhole : (FRAG_HDR_SIZE : ℤ) ≤ n) (hindex : (hdrIn s b).fragIndex.toNat < state.fragCount)
    (hbit : (hdrIn s b).fragIndex.toNat < MAX_FRAGS_PER_CHUNK)
    (hdup : state.received (hdrIn s b).fragIndex.toNat = true) :
    Total E (fun _ _ => True) (fun a u => a = (false, state) ∧ u = s) (processFragment b n state) s := by
  rw [processFragment, if_neg (Int.not_lt.mpr hwhole)]
  refine Total.andThen (inRange_total hb) fun _ u hu => ?_
  subst hu
  refine total_get_bind.mpr ⟨trivial, ?_⟩
  dsimp only
  rw [if_neg (Nat.not_le.mpr hindex), if_neg (Nat.not_le.mpr hbit), if_pos hdup]
  exact total_pure.mpr ⟨trivial, rfl, rfl⟩

theorem again_leads (hmore : 0 < x.state.fragRemaining ∨ 0 < x.pendingWrites)
    (hb : b < UDP_FRAG_BUFS) (hin : t.inflight = l ++ recvSqe b :: r)
    (hd : arrives (t.ring t.sq (l ++ r)) d) (hlen : FRAG_HDR_SIZE ≤ (d.take UDP_MTU).length)
    (hindex : (hdrIn (t.heard b d) b).fragIndex.toNat < x.state.fragCount)
    (hbit : (hdrIn (t.heard b d) b).fragIndex.toNat < MAX_FRAGS_PER_CHUNK)
    (hdup : x.state.received (hdrIn (t.heard b d) b).fragIndex.toNat = true)
    (hroom : t.sq.length < QUEUE_DEPTH)
    (h : Leads (taking os arrives short) recvRound
      ⟨x.state, x.pendingWrites, x.pendingRecvs - 1 + 1⟩ J
      ((((t.heard b d).ring t.sq (l ++ r)).prepare (recvSqe b)).flushed
        (UDP_FRAG_BUFS / 2 ≤ x.pendingRecvs - 1 + 1))) :
    Leads (taking os arrives short) recvRound x J t := by
  refine Leads.round ?_
  rw [recvRound, if_pos hmore]
  have hwait : taking os arrives short .waitCqe t (some ⟨(recvSqe b).userData, (d.take UDP_MTU).length⟩)
      ((t.heard b d).ring t.sq (l ++ r)) :=
    ⟨Or.inr ⟨l, recvSqe b, r, _, hin, rfl, Or.inr ⟨d, hd, rfl, rfl⟩⟩, by rintro ⟨⟩⟩
  refine .bind (.ask hwait ?_)
  simp only [recvSqe, getTag_makeUserData _ (index_small hb),
    getIndex_makeUserData _ (index_small hb), if_true]
  refine .bind ?_
  have hhdr : FRAG_HDR_SIZE = 10 := rfl
  rw [reapRecv, if_neg (by omega)]
  have hagain : Returns (taking os arrives short) _ _ _ :=
    (processFragment_again (s := (t.heard b d).ring t.sq (l ++ r)) (n := (d.take UDP_MTU).length)
      hb (by omega) hindex hbit hdup).returns
  refine .bind (hagain.mono fun a u hu => ?_)
  obtain ⟨rfl, rfl⟩ := hu
  simp only [Bool.false_eq_true, if_false]
  exact .bind (reclaim_returns hb hroom (.ret (.ret h)))

end rounds

section flushed
variable {c : Prop} [Decidable c] {s : Store} {sqe : Sqe}

@[simp] theorem flushed_os : (s.flushed c).os = s.os := by
  rw [Store.flushed]
  split_ifs <;> rfl

@[simp] theorem flushed_arrived : (s.flushed c).arrived = s.arrived := by
  rw [Store.flushed]
  split_ifs <;> rfl

@[simp] theorem flushed_registered : (s.flushed c).registered = s.registered := by
  rw [Store.flushed]
  split_ifs <;> rfl

theorem flushed_sq (h : c) : (s.flushed c).sq = [] := by
  rw [Store.flushed, if_pos h]
  rfl

theorem flushed_sq_le : (s.flushed c).sq.length ≤ s.sq.length := by
  rw [Store.flushed]
  split_ifs
  · exact Nat.zero_le _
  · exact le_rfl

theorem mem_flushed (h : sqe ∈ s.inflight) : sqe ∈ (s.flushed c).inflight := by
  rw [Store.flushed]
  split_ifs
  · exact List.mem_append_left _ h
  · exact h

theorem mem_ring_flushed (h : sqe ∈ s.sq ++ s.inflight) :
    sqe ∈ (s.flushed c).sq ++ (s.flushed c).inflight := by
  rw [Store.flushed]
  split_ifs
  · exact List.mem_append_right [] (List.perm_append_comm.mem_iff.mp h)
  · exact h

end flushed

theorem mem_rest {sqe done : Sqe} {l r : List Sqe} (h : sqe ∈ l ++ done :: r) (hne : sqe ≠ done) :
    sqe ∈ l ++ r := by
  rcases List.mem_append.mp h with h | h
  · exact List.mem_append_left _ h
  · exact List.mem_append_right _ (List.mem_of_ne_of_mem hne h)

theorem recvSqe_ne {a b : ℕ} (h : a ≠ b) : recvSqe a ≠ recvSqe b := by
  intro heq
  rw [recvSqe, recvSqe, Sqe.mk.injEq, Request.recv.injEq] at heq
  exact h heq.1.1

theorem writeSqe_ne_recv {state : RecvState} {a b : ℕ} {hdr : FragHdr} {fixed : Bool} :
    writeSqe state a hdr fixed ≠ recvSqe b := by
  intro heq
  rw [recvSqe, writeSqe, Sqe.mk.injEq] at heq
  cases heq.1

theorem writeSqe_ne {state : RecvState} {a b : ℕ} {hdr hdr' : FragHdr} {fixed : Bool} (h : a ≠ b) :
    writeSqe state a hdr fixed ≠ writeSqe state b hdr' fixed := by
  intro heq
  rw [writeSqe, writeSqe, Sqe.mk.injEq, Request.write.injEq] at heq
  exact h heq.1.2.1

structure Deliverable (arrives : Store → Bytes → Prop) (w : World) (i : ℕ) (d : Bytes) : Prop where
  arrives : ∀ t : Store, t.os = w → arrives t d
  index : ∀ (t : Store) (b : ℕ), (hdrIn (t.heard b d) b).fragIndex.toNat = i
  whole : FRAG_HDR_SIZE ≤ (d.take UDP_MTU).length

/-- The first `i` of `n` fragments were seen. -/
def inOrder (state : RecvState) (n i : ℕ) : RecvState :=
  { state with received := fun j => decide (j < i), fragRemaining := n - i }

theorem mark_inOrder (state : RecvState) (n i : ℕ) :
    (inOrder state n i).mark i = inOrder state n (i + 1) := by
  have hbits : Function.update (fun j => decide (j < i)) i true = fun j => decide (j < i + 1) := by
    funext j
    by_cases hj : j = i
    · subst hj
      simp
    · rw [Function.update_of_ne hj]
      have hiff : j < i ↔ j < i + 1 := by omega
      simp only [hiff]
  rw [RecvState.mark, inOrder, inOrder, hbits]
  congr 1

section chunk
variable {os : Env System.Os} {arrives : Store → Bytes → Prop} {short : Prop} {state : RecvState}
  {w : World} {log : List (ℕ × Bytes)} {ds : ℕ → Bytes} {n i j : ℕ} {t : Store} {J : Progress → Store → Prop}

/-- Fragment `i` of the first ones is in buffer `i`, and its write was asked for. -/
structure Arrived (state : RecvState) (w : World) (log : List (ℕ × Bytes)) (ds : ℕ → Bytes) (i : ℕ)
    (t : Store) : Prop where
  room : t.sq.length ≤ i
  waits : ∀ b, i ≤ b → b < UDP_FRAG_BUFS → recvSqe b ∈ t.inflight
  writes : ∀ b < i, ∃ hdr, writeSqe state b hdr t.registered ∈ t.sq ++ t.inflight
  os : t.os = w
  arrived : t.arrived = log ++ (List.range i).map fun j => (w.out.length, ds j)

theorem Arrived.next {c : Prop} [Decidable c] (h : Arrived state w log ds i t)
    {l r : List Sqe} (hin : t.inflight = l ++ recvSqe i :: r) {hdr : FragHdr} :
    Arrived state w log ds (i + 1)
      ((((t.heard i (ds i)).ring t.sq (l ++ r)).prepare
        (writeSqe state i hdr t.registered)).flushed c) := by
  refine ⟨?_, fun b hb hb' => ?_, fun b hb => ?_, ?_, ?_⟩
  · refine flushed_sq_le.trans ?_
    change (t.sq ++ [_]).length ≤ i + 1
    rw [List.length_append]
    exact Nat.add_le_add_right h.room 1
  · apply mem_flushed
    have hwaits := h.waits b (by omega) hb'
    rw [hin] at hwaits
    exact mem_rest hwaits (recvSqe_ne (by omega))
  · rw [flushed_registered]
    rcases Nat.lt_or_eq_of_le (Nat.le_of_lt_succ hb) with hlt | rfl
    · obtain ⟨hdr', hmem⟩ := h.writes b hlt
      refine ⟨hdr', mem_ring_flushed ?_⟩
      rw [hin, ← List.append_assoc] at hmem
      have hrest := mem_rest hmem writeSqe_ne_recv
      rw [List.append_assoc] at hrest
      change _ ∈ (t.sq ++ [_]) ++ (l ++ r)
      rw [List.append_assoc]
      rcases List.mem_append.mp hrest with hrest | hrest
      · exact List.mem_append_left _ hrest
      · exact List.mem_append_right _ (List.mem_append_right _ hrest)
    · refine ⟨hdr, mem_ring_flushed (List.mem_append_left _ ?_)⟩
      exact List.mem_append_right _ (List.mem_singleton_self _)
  · rw [flushed_os]
    exact h.os
  · rw [flushed_arrived]
    change t.arrived ++ [(t.os.out.length, ds i)] = _
    rw [h.arrived, h.os, List.range_succ, List.map_append, List.append_assoc]
    rfl

theorem arrival_leads (hcount : state.fragCount = n) (hn : n ≤ MAX_FRAGS_PER_CHUNK)
    (hd : Deliverable arrives w i (ds i)) (hi : i < n) (ht : Arrived state w log ds i t)
    (h : ∀ u, (i + 1 = n → u.sq = []) → Arrived state w log ds (i + 1) u →
      Leads (taking os arrives short) recvRound
        ⟨inOrder state n (i + 1), i + 1, UDP_FRAG_BUFS - (i + 1)⟩ J u) :
    Leads (taking os arrives short) recvRound ⟨inOrder state n i, i, UDP_FRAG_BUFS - i⟩ J t := by
  have hmax : MAX_FRAGS_PER_CHUNK = 17 := by decide
  have hbufs : UDP_FRAG_BUFS = 32 := rfl
  have hdepth : QUEUE_DEPTH = 256 := rfl
  have hroom := ht.room
  obtain ⟨l, r, hin⟩ := List.append_of_mem (ht.waits i le_rfl (by omega))
  have hindex := hd.index t i
  have hfresh : Fresh ((t.heard i (ds i)).ring t.sq (l ++ r)) i ((ds i).take UDP_MTU).length
      (inOrder state n i) (hdrIn (t.heard i (ds i)) i) := by
    refine ⟨rfl, ?_, by omega, ?_, ?_, ?_, ?_⟩
    · exact_mod_cast hd.whole
    · rw [hindex]
      exact hcount.symm ▸ hi
    · rw [hindex]
      omega
    · rw [hindex]
      exact decide_eq_false (Nat.lt_irrefl i)
    · change t.sq.length < QUEUE_DEPTH
      omega
  refine land_leads (Nat.sub_pos_of_lt hi) hin
    (hd.arrives _ ht.os) hfresh ?_
  rw [hindex, mark_inOrder]
  refine h _ (fun hlast => flushed_sq (Or.inr ?_)) (ht.next hin)
  change n - (i + 1) = 0
  omega

theorem arrivals_lead (hcount : state.fragCount = n) (hn : n ≤ MAX_FRAGS_PER_CHUNK)
    (hds : ∀ i < n, Deliverable arrives w i (ds i)) (hi : i < n) (ht : Arrived state w log ds i t)
    (h : ∀ u, u.sq = [] → Arrived state w log ds n u →
      Leads (taking os arrives short) recvRound ⟨inOrder state n n, n, UDP_FRAG_BUFS - n⟩ J u) :
    Leads (taking os arrives short) recvRound ⟨inOrder state n i, i, UDP_FRAG_BUFS - i⟩ J t := by
  obtain ⟨m, hm⟩ : ∃ m, n = i + 1 + m := Nat.exists_eq_add_of_le hi
  induction m generalizing i t with
  | zero =>
    refine arrival_leads hcount hn (hds i hi) hi ht fun u hu hnext => ?_
    have hlast : i + 1 = n := hm.symm
    rw [hlast] at hnext ⊢
    exact h u (hu hlast) hnext
  | succ m ih =>
    refine arrival_leads hcount hn (hds i hi) hi ht fun u _ hnext => ?_
    exact ih (by omega) hnext (by omega)

structure Writing (state : RecvState) (out : Bytes) (log : List (ℕ × Bytes)) (n j : ℕ)
    (t : Store) : Prop where
  sq : t.sq = []
  writes : ∀ b, j ≤ b → b < n → ∃ hdr, writeSqe state b hdr t.registered ∈ t.inflight
  file : ∃ f, t.os.files state.fileFd = some f
  out : t.os.out = out
  arrived : t.arrived = log

theorem Arrived.writing (h : Arrived state w log ds n t) (hsq : t.sq = []) {f : Bytes}
    (hf : w.files state.fileFd = some f) :
    Writing state w.out (log ++ (List.range n).map fun j => (w.out.length, ds j)) n 0 t := by
  refine ⟨hsq, fun b _ hb => ?_, ⟨f, ?_⟩, ?_, h.arrived⟩
  · obtain ⟨hdr, hmem⟩ := h.writes b hb
    rw [hsq] at hmem
    exact ⟨hdr, hmem⟩
  · rw [h.os]
    exact hf
  · rw [h.os]

theorem write_leads {out : Bytes} (hn : n ≤ MAX_FRAGS_PER_CHUNK) (hj : j < n)
    (ht : Writing state out log n j t)
    (h : ∀ u, Writing state out log n (j + 1) u → Leads (taking os arrives short) recvRound
      ⟨inOrder state n n, n - (j + 1), UDP_FRAG_BUFS - n + (j + 1)⟩ J u) :
    Leads (taking os arrives short) recvRound
      ⟨inOrder state n n, n - j, UDP_FRAG_BUFS - n + j⟩ J t := by
  have hmax : MAX_FRAGS_PER_CHUNK = 17 := by decide
  have hbufs : UDP_FRAG_BUFS = 32 := rfl
  obtain ⟨hdr, hmem⟩ := ht.writes j le_rfl hj
  obtain ⟨l, r, hin⟩ := List.append_of_mem hmem
  obtain ⟨f, hf⟩ := ht.file
  have hroom : t.sq.length < QUEUE_DEPTH := by
    rw [ht.sq]
    decide
  refine stored_leads (x := ⟨inOrder state n n, n - j, UDP_FRAG_BUFS - n + j⟩)
    (Nat.sub_pos_of_lt hj) (by omega) hin hf hroom fun g => ?_
  refine h _ ⟨flushed_sq ?_, fun b hb hb' => ?_, ⟨g, ?_⟩, ?_, ?_⟩
  · change UDP_FRAG_BUFS / 2 ≤ UDP_FRAG_BUFS - n + j + 1
    omega
  · obtain ⟨hdr', hother⟩ := ht.writes b (by omega) hb'
    rw [hin] at hother
    refine ⟨hdr', mem_flushed ?_⟩
    rw [flushed_registered]
    exact mem_rest hother (writeSqe_ne (by omega))
  · rw [flushed_os]
    exact Function.update_self ..
  · rw [flushed_os]
    exact ht.out
  · rw [flushed_arrived]
    exact ht.arrived

theorem writes_lead {out : Bytes} (hn : n ≤ MAX_FRAGS_PER_CHUNK) (hj : j ≤ n)
    (ht : Writing state out log n j t)
    (hJ : ∀ u, Writing state out log n n u → J ⟨inOrder state n n, 0, UDP_FRAG_BUFS⟩ u) :
    Leads (taking os arrives short) recvRound
      ⟨inOrder state n n, n - j, UDP_FRAG_BUFS - n + j⟩ J t := by
  have hmax : MAX_FRAGS_PER_CHUNK = 17 := by decide
  have hbufs : UDP_FRAG_BUFS = 32 := rfl
  obtain ⟨m, hm⟩ : ∃ m, n = j + m := Nat.exists_eq_add_of_le hj
  induction m generalizing j t with
  | zero =>
    have hall : j = n := hm.symm
    subst hall
    have hback : UDP_FRAG_BUFS - j + j = UDP_FRAG_BUFS := by omega
    rw [Nat.sub_self, hback]
    exact .here (hJ t ht)
  | succ m ih => exact write_leads hn (by omega) ht fun u hu => ih (by omega) hu (by omega)

theorem all_writes_return {out : Bytes} (hn : n ≤ MAX_FRAGS_PER_CHUNK)
    (ht : Writing state out log n 0 t) {Q : ℕ → Store → Prop}
    (hQ : ∀ u, Writing state out log n n u → Q UDP_FRAG_BUFS u) :
    Leads (taking os arrives short) recvRound ⟨inOrder state n n, n, UDP_FRAG_BUFS - n⟩
      (fun y u => Returns (taking os arrives short) (.repeatUntil recvRound y) Q u) t := by
  have hall : Leads (taking os arrives short) recvRound
      ⟨inOrder state n n, n - 0, UDP_FRAG_BUFS - n + 0⟩
      (fun y u => Returns (taking os arrives short) (.repeatUntil recvRound y) Q u) t := by
    refine writes_lead hn (Nat.zero_le n) ht fun u hu => Returns.round ?_
    have hidle : ¬ (0 < (inOrder state n n).fragRemaining ∨ 0 < 0) := by simp [inOrder]
    rw [recvRound, if_neg hidle]
    exact .ret (hQ u hu)
  rwa [Nat.sub_zero, Nat.add_zero] at hall

theorem Waiting.arrived (h : Waiting t) (hsq : t.sq = []) : Arrived state t.os t.arrived ds 0 t := by
  rw [Waiting, hsq, List.nil_append] at h
  refine ⟨?_, fun b _ hb => h.mem hb, fun b hb => absurd hb (Nat.not_lt_zero b), rfl, ?_⟩
  · rw [hsq]
    exact le_rfl
  · exact (List.append_nil _).symm

theorem recvState_inOrder (fd : Path) (offset len k : ℕ) :
    recvState fd offset len k =
      inOrder (recvState fd offset len k) (fragCount (chunkLenAt len k)) 0 := by
  simp [recvState, inOrder]

theorem recvChunk_waiting {R : ℕ → Store → Prop} {fd : Path} {offset len k : ℕ} (hwaiting : Waiting t)
    (h : Returns (taking os arrives short) (recvChunk (recvState fd offset len k) UDP_FRAG_BUFS) R t) :
    Returns (taking os arrives short) (recvChunk (recvState fd offset len k) UDP_FRAG_BUFS)
      (fun a u => a = UDP_FRAG_BUFS ∧ Waiting u ∧ R a u) t := by
  obtain ⟨a, u, hrun, hR⟩ := h
  have hsat : Sat (kernel os arrives short) (fun _ _ => True) (fun _ _ => True)
      (recvChunk (recvState fd offset len k) UDP_FRAG_BUFS) _ t :=
    recvChunk_sat (fun _ _ _ => True) (hwaiting.armed fd offset len k) trivial
      fun _ _ _ _ _ _ _ _ _ => trivial
  obtain ⟨y, held, harmed, -, -, hwrites, rfl⟩ :=
    hsat.returned (hrun.mono fun _ _ _ _ h => h.1)
  obtain ⟨hwaiting', hall⟩ := harmed.waiting hwrites
  exact ⟨_, u, hrun, hall, hwaiting', hR⟩

theorem chunk_returns {fd : Path} {offset len k : ℕ} {f : Bytes}
    (hpos : 0 < fragCount (chunkLenAt len k)) (hsq : t.sq = []) (hwaiting : Waiting t)
    (hf : t.os.files fd = some f)
    (hds : ∀ i < fragCount (chunkLenAt len k), Deliverable arrives t.os i (ds i)) :
    Returns (taking os arrives short) (recvChunk (recvState fd offset len k) UDP_FRAG_BUFS)
      (fun _ u => Writing (recvState fd offset len k) t.os.out
        (t.arrived ++ (List.range (fragCount (chunkLenAt len k))).map fun j => (t.os.out.length, ds j))
        (fragCount (chunkLenAt len k)) (fragCount (chunkLenAt len k)) u) t := by
  have hn := (fragCount_eq (min_le_right (len - k * chunkSize) chunkSize)).2
  rw [recvChunk]
  nth_rewrite 1 [recvState_inOrder]
  refine Leads.returns (arrivals_lead rfl hn hds hpos (hwaiting.arrived hsq) fun u hu hall => ?_)
  exact all_writes_return hn (hall.writing hu hf) fun v hv => hv

end chunk

section file
variable {feed : World → Bytes} {arrives : Store → Bytes → Prop} {short : Prop} {fd : Path}
  {offset len k : ℕ} {s t : Store}

theorem submitRecvs_returns {E : Env Udp} (is : List ℕ) (hsmall : ∀ i ∈ is, i < UDP_FRAG_BUFS)
    (hroom : t.sq.length + is.length ≤ QUEUE_DEPTH) :
    Returns E (submitRecvs is) (fun _ u => u = t.ring (t.sq ++ is.map recvSqe) t.inflight) t := by
  induction is generalizing t with
  | nil =>
    refine .ret ?_
    rw [List.map_nil, List.append_nil]
    rfl
  | cons i is ih =>
    rw [List.length_cons] at hroom
    have hindex : Returns E (inRange "IoUringCtx::frag_buf index out of range" i UDP_FRAG_BUFS)
        (fun _ u => u = t) t := (inRange_total (hsmall i List.mem_cons_self)).returns
    refine .bind (.bind (hindex.mono fun _ u hu => prepare_returns ?_ ?_))
    · rw [hu]
      omega
    · rw [hu]
      have hrest : (t.prepare (recvSqe i)).sq.length + is.length ≤ QUEUE_DEPTH := by
        change (t.sq ++ [_]).length + is.length ≤ QUEUE_DEPTH
        rw [List.length_append, List.length_singleton]
        omega
      refine (ih (fun j hj => hsmall j (List.mem_cons_of_mem i hj)) hrest).mono fun _ v hv => ?_
      rw [hv]
      change t.ring ((t.sq ++ [recvSqe i]) ++ is.map recvSqe) t.inflight = _
      rw [List.append_assoc]
      rfl

theorem control_returns {buf : Bytes} :
    Returns (taking (socket feed) arrives short) ((sendExact tcp buf).embed control)
      (fun _ u => u = { t with os := t.os.put buf }) t := by
  have hsent : Total (stream feed) (fun _ _ => True) (fun _ w => w = t.os.put buf)
      (sendExact tcp buf) t.os := sendExact_total (fun _ _ => trivial) (fun _ _ => trivial) rfl
  have hoffers : control.Offers (socket feed) (taking (socket feed) arrives short) :=
    fun _ _ r _ h => ⟨r, rfl, ⟨h, rfl⟩, nofun⟩
  have hthere : Returns (socket feed) (sendExact tcp buf) (fun _ w => w = t.os.put buf) t.os :=
    hsent.returns.env DataPlane.socket_of_stream
  refine (Returns.embed control hoffers hthere).mono fun _ u hu => ?_
  obtain ⟨w, rfl, rfl⟩ := hu
  rfl

theorem recvNext_returns {Q : Unit → Store → Prop} {R : Store → Prop} (hk : k < chunkCount len)
    (hwaiting : Waiting t) (hchunk : Returns (taking (socket feed) arrives short)
      (recvChunk (recvState fd offset len k) UDP_FRAG_BUFS) (fun _ => R) t)
    (hnext : ∀ u, Waiting u → R u → Returns (taking (socket feed) arrives short)
      (.repeatUntil (recvNext fd offset len) (k + 1, UDP_FRAG_BUFS)) Q
      { u with os := u.os.put (be 4 k) }) :
    Returns (taking (socket feed) arrives short)
      (.repeatUntil (recvNext fd offset len) (k, UDP_FRAG_BUFS)) Q t := by
  refine Returns.round ?_
  rw [recvNext, if_pos hk]
  refine .bind ((recvChunk_waiting hwaiting hchunk).mono fun a u hu => ?_)
  obtain ⟨rfl, hwaiting', hu⟩ := hu
  refine .bind (control_returns.mono fun _ v hv => .ret ?_)
  subst hv
  exact hnext u hwaiting' hu

theorem recvNext_ends {Q : Unit → Store → Prop} {n : ℕ} (hk : chunkCount len ≤ k) (h : Q () t) :
    Returns (taking (socket feed) arrives short)
      (.repeatUntil (recvNext fd offset len) (k, n)) Q t := by
  refine Returns.round ?_
  rw [recvNext, if_neg (Nat.not_lt.mpr hk)]
  exact .ret h

theorem recvCold_returns (hsq : s.sq = []) :
    Returns (taking (socket feed) arrives short) recvCold
      (fun _ u => u = { s.ring [] (s.inflight ++ (List.range UDP_FRAG_BUFS).map recvSqe) with
        os := s.os.put [1] }) s := by
  have hroom : s.sq.length + (List.range UDP_FRAG_BUFS).length ≤ QUEUE_DEPTH := by
    rw [hsq]
    decide
  refine .bind ((submitRecvs_returns _ (fun i hi => List.mem_range.mp hi) hroom).mono
    fun _ t ht => .bind (submit_returns ?_))
  subst ht
  refine control_returns.mono fun _ u hu => ?_
  rw [hu, hsq]
  rfl

theorem recvFile_returns {os : World} {registered : Bool} {Q : Unit → Store → Prop}
    (h : ∀ u : Store, u.sq = [] → Waiting u → u.os = os.put [1] → u.arrived = [] →
      Returns (taking (socket feed) arrives short)
        (.repeatUntil (recvNext fd offset len) (0, UDP_FRAG_BUFS)) Q u) :
    Returns (taking (socket feed) arrives short) (recvFile fd offset len) Q
      (.init os registered) := by
  rw [recvFile_eq]
  refine .bind ((recvCold_returns rfl).mono fun _ u hu => ?_)
  subst hu
  exact h _ rfl (List.Perm.refl _) rfl rfl

end file

end Embr.UdpTransport
