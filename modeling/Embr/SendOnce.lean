import Embr.ShortTransfers
import Embr.UdpAccounts

/-!
# Every fragment once

A datagram leaves with the completion of the request that was made for it. No
request is made twice, so that no datagram is sent twice, and once `send_file`
returns the datagrams sent are those of the source, each one time.
-/

open Octets Interact
namespace Embr.UdpTransport
open Embr.System (World)
open DataPlane (socket)

variable {src f Y : Bytes} {fd : Path} {offset base j k l n i : ℕ} {out : List ℕ} {s t u : Store}
  {os : Env System.Os} {arrives : Store → Bytes → Prop} {sent : List Bytes}

theorem Piece.unique (h : Piece src j i) (h' : Piece src k l)
    (heq : datagram src j i = datagram src k l) : j = k ∧ i = l := by
  have hhdr := congrArg (fun d => parseFragHdr (d ++ [])) heq
  simp only [Piece.parse] at hhdr
  have hindex := congrArg (fun hdr => hdr.fragIndex.toNat) hhdr
  have hchunk := congrArg (fun hdr => hdr.chunkIndex.toNat) hhdr
  simp only [h.hdr_index, h'.hdr_index] at hindex
  simp only [fragHdr, UInt32.toNat_ofNat'] at hchunk
  have hlt := h.chunk
  have hlt' := h'.chunk
  have hcount : chunkCount src.length < 2 ^ 32 := Nat.mod_lt _ (by decide)
  exact ⟨by omega, hindex⟩

structure Once (src : Bytes) (k n : ℕ) (out : List ℕ) (sent : List Bytes) : Prop where
  distinct : out.Nodup
  single : sent.Nodup
  known : ∀ d ∈ sent, ∃ j i, Piece src j i ∧ d = datagram src j i ∧
    (j < k ∨ j = k ∧ i < n ∧ i ∉ out)

namespace Once

theorem start (src : Bytes) : Once src 0 0 [] [] :=
  ⟨.nil, .nil, fun _ hd => absurd hd List.not_mem_nil⟩

theorem prepared (h : Once src k n out sent) (hnew : n ∉ out) : Once src k (n + 1) (n :: out) sent := by
  refine ⟨h.distinct.cons hnew, h.single, fun d hd => ?_⟩
  obtain ⟨j, i, hpiece, rfl, hbefore⟩ := h.known d hd
  refine ⟨j, i, hpiece, rfl, hbefore.imp_right fun hk => ?_⟩
  obtain ⟨rfl, hi, hout⟩ := hk
  refine ⟨rfl, Nat.lt_succ_of_lt hi, fun hmem => ?_⟩
  rcases List.mem_cons.mp hmem with rfl | hmem
  · exact Nat.lt_irrefl i hi
  · exact hout hmem

theorem done (h : Once src k n out sent) (hpiece : Piece src k i) (hi : i ∈ out) (hn : i < n) :
    Once src k n (out.erase i) (sent ++ [datagram src k i]) := by
  refine ⟨h.distinct.erase i, ?_, fun d hd => ?_⟩
  · refine List.nodup_append.mpr ⟨h.single, List.nodup_singleton _, fun d hd e he heq => ?_⟩
    rw [List.mem_singleton.mp he] at heq
    obtain ⟨j, i', hthere, rfl, hbefore⟩ := h.known d hd
    obtain ⟨rfl, rfl⟩ := hthere.unique hpiece heq
    rcases hbefore with hlt | ⟨-, -, hout⟩
    · exact Nat.lt_irrefl j hlt
    · exact hout hi
  · rcases List.mem_append.mp hd with hd | hd
    · obtain ⟨j, i', hthere, rfl, hbefore⟩ := h.known d hd
      refine ⟨j, i', hthere, rfl, hbefore.imp_right fun hk => ?_⟩
      exact ⟨hk.1, hk.2.1, fun hmem => hk.2.2 (List.mem_of_mem_erase hmem)⟩
    · rw [List.mem_singleton.mp hd]
      exact ⟨k, i, hpiece, rfl, Or.inr ⟨rfl, hn, h.distinct.not_mem_erase⟩⟩

theorem next (h : Once src k n [] sent) : Once src (k + 1) 0 [] sent := by
  refine ⟨.nil, h.single, fun d hd => ?_⟩
  obtain ⟨j, i, hpiece, rfl, hbefore⟩ := h.known d hd
  refine ⟨j, i, hpiece, rfl, Or.inl ?_⟩
  omega

end Once

def Single (_ : Option Op) (t : Store) : Prop := t.sent.Nodup

theorem drainSends_once {waitFailed sendFailed : String} {limit : ℕ} (hsrc : Holds f offset src)
    (hk : k < chunkCount src.length) (hn : n ≤ fragCount (chunkLenAt src.length k))
    (h : Sending src fd offset base f k n out t) (honce : Once src k n out t.sent) :
    Sat (kernel os arrives False) Single (fun _ _ => True)
      (drainSends waitFailed sendFailed limit out.length)
      (fun r (u : Store) => ∃ out', r = out'.length ∧ out'.length < limit ∧
        Sending src fd offset base f k n out' u ∧ Once src k n out' u.sent) t := by
  have hmax := (fragCount_eq (chunkLenAt_le src.length k)).2
  have hseventeen : MAX_FRAGS_PER_CHUNK = 17 := by decide
  apply Sat.round fun r (u : Store) => ∃ out', r = out'.length ∧ Sending src fd offset base f k n out' u ∧
    Once src k n out' u.sent
  · exact ⟨out, rfl, h, honce⟩
  intro r u hu
  obtain ⟨out', rfl, hu, honce'⟩ := hu
  refine ⟨honce'.single, ?_⟩
  split_ifs with hmore
  · refine sat_ask_bind.mpr ⟨honce'.single, fun cqe v hv => ?_⟩
    rcases hv with ⟨rfl, rfl⟩ | ⟨a, sqe, c, res, hin, rfl, hdone⟩
    · exact sat_raise.mpr ⟨honce'.single, trivial⟩
    obtain ⟨reads, hahead, hperm⟩ := hu.ring
    rcases done_cases hperm hin hahead.one with ⟨hone, hrest⟩ | ⟨i, hi, rfl, hrest⟩
    · obtain ⟨hj, rfl⟩ := hahead.reap hone
      have hsame : v.sent = u.sent := by
        rcases hdone with ⟨-, rfl⟩ | ⟨-, -, -, -, -, -, -, rfl⟩ <;> rfl
      have hnext := hu.reaped hsrc hj hrest hdone
      simp only [readSqe_tag, if_true]
      have hsingle : v.sent.Nodup := hsame ▸ honce'.single
      exact ⟨hsingle, hsingle, out', rfl, hnext, hsame ▸ honce'⟩
    · have htag : SqeTag.send.toByte ≠ SqeTag.read.toByte := by decide
      have hlt := (hu.slots i hi).1
      simp only [sendSqe_tag (by omega : i < 2 ^ 56), if_neg htag, if_true]
      split_ifs with hres
      · rcases hdone with ⟨-, rfl⟩ | ⟨rfl, -⟩
        · exact sat_raise.mpr ⟨honce'.single, trivial⟩
        · omega
      · have hnext := hu.done hk hn hi hahead hrest hres hdone
        have hpiece : Piece src k i := ⟨hk, Nat.lt_of_lt_of_le hlt hn⟩
        have hgone : v.sent = u.sent ++ [datagram src k i] := by
          rcases hdone with ⟨hneg, -⟩ | ⟨-, rfl⟩
          · exact absurd hneg hres
          · exact congrArg (fun d => u.sent ++ [d]) (hu.loaded.points hpiece (hu.slots i hi).2)
        have hafter := honce'.done hpiece hi hlt
        rw [← hgone] at hafter
        refine sat_pure.mpr ⟨hafter.single, out'.erase i, ?_, hnext, hafter⟩
        exact (List.length_erase_of_mem hi).symm
  · exact sat_pure.mpr ⟨honce'.single, honce'.single, out', rfl, Nat.lt_of_not_le hmore, hu, honce'⟩

theorem prepareSends_once
    (h : Sending src fd offset base f k 0 [] t) (honce : Once src k 0 [] t.sent) :
    Sat (kernel os arrives False) Single (fun _ _ => True)
      (prepareSends (k % 2) k (chunkLenAt src.length k))
      (fun r (u : Store) => ∃ out, r = out.length ∧
        Sending src fd offset base f k (fragCount (chunkLenAt src.length k)) out u ∧
        Once src k (fragCount (chunkLenAt src.length k)) out u.sent) t := by
  have hmax := (fragCount_eq (chunkLenAt_le src.length k)).2
  have hseventeen : MAX_FRAGS_PER_CHUNK = 17 := by decide
  have hdepth : QUEUE_DEPTH = 256 := rfl
  apply Sat.round fun x (u : Store) => x.1 ≤ fragCount (chunkLenAt src.length k) ∧ x.2 = x.1 ∧
    ∃ out, out.length = x.1 ∧ Sending src fd offset base f k x.1 out u ∧ Once src k x.1 out u.sent
  · exact ⟨Nat.zero_le _, rfl, [], rfl, h, honce⟩
  intro x u hx
  obtain ⟨n, m⟩ := x
  obtain ⟨hle, hm, out, hout, hu, honce'⟩ := hx
  dsimp only at hle hm hout hu honce'
  subst hm
  have hhere : Single none u := honce'.single
  refine ⟨hhere, ?_⟩
  dsimp only
  split_ifs with hlt
  · have hnew : m ∉ out := fun hmem => Nat.lt_irrefl m (hu.slots m hmem).1
    have hslots : ∀ i ∈ out, i % QUEUE_DEPTH ≠ m % QUEUE_DEPTH := by
      intro i hi
      have hbefore := (hu.slots i hi).1
      rw [hdepth]
      omega
    rw [awaitSlot, if_neg (by omega), pure_bind]
    refine Sat.andThen (prepare_sat hhere hhere fun _ => trivial) fun _ v hv => ?_
    obtain ⟨-, rfl⟩ := hv
    refine sat_modify_bind.mpr ⟨hhere, sat_pure.mpr ⟨hhere, hlt, rfl, m :: out, ?_,
      hu.prepared hnew hslots, honce'.prepared hnew⟩⟩
    rw [List.length_cons, hout]
  · have hend : m = fragCount (chunkLenAt src.length k) := Nat.le_antisymm hle (Nat.not_lt.mp hlt)
    rw [← hend]
    exact sat_pure.mpr ⟨hhere, hhere, out, hout.symm, hu, honce'⟩

theorem sendChunk_once (hsrc : Holds f offset src) (hk : k < chunkCount src.length)
    (h : Sending src fd offset base f k 0 [] t) (honce : Once src k 0 [] t.sent) :
    Sat (kernel os arrives False) Single (fun _ _ => True)
      (sendChunk (k % 2) k (chunkLenAt src.length k))
      (fun _ u => Sending src fd offset base f k (fragCount (chunkLenAt src.length k)) [] u ∧
        Once src (k + 1) 0 [] u.sent) t := by
  rw [sendChunk]
  refine Sat.andThen (inRange_sat honce.single fun _ => trivial) fun _ u hu => ?_
  obtain ⟨-, rfl⟩ := hu
  refine Sat.andThen (prepareSends_once h honce) fun r u hu => ?_
  obtain ⟨out, rfl, hu, honce'⟩ := hu
  have hsubmit : Sat (kernel os arrives False) Single (fun _ _ => True) ioUringSubmit
      (fun _ v => Adds [] u v) u := by
    refine (submit_sat (P := fun v => v.sent.Nodup) fun v hv => ?_).throws fun _ _ _ => trivial
    obtain ⟨q, m, rfl, -⟩ := hv
    exact honce'.single
  refine Sat.andThen hsubmit fun _ v hv => ?_
  have hsame : v.sent = u.sent := by
    obtain ⟨q, m, rfl, -⟩ := hv
    rfl
  rw [← hsame] at honce'
  refine Sat.andThen (drainSends_once hsrc hk le_rfl (hu.submit hv) honce') fun r w hw => ?_
  obtain ⟨out', -, hnone, hw, hafter⟩ := hw
  rw [List.eq_nil_of_length_eq_zero (Nat.lt_one_iff.mp hnone)] at hw hafter
  exact sat_pure.mpr ⟨hafter.single, hw, hafter.next⟩

theorem sent_ofAccounts (l : List Bytes) : OfAccounts fun t => t.sent = l :=
  fun _ _ _ hsent _ hs => hsent.trans hs

theorem sent_control (os : Env System.Os) (arrives : Store → Bytes → Prop) (l : List Bytes)
    (n : ℕ) : KeptBy (kernel os arrives False) (fun t => t.sent = l) (.os (.recv n)) := by
  intro s r t hs ht
  rw [ht.2]
  exact hs

theorem sent_submit (os : Env System.Os) (arrives : Store → Bytes → Prop) (l : List Bytes) :
    KeptBy (kernel os arrives False) (fun t => t.sent = l) .submit := by
  intro s r t hs ht
  rcases ht with ⟨-, rfl⟩ | ⟨k, -, -, rfl⟩
  · exact hs
  · exact hs

theorem silent_sat {α : Type} {E : Env Udp} {I : Option Op → Store → Prop} {X : Exc → Store → Prop}
    {p : Prog Udp α} {Q : α → Store → Prop} (h : Sat E I X p Q t)
    (hkeeps : p.Keeps E fun u => u.sent = t.sent) (hsingle : t.sent.Nodup) :
    Sat E Single (fun _ _ => True) p (fun a u => Q a u ∧ u.sent = t.sent) t := by
  refine (h.and (hkeeps.sat rfl)).mono (fun _ _ _ _ hr => hr) ?_ (fun _ _ _ => trivial)
    fun _ _ hu => hu
  intro o u hu
  rw [Single, hu.2]
  exact hsingle

theorem waitRead_single {reads : List Sqe} (hahead : Ahead src fd offset j t reads)
    (hperm : (t.sq ++ t.inflight).Perm reads) (hsingle : t.sent.Nodup) :
    Sat (kernel os arrives False) Single (fun _ _ => True) waitRead (fun _ _ => True) t := by
  have hperm' : (t.sq ++ t.inflight).Perm (reads ++ ([] : List ℕ).map sendSqe) := by
    rwa [List.map_nil, List.append_nil]
  rw [waitRead]
  refine sat_get_bind.mpr ⟨hsingle, ?_⟩
  split_ifs with hcompleted
  · refine sat_modify_bind.mpr ⟨hsingle, Sat.when (fun _ => ?_) fun _ => ⟨hsingle, trivial⟩⟩
    exact sat_raise.mpr ⟨hsingle, trivial⟩
  · refine sat_ask_bind.mpr ⟨hsingle, fun cqe v hv => ?_⟩
    rcases hv with ⟨rfl, rfl⟩ | ⟨a, sqe, c, res, hin, rfl, hdone⟩
    · exact sat_raise.mpr ⟨hsingle, trivial⟩
    rcases done_cases hperm' hin hahead.one with ⟨hone, -⟩ | ⟨i, hi, -⟩
    · obtain ⟨-, rfl⟩ := hahead.reap hone
      have hsame : v.sent.Nodup := by
        rcases hdone with ⟨-, rfl⟩ | ⟨-, -, -, -, -, -, -, rfl⟩
        · exact hsingle
        · exact hsingle
      simp only [readSqe_tag, if_true]
      exact Sat.when (fun _ => sat_raise.mpr ⟨hsame, trivial⟩) fun _ => ⟨hsame, trivial⟩
    · cases hi

theorem Acked.waited_once (hsrc : Holds f offset src) (h : Acked src fd offset base f k t)
    (honce : Once src k 0 [] t.sent) :
    Sat (kernel os arrives False) Single (fun _ _ => True) waitRead
      (fun _ u => Ready src fd base f k u ∧ Once src k 0 [] u.sent) t := by
  obtain ⟨reads, hahead, hperm⟩ := h.ring
  have hsame : Sat (kernel os arrives False) _ _ waitRead _ t :=
    waitRead_sat hsrc hahead hperm h.file h.genuine
  refine (((h.waited_sat hsrc).and hsame).and (waitRead_single hahead hperm honce.single)).mono
    (fun _ _ _ _ hr => hr) (fun _ _ hu => hu.2) (fun _ _ _ => trivial) fun _ u hu => ?_
  obtain ⟨⟨hready, -, -, -, -, hsent⟩, -⟩ := hu
  exact ⟨hready, hsent ▸ honce⟩

theorem sendNext_once (hsrc : Holds f offset src) (h : Ready src fd base f k t)
    (honce : Once src k 0 [] t.sent) :
    Sat (kernel (socket fun _ => Y) arrives False) Single (fun _ _ => True)
      (sendNext fd offset src.length k)
      (fun r (u : Store) => r.elim
        (fun k' => k' = k + 1 ∧ k < chunkCount src.length ∧ Ready src fd base f k' u ∧
          Once src k' 0 [] u.sent)
        (fun _ => chunkCount src.length ≤ k ∧ u = t)) t := by
  by_cases hk : k < chunkCount src.length
  · rw [sendNext_eq fd offset hk]
    have hquiet : (readAhead fd offset src.length k).Keeps
        (kernel (socket fun _ => Y) arrives False) fun u : Store => u.sent = t.sent :=
      .whenever (submitRead_keeps (sent_ofAccounts _) (sent_submit _ _ _) _ _ _)
    refine Sat.andThen (silent_sat (readAhead_sat h hk) hquiet honce.single) fun _ u hu => ?_
    obtain ⟨hu, hsent⟩ := hu
    rw [← hsent] at honce
    refine Sat.andThen (sendChunk_once hsrc hk hu honce) fun _ v hv => ?_
    obtain ⟨hv, honce'⟩ := hv
    refine Sat.andThen (silent_sat (recvAck_sat hk hv) (recvAck_keeps (sent_control _ _ _) k)
      honce'.single) fun _ w hw => ?_
    obtain ⟨hw, hsent'⟩ := hw
    rw [← hsent'] at honce'
    have hready : Sat (kernel (socket fun _ => Y) arrives False) Single (fun _ _ => True)
        (.when (k + 1 < chunkCount src.length) waitRead)
        (fun _ u => Ready src fd base f (k + 1) u ∧ Once src (k + 1) 0 [] u.sent) w := by
      apply Sat.when
      · exact fun _ => hw.waited_once hsrc honce'
      · exact fun hlast => ⟨honce'.single, hw.ready_last hlast, honce'⟩
    refine Sat.andThen hready fun _ x hx => sat_pure.mpr ⟨hx.2.single, rfl, hk, hx⟩
  · rw [sendNext, if_neg hk]
    exact sat_pure.mpr ⟨honce.single, Nat.not_lt.mp hk, rfl⟩

theorem sendFile_once (hsrc : Holds f offset src) (hs : Idle s) (hf : s.os.files fd = some f) :
    Sat (kernel (socket fun _ => Y) arrives False) Single (fun _ _ => True)
      (sendFile fd offset src.length)
      (fun _ u => Once src (chunkCount src.length) 0 [] u.sent ∧
        s.os.read + 1 + 4 * chunkCount src.length ≤ u.os.read) s := by
  have hstart : Once src 0 0 [] s.sent := by
    rw [hs.sent]
    exact .start src
  have hcold : (coldRead fd offset src.length).Keeps (kernel (socket fun _ => Y) arrives False)
      fun u : Store => u.sent = s.sent :=
    .bind (recvControl_keeps (sent_control _ _ _) 1) fun _ =>
      submitRead_keeps (sent_ofAccounts _) (sent_submit _ _ _) _ _ _
  rw [sendFile_eq]
  refine Sat.andThen (silent_sat (coldRead_sat hs hf) hcold hstart.single) fun _ t ht => ?_
  obtain ⟨ht, hsent⟩ := ht
  rw [← hsent] at hstart
  refine Sat.andThen (ht.waited_once hsrc hstart) fun _ x hx => ?_
  apply Sat.round fun k (t : Store) => k ≤ chunkCount src.length ∧ Ready src fd s.os.read f k t ∧
    Once src k 0 [] t.sent
  · exact ⟨Nat.zero_le _, hx⟩
  intro k t hk
  obtain ⟨hle, ht, honce⟩ := hk
  refine ⟨honce.single, (sendNext_once hsrc ht honce).weaken fun r y hy => ?_⟩
  cases r with
  | inl k' =>
    obtain ⟨rfl, hlt, hy⟩ := hy
    exact ⟨hlt, hy⟩
  | inr _ =>
    obtain ⟨hge, rfl⟩ := hy
    have hend : k = chunkCount src.length := Nat.le_antisymm hle hge
    subst hend
    exact ⟨honce.single, honce, ht.acked⟩

/-- One for each fragment, in order. -/
def datagrams (src : Bytes) : List Bytes :=
  (List.range (chunkCount src.length)).flatMap fun k =>
    (List.range (fragCount (chunkLenAt src.length k))).map (datagram src k)

theorem mem_datagrams {d : Bytes} : d ∈ datagrams src ↔ ∃ k i, Piece src k i ∧ d = datagram src k i := by
  simp only [datagrams, List.mem_flatMap, List.mem_map, List.mem_range]
  constructor
  · intro h
    obtain ⟨k, hk, i, hi, rfl⟩ := h
    exact ⟨k, i, ⟨hk, hi⟩, rfl⟩
  · intro h
    obtain ⟨k, i, hpiece, rfl⟩ := h
    exact ⟨k, hpiece.chunk, i, hpiece.frag, rfl⟩

theorem datagrams_nodup (src : Bytes) : (datagrams src).Nodup := by
  rw [datagrams, List.nodup_flatMap]
  constructor
  · intro k hk
    refine List.Nodup.map_on ?_ List.nodup_range
    intro i hi i' hi' heq
    rw [List.mem_range] at hk hi hi'
    exact (Piece.unique ⟨hk, hi⟩ ⟨hk, hi'⟩ heq).2
  · refine List.Pairwise.imp_of_mem ?_ List.nodup_range
    intro k k' hk hk' hne d hd hd'
    obtain ⟨i, hi, rfl⟩ := List.mem_map.mp hd
    obtain ⟨i', hi', heq⟩ := List.mem_map.mp hd'
    rw [List.mem_range] at hk hk' hi hi'
    exact hne (Piece.unique ⟨hk', hi'⟩ ⟨hk, hi⟩ heq).1.symm

theorem Once.mem (h : Once src k n out sent) {d : Bytes} (hd : d ∈ sent) : d ∈ datagrams src := by
  obtain ⟨j, i, hpiece, rfl, -⟩ := h.known d hd
  exact mem_datagrams.mpr ⟨j, i, hpiece, rfl⟩

/-- `send_file` sends nothing but the datagrams of its source, none of them twice, and has sent
each of them once it returns. -/
theorem send_file_once (src f : Bytes) (fd : Path) (offset : ℕ) (w : World) (registered : Bool)
    (Y : Bytes) (hf : w.files fd = some f) (hsrc : slice f offset src.length = src) :
    (∀ q u, Reaches (kernel (socket fun _ => Y) (fun _ _ => False) False)
        (sendFile fd offset src.length, Store.init w registered) (q, u) →
      u.sent.Nodup ∧ u.sent ⊆ datagrams src) ∧
    ∀ u, Reaches (kernel (socket fun _ => Y) (fun _ _ => False) False)
        (sendFile fd offset src.length, Store.init w registered) (.ret (), u) →
      u.sent.Perm (datagrams src) := by
  have hholds : Holds f offset src := Octets.holds_iff.mpr hsrc
  have hsat : Sat (Γ := Udp) (kernel (socket fun _ => Y) (fun _ _ => False) False) _ _ _ _ _ :=
    sendFile_sat hholds (idle_init w registered) hf
  have honce : Sat (Γ := Udp) (kernel (socket fun _ => Y) (fun _ _ => False) False) _ _ _ _ _ :=
    sendFile_once hholds (idle_init w registered) hf
  constructor
  · intro q u hrun
    refine ⟨honce.visited hrun, fun d hd => ?_⟩
    obtain ⟨k, i, hpiece, -, rfl⟩ := (hsat.visited hrun).genuine d hd
    exact mem_datagrams.mpr ⟨k, i, hpiece, rfl⟩
  · intro u hrun
    have hall := hsat.returned hrun
    have hend := (honce.returned hrun).1
    refine (List.perm_ext_iff_of_nodup hend.single (datagrams_nodup src)).mpr fun d => ?_
    refine ⟨hend.mem, fun hd => ?_⟩
    obtain ⟨k, i, hpiece, rfl⟩ := mem_datagrams.mp hd
    exact hall k i hpiece

theorem send_file_once_letter : ∃ u,
    Reaches (kernel (socket fun _ => ShortTransfers.ready) (fun _ _ => False) False)
      (sendFile [97] 0 1, letterStore) (.ret (), u) ∧ u.sent.Perm (datagrams [104]) := by
  have hreturns : Returns (kernel (socket fun _ => ShortTransfers.ready) (fun _ _ => False) False)
      (sendFile [97] 0 1) _ letterStore :=
    ShortTransfers.letter_sent le_rfl fun hlt => absurd hlt (Nat.lt_irrefl 1)
  obtain ⟨_, u, hrun, -⟩ := hreturns
  exact ⟨u, hrun, (send_file_once [104] [104] [97] 0 (.init letterFile) false ShortTransfers.ready
    rfl rfl).2 u hrun⟩

end Embr.UdpTransport
