import Embr.QuicRules

/-!
# The sending half

`Held` is the retention of blocks: a byte that is accepted and not acknowledged
belongs to a block of `unacked_`. `Between` is the sending half between two
calls and `Writing` in the middle of `write_stream`, where ngtcp2 may be ahead
of `stream_offset_` and the last block may have gone already.
-/

open Octets Interact
namespace Embr.QuicTransport

structure Held (o : Outgoing) : Prop where
  acked : o.acked ≤ o.accepted.length
  fresh : ∀ u ∈ o.unacked, u.block < o.blocks
  tags : ∀ x ∈ o.accepted, x.1 < o.blocks
  ends : ∀ k x, o.accepted[k]? = some x → ∀ u ∈ o.unacked, u.block = x.1 → k < u.endOffset
  retained : ∀ k x, o.acked ≤ k → o.accepted[k]? = some x → ∃ u ∈ o.unacked, u.block = x.1

structure Whole (bound : ℕ) (o : Outgoing) : Prop where
  sorted : o.unacked.Pairwise fun u v => u.endOffset ≤ v.endOffset
  ends : ∀ u ∈ o.unacked, o.acked < u.endOffset ∧ u.endOffset ≤ bound

structure Between (sent : Bytes) (whole : Prop) (o : Outgoing) : Prop where
  held : Held o
  stream : o.accepted.map Prod.snd = sent
  offset : o.streamOffset = o.accepted.length
  all : whole → Whole o.accepted.length o

structure Writing (sent : Bytes) (whole : Prop) (block : ℕ) (buf : Bytes) (a k : ℕ)
    (o : Outgoing) : Prop where
  held : Held o
  stream : o.accepted.map Prod.snd = sent ++ buf.take k
  le : k ≤ buf.length
  offset : o.streamOffset = sent.length + a
  known : block < o.blocks
  alone : ∀ u ∈ o.unacked, u.block = block → u = ⟨sent.length + buf.length, block, buf⟩
  present : o.acked < sent.length + buf.length →
    ⟨sent.length + buf.length, block, buf⟩ ∈ o.unacked
  all : whole → Whole (sent.length + buf.length) o

structure Offered (sent buf : Bytes) (o : Outgoing) : Prop where
  held : Held o
  sent : ∃ p, p <+: buf ∧ o.accepted.map Prod.snd = sent ++ p

section outgoing
variable {sent buf : Bytes} {whole : Prop} {block a k n bound : ℕ} {o : Outgoing}

theorem mem_dropWhile {α : Type} {p : α → Bool} {l : List α} {x : α} (hx : x ∈ l)
    (hp : p x = false) : x ∈ l.dropWhile p := by
  induction l with
  | nil => cases hx
  | cons y l ih =>
    rw [List.dropWhile_cons]
    split_ifs with hy
    · rcases List.mem_cons.mp hx with rfl | hx
      · exact absurd hy (by simp [hp])
      · exact ih hx
    · exact hx

theorem lt_of_mem_dropWhile {l : List Unacked} {u : Unacked} {acked : ℕ}
    (hsorted : l.Pairwise fun u v => u.endOffset ≤ v.endOffset)
    (hu : u ∈ l.dropWhile fun u => u.endOffset ≤ acked) : acked < u.endOffset := by
  induction l with
  | nil => cases hu
  | cons v l ih =>
    rw [List.dropWhile_cons] at hu
    rw [List.pairwise_cons] at hsorted
    split_ifs at hu with hv
    · exact ih hsorted.2 hu
    · simp only [decide_eq_true_eq, not_le] at hv
      rcases List.mem_cons.mp hu with rfl | hu
      · exact hv
      · have hle := hsorted.1 u hu
        omega

theorem Held.ack (h : Held o) {datalen : ℕ} (hle : o.acked + datalen ≤ o.accepted.length) :
    Held (o.onAckedStreamDataOffset o.acked datalen) := by
  have hsub : (o.onAckedStreamDataOffset o.acked datalen).unacked ⊆ o.unacked :=
    (List.dropWhile_sublist _).subset
  refine ⟨hle, fun u hu => h.fresh u (hsub hu), h.tags, fun k x hx u hu => h.ends k x hx u (hsub hu),
    ?_⟩
  intro k x hk hx
  have hk : o.acked + datalen ≤ k := hk
  obtain ⟨u, hu, hblock⟩ := h.retained k x (by omega) hx
  have hend := h.ends k x hx u hu hblock
  refine ⟨u, mem_dropWhile hu ?_, hblock⟩
  simp only [decide_eq_false_iff_not, not_le]
  omega

theorem Whole.ack (h : Whole bound o) (datalen : ℕ) :
    Whole bound (o.onAckedStreamDataOffset o.acked datalen) := by
  have hsub : (o.onAckedStreamDataOffset o.acked datalen).unacked.Sublist o.unacked :=
    List.dropWhile_sublist _
  refine ⟨h.sorted.sublist hsub, ?_⟩
  intro u hu
  exact ⟨lt_of_mem_dropWhile h.sorted hu, (h.ends u (hsub.subset hu)).2⟩

theorem between_stable (sent : Bytes) (whole : Prop) : Outgoing.Stable (Between sent whole) := by
  intro o datalen h hle
  exact ⟨h.held.ack hle, h.stream, h.offset, fun hw => (h.all hw).ack datalen⟩

theorem writing_stable (sent : Bytes) (whole : Prop) (block : ℕ) (buf : Bytes) (a k : ℕ) :
    Outgoing.Stable (Writing sent whole block buf a k) := by
  intro o datalen h hle
  have hsub : (o.onAckedStreamDataOffset o.acked datalen).unacked ⊆ o.unacked :=
    (List.dropWhile_sublist _).subset
  refine ⟨h.held.ack hle, h.stream, h.le, h.offset, h.known, fun u hu => h.alone u (hsub hu), ?_,
    fun hw => (h.all hw).ack datalen⟩
  intro hlt
  have hlt : o.acked + datalen < sent.length + buf.length := hlt
  apply mem_dropWhile (h.present (by omega))
  simp only [decide_eq_false_iff_not, not_le]
  omega

theorem Between.offered (h : Between sent whole o) (buf : Bytes) : Offered sent buf o :=
  ⟨h.held, [], List.nil_prefix, by simpa using h.stream⟩

theorem Writing.offered (h : Writing sent whole block buf a k o) : Offered sent buf o :=
  ⟨h.held, buf.take k, List.take_prefix _ _, h.stream⟩

theorem Writing.length (h : Writing sent whole block buf a k o) :
    o.accepted.length = sent.length + k := by
  have hlen := congrArg List.length h.stream
  simp only [List.length_map, List.length_append, List.length_take] at hlen
  have hle := h.le
  omega

theorem Writing.reads (h : Writing sent whole block buf a k o) (hk : k < buf.length) :
    ⟨sent.length + buf.length, block, buf⟩ ∈ o.unacked := by
  apply h.present
  have hlen := h.length
  have hacked := h.held.acked
  omega

theorem Writing.accept (h : Writing sent whole block buf a k o) (hn : k + n ≤ buf.length) :
    Writing sent whole block buf a (k + n)
      { o with accepted := o.accepted ++ ((buf.drop k).take n).map fun b => (block, b) } := by
  have hlen := h.length
  have hnew : ∀ j x, (o.accepted ++ ((buf.drop k).take n).map fun b => (block, b))[j]? = some x →
      o.accepted[j]? = some x ∨ x.1 = block ∧ j < sent.length + buf.length := by
    intro j x hx
    rw [List.getElem?_append] at hx
    split_ifs at hx with hj
    · exact .inl hx
    · obtain ⟨hj', heq⟩ := List.getElem?_eq_some_iff.mp hx
      simp only [List.length_map, List.length_take, List.length_drop] at hj'
      rw [List.getElem_map] at heq
      refine .inr ⟨?_, ?_⟩
      · rw [← heq]
      · omega
  refine ⟨⟨?_, h.held.fresh, ?_, ?_, ?_⟩, ?_, hn, h.offset, h.known, h.alone, h.present, ?_⟩
  · have hacked := h.held.acked
    change o.acked ≤ _
    rw [List.length_append]
    omega
  · intro x hx
    rcases List.mem_append.mp hx with hx | hx
    · exact h.held.tags x hx
    · obtain ⟨b, -, rfl⟩ := List.mem_map.mp hx
      exact h.known
  · intro j x hx u hu hblock
    rcases hnew j x hx with hx | ⟨hx, hj⟩
    · exact h.held.ends j x hx u hu hblock
    · rw [h.alone u hu (hblock.trans hx)]
      exact hj
  · intro j x hj hx
    rcases hnew j x hx with hx | ⟨hx, hlt⟩
    · exact h.held.retained j x hj hx
    · have hj : o.acked ≤ j := hj
      exact ⟨_, h.present (by omega), hx.symm⟩
  · rw [List.map_append, h.stream, List.map_map, List.take_add, List.append_assoc]
    congr 2
    exact List.map_id' _
  · intro hw
    exact ⟨(h.all hw).sorted, (h.all hw).ends⟩

theorem Writing.advance (h : Writing sent whole block buf a (a + n) o) :
    Writing sent whole block buf (a + n) (a + n) { o with streamOffset := o.streamOffset + n } := by
  refine ⟨⟨h.held.acked, h.held.fresh, h.held.tags, h.held.ends, h.held.retained⟩, h.stream, h.le, ?_,
    h.known, h.alone, h.present, fun hw => ⟨(h.all hw).sorted, (h.all hw).ends⟩⟩
  have hoff := h.offset
  change o.streamOffset + n = _
  omega

theorem Between.retain (h : Between sent whole o) (hpos : 0 < buf.length) :
    Writing sent whole o.blocks buf 0 0 (o.retain buf) := by
  have hlen : o.accepted.length = sent.length := by
    rw [← h.stream, List.length_map]
  have hmem : ∀ u, u ∈ (o.retain buf).unacked ↔
      u ∈ o.unacked ∨ u = ⟨o.streamOffset + buf.length, o.blocks, buf⟩ := by
    intro u
    simp [Outgoing.retain]
  refine ⟨⟨h.held.acked, ?_, ?_, ?_, ?_⟩, ?_, Nat.zero_le _, ?_, Nat.lt_succ_self _, ?_, ?_, ?_⟩
  · intro u hu
    change u.block < o.blocks + 1
    rcases (hmem u).mp hu with hu | rfl
    · have hlt := h.held.fresh u hu
      omega
    · exact Nat.lt_succ_self _
  · intro x hx
    have hlt := h.held.tags x hx
    change x.1 < o.blocks + 1
    omega
  · intro k x hx u hu hblock
    rcases (hmem u).mp hu with hu | rfl
    · exact h.held.ends k x hx u hu hblock
    · have hlt := h.held.tags x (List.mem_of_getElem? hx)
      rw [← hblock] at hlt
      exact absurd hlt (lt_irrefl _)
  · intro k x hk hx
    obtain ⟨u, hu, hblock⟩ := h.held.retained k x hk hx
    exact ⟨u, (hmem u).mpr (.inl hu), hblock⟩
  · simpa [Outgoing.retain] using h.stream
  · change o.streamOffset = _
    rw [h.offset, hlen]
    rfl
  · intro u hu hblock
    rcases (hmem u).mp hu with hu | rfl
    · have hlt := h.held.fresh u hu
      rw [hblock] at hlt
      exact absurd hlt (lt_irrefl _)
    · rw [h.offset, hlen]
  · intro _
    rw [hmem, h.offset, hlen]
    exact .inr rfl
  · intro hw
    obtain ⟨hsorted, hends⟩ := h.all hw
    have hacked := h.held.acked
    constructor
    · change (o.unacked ++ [_]).Pairwise _
      rw [List.pairwise_append]
      refine ⟨hsorted, List.pairwise_singleton _ _, ?_⟩
      intro u hu v hv
      rw [List.mem_singleton.mp hv]
      have hle := (hends u hu).2
      change u.endOffset ≤ o.streamOffset + buf.length
      rw [h.offset]
      omega
    · intro u hu
      change o.acked < u.endOffset ∧ _
      rcases (hmem u).mp hu with hu | rfl
      · have hle := hends u hu
        omega
      · change o.acked < o.streamOffset + buf.length ∧ o.streamOffset + buf.length ≤ _
        rw [h.offset]
        omega

theorem Writing.finish (h : Writing sent whole block buf buf.length buf.length o) :
    Between (sent ++ buf) whole o := by
  have hlen := h.length
  refine ⟨h.held, ?_, ?_, ?_⟩
  · rw [h.stream, List.take_length]
  · rw [h.offset, hlen]
  · intro hw
    rw [hlen]
    exact h.all hw

theorem Writing.abandon (h : Writing sent whole block buf a a o) :
    Between (sent ++ buf.take a) False o := by
  refine ⟨h.held, h.stream, ?_, False.elim⟩
  rw [h.offset, h.length]

end outgoing

def fileRange (files : Path → ℕ → UInt8) (fd : Path) (offset len : ℕ) : Bytes :=
  (List.range len).map fun i => files fd (offset + i)

theorem slice_map_range (f : ℕ → UInt8) (base delta len : ℕ) :
    slice ((List.range (len + delta)).map fun i => f (base + i)) delta len =
      (List.range len).map fun i => f (base + delta + i) := by
  apply List.ext_getElem?
  intro i
  rw [getElem?_slice]
  by_cases hi : i < len
  · simp [hi, show delta + i < len + delta by omega, Nat.add_assoc]
  · simp [hi]

theorem pageBase_le (offset page : ℕ) : pageBase offset page ≤ offset := Nat.and_le_left

section write
variable {entries : ℕ} {E : Env Quic} {L : Incoming → Prop} {X : Exc → Store → Prop} {s t : Store}
  {sent buf : Bytes} {whole : Prop} {block a k : ℕ}
  (hE : ∀ o s r t, E o s r t → world entries o s r t) (hL : Incoming.Stable L)

def Failed (entries : ℕ) (L : Incoming → Prop) (sent buf : Bytes) (u : Store) : Prop :=
  (∃ a, Sound entries (Between (sent ++ buf.take a) False) L u) ∧
    (zcSlots ≤ entries → u.errno ≠ EAGAIN)

theorem Sound.out_mono {J J' : Outgoing → Prop} (h : Sound entries J L s)
    (hJ : J s.toOutgoing → J' s.toOutgoing) : Sound entries J' L s :=
  ⟨hJ h.out, h.inc, h.ring, h.init⟩

theorem points_offered {o : Option Op} (h : Points (Writing sent whole block buf a k) L o s) :
    Points (Offered sent buf) L o s := ⟨h.out.offered, h.inc, h.reads⟩

theorem Failed.points {u : Store} (h : Failed entries L sent buf u) :
    Points (Offered sent buf) L none u := by
  obtain ⟨⟨a, hu⟩, -⟩ := h
  exact .none_of ⟨hu.out.held, _, List.take_prefix a buf, hu.out.stream⟩ hu.inc

theorem between_points {o : Option Op} (h : Points (Between sent whole) L o s) (buf : Bytes) :
    Points (Offered sent buf) L o s := ⟨h.out.offered buf, h.inc, h.reads⟩

def Cut (entries : ℕ) (L : Incoming → Prop) (sent buf : Bytes) (u : Store) : Prop :=
  ∃ p, p <+: buf ∧ Sound entries (Between (sent ++ p) False) L u

theorem Failed.cut {u : Store} (h : Failed entries L sent buf u) : Cut entries L sent buf u := by
  obtain ⟨⟨a, hu⟩, -⟩ := h
  exact ⟨_, List.take_prefix a buf, hu⟩

theorem Sound.cut (h : Sound entries (Between sent whole) L s) (buf : Bytes) :
    Cut entries L sent buf s := by
  refine ⟨[], List.nil_prefix, h.out_mono fun h => ⟨h.held, ?_, h.offset, False.elim⟩⟩
  simpa using h.stream

include hE hL

theorem pumpOr_writing (hs : Sound entries (Writing sent whole block buf a a) L s) :
    Sat E (Points (Offered sent buf) L) X (pumpOr a)
      (fun r u => match r with
        | .inl a' => Sound entries (Writing sent whole block buf a' a') L u
        | .inr ok => ok = false ∧ Failed entries L sent buf u) s := by
  refine ((pumpOr_sat hE (writing_stable _ _ _ _ _ _) hL a hs).inside
    (fun _ _ h => points_offered h)).weaken ?_
  intro r u hu
  obtain ⟨hu, rfl | ⟨rfl, herrno⟩⟩ := hu
  · exact hu
  · exact ⟨rfl, ⟨a, hu.out_mono Writing.abandon⟩, fun _ => herrno⟩

theorem writeSome_sat (ha : a < buf.length)
    (hs : Sound entries (Writing sent whole block buf a a) L s) :
    Sat E (Points (Offered sent buf) L) X (writeSome block buf a)
      (fun r u => match r with
        | .inl a' => Sound entries (Writing sent whole block buf a' a') L u
        | .inr ok => ok = false ∧ Failed entries L sent buf u) s := by
  refine Sat.seq (beginPacket_sat hE hs) (fun _ _ h => points_offered h) ?_
  intro dest t ht
  refine Sat.andThen (writev_sat hE (writing_stable _ _ _ _ _ _) hL
    (F := fun k => Writing sent whole block buf a (a + k)) (.data block a (buf.drop a))
    (fun _ _ h => points_offered h) (fun _ _ hout hinc => .none_of hout.offered hinc) ?_ ?_ ht) ?_
  · intro o ho dest block' pos bs heq
    cases heq
    exact ⟨_, ho.reads ha, rfl, rfl⟩
  · intro k o ho hk
    simp only [Payload.bytes, List.length_map, List.length_drop] at hk
    simp only [Payload.bytes, ← List.map_take]
    exact ho.accept (by omega)
  intro r u hu
  obtain ⟨k, ⟨-, hr⟩, hu⟩ := hu
  have hpoint : Points (Offered sent buf) L none u := .none_of hu.out.offered hu.inc
  cases hcode : r.1 with
  | error e =>
    simp only [hcode] at hr ⊢
    subst hr
    have hu := hu.sound
    by_cases hblocked : e = .streamDataBlocked
    · rw [if_pos hblocked]
      exact pumpOr_writing hE hL hu
    · rw [if_neg hblocked]
      refine Sat.seq (closeOnError_sat hE (writing_stable _ _ _ _ _ _) hL e hu)
        (fun _ _ h => points_offered h) ?_
      intro _ v hv
      refine Sat.seq (setErrno_sat EIO hv) (fun _ _ h => points_offered h) ?_
      intro _ w hw
      obtain ⟨hw, herrno⟩ := hw
      refine sat_pure.mpr ⟨points_offered hw.points, rfl, ⟨a, hw.out_mono Writing.abandon⟩, ?_⟩
      intro _
      rw [herrno]
      decide
  | ok n =>
    simp only [hcode] at hr ⊢
    obtain ⟨hle, hzero, hpos⟩ := hr
    by_cases hn : n = 0
    · rw [if_pos hn]
      rw [hzero hn] at hu
      exact pumpOr_writing hE hL hu.sound
    · rw [if_neg hn, hpos (by omega)]
      have hadvanced : Ready entries (Writing sent whole block buf (a + k) (a + k)) L dest
          { u with streamOffset := u.streamOffset + k } :=
        ⟨hu.out.advance, hu.inc, hu.slot, hu.buffer, hu.init⟩
      refine sat_modify_bind.mpr ⟨hpoint, ?_⟩
      refine Sat.seq (sendPacket_sat hE hadvanced (by omega) hle)
        (fun _ _ h => points_offered h) ?_
      intro sr v hv
      obtain ⟨hv, herrno⟩ := hv
      cases sr with
      | ok => exact sat_pure.mpr ⟨points_offered hv.points, hv⟩
      | blocked => exact pumpOr_writing hE hL hv
      | failed =>
        exact sat_pure.mpr ⟨points_offered hv.points, rfl, ⟨_, hv.out_mono Writing.abandon⟩,
          herrno rfl⟩

theorem writeStream_sat (hs : Sound entries (Writing sent whole block buf 0 0) L s) :
    Sat E (Points (Offered sent buf) L) X (writeStream block buf)
      (fun r u => (r = some buf.length ∧ Sound entries (Between (sent ++ buf) whole) L u) ∨
        (r = none ∧ Failed entries L sent buf u)) s := by
  have hloop : Sat E (Points (Offered sent buf) L) X
      (.repeatUntil (fun accepted =>
        if accepted < buf.length then writeSome block buf accepted else pure (.inr true)) 0)
      (fun ok u => (ok = true ∧ Sound entries (Between (sent ++ buf) whole) L u) ∨
        (ok = false ∧ Failed entries L sent buf u)) s := by
    apply Sat.round (fun a u => Sound entries (Writing sent whole block buf a a) L u)
    · exact hs
    intro a t ht
    refine ⟨points_offered ht.points, ?_⟩
    split_ifs with ha
    · refine (writeSome_sat hE hL ha ht).weaken ?_
      intro r u hu
      cases r with
      | inl a' => exact hu
      | inr ok => exact ⟨hu.2.points, .inr hu⟩
    · have hle := ht.out.le
      have haeq : a = buf.length := by omega
      rw [haeq] at ht
      have hdone := ht.out_mono Writing.finish
      exact sat_pure.mpr ⟨points_offered ht.points, points_offered ht.points, .inl ⟨rfl, hdone⟩⟩
  refine Sat.andThen hloop ?_
  intro ok t ht
  rcases ht with ⟨rfl, ht⟩ | ⟨rfl, ht⟩
  · rw [if_pos rfl]
    have hall : ∀ {o : Option Op} {u : Store}, Points (Between (sent ++ buf) whole) L o u →
        Points (Offered sent buf) L o u := by
      intro o u hu
      exact ⟨⟨hu.out.held, buf, List.prefix_refl _, hu.out.stream⟩, hu.inc, hu.reads⟩
    refine Sat.seq (flushPackets_sat hE ht) (fun _ _ h => hall h) ?_
    intro _ u hu
    exact sat_pure.mpr ⟨hall hu.points, .inl ⟨rfl, hu⟩⟩
  · rw [if_neg (by simp)]
    exact sat_pure.mpr ⟨ht.points, .inr ⟨rfl, ht⟩⟩

theorem retain_write_sat (hpos : 0 < buf.length) (hs : Sound entries (Between sent whole) L s) :
    Sat E (Points (Offered sent buf) L) X (do
      let block ← retain buf
      writeStream block buf)
      (fun r u => (r = some buf.length ∧ Sound entries (Between (sent ++ buf) whole) L u) ∨
        (r = none ∧ Failed entries L sent buf u)) s := by
  have hnew : Sound entries (Writing sent whole s.blocks buf 0 0) L
      { s with toOutgoing := s.toOutgoing.retain buf } :=
    ⟨hs.out.retain hpos, hs.inc, hs.ring, hs.init⟩
  exact ⟨between_points hs.points buf, writeStream_sat hE hL hnew⟩

theorem send_sat (hs : Sound entries (Between sent whole) L s)
    (hX : ∀ e u, Sound entries (Between sent whole) L u → X e u) :
    Sat E (Points (Offered sent buf) L) X (send buf)
      (fun r u => (r = some buf.length ∧ Sound entries (Between (sent ++ buf) whole) L u) ∨
        (r = none ∧ Failed entries L sent buf u)) s := by
  refine sat_get_bind.mpr ⟨between_points hs.points buf, ?_⟩
  split_ifs with hclosed hstream hlen
  · refine Sat.seq (setErrno_sat ENOTCONN hs) (fun _ _ h => between_points h buf) ?_
    intro _ u hu
    obtain ⟨hu, herrno⟩ := hu
    refine sat_pure.mpr ⟨between_points hu.points buf, .inr ⟨rfl, ⟨0, ?_⟩, ?_⟩⟩
    · refine hu.out_mono fun h => ⟨h.held, ?_, h.offset, False.elim⟩
      simpa using h.stream
    · intro _
      rw [herrno]
      decide
  · exact sat_raise.mpr ⟨between_points hs.points buf, hX _ _ hs⟩
  · have hnil : buf = [] := List.length_eq_zero_iff.mp hlen
    refine sat_pure.mpr ⟨between_points hs.points buf, .inl ⟨by rw [hlen], ?_⟩⟩
    rw [hnil, List.append_nil]
    exact hs
  · exact retain_write_sat hE hL (by omega) hs

theorem sendExact_sat (hentries : zcSlots ≤ entries)
    (hs : Sound entries (Between sent whole) L s) :
    Sat E (Points (Offered sent buf) L) (fun _ u => Cut entries L sent buf u)
      (sendExact quicTransport buf)
      (fun _ u => Sound entries (Between (sent ++ buf) whole) L u) s := by
  have hall : ∀ {u}, Sound entries (Between (sent ++ buf) whole) L u →
      Points (Offered sent buf) L none u := by
    intro u hu
    exact .none_of ⟨hu.out.held, buf, List.prefix_refl _, hu.out.stream⟩ hu.inc
  apply Sat.round (fun n u => (n = 0 ∧ Sound entries (Between sent whole) L u) ∨
    (n = buf.length ∧ Sound entries (Between (sent ++ buf) whole) L u))
  · exact .inl ⟨rfl, hs⟩
  intro n t ht
  rcases ht with ⟨rfl, ht⟩ | ⟨rfl, ht⟩
  · refine ⟨between_points ht.points buf, ?_⟩
    split_ifs with hpos
    · rw [List.drop_zero]
      refine Sat.andThen (send_sat hE hL ht fun _ _ h => h.cut buf) ?_
      intro r u hu
      rcases hu with ⟨rfl, hu⟩ | ⟨rfl, hu⟩
      · dsimp only
        rw [if_neg (by omega)]
        exact sat_pure.mpr ⟨hall hu, .inr ⟨Nat.zero_add _, hu⟩⟩
      · have hagain := hu.2 hentries
        refine sat_get_bind.mpr ⟨hu.points, ?_⟩
        rw [if_neg]
        · exact sat_raise.mpr ⟨hu.points, hu.cut⟩
        · intro hretry
          rcases hretry with hretry | hretry
          · exact hagain hretry
          · exact hagain hretry
    · have hnil : buf = [] := List.length_eq_zero_iff.mp (by omega)
      subst hnil
      refine sat_pure.mpr ⟨between_points ht.points _, between_points ht.points _, ?_⟩
      simpa using ht
  · refine ⟨hall ht, ?_⟩
    rw [if_neg (lt_irrefl _)]
    exact sat_pure.mpr ⟨hall ht, hall ht, ht⟩

theorem sendExact_held_sat (hs : Sound entries (Between sent whole) L s) :
    Sat E (Points Held L) (fun _ u => ∃ sent', Sound entries (Between sent' False) L u)
      (sendExact quicTransport buf)
      (fun _ u => ∃ sent', Sound entries (Between sent' False) L u) s := by
  have hpoints : ∀ {sent' buf' o u}, Points (Offered sent' buf') L o u → Points Held L o u :=
    fun h => ⟨h.out.held, h.inc, h.reads⟩
  have hlost : ∀ {sent' whole' u}, Sound entries (Between sent' whole') L u →
      Sound entries (Between sent' False) L u :=
    fun h => h.out_mono fun h => ⟨h.held, h.stream, h.offset, False.elim⟩
  apply Sat.round (fun _ u => ∃ sent', Sound entries (Between sent' False) L u)
  · exact ⟨sent, hlost hs⟩
  intro n t ht
  obtain ⟨sent', ht⟩ := ht
  have hpoint := hpoints (between_points ht.points buf)
  refine ⟨hpoint, ?_⟩
  split_ifs
  · refine Sat.seq (send_sat hE hL ht fun _ _ h => ⟨sent', h⟩) (fun _ _ h => hpoints h) ?_
    intro r u hu
    have hnext : ∃ sent'', Sound entries (Between sent'' False) L u := by
      rcases hu with ⟨-, hu⟩ | ⟨-, ⟨a, hu⟩, -⟩
      · exact ⟨_, hu⟩
      · exact ⟨_, hu⟩
    have hpoint : Points Held L none u := by
      obtain ⟨_, hnext⟩ := hnext
      exact .none_of hnext.out.held hnext.inc
    cases r with
    | some n =>
      dsimp only
      split_ifs
      · exact sat_raise.mpr ⟨hpoint, hnext⟩
      · exact sat_pure.mpr ⟨hpoint, hnext⟩
    | none =>
      refine sat_get_bind.mpr ⟨hpoint, ?_⟩
      split_ifs
      · exact sat_pure.mpr ⟨hpoint, hnext⟩
      · exact sat_raise.mpr ⟨hpoint, hnext⟩
  · exact sat_pure.mpr ⟨hpoint, hpoint, sent', ht⟩

theorem sendFile_sat (fd : Path) (offset len : ℕ) (hs : Sound entries (Between sent whole) L s)
    (hbuf : buf = fileRange s.files fd offset len) :
    Sat E (Points (Offered sent buf) L) (fun _ u => Cut entries L sent buf u)
      (sendFile fd offset len)
      (fun _ u => Sound entries (Between (sent ++ buf) whole) L u) s := by
  have hpoints : ∀ {o : Option Op} {u}, Points (Between sent whole) L o u →
      Points (Offered sent buf) L o u := fun h => between_points h buf
  rw [sendFile]
  split_ifs with hlen
  · have hnil : buf = [] := by
      rw [hbuf, hlen]
      rfl
    subst hnil
    refine sat_pure.mpr ⟨hpoints hs.points, ?_⟩
    rw [List.append_nil]
    exact hs
  · refine sat_get_bind.mpr ⟨hpoints hs.points, ?_⟩
    split_ifs
    · exact sat_raise.mpr ⟨hpoints hs.points, hs.cut buf⟩
    · exact sat_raise.mpr ⟨hpoints hs.points, hs.cut buf⟩
    · refine sat_ask_bind.mpr ⟨hpoints (hs.pointsAt nofun), ?_⟩
      intro page t ht
      have ht := hE _ _ _ _ ht
      subst ht
      refine sat_ask_bind.mpr ⟨hpoints (hs.pointsAt nofun), ?_⟩
      intro map u hu
      rcases hE _ _ _ _ hu with ⟨rfl, rfl⟩ | ⟨rfl, hfails⟩
      · have hbase := pageBase_le offset page
        have hchunk : slice ((List.range (len + (offset - pageBase offset page))).map fun i =>
            u.files fd (pageBase offset page + i)) (offset - pageBase offset page) len = buf := by
          rw [slice_map_range, hbuf, Nat.add_sub_cancel' hbase]
          rfl
        have hpos : 0 < buf.length := by
          rw [hbuf]
          simp only [fileRange, List.length_map, List.length_range]
          omega
        dsimp only
        rw [hchunk, ← bind_assoc]
        refine Sat.andThen (retain_write_sat hE hL hpos hs) ?_
        intro r v hv
        rcases hv with ⟨rfl, hv⟩ | ⟨rfl, hv⟩
        · exact sat_pure.mpr ⟨.none_of ⟨hv.out.held, buf, List.prefix_refl _, hv.out.stream⟩ hv.inc,
            hv⟩
        · exact throwErrno_sat _ hv.points fun _ => hv.cut
      · have hu := hs.fails hfails
        exact throwErrno_sat _ (hpoints hu.points) fun _ => hu.cut buf

end write

end Embr.QuicTransport
