import Embr.QuicSend

/-!
# The receiving half

Stream bytes go to `recv_buf_`, or straight into the mapping that `recv_file`
has opened. `Received` is the receiving half between two calls, where what the
calls took and what is buffered make up what ngtcp2 delivered; `Landing` is the
same while a file is being received.
-/

open Octets Interact
namespace Embr.QuicTransport

structure Received (got : Bytes) (all : Prop) (files : Path → ℕ → UInt8) (i : Incoming) : Prop where
  dest : i.recvDest = none
  unchanged : i.files = files
  stream : all → got ++ i.recvBuf = i.delivered

/-- Nothing outside the range has been written. -/
def Within (files : Path → ℕ → UInt8) (fd : Path) (offset len : ℕ) (i : Incoming) : Prop :=
  ∀ path k, ¬ (path = fd ∧ offset ≤ k ∧ k < offset + len) → i.files path k = files path k

/-- `recv_dest_` is null or points into a live mapping with room for the rest. -/
def Aimed (i : Incoming) : Prop :=
  i.recvDest = none ∨ ∃ map pos m, i.recvDest = some (map, pos) ∧ i.maps[map]? = some (some m) ∧
    pos + i.recvDestLen ≤ m.len ∧ i.recvDestGot ≤ i.recvDestLen

structure Landing (got : Bytes) (all : Prop) (files : Path → ℕ → UInt8) (fd : Path)
    (offset len map delta : ℕ) (i : Incoming) : Prop where
  dest : i.recvDest = some (map, delta)
  live : ∃ base, base + delta = offset ∧ i.maps[map]? = some (some ⟨fd, base, len + delta⟩)
  size : i.recvDestLen = len
  le : i.recvDestGot ≤ len
  short : i.recvDestGot < len → i.recvBuf = []
  stream : all → got ++ fileRange i.files fd offset i.recvDestGot ++ i.recvBuf = i.delivered
  within : Within files fd offset len i

structure Landed (files : Path → ℕ → UInt8) (fd : Path) (offset len : ℕ) (i : Incoming) : Prop where
  aimed : Aimed i
  within : Within files fd offset len i

section incoming
variable {got : Bytes} {all : Prop} {files : Path → ℕ → UInt8} {fd : Path} {offset len map delta : ℕ}
  {i : Incoming}

theorem overwrite_of_not {f : ℕ → UInt8} {pos k : ℕ} {bs : Bytes}
    (h : ¬ (pos ≤ k ∧ k < pos + bs.length)) : overwrite f pos bs k = f k := if_neg h

theorem overwrite_at {f : ℕ → UInt8} {pos k : ℕ} {bs : Bytes} (h : k < bs.length) :
    overwrite f pos bs (pos + k) = bs[k] := by
  rw [overwrite, if_pos ⟨by omega, by omega⟩, Nat.add_sub_cancel_left]
  simp [h]

theorem fileRange_overwrite (f : Path → ℕ → UInt8) (fd : Path) (offset n : ℕ) (bs : Bytes) :
    fileRange (Function.update f fd (overwrite (f fd) (offset + n) bs)) fd offset (n + bs.length) =
      fileRange f fd offset n ++ bs := by
  apply List.ext_getElem
  · simp [fileRange]
  · intro k hk _
    simp only [fileRange, List.length_map, List.length_range] at hk
    simp only [fileRange, List.getElem_map, List.getElem_range, Function.update_self]
    by_cases hlt : k < n
    · rw [overwrite_of_not (by omega), List.getElem_append_left (by simpa using hlt)]
      simp
    · rw [List.getElem_append_right (by simpa using hlt)]
      simp only [List.length_map, List.length_range]
      have hpos : offset + k = offset + n + (k - n) := by omega
      rw [hpos, overwrite_at (by omega)]

theorem received_stable (got : Bytes) (all : Prop) (files : Path → ℕ → UInt8) :
    Incoming.Stable (Received got all files) where
  recv := by
    intro i fin data h
    have hqueue : i.onRecvStreamData fin data = i.queue fin data data := by
      rw [Incoming.onRecvStreamData, h.dest]
    rw [hqueue]
    refine ⟨h.dest, h.unchanged, ?_⟩
    intro hall
    change got ++ (i.recvBuf ++ data) = i.delivered ++ data
    rw [← List.append_assoc, h.stream hall]
  opened := by
    intro i streamId h
    exact ⟨h.dest, h.unchanged, h.stream⟩

theorem Landing.copyTo (h : Landing got all files fd offset len map delta i) (bs : Bytes) :
    i.copyTo (map, delta) i.recvDestGot bs = { i with
      files := Function.update i.files fd (overwrite (i.files fd) (offset + i.recvDestGot) bs) } := by
  obtain ⟨base, hbase, hlive⟩ := h.live
  simp only [Incoming.copyTo, hlive]
  rw [hbase]

theorem Landing.land (h : Landing got all files fd offset len map delta i) (fin : Bool) (data : Bytes)
    (hbuf : i.recvBuf = []) :
    Landing got all files fd offset len map delta
      ((i.land (map, delta) data (min data.length (i.recvDestLen - i.recvDestGot))).queue fin data
        (data.drop (min data.length (i.recvDestLen - i.recvDestGot)))) := by
  have hlen := h.size
  have hle := h.le
  rw [hlen]
  rw [Incoming.land, h.copyTo]
  have htaken : (data.take (min data.length (len - i.recvDestGot))).length =
      min data.length (len - i.recvDestGot) := by
    rw [List.length_take]
    omega
  refine ⟨h.dest, h.live, hlen, ?_, ?_, ?_, ?_⟩
  · change i.recvDestGot + min data.length (len - i.recvDestGot) ≤ len
    omega
  · intro hlt
    have hlt : i.recvDestGot + min data.length (len - i.recvDestGot) < len := hlt
    change i.recvBuf ++ data.drop (min data.length (len - i.recvDestGot)) = []
    rw [hbuf, List.nil_append, List.drop_eq_nil_iff]
    omega
  · intro hall
    have hstream := h.stream hall
    rw [hbuf, List.append_nil] at hstream
    have hrange := fileRange_overwrite i.files fd offset i.recvDestGot
      (data.take (min data.length (len - i.recvDestGot)))
    rw [htaken] at hrange
    change got ++ fileRange (Function.update i.files fd (overwrite (i.files fd)
      (offset + i.recvDestGot) (data.take (min data.length (len - i.recvDestGot))))) fd offset
        (i.recvDestGot + min data.length (len - i.recvDestGot)) ++
      (i.recvBuf ++ data.drop (min data.length (len - i.recvDestGot))) = i.delivered ++ data
    rw [hrange, hbuf, List.nil_append, ← hstream, List.append_assoc, List.append_assoc,
      List.append_assoc, List.take_append_drop]
  · intro path k hk
    change Function.update i.files fd _ path k = files path k
    by_cases hpath : path = fd
    · subst hpath
      rw [Function.update_self, overwrite_of_not]
      · exact h.within path k hk
      · rw [htaken]
        intro hin
        exact hk ⟨rfl, by omega, by omega⟩
    · rw [Function.update_of_ne hpath]
      exact h.within path k hk

theorem landing_stable (got : Bytes) (all : Prop) (files : Path → ℕ → UInt8) (fd : Path)
    (offset len map delta : ℕ) :
    Incoming.Stable (Landing got all files fd offset len map delta) where
  recv := by
    intro i fin data h
    rw [Incoming.onRecvStreamData, h.dest]
    dsimp only
    split_ifs with hbuf
    · exact h.land fin data hbuf
    · have hle := h.le
      have hfull : ¬ i.recvDestGot < len := fun hlt => hbuf (h.short hlt)
      refine ⟨h.dest, h.live, h.size, h.le, fun hlt => (hfull hlt).elim, ?_, h.within⟩
      intro hall
      change got ++ fileRange i.files fd offset i.recvDestGot ++ (i.recvBuf ++ data) =
        i.delivered ++ data
      rw [← List.append_assoc, h.stream hall]
  opened := by
    intro i streamId h
    exact ⟨h.dest, h.live, h.size, h.le, h.short, h.stream, h.within⟩

theorem Landing.landed (h : Landing got all files fd offset len map delta i) :
    Landed files fd offset len i := by
  obtain ⟨base, -, hlive⟩ := h.live
  refine ⟨.inr ⟨map, delta, _, h.dest, hlive, ?_, ?_⟩, h.within⟩
  · rw [h.size, Nat.add_comm]
  · rw [h.size]
    exact h.le

theorem Received.landed (h : Received got all files i) (fd : Path) (offset len : ℕ) :
    Landed files fd offset len i := by
  refine ⟨.inl h.dest, ?_⟩
  intro path k _
  rw [h.unchanged]

theorem Received.mapFile (h : Received got all files i) (fd : Path) (base delta len : ℕ) :
    Landing got all files fd (base + delta) len i.maps.length delta
      (i.mapFile ⟨fd, base, len + delta⟩ delta len) := by
  have hlive : (i.maps ++ [some (Mapping.mk fd base (len + delta))])[i.maps.length]? =
      some (some ⟨fd, base, len + delta⟩) := by simp
  have hcopy : { i with maps := i.maps ++ [some (Mapping.mk fd base (len + delta))] }.copyTo
      (i.maps.length, delta) 0 (i.recvBuf.take len) = { i with
        maps := i.maps ++ [some (Mapping.mk fd base (len + delta))]
        files := Function.update i.files fd
          (overwrite (i.files fd) (base + delta + 0) (i.recvBuf.take len)) } := by
    simp only [Incoming.copyTo, hlive]
  rw [Incoming.mapFile, Incoming.expect, hcopy]
  have htaken : (i.recvBuf.take len).length = min len i.recvBuf.length := List.length_take
  refine ⟨rfl, ⟨base, rfl, hlive⟩, rfl, Nat.min_le_left _ _, ?_, ?_, ?_⟩
  · intro hlt
    have hlt : min len i.recvBuf.length < len := hlt
    change i.recvBuf.drop len = []
    rw [List.drop_eq_nil_iff]
    omega
  · intro hall
    have hrange := fileRange_overwrite i.files fd (base + delta) 0 (i.recvBuf.take len)
    rw [htaken, Nat.zero_add, Nat.add_zero] at hrange
    change got ++ fileRange (Function.update i.files fd (overwrite (i.files fd) (base + delta)
      (i.recvBuf.take len))) fd (base + delta) (min len i.recvBuf.length) ++ i.recvBuf.drop len =
      i.delivered
    rw [hrange, ← h.stream hall]
    have hnil : fileRange i.files fd (base + delta) 0 = [] := rfl
    rw [hnil, List.nil_append, List.append_assoc, List.take_append_drop]
  · intro path k hk
    change Function.update i.files fd _ path k = files path k
    rw [← h.unchanged]
    by_cases hpath : path = fd
    · subst hpath
      rw [Function.update_self, overwrite_of_not]
      rw [htaken]
      intro hin
      exact hk ⟨rfl, by omega, by omega⟩
    · rw [Function.update_of_ne hpath]

theorem Landing.unmap (h : Landing got all files fd offset len map delta i)
    (hfull : ¬ i.recvDestGot < len) :
    Received (got ++ fileRange i.files fd offset len) all i.files (i.unmap map) := by
  refine ⟨rfl, rfl, ?_⟩
  intro hall
  have hle := h.le
  have hgot : i.recvDestGot = len := by omega
  have hstream := h.stream hall
  rw [hgot] at hstream
  exact hstream

end incoming

section receive
variable {entries : ℕ} {E : Env Quic} {J : Outgoing → Prop} {X : Exc → Store → Prop} {s t : Store}
  {got : Bytes} {all : Prop} {files : Path → ℕ → UInt8} {fd : Path} {offset len map delta : ℕ}
  (hE : ∀ o s r t, E o s r t → world entries o s r t) (hJ : Outgoing.Stable J)

theorem Sound.inc_of {L L' : Incoming → Prop} (h : Sound entries J L s) {i : Incoming}
    (hL : L' i) : Sound entries J L' { s with toIncoming := i } :=
  ⟨h.out, hL, h.ring, h.init⟩

include hE hJ

theorem recv_sat (len : ℕ) (hs : Sound entries J (Received got all files) s) :
    Sat E (Points J (Landed files fd offset 0)) X (recv len)
      (fun r u => ∃ bs, (r = some bs ∨ r = none ∧ bs = []) ∧
        Sound entries J (Received (got ++ bs) all files) u) s := by
  have hpoints : ∀ {g o u}, Points J (Received g all files) o u →
      Points J (Landed files fd offset 0) o u :=
    fun h => ⟨h.out, h.inc.landed fd offset 0, h.reads⟩
  refine Sat.seq (awaitData_sat hE hJ (received_stable got all files) hs) (fun _ _ h => hpoints h) ?_
  intro _ t ht
  have hnil : Sound entries J (Received (got ++ []) all files) t := by
    simpa using ht
  refine sat_get_bind.mpr ⟨hpoints ht.points, ?_⟩
  split_ifs
  · have htaken : Received (got ++ t.recvBuf.take len) all files
        { t.toIncoming with recvBuf := t.recvBuf.drop len } := by
      refine ⟨ht.inc.dest, ht.inc.unchanged, ?_⟩
      intro hall
      change got ++ t.recvBuf.take len ++ t.recvBuf.drop len = t.delivered
      rw [List.append_assoc, List.take_append_drop]
      exact ht.inc.stream hall
    have hu := ht.inc_of htaken
    exact ⟨hpoints ht.points, sat_pure.mpr ⟨hpoints hu.points, _, .inl rfl, hu⟩⟩
  · exact sat_pure.mpr ⟨hpoints ht.points, [], .inl rfl, hnil⟩
  · exact sat_pure.mpr ⟨hpoints ht.points, [], .inr ⟨rfl, rfl⟩, hnil⟩

theorem recvExact_sat (len : ℕ) (hs : Sound entries J (Received got all files) s) :
    Sat E (Points J (Landed files fd offset 0))
      (fun _ u => Sound entries J (Received [] False files) u) (recvExact quicTransport len)
      (fun bs u => Sound entries J (Received (got ++ bs) all files) u) s := by
  have hpoints : ∀ {g o u}, Points J (Received g all files) o u →
      Points J (Landed files fd offset 0) o u :=
    fun h => ⟨h.out, h.inc.landed fd offset 0, h.reads⟩
  have hlost : ∀ {g u}, Sound entries J (Received g all files) u →
      Sound entries J (Received [] False files) u :=
    fun h => ⟨h.out, ⟨h.inc.dest, h.inc.unchanged, False.elim⟩, h.ring, h.init⟩
  apply Sat.round (fun bs u => Sound entries J (Received (got ++ bs) all files) u)
  · simpa using hs
  intro received t ht
  refine ⟨hpoints ht.points, ?_⟩
  split_ifs
  · refine Sat.andThen (recv_sat hE hJ _ ht) ?_
    intro r u hu
    obtain ⟨bs, hr, hu⟩ := hu
    have hnext : Sound entries J (Received (got ++ (received ++ bs)) all files) u := by
      rw [← List.append_assoc]
      exact hu
    rcases hr with rfl | ⟨rfl, rfl⟩
    · dsimp only
      split_ifs
      · exact sat_raise.mpr ⟨hpoints hu.points, hlost hu⟩
      · exact sat_pure.mpr ⟨hpoints hu.points, hnext⟩
    · refine sat_get_bind.mpr ⟨hpoints hu.points, ?_⟩
      split_ifs
      · rw [List.append_nil] at hnext
        exact sat_pure.mpr ⟨hpoints hu.points, hnext⟩
      · exact sat_raise.mpr ⟨hpoints hu.points, hlost hu⟩
  · exact sat_pure.mpr ⟨hpoints ht.points, hpoints ht.points, ht⟩

theorem awaitFile_sat (hs : Sound entries J (Landing got all files fd offset len map delta) s) :
    Sat E (Points J (Landing got all files fd offset len map delta))
      (fun _ u => Sound entries J (Landing got all files fd offset len map delta) u) (awaitFile len)
      (fun _ u => Sound entries J (Landing got all files fd offset len map delta) u ∧
        ¬ u.recvDestGot < len) s := by
  apply Sat.round (fun _ u => Sound entries J (Landing got all files fd offset len map delta) u)
  · exact hs
  intro _ t ht
  refine ⟨ht.points, sat_get_bind.mpr ⟨ht.points, ?_⟩⟩
  by_cases hfull : t.recvDestGot < len
  · rw [if_pos hfull]
    split_ifs
    · exact sat_raise.mpr ⟨ht.points, ht⟩
    · refine Sat.andThen (pumpOnce_sat hE hJ (landing_stable _ _ _ _ _ _ _ _) never ht) ?_
      intro ok u hu
      split_ifs
      · exact sat_pure.mpr ⟨hu.points, hu⟩
      · exact sat_raise.mpr ⟨hu.points, hu⟩
  · rw [if_neg hfull]
    exact sat_pure.mpr ⟨ht.points, ht.points, ht, hfull⟩

omit hE hJ in
theorem landing_points {o : Option Op} (h : Points J (Landing got all files fd offset len map delta) o s) :
    Points J (Landed files fd offset len) o s := ⟨h.out, h.inc.landed, h.reads⟩

theorem recvFile_sat (fd : Path) (offset len : ℕ) (hs : Sound entries J (Received got all files) s) :
    Sat E (Points J (Landed files fd offset len))
      (fun _ u => Sound entries J (Received [] False u.files) u) (recvFile fd offset len)
      (fun _ u => Sound entries J (Received (got ++ fileRange u.files fd offset len) all u.files) u ∧
        Within files fd offset len u.toIncoming) s := by
  have hpoints : ∀ {g o u}, Points J (Received g all files) o u →
      Points J (Landed files fd offset len) o u :=
    fun h => ⟨h.out, h.inc.landed fd offset len, h.reads⟩
  have hlost : ∀ {u}, Sound entries J (Received got all files) u →
      Sound entries J (Received [] False u.files) u :=
    fun h => ⟨h.out, ⟨h.inc.dest, rfl, False.elim⟩, h.ring, h.init⟩
  rw [recvFile]
  split_ifs with hlen
  · refine sat_pure.mpr ⟨hpoints hs.points, ⟨hs.out, ⟨hs.inc.dest, rfl, ?_⟩, hs.ring, hs.init⟩,
      (hs.inc.landed fd offset len).within⟩
    intro hall
    subst hlen
    simpa [fileRange] using hs.inc.stream hall
  · refine sat_ask_bind.mpr ⟨hpoints (hs.pointsAt (by simp)), ?_⟩
    intro page t ht
    have ht := hE _ _ _ _ ht
    subst ht
    refine sat_ask_bind.mpr ⟨hpoints (hs.pointsAt (by simp)), ?_⟩
    intro ok u hu
    rcases hE _ _ _ _ hu with ⟨rfl, rfl⟩ | ⟨rfl, hfails⟩
    · have hland := hs.inc.mapFile fd (pageBase offset page) (offset - pageBase offset page) len
      rw [Nat.add_sub_cancel' (pageBase_le offset page)] at hland
      have hopen := hs.inc_of hland
      refine ⟨hpoints hs.points, ?_⟩
      have hwait := (awaitFile_sat hE hJ hopen).attempt (Y := fun _ (u : Store) =>
        Sound entries J (Received [] False u.files) u)
      change Sat E _ _ ((awaitFile len).attempt >>= _) _ _
      refine Sat.seq hwait (fun _ _ h => landing_points h) ?_
      intro r v hv
      obtain ⟨-, hv⟩ := hv
      cases r with
      | ok _ =>
        obtain ⟨hv, hfull⟩ := hv
        have hdone := hv.inc_of (hv.inc.unmap hfull)
        exact sat_modify_bind.mpr ⟨landing_points hv.points,
          sat_pure.mpr ⟨.none_of hdone.out ⟨.inl rfl, hv.inc.within⟩, hdone, hv.inc.within⟩⟩
      | error e =>
        have hfreed : Received [] False v.files (v.toIncoming.unmap u.maps.length) :=
          ⟨rfl, rfl, False.elim⟩
        have hdone := hv.inc_of hfreed
        exact sat_modify_bind.mpr ⟨landing_points hv.points,
          sat_raise.mpr ⟨.none_of hdone.out ⟨.inl rfl, hv.inc.within⟩, hdone⟩⟩
    · have hu := hs.fails hfails
      exact throwErrno_sat _ (hpoints hu.points) fun _ => hlost hu

end receive

end Embr.QuicTransport
