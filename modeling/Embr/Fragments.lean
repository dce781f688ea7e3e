import Embr.Udp

/-!
# Fragments

The geometry of the fragments of a chunk, their header, and what
`process_fragment` does with a datagram.
-/

open Octets Interact
namespace Embr.UdpTransport

theorem getTag_makeUserData (tag : SqeTag) {idx : ℕ} (h : idx < 2 ^ 56) :
    getTag (makeUserData tag idx) = tag.toByte := by
  have htag : tag.toByte.toNat < 2 ^ 8 := tag.toByte.toNat_lt
  apply UInt8.toNat_inj.mp
  simp only [getTag, makeUserData, UInt64.toNat_toUInt8, UInt64.toNat_shiftRight, UInt64.toNat_or,
    UInt64.toNat_shiftLeft, UInt8.toNat_toUInt64, UInt64.toNat_ofNat']
  have h56 : (56 : UInt64).toNat % 64 = 56 := rfl
  rw [h56, Nat.shiftRight_eq_div_pow, Nat.shiftLeft_eq, Nat.mod_eq_of_lt (by omega : idx < 2 ^ 64),
    Nat.mod_eq_of_lt (by omega : tag.toByte.toNat * 2 ^ 56 < 2 ^ 64), ← Nat.shiftLeft_eq,
    ← Nat.shiftLeft_add_eq_or_of_lt h, Nat.shiftLeft_eq]
  omega

theorem getIndex_makeUserData (tag : SqeTag) {idx : ℕ} (h : idx < 2 ^ 56) :
    getIndex (makeUserData tag idx) = idx := by
  have htag : tag.toByte.toNat < 2 ^ 8 := tag.toByte.toNat_lt
  simp only [getIndex, makeUserData, UInt64.toNat_and, UInt64.toNat_or,
    UInt64.toNat_shiftLeft, UInt8.toNat_toUInt64, UInt64.toNat_ofNat']
  have h56 : (56 : UInt64).toNat % 64 = 56 := rfl
  have hmask : (0x00FFFFFFFFFFFFFF : UInt64).toNat = 2 ^ 56 - 1 := rfl
  rw [h56, hmask, Nat.shiftLeft_eq, Nat.mod_eq_of_lt (by omega : idx < 2 ^ 64),
    Nat.mod_eq_of_lt (by omega : tag.toByte.toNat * 2 ^ 56 < 2 ^ 64), ← Nat.shiftLeft_eq,
    ← Nat.shiftLeft_add_eq_or_of_lt h, Nat.shiftLeft_eq, Nat.and_two_pow_sub_one_eq_mod]
  omega

@[simp] theorem writeFragHdr_length (hdr : FragHdr) : (writeFragHdr hdr).length = FRAG_HDR_SIZE := by
  simp [writeFragHdr, FRAG_HDR_SIZE]

theorem parseFragHdr_write (hdr : FragHdr) (data : Bytes) :
    parseFragHdr (writeFragHdr hdr ++ data) = hdr := by
  obtain ⟨chunkIndex, fragIndex, len⟩ := hdr
  have h₀ : slice (writeFragHdr ⟨chunkIndex, fragIndex, len⟩ ++ data) 0 4 =
      be 4 chunkIndex.toNat := by
    simp only [writeFragHdr, slice, List.drop_zero, List.append_assoc]
    exact List.take_left' (be_length 4 _)
  have h₄ : slice (writeFragHdr ⟨chunkIndex, fragIndex, len⟩ ++ data) 4 4 =
      be 4 fragIndex.toNat := by
    simp only [writeFragHdr, slice, List.append_assoc]
    rw [List.drop_left' (be_length 4 _), List.take_left' (be_length 4 _)]
  have h₈ : slice (writeFragHdr ⟨chunkIndex, fragIndex, len⟩ ++ data) 8 2 = be 2 len.toNat := by
    simp only [writeFragHdr, slice]
    rw [List.append_assoc, List.append_assoc, ← List.append_assoc (be 4 _), List.drop_left',
      List.take_left' (be_length 2 _)]
    simp
  rw [parseFragHdr, h₀, h₄, h₈, ofBE_be_of_lt chunkIndex.toNat_lt, ofBE_be_of_lt fragIndex.toNat_lt,
    ofBE_be_of_lt len.toNat_lt, UInt32.ofNat_toNat, UInt32.ofNat_toNat, UInt16.ofNat_toNat]

section geometry
variable {len i : ℕ}

theorem fragCount_eq (h : len ≤ chunkSize) :
    fragCount len = (len + UDP_PAYLOAD_SIZE - 1) / UDP_PAYLOAD_SIZE ∧
      fragCount len ≤ MAX_FRAGS_PER_CHUNK := by
  have hmax : (len + UDP_PAYLOAD_SIZE - 1) / UDP_PAYLOAD_SIZE ≤ MAX_FRAGS_PER_CHUNK :=
    Nat.div_le_div_right (by omega)
  have hsmall : MAX_FRAGS_PER_CHUNK = 17 := by decide
  rw [fragCount, Nat.mod_eq_of_lt (by omega)]
  exact ⟨rfl, hmax⟩

theorem fragLen_bounds (h : len ≤ chunkSize) (hi : i < fragCount len) :
    0 < fragLen len i ∧ fragLen len i ≤ UDP_PAYLOAD_SIZE ∧
      i * UDP_PAYLOAD_SIZE + fragLen len i ≤ len := by
  have hpayload : UDP_PAYLOAD_SIZE = 64990 := rfl
  have hcount := (fragCount_eq h).1
  rw [fragLen]
  rw [hpayload] at hcount ⊢
  split_ifs with hlast
  · omega
  · omega

theorem exists_fragment (h : len ≤ chunkSize) {x : ℕ} (hx : x < len) :
    ∃ i < fragCount len, i * UDP_PAYLOAD_SIZE ≤ x ∧ x < i * UDP_PAYLOAD_SIZE + fragLen len i := by
  have hpayload : UDP_PAYLOAD_SIZE = 64990 := rfl
  have hcount := (fragCount_eq h).1
  rw [hpayload] at hcount
  refine ⟨x / UDP_PAYLOAD_SIZE, ?_, ?_, ?_⟩
  · rw [hpayload]
    omega
  · rw [hpayload]
    omega
  · rw [fragLen]
    rw [hpayload]
    split_ifs
    · omega
    · omega

theorem fragCount_chunk : fragCount chunkSize = MAX_FRAGS_PER_CHUNK := by decide

end geometry

/-- Fragment `i` of chunk `k`. -/
def fragment (src : Bytes) (k i : ℕ) : Bytes :=
  slice src (k * chunkSize + i * UDP_PAYLOAD_SIZE) (fragLen (chunkLenAt src.length k) i)

def datagram (src : Bytes) (k i : ℕ) : Bytes :=
  writeFragHdr (fragHdr k (chunkLenAt src.length k) i) ++ fragment src k i

structure Piece (src : Bytes) (k i : ℕ) : Prop where
  chunk : k < chunkCount src.length
  frag : i < fragCount (chunkLenAt src.length k)

def index (d : Bytes) : ℕ := (parseFragHdr d).fragIndex.toNat

def payload (d : Bytes) : Bytes := d.drop FRAG_HDR_SIZE

section pieces
variable {src : Bytes} {j k i : ℕ}

theorem chunkLenAt_le (len k : ℕ) : chunkLenAt len k ≤ chunkSize := min_le_right _ _

theorem chunk_start {len : ℕ} (h : k < chunkCount len) : k * chunkSize < len := by
  have hsize : chunkSize = 1048576 := rfl
  have hle : chunkCount len ≤ (len + chunkSize - 1) / chunkSize := Nat.mod_le _ _
  rw [hsize] at hle ⊢
  omega

namespace Piece

theorem within (h : Piece src k i) :
    k * chunkSize + i * UDP_PAYLOAD_SIZE + fragLen (chunkLenAt src.length k) i ≤ src.length := by
  have hstart := chunk_start h.chunk
  have hend := (fragLen_bounds (chunkLenAt_le src.length k) h.frag).2.2
  have hlen : chunkLenAt src.length k ≤ src.length - k * chunkSize := min_le_left _ _
  omega

theorem length (h : Piece src k i) :
    (fragment src k i).length = fragLen (chunkLenAt src.length k) i := slice_length h.within

theorem index_lt (h : Piece src k i) : i < MAX_FRAGS_PER_CHUNK :=
  Nat.lt_of_lt_of_le h.frag (fragCount_eq (chunkLenAt_le src.length k)).2

theorem hdr_index (h : Piece src k i) :
    (fragHdr k (chunkLenAt src.length k) i).fragIndex.toNat = i := by
  have hlt := h.index_lt
  have hmax : MAX_FRAGS_PER_CHUNK = 17 := by decide
  have hsize : UInt32.size = 4294967296 := rfl
  exact UInt32.toNat_ofNat_of_lt' (by omega)

theorem hdr_len (h : Piece src k i) :
    (fragHdr k (chunkLenAt src.length k) i).fragLen.toNat = (fragment src k i).length := by
  have hle := (fragLen_bounds (chunkLenAt_le src.length k) h.frag).2.1
  have hpayload : UDP_PAYLOAD_SIZE = 64990 := rfl
  have hsize : UInt16.size = 65536 := rfl
  rw [h.length]
  exact UInt16.toNat_ofNat_of_lt' (by omega)

theorem parse (src : Bytes) (k i : ℕ) (rest : Bytes) :
    parseFragHdr (datagram src k i ++ rest) = fragHdr k (chunkLenAt src.length k) i := by
  rw [datagram, List.append_assoc, parseFragHdr_write]

theorem index_datagram (h : Piece src k i) : index (datagram src k i) = i := by
  have hparse := parse src k i []
  rw [List.append_nil] at hparse
  rw [index, hparse, h.hdr_index]

theorem payload_datagram : payload (datagram src k i) = fragment src k i :=
  List.drop_left' (writeFragHdr_length _)

theorem datagram_length :
    (datagram src k i).length = FRAG_HDR_SIZE + (fragment src k i).length := by
  rw [datagram, List.length_append, writeFragHdr_length]

theorem fits (h : Piece src k i) : (datagram src k i).length ≤ UDP_MTU := by
  have hle := (fragLen_bounds (chunkLenAt_le src.length k) h.frag).2.1
  have hmtu : FRAG_HDR_SIZE + UDP_PAYLOAD_SIZE = UDP_MTU := rfl
  rw [datagram_length, h.length]
  omega

theorem longer (h : Piece src k i) (hj : Piece src j i) (hjk : j ≤ k) :
    (fragment src k i).length ≤ (fragment src j i).length := by
  rw [h.length, hj.length]
  rcases Nat.lt_or_eq_of_le hjk with hlt | rfl
  · have hsize : chunkSize = 1048576 := rfl
    have hstart := chunk_start h.chunk
    have hfull : chunkLenAt src.length j = chunkSize := by
      rw [chunkLenAt, hsize]
      rw [hsize] at hstart
      omega
    obtain ⟨-, hle, hend⟩ := fragLen_bounds (chunkLenAt_le src.length k) h.frag
    have hshort := chunkLenAt_le src.length k
    have hcopy : fragLen chunkSize i =
        if i + 1 < MAX_FRAGS_PER_CHUNK then UDP_PAYLOAD_SIZE else chunkSize - i * UDP_PAYLOAD_SIZE := by
      rw [fragLen, fragCount_chunk]
    rw [hfull, hcopy]
    split_ifs
    · exact hle
    · omega
  · exact le_rfl

end Piece

theorem fragCount_pos (h : k < chunkCount src.length) : 0 < fragCount (chunkLenAt src.length k) := by
  have hsize : 0 < chunkSize := by decide
  have hstart := chunk_start h
  have hpos : 0 < chunkLenAt src.length k := lt_min (by omega) hsize
  obtain ⟨i, hi, -, -⟩ := exists_fragment (chunkLenAt_le src.length k) hpos
  omega

theorem exists_piece {y : ℕ} (hy : y < src.length) (hchunk : y < chunkCount src.length * chunkSize) :
    ∃ k i z, Piece src k i ∧ z < (fragment src k i).length ∧
      y = k * chunkSize + i * UDP_PAYLOAD_SIZE + z := by
  have hsize : 0 < chunkSize := by decide
  have hdiv : y / chunkSize * chunkSize + y % chunkSize = y := Nat.div_add_mod' y chunkSize
  have hmod := Nat.mod_lt y hsize
  have hin : y % chunkSize < chunkLenAt src.length (y / chunkSize) := lt_min (by omega) hmod
  obtain ⟨i, hi, hlo, hhi⟩ := exists_fragment (chunkLenAt_le src.length _) hin
  have hpiece : Piece src (y / chunkSize) i := ⟨Nat.div_lt_of_lt_mul (by rwa [Nat.mul_comm]), hi⟩
  refine ⟨y / chunkSize, i, y % chunkSize - i * UDP_PAYLOAD_SIZE, hpiece, ?_, ?_⟩
  · rw [hpiece.length]
    omega
  · omega

theorem getElem?_fragment {z : ℕ} (h : Piece src k i) (hz : z < (fragment src k i).length) :
    (fragment src k i)[z]? = src[k * chunkSize + i * UDP_PAYLOAD_SIZE + z]? := by
  rw [h.length] at hz
  rw [fragment, getElem?_slice, if_pos hz]

end pieces

def RecvState.mark (state : RecvState) (i : ℕ) : RecvState :=
  { state with
    received := Function.update state.received i true
    fragRemaining := state.fragRemaining - 1 }

def writeSqe (state : RecvState) (fragBufIdx : ℕ) (hdr : FragHdr) (fixed : Bool) : Sqe :=
  ⟨.write state.fileFd fragBufIdx FRAG_HDR_SIZE hdr.fragLen.toNat
    (state.chunkOffset + hdr.fragIndex.toNat * UDP_PAYLOAD_SIZE) fixed,
    makeUserData .write fragBufIdx⟩

section process
variable {E : Env Udp} {I : Option Op → Store → Prop} {X : Exc → Store → Prop} {s t : Store}
  {state : RecvState} {fragBufIdx : ℕ} {bytesReceived : ℤ} {hdr : FragHdr} {len : ℕ}

theorem prepare_sat {what : String} {sqe : Sqe} (h : I none s) (hnext : I none (s.prepare sqe))
    (hX : ∀ e, X e s) :
    Sat E I X (prepare what sqe) (fun _ t => s.sq.length < QUEUE_DEPTH ∧ t = s.prepare sqe) s := by
  refine sat_get_bind.mpr ⟨h, ?_⟩
  split_ifs with hroom
  · exact sat_modify.mpr ⟨h, hnext, hroom, rfl⟩
  · exact sat_raise.mpr ⟨h, hX _⟩

theorem inRange_sat {what : String} {idx count : ℕ} (h : I none s) (hX : ∀ e, X e s) :
    Sat E I X (inRange what idx count) (fun _ t => idx < count ∧ t = s) s := by
  apply Sat.when
  · exact fun _ => sat_raise.mpr ⟨h, hX _⟩
  · exact fun hlt => ⟨h, Nat.lt_of_not_le hlt, rfl⟩

/-- The datagram gets past every check and is not one seen before. -/
structure Fresh (s : Store) (fragBufIdx : ℕ) (bytesReceived : ℤ) (state : RecvState)
    (hdr : FragHdr) : Prop where
  header : hdr = parseFragHdr (s.fragBuf fragBufIdx)
  whole : (FRAG_HDR_SIZE : ℤ) ≤ bytesReceived
  buffer : fragBufIdx < UDP_FRAG_BUFS
  index : hdr.fragIndex.toNat < state.fragCount
  bit : hdr.fragIndex.toNat < MAX_FRAGS_PER_CHUNK
  new : state.received hdr.fragIndex.toNat = false
  room : s.sq.length < QUEUE_DEPTH

theorem processFragment_sat (h : I none s)
    (hnext : ∀ hdr, I none (s.prepare (writeSqe state fragBufIdx hdr s.registered)))
    (hX : ∀ e, X e s) :
    Sat E I X (processFragment fragBufIdx bytesReceived state)
      (fun r t =>
        (r = (false, state) ∧ t = s ∧ fragBufIdx < UDP_FRAG_BUFS ∧
          (parseFragHdr (s.fragBuf fragBufIdx)).fragIndex.toNat < state.fragCount ∧
          state.received (parseFragHdr (s.fragBuf fragBufIdx)).fragIndex.toNat) ∨
        ∃ hdr, Fresh s fragBufIdx bytesReceived state hdr ∧
          r = (true, state.mark hdr.fragIndex.toNat) ∧
          t = s.prepare (writeSqe state fragBufIdx hdr s.registered)) s := by
  rw [processFragment]
  split_ifs with hshort
  · exact sat_raise.mpr ⟨h, hX _⟩
  refine Sat.andThen (inRange_sat h hX) fun _ u hu => ?_
  obtain ⟨hbuffer, rfl⟩ := hu
  refine sat_get_bind.mpr ⟨h, ?_⟩
  dsimp only
  split_ifs with hindex hbit hdup
  · exact sat_raise.mpr ⟨h, hX _⟩
  · exact sat_raise.mpr ⟨h, hX _⟩
  · exact sat_pure.mpr ⟨h, Or.inl ⟨rfl, rfl, hbuffer, Nat.lt_of_not_le hindex, hdup⟩⟩
  · refine Sat.andThen (prepare_sat h (hnext _) hX) fun _ v hv => ?_
    obtain ⟨hroom, rfl⟩ := hv
    refine sat_pure.mpr ⟨hnext _, Or.inr ⟨_, ⟨rfl, Int.not_lt.mp hshort, hbuffer,
      Nat.lt_of_not_le hindex, Nat.lt_of_not_le hbit, ?_, hroom⟩, rfl, rfl⟩⟩
    exact Bool.eq_false_of_not_eq_true hdup

theorem prepare_total {what : String} {sqe : Sqe} (hroom : s.sq.length < QUEUE_DEPTH) :
    Total E (fun _ _ => True) (fun _ t => t = s.prepare sqe) (prepare what sqe) s := by
  refine total_get_bind.mpr ⟨trivial, ?_⟩
  rw [if_pos hroom]
  exact total_act.mpr ⟨trivial, total_ret.mpr ⟨trivial, rfl⟩⟩

theorem inRange_total {what : String} {idx count : ℕ} (h : idx < count) :
    Total E (fun _ _ => True) (fun _ t => t = s) (inRange what idx count) s := by
  rw [inRange, Prog.when, if_neg (Nat.not_le.mpr h)]
  exact total_ret.mpr ⟨trivial, rfl⟩

theorem processFragment_total (h : Fresh s fragBufIdx bytesReceived state hdr) :
    Total E (fun _ _ => True)
      (fun r t => r = (true, state.mark hdr.fragIndex.toNat) ∧
        t = s.prepare (writeSqe state fragBufIdx hdr s.registered))
      (processFragment fragBufIdx bytesReceived state) s := by
  obtain ⟨rfl, hwhole, hbuffer, hindex, hbit, hnew, hroom⟩ := h
  rw [processFragment, if_neg (Int.not_lt.mpr hwhole)]
  refine Total.andThen (inRange_total hbuffer) fun _ u hu => ?_
  subst hu
  refine total_get_bind.mpr ⟨trivial, ?_⟩
  dsimp only
  rw [if_neg (Nat.not_le.mpr hindex), if_neg (Nat.not_le.mpr hbit), if_neg (by simp [hnew])]
  refine Total.andThen (prepare_total hroom) fun _ v hv => ?_
  subst hv
  exact total_pure.mpr ⟨trivial, rfl, rfl⟩

structure Proper (bytesReceived : ℤ) (len : ℕ) (state : RecvState) (pos n offset : ℕ) : Prop where
  received : FRAG_HDR_SIZE ≤ pos ∧ (pos + n : ℕ) ≤ bytesReceived
  buffer : pos + n ≤ UDP_MTU
  range : state.chunkOffset ≤ offset ∧ offset + n ≤ state.chunkOffset + len
  place : ∃ i < fragCount len, offset = state.chunkOffset + i * UDP_PAYLOAD_SIZE ∧
    n = fragLen len i

/-- `process_fragment` throws, or asks for nothing but proper writes. -/
def Harmless (E : Env Udp) (fragBufIdx : ℕ) (bytesReceived : ℤ) (len : ℕ) (state : RecvState)
    (s : Store) : Prop :=
  ∀ r t, Reaches E (processFragment fragBufIdx bytesReceived state, s) (.ret r, t) →
    ∀ sqe ∈ t.sq.drop s.sq.length, ∃ pos n offset,
      sqe.request = .write state.fileFd fragBufIdx pos n offset s.registered ∧
        Proper bytesReceived len state pos n offset

/-- The length that the place in the chunk calls for, all of it received. -/
def Fits (hdr : FragHdr) (bytesReceived : ℤ) (len : ℕ) : Prop :=
  hdr.fragLen.toNat = fragLen len hdr.fragIndex.toNat ∧
    (FRAG_HDR_SIZE + hdr.fragLen.toNat : ℕ) ≤ bytesReceived

theorem new_sqe {sqe : Sqe} : (s.prepare sqe).sq.drop s.sq.length = [sqe] := List.drop_left' rfl

theorem Fresh.harmless_iff (h : Fresh s fragBufIdx bytesReceived state hdr) (hle : len ≤ chunkSize)
    (hcount : state.fragCount = fragCount len) :
    Harmless E fragBufIdx bytesReceived len state s ↔ Fits hdr bytesReceived len := by
  have hindex := h.index
  rw [hcount] at hindex
  have hruns : Total E _ _ (processFragment fragBufIdx bytesReceived state) s :=
    processFragment_total h
  constructor
  · intro hharmless
    obtain ⟨r, t, hrun, -, rfl⟩ := hruns.returns
    obtain ⟨pos, n, offset, hrequest, hproper⟩ := hharmless r _ hrun _
      (by rw [new_sqe]; exact List.mem_singleton_self _)
    rw [writeSqe] at hrequest
    cases hrequest
    obtain ⟨i, -, hplace, hlength⟩ := hproper.place
    have hpos : 0 < UDP_PAYLOAD_SIZE := by decide
    have hi : hdr.fragIndex.toNat = i := Nat.eq_of_mul_eq_mul_right hpos (by omega)
    rw [Fits, hi]
    exact ⟨hlength, hproper.received.2⟩
  · intro hfits r t hrun sqe hsqe
    obtain ⟨-, -, rfl⟩ := total_ret.mp (hruns.reaches hrun)
    rw [new_sqe, List.mem_singleton] at hsqe
    subst hsqe
    obtain ⟨hpos, hpayload, hend⟩ := fragLen_bounds hle hindex
    rw [← hfits.1] at hpos hpayload hend
    refine ⟨_, _, _, rfl, ⟨le_rfl, hfits.2⟩, ?_, ⟨Nat.le_add_right .., ?_⟩, _, hindex, rfl,
      hfits.1⟩
    · have hmtu : FRAG_HDR_SIZE + UDP_PAYLOAD_SIZE = UDP_MTU := rfl
      omega
    · rw [Nat.add_assoc]
      exact Nat.add_le_add_left hend _

/-- Exactly the datagrams that are refused, dropped or of the right length do no harm. -/
theorem fragments_harmless_iff (E : Env Udp) (s : Store) (state : RecvState) (fragBufIdx : ℕ)
    (bytesReceived : ℤ) (len : ℕ) (hle : len ≤ chunkSize)
    (hcount : state.fragCount = fragCount len) :
    Harmless E fragBufIdx bytesReceived len state s ↔
      bytesReceived < FRAG_HDR_SIZE ∨ UDP_FRAG_BUFS ≤ fragBufIdx ∨ QUEUE_DEPTH ≤ s.sq.length ∨
      fragCount len ≤ (parseFragHdr (s.fragBuf fragBufIdx)).fragIndex.toNat ∨
      state.received (parseFragHdr (s.fragBuf fragBufIdx)).fragIndex.toNat ∨
      Fits (parseFragHdr (s.fragBuf fragBufIdx)) bytesReceived len := by
  by_cases hfresh : Fresh s fragBufIdx bytesReceived state (parseFragHdr (s.fragBuf fragBufIdx))
  · rw [hfresh.harmless_iff hle hcount]
    have hwhole := Int.not_lt.mpr hfresh.whole
    have hindex := Nat.not_le.mpr hfresh.index
    rw [hcount] at hindex
    simp only [hwhole, Nat.not_le.mpr hfresh.buffer, Nat.not_le.mpr hfresh.room, hindex,
      hfresh.new, Bool.false_eq_true, false_or]
  · constructor
    · intro _
      by_contra hnone
      simp only [not_or] at hnone
      obtain ⟨hwhole, hbuffer, hroom, hindex, hnew, -⟩ := hnone
      have hbit := (fragCount_eq hle).2
      exact hfresh ⟨rfl, Int.not_lt.mp hwhole, Nat.lt_of_not_le hbuffer, by omega, by omega,
        Bool.eq_false_of_not_eq_true hnew, Nat.lt_of_not_le hroom⟩
    · intro _ r t hrun sqe hsqe
      have hsat : Sat E (fun _ _ => True) (fun _ _ => True) (processFragment fragBufIdx bytesReceived state)
          _ s := processFragment_sat trivial (fun _ => trivial) fun _ => trivial
      rcases hsat.returned hrun with ⟨-, rfl, -⟩ | ⟨hdr, hdr', -, -⟩
      · rw [List.drop_length] at hsqe
        cases hsqe
      · have hheader := hdr'.header
        subst hheader
        exact absurd hdr' hfresh

end process

/-- The buffers hold the header of a full fragment 0, and zeroes. -/
def zeroFragment : Store :=
  { Store.init (.init fun _ => none) false with
    fragBuf := fun _ => writeFragHdr ⟨0, 0, 64990⟩ ++ List.replicate UDP_PAYLOAD_SIZE 0 }

theorem zeroFragment_hdr : parseFragHdr (zeroFragment.fragBuf 0) = ⟨0, 0, 64990⟩ :=
  parseFragHdr_write _ _

theorem zeroFragment_fits {n : ℤ} : Fits ⟨0, 0, 64990⟩ n chunkSize ↔ 65000 ≤ n := by
  have hlen : (64990 : UInt16).toNat = fragLen chunkSize 0 := by decide
  simp only [Fits, UInt32.toNat_zero, hlen, true_and]
  exact Iff.rfl

/-- A kernel that may do anything to a file or a datagram. -/
abbrev anyKernel : Env Udp := kernel rough (fun _ _ => True) True

theorem full_fragment_harmless :
    Harmless anyKernel 0 65000 chunkSize (recvState [97] 0 chunkSize 0) zeroFragment := by
  refine (fragments_harmless_iff anyKernel zeroFragment _ 0 65000 chunkSize le_rfl rfl).mpr ?_
  rw [zeroFragment_hdr]
  exact Or.inr (Or.inr (Or.inr (Or.inr (Or.inr (zeroFragment_fits.mpr le_rfl)))))

/-- A datagram that is a header and nothing else. -/
theorem header_only_harmful :
    ¬ Harmless anyKernel 0 10 chunkSize (recvState [97] 0 chunkSize 0) zeroFragment := by
  have hfresh : Fresh zeroFragment 0 10 (recvState [97] 0 chunkSize 0) ⟨0, 0, 64990⟩ :=
    ⟨zeroFragment_hdr.symm, le_rfl, by decide, by decide, by decide, rfl, by decide⟩
  rw [hfresh.harmless_iff le_rfl rfl, zeroFragment_fits]
  decide

end Embr.UdpTransport
