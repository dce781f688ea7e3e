import Embr.Util

/-!
# Messages and their payloads

`core/protocol.hpp` and the builders and parsers of `core/protocol.cpp`. A
builder fills a buffer whose size it has summed up beforehand, so its payload is
the concatenation of what it puts.
-/

open Octets
namespace Embr.Protocol

def PROTOCOL_VERSION : UInt8 := 0x02
def HEADER_SIZE : ℕ := 6
def MAX_PAYLOAD_SIZE : ℕ := 64 * 1024 * 1024

inductive MsgType
  | invalid | handshake | fileMeta | chunkReq | chunkHdr | reserved | complete | error | cancel
  deriving DecidableEq, Repr

def MsgType.toByte : MsgType → UInt8
  | .invalid => 0
  | .handshake => 1
  | .fileMeta => 2
  | .chunkReq => 3
  | .chunkHdr => 4
  | .reserved => 5
  | .complete => 6
  | .error => 7
  | .cancel => 8

def MsgType.ofByte (b : UInt8) : MsgType :=
  match b.toNat with
  | 1 => .handshake
  | 2 => .fileMeta
  | 3 => .chunkReq
  | 4 => .chunkHdr
  | 5 => .reserved
  | 6 => .complete
  | 7 => .error
  | 8 => .cancel
  | _ => .invalid

theorem MsgType.ofByte_toByte (t : MsgType) : MsgType.ofByte t.toByte = t := by
  cases t <;> rfl

theorem MsgType.toByte_range {t : MsgType} (h : t ≠ .invalid) :
    ¬ (t.toByte < MsgType.toByte .handshake ∨ MsgType.toByte .cancel < t.toByte) := by
  cases t <;> first | exact (h rfl).elim | decide

structure Message where
  type : MsgType
  payload : Bytes
  deriving DecidableEq, Repr

/-- What `recv_msg` lets through. -/
def Message.Valid (msg : Message) : Prop :=
  msg.type ≠ .invalid ∧ msg.payload.length ≤ MAX_PAYLOAD_SIZE

/-- `std::array<uint8_t, HASH_SIZE>`. -/
abbrev Hash := {bs : Bytes // bs.length = hashSize}

/-- A zeroed array with `bs` copied to its front. -/
def Hash.ofBytes (bs : Bytes) : Hash :=
  ⟨(bs ++ List.replicate hashSize 0).take hashSize, by simp⟩

theorem Hash.ofBytes_val (h : Hash) : Hash.ofBytes h.val = h := by
  apply Subtype.ext
  simp [Hash.ofBytes, ← h.property]

structure FileMeta where
  fileName : Bytes
  fileSize : UInt64
  chunkSize : UInt32
  chunkCount : UInt32
  chunkHashes : List Hash
  deriving DecidableEq

structure HandshakePayload where
  token : Bytes
  deriving DecidableEq, Repr

structure ChunkReq where
  chunkIndex : UInt32
  deriving DecidableEq, Repr

structure ChunkHdr where
  chunkIndex : UInt32
  deriving DecidableEq, Repr

def putU32 (v : UInt32) : Bytes := be 4 v.toNat

def putU64 (v : UInt64) : Bytes := putU32 (v >>> 32).toUInt32 ++ putU32 v.toUInt32

def putStr (s : Bytes) : Bytes := putU32 (UInt32.ofNat s.length) ++ s

def makeFilemeta (m : FileMeta) : Except Exc Message :=
  if m.chunkHashes.length ≠ m.chunkCount.toNat then
    .error (.runtimeError ("make_filemeta: wrong number of chunk hashes - "
      ++ toString m.chunkHashes.length ++ " != chunk_count " ++ toString m.chunkCount.toNat))
  else
    .ok ⟨.fileMeta, putU64 m.fileSize ++ putStr m.fileName ++ putU32 m.chunkSize
      ++ putU32 m.chunkCount ++ (m.chunkHashes.map Subtype.val).flatten⟩

def makeComplete : Message := ⟨.complete, []⟩

def makeError (reason : Bytes) : Message := ⟨.error, reason⟩

def makeHandshake (p : HandshakePayload) : Message := ⟨.handshake, putStr p.token⟩

def makeChunkReq (r : ChunkReq) : Message := ⟨.chunkReq, putU32 r.chunkIndex⟩

def makeChunkHdr (h : ChunkHdr) : Message := ⟨.chunkHdr, putU32 h.chunkIndex⟩

structure Reader where
  data : Bytes
  pos : ℕ

namespace Reader

def ensure (r : Reader) (n : ℕ) : Except Exc Unit :=
  if r.pos + n > r.data.length then .error (.runtimeError "protocol: truncated payload")
  else .ok ()

def getU32 (r : Reader) : Except Exc (UInt32 × Reader) := do
  r.ensure 4
  .ok (UInt32.ofNat (ofBE (slice r.data r.pos 4)), ⟨r.data, r.pos + 4⟩)

def getU64 (r : Reader) : Except Exc (UInt64 × Reader) := do
  let (hi, r) ← r.getU32
  let (lo, r) ← r.getU32
  .ok ((hi.toUInt64 <<< 32) ||| lo.toUInt64, r)

def getStr (r : Reader) : Except Exc (Bytes × Reader) := do
  let (strLen, r) ← r.getU32
  r.ensure strLen.toNat
  .ok (slice r.data r.pos strLen.toNat, ⟨r.data, r.pos + strLen.toNat⟩)

def getHash (r : Reader) : Except Exc (Hash × Reader) := do
  r.ensure hashSize
  .ok (Hash.ofBytes (slice r.data r.pos hashSize), ⟨r.data, r.pos + hashSize⟩)

def getHashes : ℕ → Reader → Except Exc (List Hash × Reader)
  | 0, r => .ok ([], r)
  | n + 1, r => do
    let (h, r) ← r.getHash
    let (hs, r) ← getHashes n r
    .ok (h :: hs, r)

end Reader

def parseFilemeta (msg : Message) : Except Exc FileMeta := do
  if msg.type ≠ .fileMeta then .error (.runtimeError "parse_filemeta: wrong type") else
  let r : Reader := ⟨msg.payload, 0⟩
  let (fileSize, r) ← r.getU64
  let (fileName, r) ← r.getStr
  let (chunkSize, r) ← r.getU32
  let (chunkCount, r) ← r.getU32
  r.ensure (chunkCount.toNat * hashSize)
  let (chunkHashes, _) ← Reader.getHashes chunkCount.toNat r
  .ok ⟨fileName, fileSize, chunkSize, chunkCount, chunkHashes⟩

def parseError (msg : Message) : Except Exc Bytes :=
  if msg.type ≠ .error then .error (.runtimeError "parse_error: wrong type")
  else .ok msg.payload

def parseHandshake (msg : Message) : Except Exc HandshakePayload := do
  if msg.type ≠ .handshake then .error (.runtimeError "parse_handshake: wrong type") else
  let (token, _) ← Reader.getStr ⟨msg.payload, 0⟩
  .ok ⟨token⟩

def parseChunkReq (msg : Message) : Except Exc ChunkReq := do
  if msg.type ≠ .chunkReq then .error (.runtimeError "parse_chunk_req: wrong type") else
  let (chunkIndex, _) ← Reader.getU32 ⟨msg.payload, 0⟩
  .ok ⟨chunkIndex⟩

def parseChunkHdr (msg : Message) : Except Exc ChunkHdr := do
  if msg.type ≠ .chunkHdr then .error (.runtimeError "parse_chunk_hdr: wrong type") else
  let (chunkIndex, _) ← Reader.getU32 ⟨msg.payload, 0⟩
  .ok ⟨chunkIndex⟩

theorem ok_bind {α β : Type} {x : Except Exc α} {f : α → Except Exc β} {b : β}
    (h : (x >>= f) = .ok b) : ∃ a, x = .ok a ∧ f a = .ok b := by
  cases x with
  | error e => cases h
  | ok a => exact ⟨a, rfl, h⟩

namespace Reader
variable {r r' : Reader}

theorem ensure_ok {n : ℕ} {u : Unit} (h : r.ensure n = .ok u) : r.pos + n ≤ r.data.length := by
  rw [ensure] at h
  split_ifs at h with hlt
  omega

theorem getU32_data {v : UInt32} (h : r.getU32 = .ok (v, r')) : r'.data = r.data := by
  obtain ⟨_, -, h⟩ := ok_bind h
  cases h
  rfl

theorem getU64_data {v : UInt64} (h : r.getU64 = .ok (v, r')) : r'.data = r.data := by
  obtain ⟨⟨hi, r₁⟩, h₁, h⟩ := ok_bind h
  obtain ⟨⟨lo, r₂⟩, h₂, h⟩ := ok_bind h
  cases h
  rw [getU32_data h₂, getU32_data h₁]

theorem getStr_data {v : Bytes} (h : r.getStr = .ok (v, r')) : r'.data = r.data := by
  obtain ⟨⟨n, r₁⟩, h₁, h⟩ := ok_bind h
  obtain ⟨_, -, h⟩ := ok_bind h
  cases h
  change r₁.data = r.data
  exact getU32_data h₁

end Reader

theorem parseFilemeta_chunkCount {msg : Message} {m : FileMeta} (h : parseFilemeta msg = .ok m) :
    m.chunkCount.toNat * hashSize ≤ msg.payload.length := by
  rw [parseFilemeta] at h
  split_ifs at h
  obtain ⟨⟨fileSize, r₁⟩, h₁, h⟩ := ok_bind h
  obtain ⟨⟨fileName, r₂⟩, h₂, h⟩ := ok_bind h
  obtain ⟨⟨chunkSize, r₃⟩, h₃, h⟩ := ok_bind h
  obtain ⟨⟨chunkCount, r₄⟩, h₄, h⟩ := ok_bind h
  obtain ⟨_, h₅, h⟩ := ok_bind h
  obtain ⟨⟨chunkHashes, r₅⟩, -, h⟩ := ok_bind h
  cases h
  have hdata : r₄.data = msg.payload := by
    rw [Reader.getU32_data h₄, Reader.getU32_data h₃, Reader.getStr_data h₂, Reader.getU64_data h₁]
  have hlen := Reader.ensure_ok h₅
  rw [hdata] at hlen
  change chunkCount.toNat * hashSize ≤ _
  omega

theorem Reader.getHashes_length {n : ℕ} {r r' : Reader} {hs : List Hash}
    (h : Reader.getHashes n r = .ok (hs, r')) : hs.length = n := by
  induction n generalizing r hs with
  | zero =>
    cases h
    rfl
  | succ n ih =>
    obtain ⟨⟨v, r₁⟩, -, h⟩ := ok_bind h
    obtain ⟨⟨vs, r₂⟩, h₂, h⟩ := ok_bind h
    cases h
    exact congrArg (· + 1) (ih h₂)

theorem parseFilemeta_chunkHashes {msg : Message} {m : FileMeta} (h : parseFilemeta msg = .ok m) :
    m.chunkHashes.length = m.chunkCount.toNat := by
  rw [parseFilemeta] at h
  split_ifs at h
  obtain ⟨⟨fileSize, r₁⟩, -, h⟩ := ok_bind h
  obtain ⟨⟨fileName, r₂⟩, -, h⟩ := ok_bind h
  obtain ⟨⟨chunkSize, r₃⟩, -, h⟩ := ok_bind h
  obtain ⟨⟨chunkCount, r₄⟩, -, h⟩ := ok_bind h
  obtain ⟨_, -, h⟩ := ok_bind h
  obtain ⟨⟨chunkHashes, r₅⟩, h₆, h⟩ := ok_bind h
  cases h
  exact Reader.getHashes_length h₆

namespace Reader
variable {r r' : Reader} {a bs : Bytes}

def Rest (r : Reader) (bs : Bytes) : Prop := r.pos ≤ r.data.length ∧ r.data.drop r.pos = bs

theorem rest_start (bs : Bytes) : Rest ⟨bs, 0⟩ bs := ⟨Nat.zero_le _, rfl⟩

theorem Rest.length (h : r.Rest bs) : r.pos + bs.length = r.data.length := by
  rw [← h.2, List.length_drop]
  have hle := h.1
  omega

theorem Rest.ensure (h : r.Rest bs) {n : ℕ} (hn : n ≤ bs.length) : r.ensure n = .ok () := by
  have hlen := h.length
  rw [Reader.ensure, if_neg (by omega)]

theorem Rest.slice (h : r.Rest (a ++ bs)) : Octets.slice r.data r.pos a.length = a := by
  rw [Octets.slice, h.2, List.take_left' rfl]

theorem Rest.advance (h : r.Rest (a ++ bs)) : Rest ⟨r.data, r.pos + a.length⟩ bs := by
  have hlen := h.length
  rw [List.length_append] at hlen
  refine ⟨?_, ?_⟩
  · change r.pos + a.length ≤ r.data.length
    omega
  · change r.data.drop (r.pos + a.length) = bs
    rw [← List.drop_drop, h.2, List.drop_left' rfl]

theorem getU32_put {v : UInt32} (h : r.Rest (putU32 v ++ bs)) :
    ∃ r', r.getU32 = .ok (v, r') ∧ r'.Rest bs := by
  have hlen : (putU32 v).length = 4 := be_length 4 _
  refine ⟨⟨r.data, r.pos + 4⟩, ?_, hlen ▸ h.advance⟩
  have hslice := h.slice
  rw [hlen] at hslice
  rw [getU32, h.ensure (by rw [List.length_append, hlen]; omega), hslice, putU32]
  have hv : ofBE (be 4 v.toNat) = v.toNat := ofBE_be_of_lt v.toNat_lt
  rw [hv, UInt32.ofNat_toNat]
  rfl

theorem join_words (v : UInt64) :
    (((v >>> 32).toUInt32.toUInt64 <<< 32) ||| v.toUInt32.toUInt64) = v := by
  apply UInt64.toNat_inj.mp
  have hv := v.toNat_lt
  simp only [UInt64.toNat_or, UInt64.toNat_shiftLeft, UInt32.toNat_toUInt64, UInt64.toNat_toUInt32,
    UInt64.toNat_shiftRight]
  have h32 : (32 : UInt64).toNat % 64 = 32 := rfl
  rw [h32, Nat.shiftRight_eq_div_pow, Nat.shiftLeft_eq]
  have hhi : v.toNat / 2 ^ 32 % 2 ^ 32 * 2 ^ 32 % 2 ^ 64 = v.toNat / 2 ^ 32 * 2 ^ 32 := by omega
  rw [hhi, ← Nat.shiftLeft_eq, ← Nat.shiftLeft_add_eq_or_of_lt (Nat.mod_lt _ (by omega)),
    Nat.shiftLeft_eq]
  omega

theorem getU64_put {v : UInt64} (h : r.Rest (putU64 v ++ bs)) :
    ∃ r', r.getU64 = .ok (v, r') ∧ r'.Rest bs := by
  rw [putU64, List.append_assoc] at h
  obtain ⟨r₁, h₁, hr₁⟩ := getU32_put h
  obtain ⟨r₂, h₂, hr₂⟩ := getU32_put hr₁
  refine ⟨r₂, ?_, hr₂⟩
  rw [getU64, h₁]
  change (r₁.getU32 >>= _) = _
  rw [h₂]
  change Except.ok (_, r₂) = _
  rw [join_words]

theorem getStr_put {s : Bytes} (hs : s.length < 2 ^ 32) (h : r.Rest (putStr s ++ bs)) :
    ∃ r', r.getStr = .ok (s, r') ∧ r'.Rest bs := by
  rw [putStr, List.append_assoc] at h
  obtain ⟨r₁, h₁, hr₁⟩ := getU32_put h
  have hn : (UInt32.ofNat s.length).toNat = s.length := UInt32.toNat_ofNat_of_lt' hs
  refine ⟨⟨r₁.data, r₁.pos + s.length⟩, ?_, hr₁.advance⟩
  rw [getStr, h₁]
  change (r₁.ensure (UInt32.ofNat s.length).toNat >>= _) = _
  rw [hn, hr₁.ensure (by rw [List.length_append]; omega)]
  change Except.ok (Octets.slice r₁.data r₁.pos s.length, _) = _
  rw [hr₁.slice]

theorem getHash_put {v : Hash} (h : r.Rest (v.val ++ bs)) :
    ∃ r', r.getHash = .ok (v, r') ∧ r'.Rest bs := by
  have hlen : v.val.length = hashSize := v.property
  have hslice := h.slice
  rw [hlen] at hslice
  refine ⟨⟨r.data, r.pos + hashSize⟩, ?_, hlen ▸ h.advance⟩
  rw [getHash, h.ensure (by rw [List.length_append, hlen]; omega), hslice, Hash.ofBytes_val]
  rfl

theorem getHashes_put {vs : List Hash} (h : r.Rest ((vs.map Subtype.val).flatten ++ bs)) :
    ∃ r', getHashes vs.length r = .ok (vs, r') ∧ r'.Rest bs := by
  induction vs generalizing r with
  | nil => exact ⟨r, rfl, h⟩
  | cons v vs ih =>
    rw [List.map_cons, List.flatten_cons, List.append_assoc] at h
    obtain ⟨r₁, h₁, hr₁⟩ := getHash_put h
    obtain ⟨r₂, h₂, hr₂⟩ := ih hr₁
    refine ⟨r₂, ?_, hr₂⟩
    rw [List.length_cons, getHashes, h₁]
    change (getHashes vs.length r₁ >>= _) = _
    rw [h₂]
    rfl

end Reader

theorem hashes_length (vs : List Hash) :
    ((vs.map Subtype.val).flatten).length = vs.length * hashSize := by
  induction vs with
  | nil => simp
  | cons v vs ih =>
    rw [List.map_cons, List.flatten_cons, List.length_append, ih, v.property, List.length_cons,
      Nat.add_mul, Nat.one_mul, Nat.add_comm]

section filemeta
variable {m : FileMeta} {msg : Message}

theorem makeFilemeta_type (h : makeFilemeta m = .ok msg) : msg.type = .fileMeta := by
  rw [makeFilemeta] at h
  split_ifs at h
  cases h
  rfl

theorem makeFilemeta_valid (h : makeFilemeta m = .ok msg)
    (hfit : msg.payload.length ≤ MAX_PAYLOAD_SIZE) : msg.Valid :=
  ⟨makeFilemeta_type h ▸ nofun, hfit⟩

theorem makeFilemeta_fileName (h : makeFilemeta m = .ok msg)
    (hfit : msg.payload.length ≤ MAX_PAYLOAD_SIZE) : m.fileName.length < 2 ^ 32 := by
  rw [makeFilemeta] at h
  split_ifs at h
  cases h
  simp only [putStr, List.length_append, MAX_PAYLOAD_SIZE] at hfit
  omega

end filemeta

section parse
variable {p : Bytes}

theorem parseFilemeta_of_prefix {m : FileMeta} {msg : Message} (h : makeFilemeta m = .ok msg)
    (hname : m.fileName.length < 2 ^ 32) (hp : msg.payload <+: p) :
    parseFilemeta ⟨.fileMeta, p⟩ = .ok m := by
  rw [makeFilemeta] at h
  split_ifs at h with hcount
  have hcount := not_not.mp hcount
  cases h
  obtain ⟨rest, rfl⟩ := hp
  have hrest := Reader.rest_start (putU64 m.fileSize ++ putStr m.fileName ++ putU32 m.chunkSize
    ++ putU32 m.chunkCount ++ (m.chunkHashes.map Subtype.val).flatten ++ rest)
  simp only [List.append_assoc] at hrest
  obtain ⟨r₁, h₁, hr₁⟩ := Reader.getU64_put hrest
  obtain ⟨r₂, h₂, hr₂⟩ := Reader.getStr_put hname hr₁
  obtain ⟨r₃, h₃, hr₃⟩ := Reader.getU32_put hr₂
  obtain ⟨r₄, h₄, hr₄⟩ := Reader.getU32_put hr₃
  obtain ⟨r₅, h₅, -⟩ := Reader.getHashes_put hr₄
  have hensure := hr₄.ensure (n := m.chunkCount.toNat * hashSize) (by
    rw [List.length_append, hashes_length, hcount]
    omega)
  rw [parseFilemeta, if_neg (fun h => h rfl)]
  simp only [List.append_assoc]
  change (Reader.getU64 _ >>= _) = _
  rw [h₁]
  change (r₁.getStr >>= _) = _
  rw [h₂]
  change (r₂.getU32 >>= _) = _
  rw [h₃]
  change (r₃.getU32 >>= _) = _
  rw [h₄]
  change (r₄.ensure (m.chunkCount.toNat * hashSize) >>= _) = _
  rw [hensure]
  change (Reader.getHashes m.chunkCount.toNat r₄ >>= _) = _
  rw [← hcount, h₅]
  rfl

theorem parseChunkReq_of_prefix {v : ChunkReq} (hp : (makeChunkReq v).payload <+: p) :
    parseChunkReq ⟨.chunkReq, p⟩ = .ok v := by
  obtain ⟨rest, rfl⟩ := hp
  obtain ⟨r', h, -⟩ := Reader.getU32_put (Reader.rest_start (putU32 v.chunkIndex ++ rest))
  rw [parseChunkReq, makeChunkReq, if_neg (fun h => h rfl), h]
  rfl

theorem parseChunkHdr_of_prefix {v : ChunkHdr} (hp : (makeChunkHdr v).payload <+: p) :
    parseChunkHdr ⟨.chunkHdr, p⟩ = .ok v := by
  obtain ⟨rest, rfl⟩ := hp
  obtain ⟨r', h, -⟩ := Reader.getU32_put (Reader.rest_start (putU32 v.chunkIndex ++ rest))
  rw [parseChunkHdr, makeChunkHdr, if_neg (fun h => h rfl), h]
  rfl

theorem parseHandshake_of_prefix {v : HandshakePayload} (hv : v.token.length < 2 ^ 32)
    (hp : (makeHandshake v).payload <+: p) : parseHandshake ⟨.handshake, p⟩ = .ok v := by
  obtain ⟨rest, rfl⟩ := hp
  obtain ⟨r', h, -⟩ := Reader.getStr_put hv (Reader.rest_start (putStr v.token ++ rest))
  rw [parseHandshake, makeHandshake, if_neg (fun h => h rfl), h]
  rfl

end parse

theorem parseFilemeta_make {m : FileMeta} {msg : Message} (h : makeFilemeta m = .ok msg)
    (hname : m.fileName.length < 2 ^ 32) : parseFilemeta msg = .ok m := by
  have hmsg : msg = ⟨.fileMeta, msg.payload⟩ := by
    rw [← makeFilemeta_type h]
  rw [hmsg]
  exact parseFilemeta_of_prefix h hname List.prefix_rfl

theorem parseChunkReq_make (r : ChunkReq) : parseChunkReq (makeChunkReq r) = .ok r :=
  parseChunkReq_of_prefix List.prefix_rfl

theorem parseChunkHdr_make (r : ChunkHdr) : parseChunkHdr (makeChunkHdr r) = .ok r :=
  parseChunkHdr_of_prefix List.prefix_rfl

theorem parseHandshake_make {p : HandshakePayload} (hp : p.token.length < 2 ^ 32) :
    parseHandshake (makeHandshake p) = .ok p :=
  parseHandshake_of_prefix hp List.prefix_rfl

end Embr.Protocol
