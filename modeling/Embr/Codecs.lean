import Embr.Protocol
import Embr.Lib.Decode

/-!
# What the parsers accept

A parser accepts a payload exactly if it begins with one that a builder makes,
and answers what that one was made from. It looks at nothing behind the end.
-/

open Octets Decode
namespace Embr.Protocol

theorem word_toNat (hi lo : UInt32) :
    ((hi.toUInt64 <<< 32) ||| lo.toUInt64).toNat = hi.toNat * 2 ^ 32 + lo.toNat := by
  have hhi := hi.toNat_lt
  have hlo := lo.toNat_lt
  have h32 : (32 : UInt64).toNat % 64 = 32 := rfl
  simp only [UInt64.toNat_or, UInt64.toNat_shiftLeft, UInt32.toNat_toUInt64, h32, Nat.shiftLeft_eq]
  have hsmall : hi.toNat * 2 ^ 32 % 2 ^ 64 = hi.toNat * 2 ^ 32 := by omega
  rw [hsmall, ← Nat.shiftLeft_eq, ← Nat.shiftLeft_add_eq_or_of_lt hlo]

theorem word_hi (hi lo : UInt32) :
    (((hi.toUInt64 <<< 32) ||| lo.toUInt64) >>> 32).toUInt32 = hi := by
  have hlo := lo.toNat_lt
  have hhi := hi.toNat_lt
  apply UInt32.toNat_inj.mp
  have h32 : (32 : UInt64).toNat % 64 = 32 := rfl
  rw [UInt64.toNat_toUInt32, UInt64.toNat_shiftRight, word_toNat, h32, Nat.shiftRight_eq_div_pow]
  omega

theorem word_lo (hi lo : UInt32) : ((hi.toUInt64 <<< 32) ||| lo.toUInt64).toUInt32 = lo := by
  apply UInt32.toNat_inj.mp
  rw [UInt64.toNat_toUInt32, word_toNat, Nat.mul_add_mod_of_lt lo.toNat_lt]

namespace Reader
variable {r r' : Reader} {bs : Bytes}

theorem Rest.taken {n : ℕ} (h : r.Rest bs) (hn : r.pos + n ≤ r.data.length) :
    ∃ rest, bs = Octets.slice r.data r.pos n ++ rest ∧ (Octets.slice r.data r.pos n).length = n ∧
      Rest ⟨r.data, r.pos + n⟩ rest := by
  have hlen := h.length
  refine ⟨bs.drop n, ?_, ?_, hn, ?_⟩
  · rw [Octets.slice, h.2, List.take_append_drop]
  · exact slice_length hn
  · change r.data.drop (r.pos + n) = _
    rw [← List.drop_drop, h.2]

theorem getU32_sound {v : UInt32} (h : r.Rest bs) (hget : r.getU32 = .ok (v, r')) :
    ∃ rest, bs = putU32 v ++ rest ∧ r'.Rest rest := by
  obtain ⟨_, hensure, hget⟩ := ok_bind hget
  cases hget
  obtain ⟨rest, hbs, hlen, hrest⟩ := h.taken (ensure_ok hensure)
  refine ⟨rest, ?_, hrest⟩
  have hlt := ofBE_lt (Octets.slice r.data r.pos 4)
  rw [hlen] at hlt
  have hput : be 4 (ofBE (Octets.slice r.data r.pos 4)) = Octets.slice r.data r.pos 4 := by
    have hback := be_ofBE (Octets.slice r.data r.pos 4)
    rwa [hlen] at hback
  rw [putU32, UInt32.toNat_ofNat_of_lt' hlt, hput]
  exact hbs

theorem getU64_sound {v : UInt64} (h : r.Rest bs) (hget : r.getU64 = .ok (v, r')) :
    ∃ rest, bs = putU64 v ++ rest ∧ r'.Rest rest := by
  obtain ⟨⟨hi, r₁⟩, h₁, hget⟩ := ok_bind hget
  obtain ⟨⟨lo, r₂⟩, h₂, hget⟩ := ok_bind hget
  cases hget
  obtain ⟨rest₁, hbs, hr₁⟩ := getU32_sound h h₁
  obtain ⟨rest₂, hrest, hr₂⟩ := getU32_sound hr₁ h₂
  refine ⟨rest₂, ?_, hr₂⟩
  rw [putU64, word_hi, word_lo, hbs, hrest, List.append_assoc]

theorem getStr_sound {s : Bytes} (h : r.Rest bs) (hget : r.getStr = .ok (s, r')) :
    s.length < 2 ^ 32 ∧ ∃ rest, bs = putStr s ++ rest ∧ r'.Rest rest := by
  obtain ⟨⟨n, r₁⟩, h₁, hget⟩ := ok_bind hget
  obtain ⟨_, hensure, hget⟩ := ok_bind hget
  cases hget
  obtain ⟨rest₁, hbs, hr₁⟩ := getU32_sound h h₁
  obtain ⟨rest₂, hrest, hlen, hr₂⟩ := hr₁.taken (ensure_ok hensure)
  refine ⟨?_, rest₂, ?_, hr₂⟩
  · rw [hlen]
    exact n.toNat_lt
  · rw [putStr, hlen, UInt32.ofNat_toNat, hbs, hrest, List.append_assoc]

theorem getHash_sound {v : Hash} (h : r.Rest bs) (hget : r.getHash = .ok (v, r')) :
    ∃ rest, bs = v.val ++ rest ∧ r'.Rest rest := by
  obtain ⟨_, hensure, hget⟩ := ok_bind hget
  cases hget
  obtain ⟨rest, hbs, hlen, hrest⟩ := h.taken (ensure_ok hensure)
  refine ⟨rest, ?_, hrest⟩
  have hval : (Hash.ofBytes (Octets.slice r.data r.pos hashSize)).val =
      Octets.slice r.data r.pos hashSize :=
    congrArg Subtype.val (Hash.ofBytes_val ⟨_, hlen⟩)
  rw [hval]
  exact hbs

theorem getHashes_sound {n : ℕ} {vs : List Hash} (h : r.Rest bs)
    (hget : getHashes n r = .ok (vs, r')) :
    ∃ rest, bs = (vs.map Subtype.val).flatten ++ rest ∧ r'.Rest rest := by
  induction n generalizing r bs vs with
  | zero =>
    cases hget
    exact ⟨bs, rfl, h⟩
  | succ n ih =>
    obtain ⟨⟨v, r₁⟩, h₁, hget⟩ := ok_bind hget
    obtain ⟨⟨ws, r₂⟩, h₂, hget⟩ := ok_bind hget
    cases hget
    obtain ⟨rest₁, hbs, hr₁⟩ := getHash_sound h h₁
    obtain ⟨rest₂, hrest, hr₂⟩ := ih hr₁ h₂
    refine ⟨rest₂, ?_, hr₂⟩
    rw [List.map_cons, List.flatten_cons, hbs, hrest, List.append_assoc]

end Reader

section
variable {p : Bytes}

theorem parseFilemeta_prefix {m : FileMeta} (h : parseFilemeta ⟨.fileMeta, p⟩ = .ok m) :
    m.fileName.length < 2 ^ 32 ∧ ∃ msg, makeFilemeta m = .ok msg ∧ msg.payload <+: p := by
  have hcount := parseFilemeta_chunkHashes h
  rw [parseFilemeta, if_neg (fun h => h rfl)] at h
  obtain ⟨⟨fileSize, r₁⟩, h₁, h⟩ := ok_bind h
  obtain ⟨⟨fileName, r₂⟩, h₂, h⟩ := ok_bind h
  obtain ⟨⟨size, r₃⟩, h₃, h⟩ := ok_bind h
  obtain ⟨⟨count, r₄⟩, h₄, h⟩ := ok_bind h
  obtain ⟨_, -, h⟩ := ok_bind h
  obtain ⟨⟨hashes, r₅⟩, h₆, h⟩ := ok_bind h
  cases h
  obtain ⟨rest₁, e₁, hr₁⟩ := Reader.getU64_sound (Reader.rest_start p) h₁
  obtain ⟨hname, rest₂, e₂, hr₂⟩ := Reader.getStr_sound hr₁ h₂
  obtain ⟨rest₃, e₃, hr₃⟩ := Reader.getU32_sound hr₂ h₃
  obtain ⟨rest₄, e₄, hr₄⟩ := Reader.getU32_sound hr₃ h₄
  obtain ⟨rest₅, e₅, -⟩ := Reader.getHashes_sound hr₄ h₆
  refine ⟨hname, _, if_neg (not_not.mpr hcount), rest₅, ?_⟩
  rw [e₁, e₂, e₃, e₄, e₅]
  simp only [List.append_assoc]

theorem parseHandshake_prefix {v : HandshakePayload} (h : parseHandshake ⟨.handshake, p⟩ = .ok v) :
    v.token.length < 2 ^ 32 ∧ (makeHandshake v).payload <+: p := by
  rw [parseHandshake, if_neg (fun h => h rfl)] at h
  obtain ⟨⟨token, r⟩, hget, h⟩ := ok_bind h
  cases h
  obtain ⟨hlen, rest, hp, -⟩ := Reader.getStr_sound (Reader.rest_start p) hget
  exact ⟨hlen, rest, hp.symm⟩

theorem parseChunkReq_prefix {v : ChunkReq} (h : parseChunkReq ⟨.chunkReq, p⟩ = .ok v) :
    (makeChunkReq v).payload <+: p := by
  rw [parseChunkReq, if_neg (fun h => h rfl)] at h
  obtain ⟨⟨i, r⟩, hget, h⟩ := ok_bind h
  cases h
  obtain ⟨rest, hp, -⟩ := Reader.getU32_sound (Reader.rest_start p) hget
  exact ⟨rest, hp.symm⟩

theorem parseChunkHdr_prefix {v : ChunkHdr} (h : parseChunkHdr ⟨.chunkHdr, p⟩ = .ok v) :
    (makeChunkHdr v).payload <+: p := by
  rw [parseChunkHdr, if_neg (fun h => h rfl)] at h
  obtain ⟨⟨i, r⟩, hget, h⟩ := ok_bind h
  cases h
  obtain ⟨rest, hp, -⟩ := Reader.getU32_sound (Reader.rest_start p) hget
  exact ⟨rest, hp.symm⟩

end

def truncated : Exc := .runtimeError "protocol: truncated payload"

def u32 : Decoder Exc UInt32 := .need 4 (.take 4 fun bs => pure (UInt32.ofNat (ofBE bs)))

def u64 : Decoder Exc UInt64 := do
  let hi ← u32
  let lo ← u32
  pure ((hi.toUInt64 <<< 32) ||| lo.toUInt64)

def str : Decoder Exc Bytes := do
  let strLen ← u32
  .need strLen.toNat (.take strLen.toNat pure)

def hashes : ℕ → Decoder Exc (List Hash)
  | 0 => pure []
  | n + 1 => do
    let h ← .need hashSize (.take hashSize fun bs => pure (Hash.ofBytes bs))
    let hs ← hashes n
    pure (h :: hs)

def filemeta : Decoder Exc FileMeta := do
  let fileSize ← u64
  let fileName ← str
  let chunkSize ← u32
  let chunkCount ← u32
  .need (chunkCount.toNat * hashSize) <| .room chunkCount.toNat do
    let chunkHashes ← hashes chunkCount.toNat
    pure ⟨fileName, fileSize, chunkSize, chunkCount, chunkHashes⟩

def handshake : Decoder Exc HandshakePayload := do
  let token ← str
  pure ⟨token⟩

def chunkReq : Decoder Exc ChunkReq := do
  let chunkIndex ← u32
  pure ⟨chunkIndex⟩

def chunkHdr : Decoder Exc ChunkHdr := do
  let chunkIndex ← u32
  pure ⟨chunkIndex⟩

theorem u32_careful : u32.Careful hashSize := .read fun _ => .pure _

theorem u64_careful : u64.Careful hashSize :=
  u32_careful.bind fun _ => u32_careful.bind fun _ => .pure _

theorem str_careful : str.Careful hashSize := u32_careful.bind fun _ => .read fun _ => .pure _

theorem hashes_careful (n : ℕ) : (hashes n).Careful hashSize := by
  induction n with
  | zero => exact .pure _
  | succ n ih =>
    exact Decoder.Careful.bind (.read fun _ => .pure _) fun _ => ih.bind fun _ => .pure _

theorem filemeta_careful : filemeta.Careful hashSize := by
  refine u64_careful.bind fun _ => str_careful.bind fun _ => u32_careful.bind fun _ => ?_
  exact u32_careful.bind fun chunkCount =>
    .room ((hashes_careful chunkCount.toNat).bind fun _ => .pure _)

theorem u32_rooms (p : Bytes) (pos : ℕ) : u32.rooms p pos = [] := by
  rw [u32, Decoder.rooms]
  split_ifs <;> rfl

theorem u64_rooms {p : Bytes} {pos : ℕ} {x : UInt64 × ℕ}
    (h : u64.run truncated p pos = .ok x) : u64.rooms p pos = [] := by
  rw [u64, Decoder.run_bind] at h
  obtain ⟨y, hy, h⟩ := ok_bind h
  rw [Decoder.run_bind] at h
  obtain ⟨z, hz, -⟩ := ok_bind h
  rw [u64, Decoder.rooms_bind hy, Decoder.rooms_bind hz, u32_rooms, u32_rooms]
  rfl

theorem str_rooms {p : Bytes} {pos : ℕ} {x : Bytes × ℕ}
    (h : str.run truncated p pos = .ok x) : str.rooms p pos = [] := by
  rw [str, Decoder.run_bind] at h
  obtain ⟨y, hy, -⟩ := ok_bind h
  rw [str, Decoder.rooms_bind hy, u32_rooms, Decoder.rooms]
  split_ifs <;> rfl

theorem hashes_rooms {n : ℕ} {p : Bytes} {pos : ℕ} {x : List Hash × ℕ}
    (h : (hashes n).run truncated p pos = .ok x) : (hashes n).rooms p pos = [] := by
  induction n generalizing pos x with
  | zero => rfl
  | succ n ih =>
    rw [hashes, Decoder.run_bind] at h
    obtain ⟨y, hy, h⟩ := ok_bind h
    rw [Decoder.run_bind] at h
    obtain ⟨z, hz, -⟩ := ok_bind h
    rw [hashes, Decoder.rooms_bind hy, Decoder.rooms_bind hz, ih hz, Decoder.rooms]
    split_ifs <;> rfl

theorem filemeta_rooms {p : Bytes} {x : FileMeta × ℕ}
    (h : filemeta.run truncated p 0 = .ok x) : filemeta.rooms p 0 = [x.1.chunkCount.toNat] := by
  rw [filemeta, Decoder.run_bind] at h
  obtain ⟨fileSize, h₁, h⟩ := ok_bind h
  rw [Decoder.run_bind] at h
  obtain ⟨fileName, h₂, h⟩ := ok_bind h
  rw [Decoder.run_bind] at h
  obtain ⟨chunkSize, h₃, h⟩ := ok_bind h
  rw [Decoder.run_bind] at h
  obtain ⟨chunkCount, h₄, h⟩ := ok_bind h
  rw [filemeta, Decoder.rooms_bind h₁, u64_rooms h₁, Decoder.rooms_bind h₂, str_rooms h₂,
    Decoder.rooms_bind h₃, u32_rooms, Decoder.rooms_bind h₄, u32_rooms, Decoder.rooms]
  rw [Decoder.run] at h
  split_ifs at h ⊢
  rw [Decoder.run, Decoder.run_bind] at h
  obtain ⟨chunkHashes, h₅, h⟩ := ok_bind h
  cases h
  rw [Decoder.rooms, Decoder.rooms_bind h₅, hashes_rooms h₅]
  rfl

theorem handshake_careful : handshake.Careful hashSize := str_careful.bind fun _ => .pure _

theorem chunkReq_careful : chunkReq.Careful hashSize := u32_careful.bind fun _ => .pure _

theorem chunkHdr_careful : chunkHdr.Careful hashSize := u32_careful.bind fun _ => .pure _

def Reader.Runs {α : Type} (get : Reader → Except Exc (α × Reader)) (d : Decoder Exc α) : Prop :=
  ∀ r, get r = (d.run truncated r.data r.pos >>= fun x => .ok (x.1, ⟨r.data, x.2⟩))

namespace Reader.Runs
variable {α β : Type} {get : Reader → Except Exc (α × Reader)} {d : Decoder Exc α}

theorem pure (a : α) : Runs (fun r => .ok (a, r)) (Pure.pure a) := fun _ => rfl

theorem bind {f : α × Reader → Except Exc (β × Reader)} {d' : α → Decoder Exc β}
    (h : Runs get d) (h' : ∀ a, Runs (fun r => f (a, r)) (d' a)) :
    Runs (fun r => get r >>= f) (d >>= d') := by
  intro r
  rw [Decoder.run_bind]
  dsimp only
  rw [h r]
  cases d.run truncated r.data r.pos with
  | error e => rfl
  | ok x => exact h' x.1 ⟨r.data, x.2⟩

theorem take (n : ℕ) (f : Bytes → α) : Runs (fun r => r.ensure n >>= fun _ =>
    .ok (f (Octets.slice r.data r.pos n), ⟨r.data, r.pos + n⟩))
      (.need n (.take n fun bs => Pure.pure (f bs))) := by
  intro r
  dsimp only
  rw [Reader.ensure, Decoder.run]
  split_ifs <;> rfl

theorem u32 : Runs getU32 u32 := take 4 fun bs => UInt32.ofNat (ofBE bs)

theorem u64 : Runs getU64 u64 := bind u32 fun _ => bind u32 fun _ => pure _

theorem str : Runs getStr str := bind u32 fun strLen => take strLen.toNat id

theorem hashes (n : ℕ) : Runs (getHashes n) (hashes n) := by
  induction n with
  | zero => exact pure _
  | succ n ih => exact bind (take hashSize Hash.ofBytes) fun _ => bind ih fun _ => pure _

end Reader.Runs

def Reader.Answers {α : Type} (parse : Reader → Except Exc α) (d : Decoder Exc α) : Prop :=
  ∀ r, parse r = (d.run truncated r.data r.pos).map Prod.fst

namespace Reader.Answers
variable {α β : Type} {get : Reader → Except Exc (α × Reader)} {d : Decoder Exc α}

theorem pure (a : α) : Answers (fun _ => .ok a) (Pure.pure a) := fun _ => rfl

theorem bind {f : α × Reader → Except Exc β} {d' : α → Decoder Exc β} (h : Runs get d)
    (h' : ∀ a, Answers (fun r => f (a, r)) (d' a)) :
    Answers (fun r => get r >>= f) (d >>= d') := by
  intro r
  rw [Decoder.run_bind]
  dsimp only
  rw [h r]
  cases d.run truncated r.data r.pos with
  | error e => rfl
  | ok x => exact h' x.1 ⟨r.data, x.2⟩

theorem room {parse : Reader → Except Exc α} {n m : ℕ} (h : Answers parse d) :
    Answers (fun r => r.ensure n >>= fun _ => parse r) (.need n (.room m d)) := by
  intro r
  dsimp only
  rw [Reader.ensure, Decoder.run]
  split_ifs
  · rfl
  · exact h r

end Reader.Answers

section
open Reader

theorem parseFilemeta_decoder (p : Bytes) :
    parseFilemeta ⟨.fileMeta, p⟩ = (filemeta.run truncated p 0).map Prod.fst := by
  have hanswers : Answers (fun r => do
      let x ← r.getU64
      let y ← x.2.getStr
      let z ← y.2.getU32
      let n ← z.2.getU32
      n.2.ensure (n.1.toNat * hashSize)
      let hs ← getHashes n.1.toNat n.2
      .ok ⟨y.1, x.1, z.1, n.1, hs.1⟩) filemeta := by
    refine .bind .u64 fun fileSize => ?_
    dsimp only
    refine .bind .str fun fileName => ?_
    dsimp only
    refine .bind .u32 fun chunkSize => ?_
    dsimp only
    refine .bind .u32 fun chunkCount => ?_
    dsimp only
    exact .room (.bind (.hashes chunkCount.toNat) fun chunkHashes =>
      .pure (⟨fileName, fileSize, chunkSize, chunkCount, chunkHashes⟩ : FileMeta))
  exact hanswers ⟨p, 0⟩

theorem parseHandshake_decoder (p : Bytes) :
    parseHandshake ⟨.handshake, p⟩ = (handshake.run truncated p 0).map Prod.fst := by
  have hanswers : Answers (fun r => do
      let x ← r.getStr
      .ok ⟨x.1⟩) handshake :=
    .bind .str fun token => .pure (⟨token⟩ : HandshakePayload)
  exact hanswers ⟨p, 0⟩

theorem parseChunkReq_decoder (p : Bytes) :
    parseChunkReq ⟨.chunkReq, p⟩ = (chunkReq.run truncated p 0).map Prod.fst := by
  have hanswers : Answers (fun r => do
      let x ← r.getU32
      .ok ⟨x.1⟩) chunkReq :=
    .bind .u32 fun chunkIndex => .pure (⟨chunkIndex⟩ : ChunkReq)
  exact hanswers ⟨p, 0⟩

theorem parseChunkHdr_decoder (p : Bytes) :
    parseChunkHdr ⟨.chunkHdr, p⟩ = (chunkHdr.run truncated p 0).map Prod.fst := by
  have hanswers : Answers (fun r => do
      let x ← r.getU32
      .ok ⟨x.1⟩) chunkHdr :=
    .bind .u32 fun chunkIndex => .pure (⟨chunkIndex⟩ : ChunkHdr)
  exact hanswers ⟨p, 0⟩

end

/-- A parser that reads back exactly what a builder makes of the values in `domain`. It is the
decoder `d`, in which a `memcpy` checks nothing. -/
structure Exact {α : Type} (type : MsgType) (make : α → Except Exc Message)
    (parse : Message → Except Exc α) (domain : α → Prop) (d : Decoder Exc α) : Prop where
  roundTrip : ∀ v, domain v → ∃ msg, make v = .ok msg ∧ parse msg = .ok v
  accepts : ∀ p v, parse ⟨type, p⟩ = .ok v ↔
    domain v ∧ ∃ msg, make v = .ok msg ∧ msg.payload <+: p
  unique : ∀ p v w msg msg', domain v → domain w → make v = .ok msg → make w = .ok msg' →
    msg.payload <+: p → msg'.payload <+: p → v = w
  decodes : ∀ p, parse ⟨type, p⟩ = (d.run truncated p 0).map Prod.fst
  careful : d.Careful hashSize

theorem Exact.of_accepts {α : Type} {type : MsgType} {make : α → Except Exc Message}
    {parse : Message → Except Exc α} {domain : α → Prop} {d : Decoder Exc α}
    (hmake : ∀ v, domain v → ∃ p, make v = .ok ⟨type, p⟩)
    (haccepts : ∀ p v, parse ⟨type, p⟩ = .ok v ↔
      domain v ∧ ∃ msg, make v = .ok msg ∧ msg.payload <+: p)
    (hdecodes : ∀ p, parse ⟨type, p⟩ = (d.run truncated p 0).map Prod.fst)
    (hcareful : d.Careful hashSize) : Exact type make parse domain d where
  roundTrip v hv := by
    obtain ⟨p, hp⟩ := hmake v hv
    exact ⟨_, hp, (haccepts p v).mpr ⟨hv, _, hp, List.prefix_rfl⟩⟩
  accepts := haccepts
  unique p v w msg msg' hv hw hmsg hmsg' hp hp' := by
    have hparse := (haccepts p v).mpr ⟨hv, msg, hmsg, hp⟩
    rw [(haccepts p w).mpr ⟨hw, msg', hmsg', hp'⟩] at hparse
    exact (Except.ok.inj hparse).symm
  decodes := hdecodes
  careful := hcareful

/-- A FILE_META that can be built and whose name has a length of 32 bits. -/
def Describable (m : FileMeta) : Prop :=
  m.chunkHashes.length = m.chunkCount.toNat ∧ m.fileName.length < 2 ^ 32

theorem filemeta_exact : Exact .fileMeta makeFilemeta parseFilemeta Describable filemeta := by
  refine .of_accepts (fun m hm => ⟨_, if_neg (not_not.mpr hm.1)⟩) (fun p m => ⟨fun h => ?_, ?_⟩)
    parseFilemeta_decoder filemeta_careful
  · obtain ⟨hname, hmake⟩ := parseFilemeta_prefix h
    exact ⟨⟨parseFilemeta_chunkHashes h, hname⟩, hmake⟩
  · intro ⟨hm, msg, hmake, hp⟩
    exact parseFilemeta_of_prefix hmake hm.2 hp

theorem handshake_exact : Exact .handshake (fun v => .ok (makeHandshake v)) parseHandshake
    (fun v => v.token.length < 2 ^ 32) handshake := by
  refine .of_accepts (fun _ _ => ⟨_, rfl⟩) (fun p v => ⟨fun h => ?_, ?_⟩) parseHandshake_decoder
    handshake_careful
  · obtain ⟨hlen, hp⟩ := parseHandshake_prefix h
    exact ⟨hlen, _, rfl, hp⟩
  · intro ⟨hlen, msg, hmake, hp⟩
    cases hmake
    exact parseHandshake_of_prefix hlen hp

theorem chunkReq_exact : Exact .chunkReq (fun v => .ok (makeChunkReq v)) parseChunkReq
    (fun _ => True) chunkReq := by
  refine .of_accepts (fun _ _ => ⟨_, rfl⟩) (fun p v => ⟨fun h => ?_, ?_⟩) parseChunkReq_decoder
    chunkReq_careful
  · exact ⟨trivial, _, rfl, parseChunkReq_prefix h⟩
  · intro ⟨_, msg, hmake, hp⟩
    cases hmake
    exact parseChunkReq_of_prefix hp

theorem chunkHdr_exact : Exact .chunkHdr (fun v => .ok (makeChunkHdr v)) parseChunkHdr
    (fun _ => True) chunkHdr := by
  refine .of_accepts (fun _ _ => ⟨_, rfl⟩) (fun p v => ⟨fun h => ?_, ?_⟩) parseChunkHdr_decoder
    chunkHdr_careful
  · exact ⟨trivial, _, rfl, parseChunkHdr_prefix h⟩
  · intro ⟨_, msg, hmake, hp⟩
    cases hmake
    exact parseChunkHdr_of_prefix hp

/-- All payload codecs, and what `parse_filemeta` allocates. -/
theorem payload_codecs :
    Exact .fileMeta makeFilemeta parseFilemeta Describable filemeta ∧
    Exact .handshake (fun v => .ok (makeHandshake v)) parseHandshake
      (fun v => v.token.length < 2 ^ 32) handshake ∧
    Exact .chunkReq (fun v => .ok (makeChunkReq v)) parseChunkReq (fun _ => True) chunkReq ∧
    Exact .chunkHdr (fun v => .ok (makeChunkHdr v)) parseChunkHdr (fun _ => True) chunkHdr ∧
    (∀ reason, parseError (makeError reason) = .ok reason) ∧
    (∀ p, ∀ n ∈ filemeta.rooms p 0, n ≤ p.length / 32) ∧
    ∀ p m, parseFilemeta ⟨.fileMeta, p⟩ = .ok m → filemeta.rooms p 0 = [m.chunkCount.toNat] ∧
      m.chunkHashes.length = m.chunkCount.toNat := by
  refine ⟨filemeta_exact, handshake_exact, chunkReq_exact, chunkHdr_exact, fun _ => rfl, ?_, ?_⟩
  · intro p n hn
    exact (Nat.le_div_iff_mul_le (by decide)).mpr (filemeta_careful.fits p 0 n hn)
  · intro p m h
    refine ⟨?_, parseFilemeta_chunkHashes h⟩
    rw [parseFilemeta_decoder] at h
    cases hrun : filemeta.run truncated p 0 with
    | error e =>
      rw [hrun] at h
      cases h
    | ok x =>
      rw [hrun] at h
      cases h
      exact filemeta_rooms hrun

theorem payload_codecs_oneChunk :
    ∃ msg, makeFilemeta ⟨[97], 1, 1048576, 1, [.ofBytes []]⟩ = .ok msg ∧
      parseFilemeta msg = .ok ⟨[97], 1, 1048576, 1, [.ofBytes []]⟩ :=
  payload_codecs.1.roundTrip _ ⟨rfl, by decide⟩

/-- The length of a token wraps at `2 ^ 32`. -/
theorem token_wraps : ¬ ∀ v, parseHandshake (makeHandshake v) = .ok v := by
  intro h
  have hlong := h ⟨List.replicate (2 ^ 32) 0⟩
  have hempty : parseHandshake (makeHandshake ⟨List.replicate (2 ^ 32) 0⟩) = .ok ⟨[]⟩ := by
    refine parseHandshake_of_prefix (by decide) ⟨List.replicate (2 ^ 32) 0, ?_⟩
    simp only [makeHandshake, putStr, List.length_replicate, List.append_nil]
    congr 1
  rw [hempty] at hlong
  have htoken := congrArg HandshakePayload.token (Except.ok.inj hlong)
  have hlen := congrArg List.length htoken
  rw [List.length_replicate] at hlen
  exact absurd hlen (by decide)

end Embr.Protocol
