import Embr.Channel

/-!
# A whole transfer

The receiver starts with a bitmap, that is the record of this file or none at
all, and an output that holds the source's bytes wherever the bitmap says so.
The record only counts for an output of `chunk_count * CHUNK_SIZE` bytes, and
such an output is never shortened, so the transfer keeps its promise exactly
where the source has that length too, or where no chunk is done yet.
-/

open Octets Interact
open Embr.System Embr.Protocol Embr.Reliable Embr.Delivery Embr.Channel
namespace Embr.EndToEnd

section deliver
variable {sha256 : Bytes → Hash} {m : FileMeta} {src f : Bytes} {ns : List ℕ}

theorem deliver_length (hd : Describes sha256 m src) (hns : ∀ i ∈ ns, i < m.chunkCount.toNat)
    (hlen : src.length ≤ f.length) : (deliver src ns f).length = f.length := by
  induction ns generalizing f with
  | nil => rfl
  | cons i ns ih =>
    have hi := hns i (List.mem_cons_self ..)
    have hin := (hd.chunkLen_pos hi).2
    have hclen := hd.chunk_length hi
    have hstep : (writeAt f (i * chunkSize) (chunk src i)).length = f.length := by
      rw [length_writeAt]
      omega
    rw [deliver_cons, ih (fun j hj => hns j (List.mem_cons_of_mem _ hj)) (hstep ▸ hlen), hstep]

theorem chunk_index {p i : ℕ} (hd : Describes sha256 m src) (hi : i < m.chunkCount.toNat)
    (hp : p < src.length) :
    (i * chunkSize ≤ p ∧ p < i * chunkSize + (chunk src i).length) ↔ p / chunkSize = i := by
  have hpos : 0 < chunkSize := by decide
  have hmul := Nat.div_mul_le_self p chunkSize
  have hlt := Nat.lt_div_mul_add (a := p) hpos
  rw [hd.chunk_length hi, chunkLen_eq hd.small (hd.count ▸ hi)]
  constructor
  · intro h
    have hle : i ≤ p / chunkSize := (Nat.le_div_iff_mul_le hpos).mpr h.1
    have hgt : p / chunkSize < i + 1 := by
      rw [Nat.div_lt_iff_lt_mul hpos, Nat.add_mul, Nat.one_mul]
      omega
    omega
  · rintro rfl
    omega

theorem getElem?_chunk {p i : ℕ} (hd : Describes sha256 m src) (hi : i < m.chunkCount.toNat)
    (hp : i * chunkSize ≤ p ∧ p < i * chunkSize + (chunk src i).length) :
    (chunk src i)[p - i * chunkSize]? = src[p]? := by
  rw [hd.chunk_length hi] at hp
  rw [chunk, getElem?_slice, if_pos (by omega), Nat.add_sub_cancel' hp.1]

theorem getElem?_deliver {p : ℕ} (hd : Describes sha256 m src)
    (hns : ∀ i ∈ ns, i < m.chunkCount.toNat) (hlen : src.length ≤ f.length)
    (hp : p < src.length) :
    (deliver src ns f)[p]? = if p / chunkSize ∈ ns then src[p]? else f[p]? := by
  induction ns generalizing f with
  | nil => rfl
  | cons i ns ih =>
    have hi := hns i (List.mem_cons_self ..)
    have hgrow : f.length ≤ (writeAt f (i * chunkSize) (chunk src i)).length := by
      rw [length_writeAt]
      exact le_max_left _ _
    rw [deliver_cons, ih (fun j hj => hns j (List.mem_cons_of_mem _ hj)) (hlen.trans hgrow)]
    by_cases hmem : p / chunkSize ∈ ns
    · rw [if_pos hmem, if_pos (List.mem_cons_of_mem _ hmem)]
    · rw [if_neg hmem]
      by_cases heq : p / chunkSize = i
      · have hin := (chunk_index hd hi hp).mpr heq
        rw [if_pos (heq ▸ List.mem_cons_self ..), getElem?_writeAt_inside hin.1 hin.2,
          getElem?_chunk hd hi hin]
      · have hout : ¬ (i * chunkSize ≤ p ∧ p < i * chunkSize + (chunk src i).length) :=
          fun h => heq ((chunk_index hd hi hp).mp h)
        rw [getElem?_writeAt_outside (hp.trans_le hlen) (by omega), if_neg]
        intro h
        rcases List.mem_cons.mp h with h | h
        · exact heq h
        · exact hmem h

theorem deliver_eq (hd : Describes sha256 m src) (hns : ∀ i ∈ ns, i < m.chunkCount.toNat)
    (hlen : f.length = src.length)
    (hheld : ∀ i < m.chunkCount.toNat, i ∉ ns →
      slice f (i * chunkSize) (chunkLen src.length i) = chunk src i) :
    deliver src ns f = src := by
  apply List.ext_getElem?
  intro p
  by_cases hp : p < src.length
  · rw [getElem?_deliver hd hns hlen.ge hp]
    split_ifs with hmem
    · rfl
    · have hi : p / chunkSize < m.chunkCount.toNat := by
        have hpos : 0 < chunkSize := by decide
        have hall := Nat.lt_div_mul_add (a := src.length + chunkSize - 1) hpos
        rw [hd.count, Nat.div_lt_iff_lt_mul hpos]
        omega
      have hin := (chunk_index hd hi hp).mpr rfl
      have hbyte := congrArg (fun bs : Bytes => bs[p - p / chunkSize * chunkSize]?)
        (hheld _ hi hmem)
      rw [getElem?_chunk hd hi hin, getElem?_slice, if_pos, Nat.add_sub_cancel' hin.1] at hbyte
      · exact hbyte
      · rw [hd.chunk_length hi] at hin
        omega
  · have hall := deliver_length hd hns hlen.ge
    rw [List.getElem?_eq_none (by omega), List.getElem?_eq_none (by omega)]

end deliver

/-- The chunks a bitmap does not mark, in ascending order. -/
def undone (bits : List Bool) : List ℕ :=
  (List.range bits.length).filter fun i => bits[i]? = some false

def record (m : FileMeta) (bits : List Bool) : Bytes := (hashAt m 0).val ++ pack bits

inductive Starts (F : Path → Option Bytes) (out : Path) (m : FileMeta) (bits : List Bool) : Prop
  | record : F (PartialFile.pathFor out) = some (record m bits) → Starts F out m bits
  | fresh : (∀ f, F (PartialFile.pathFor out) = some f → f.take hashSize = (hashAt m 0).val →
      f.length < hashSize + bitmapBytes m.chunkCount) →
      (∀ i < bits.length, bits[i]? = some false) → Starts F out m bits

structure Begins (F : Path → Option Bytes) (out : Path) (m : FileMeta) (src : Bytes)
    (bits : List Bool) : Prop where
  length : bits.length = m.chunkCount.toNat
  starts : Starts F out m bits
  held : ∀ i, bits[i]? = some true → ∃ g, F out = some g ∧
    slice g (i * chunkSize) (chunkLen src.length i) = chunk src i

/-- The record is read and the output has the length that `load` asks for. -/
def Resumed (F : Path → Option Bytes) (out : Path) (m : FileMeta) (bits : List Bool) : Prop :=
  F (PartialFile.pathFor out) = some (record m bits) ∧
    (F out).map List.length = some (m.chunkCount.toNat * chunkSize)

section start
variable {sha256 : Bytes → Hash} {m : FileMeta} {src : Bytes} {F : Path → Option Bytes}
  {out : Path} {bits : List Bool} {msg : Message}

theorem neededChunks_eq (bits : List Bool) : (ChunkManager.mk bits).neededChunks = undone bits := by
  apply List.filter_congr
  intro i hi
  have hi' := List.mem_range.mp hi
  rw [List.getD_eq_getElem _ _ hi', List.getElem?_eq_getElem hi']
  cases bits[i] <;> rfl

theorem undone_new (n : UInt32) : (ChunkManager.new n).neededChunks = List.range n.toNat := by
  have hlen : (ChunkManager.new n).bitmap.length = n.toNat := List.length_replicate
  rw [ChunkManager.neededChunks, hlen]
  apply List.filter_eq_self.mpr
  intro i hi
  have hi' := List.mem_range.mp hi
  simp [ChunkManager.new, hi']

theorem chunkCount_small (hmsg : makeFilemeta m = .ok msg)
    (hfit : msg.payload.length ≤ MAX_PAYLOAD_SIZE) : m.chunkCount.toNat + 7 < 2 ^ 32 := by
  rw [makeFilemeta] at hmsg
  split_ifs at hmsg with hcount
  cases hmsg
  have hall := hashes_length m.chunkHashes
  rw [not_not.mp hcount] at hall
  simp only [List.length_append, MAX_PAYLOAD_SIZE] at hfit
  rw [hall, hashSize] at hfit
  omega

theorem loaded_resumed (hcount : m.chunkCount.toNat + 7 < 2 ^ 32)
    (hlen : bits.length = m.chunkCount.toNat) (h : Resumed F out m bits) :
    loaded F out (hashAt m 0) m.chunkCount = some ⟨bits⟩ := by
  obtain ⟨hrec, hsize⟩ := h
  obtain ⟨g, hg, hglen⟩ := Option.map_eq_some_iff.mp hsize
  have hhash : (hashAt m 0).val.length = hashSize := (hashAt m 0).property
  have hpack : (pack bits).length = bitmapBytes m.chunkCount := by
    rw [pack_length (hlen ▸ hcount), bitmapBytes_eq hcount, hlen]
  have htake : (record m bits).take hashSize = (hashAt m 0).val := List.take_left' hhash
  have hall : (record m bits).length = hashSize + bitmapBytes m.chunkCount := by
    rw [record, List.length_append, hhash, hpack]
  have hbody : slice (record m bits) hashSize (bitmapBytes m.chunkCount) = pack bits := by
    rw [slice, record, List.drop_left' hhash, ← hpack, List.take_length]
  rw [loaded, hrec, hg]
  dsimp only
  rw [if_pos ⟨htake, hglen, hall.ge⟩, hbody, unpack_pack (hlen ▸ hcount) hlen.symm]

theorem loaded_fresh (hstarts : Starts F out m bits) (h : ¬ Resumed F out m bits) :
    loaded F out (hashAt m 0) m.chunkCount = none := by
  rw [loaded]
  split
  · rename_i f g hf hg
    apply if_neg
    intro hall
    obtain ⟨hhash, hsize, hlong⟩ := hall
    cases hstarts with
    | record hrec =>
      apply h
      refine ⟨hrec, ?_⟩
      rw [hg, Option.map_some, hsize]
    | fresh hshort _ =>
      have hlt := hshort f hf hhash
      omega
  · rfl

theorem startBits_resumed (hcount : m.chunkCount.toNat + 7 < 2 ^ 32)
    (hlen : bits.length = m.chunkCount.toNat) (h : Resumed F out m bits) :
    startBits F out m = ⟨bits⟩ := by
  rw [startBits, loaded_resumed hcount hlen h, Option.getD_some]

theorem startBits_fresh (hstarts : Starts F out m bits) (h : ¬ Resumed F out m bits) :
    startBits F out m = .new m.chunkCount := by
  rw [startBits, loaded_fresh hstarts h, Option.getD_none]

theorem startFile_resumed (hcount : m.chunkCount.toNat + 7 < 2 ^ 32)
    (hlen : bits.length = m.chunkCount.toNat) (h : Resumed F out m bits) :
    startFile F out m = (F out).getD [] := by
  rw [startFile, loaded_resumed hcount hlen h]
  rfl

theorem startFile_fresh (hstarts : Starts F out m bits) (h : ¬ Resumed F out m bits) :
    startFile F out m = List.replicate m.fileSize.toNat 0 := by
  rw [startFile, loaded_fresh hstarts h]
  rfl

end start

/-- Nothing is left in the channels, the sender has served `chunks`, and the record is gone. -/
structure Settled (out : Path) (chunks : List ℕ) (pull push : World) : Prop where
  pullDrained : pull.read = push.out.length
  pushDrained : push.read = pull.out.length
  served : served push.trace = chunks
  record : pull.files (PartialFile.pathFor out) = none

section transfer
variable {sha256 : Bytes → Hash} {m : FileMeta} {src : Bytes} {F G : Path → Option Bytes}
  {out fd outputPath : Path} {bits : List Bool} {msg : Message} {ns : List ℕ}
  {c₁ c₂ : Option ℕ} {p q : Prog Os Unit} {s t : World}

theorem running_silent (hrun : Running m msg src ns out F G ((p, s), (q, t))) :
    (∀ e, p ≠ .raise e) ∧ (∀ e, q ≠ .raise e) := by
  constructor
  · intro e he
    subst he
    nomatch hrun.1
  · intro e he
    subst he
    nomatch hrun.2

theorem running_returned (hrun : Running m msg src ns out F G ((p, s), (q, t)))
    (hp : p = .ret ()) (hq : q = .ret ()) :
    Settled out ns s t ∧ s.files out = some (deliver src ns (startFile F out m)) := by
  subst hp hq
  obtain ⟨-, F', hfile, hrec, hs⟩ := total_ret.mp hrun.1
  obtain ⟨-, ht⟩ := total_ret.mp hrun.2
  change At _ _ _ _ s at hs
  change At _ _ _ _ t at ht
  refine ⟨⟨?_, ?_, ht.sent, ?_⟩, ?_⟩
  · rw [hs.read, ht.out]
  · rw [ht.read, hs.out]
  · rw [hs.files, hrec]
  · rw [hs.files, hfile]

theorem exists_returned {d : PairConfig Os Os Unit Unit}
    (hrun : Running m msg src ns out F G d) :
    ∃ s t, JointReaches none none d ((.ret (), s), (.ret (), t)) ∧
      Running m msg src ns out F G ((.ret (), s), (.ret (), t)) := by
  obtain ⟨⟨⟨p, s⟩, ⟨q, t⟩⟩, hr, hfin⟩ := hrun.exists_final (covers none none)
  have hend := hrun.reaches (covers _ _) hr
  have hnone : ∀ c, none = some c → 0 < c := by
    intro c hc
    cases hc
  rcases final_returned_or_full hnone hnone hend hfin with ⟨rfl, rfl⟩ | ⟨⟨c, hc, -⟩, -⟩
  · exact ⟨s, t, hr, hend⟩
  · cases hc

theorem resumed_output (hd : Describes sha256 m src) (hmsg : makeFilemeta m = .ok msg)
    (hfit : msg.payload.length ≤ MAX_PAYLOAD_SIZE) (hb : Begins F out m src bits)
    (h : Resumed F out m bits) (hsize : src.length = m.chunkCount.toNat * chunkSize) :
    deliver src (undone bits) (startFile F out m) = src := by
  have hcount := chunkCount_small hmsg hfit
  obtain ⟨g, hg, hglen⟩ := Option.map_eq_some_iff.mp h.2
  rw [startFile_resumed hcount hb.length h, hg, Option.getD_some]
  apply deliver_eq hd
  · intro i hi
    rw [← hb.length]
    exact List.mem_range.mp (List.mem_of_mem_filter hi)
  · rw [hglen, hsize]
  · intro i hi hmem
    have hib : i < bits.length := hb.length.symm ▸ hi
    have hbit : bits[i]? = some true := by
      by_contra hne
      apply hmem
      apply List.mem_filter.mpr
      refine ⟨List.mem_range.mpr hib, decide_eq_true ?_⟩
      rw [List.getElem?_eq_getElem hib] at hne ⊢
      cases hbi : bits[i] with
      | false => rfl
      | true => exact (hne (congrArg some hbi)).elim
    obtain ⟨g', hg', hheld⟩ := hb.held i hbit
    rw [hg] at hg'
    cases hg'
    exact hheld

theorem fresh_output (hd : Describes sha256 m src) (hstarts : Starts F out m bits)
    (h : ¬ Resumed F out m bits) :
    deliver src (List.range m.chunkCount.toNat) (startFile F out m) = src := by
  rw [startFile_fresh hstarts h]
  apply deliver_eq hd
  · exact fun i hi => List.mem_range.mp hi
  · rw [List.length_replicate, hd.size]
  · intro i hi hmem
    exact (hmem (List.mem_range.mpr hi)).elim

/-- A whole transfer: no side throws, and once both have returned the receiver
has the source, of which the sender served what the accepted record left open. -/
theorem transfer_delivers (hd : Describes sha256 m src) (hmsg : makeFilemeta m = .ok msg)
    (hfit : msg.payload.length ≤ MAX_PAYLOAD_SIZE)
    (hout : out = if outputPath = [] then m.fileName else outputPath)
    (hfd : G fd = some src) (hb : Begins F out m src bits)
    (hr : JointReaches c₁ c₂ (start sha256 m outputPath fd F G) ((p, s), (q, t))) :
    (∀ e, p ≠ .raise e) ∧ (∀ e, q ≠ .raise e) ∧ (p = .ret () → q = .ret () →
      (Resumed F out m bits → Settled out (undone bits) s t) ∧
      (¬ Resumed F out m bits → Settled out (List.range m.chunkCount.toNat) s t) ∧
      ((Resumed F out m bits → src.length = m.chunkCount.toNat * chunkSize) →
        s.files out = some src)) := by
  have hrun := (start_running (G := G) hd hmsg hfit hout rfl hfd).reaches (covers _ _) hr
  obtain ⟨hp, hq⟩ := running_silent hrun
  refine ⟨hp, hq, ?_⟩
  intro hp hq
  obtain ⟨hset, hfile⟩ := running_returned hrun hp hq
  by_cases hres : Resumed F out m bits
  · rw [startBits_resumed (chunkCount_small hmsg hfit) hb.length hres, neededChunks_eq]
      at hset hfile
    refine ⟨fun _ => hset, fun h => (h hres).elim, ?_⟩
    intro hsize
    rw [hfile, resumed_output hd hmsg hfit hb hres (hsize hres)]
  · rw [startBits_fresh hb.starts hres, undone_new] at hset hfile
    refine ⟨fun h => (hres h).elim, fun _ => hset, ?_⟩
    intro _
    rw [hfile, fresh_output hd hb.starts hres]

end transfer

/-- SHA-256 of the file "a". -/
def letterHash : Hash :=
  ⟨[0xca, 0x97, 0x81, 0x12, 0xca, 0x1b, 0xbd, 0xca, 0xfa, 0xc2, 0x31, 0xb3, 0x9a, 0x23,
    0xdc, 0x4d, 0xa7, 0x86, 0xef, 0xf8, 0x14, 0x7c, 0x4e, 0x72, 0xb9, 0x80, 0x77, 0x85,
    0xaf, 0xee, 0x48, 0xbb], rfl⟩

def letter : FileMeta := ⟨[97], 1, 1048576, 1, [letterHash]⟩

theorem letter_describes : Describes (fun _ => letterHash) letter [97] where
  nonempty := by decide
  size := rfl
  count := rfl
  hashes := rfl

theorem letter_message : ∃ msg, makeFilemeta letter = .ok msg ∧
    msg.payload.length ≤ MAX_PAYLOAD_SIZE :=
  ⟨_, rfl, by decide⟩

theorem letter_out : ([111] : Path) = if ([111] : Path) = [] then letter.fileName else [111] := rfl

def letterFiles : Path → Option Bytes := fun _ => some [97]

theorem letter_source : letterFiles [97] = some [97] := rfl

/-- Two chunks of which the second is all `b`. -/
def halves (b : UInt8) : Bytes := List.replicate chunkSize 1 ++ List.replicate chunkSize b

theorem halves_length (b : UInt8) : (halves b).length = 2 * chunkSize := by
  rw [halves, List.length_append, List.length_replicate, List.length_replicate]
  omega

def twoHalves : FileMeta :=
  ⟨[97], 2097152, 1048576, 2, (List.range 2).map fun i => .ofBytes (chunk (halves 2) i)⟩

theorem twoHalves_describes : Describes Hash.ofBytes twoHalves (halves 2) where
  nonempty := by
    rw [halves_length]
    decide
  size := by
    rw [halves_length]
    rfl
  count := by
    rw [halves_length]
    rfl
  hashes := rfl

theorem twoHalves_message : ∃ msg, makeFilemeta twoHalves = .ok msg ∧
    msg.payload.length ≤ MAX_PAYLOAD_SIZE := by
  refine ⟨_, rfl, ?_⟩
  change (putU64 _ ++ putStr _ ++ putU32 _ ++ putU32 _ ++
    (twoHalves.chunkHashes.map Subtype.val).flatten).length ≤ _
  have hflat : (twoHalves.chunkHashes.map Subtype.val).flatten.length = 2 * hashSize :=
    hashes_length twoHalves.chunkHashes
  simp only [List.length_append, hflat]
  decide

/-- The output of a pull that was interrupted after the first chunk, and its record. -/
def interrupted : Path → Option Bytes :=
  Function.update (fun _ => some (halves 0)) (PartialFile.pathFor [111])
    (some (record twoHalves [true, false]))

theorem interrupted_output : interrupted [111] = some (halves 0) :=
  Function.update_of_ne (PartialFile.pathFor_ne [111]).symm ..

theorem interrupted_begins : Begins interrupted [111] twoHalves (halves 2) [true, false] where
  length := rfl
  starts := .record (Function.update_self ..)
  held := by
    intro i hi
    have hlt : i < 2 := (List.getElem?_eq_some_iff.mp hi).1
    obtain rfl | rfl : i = 0 ∨ i = 1 := by omega
    · have hlen : chunkLen (halves 2).length 0 = (List.replicate chunkSize (1 : UInt8)).length := by
        rw [halves_length, List.length_replicate]
        rfl
      refine ⟨halves 0, interrupted_output, ?_⟩
      rw [chunk, hlen, slice, slice, Nat.zero_mul, List.drop_zero, List.drop_zero, halves, halves,
        List.take_left, List.take_left]
    · cases hi

def halvesFiles : Path → Option Bytes := fun _ => some (halves 2)

/-- The first chunk is on disk, and only the second is served. -/
theorem transfer_delivers_resumed : ∃ s t,
    JointReaches none none (start Hash.ofBytes twoHalves [111] [97] interrupted halvesFiles)
      ((.ret (), s), (.ret (), t)) ∧
      served t.trace = [1] ∧ s.files [111] = some (halves 2) := by
  obtain ⟨msg, hmsg, hfit⟩ := twoHalves_message
  have hout : ([111] : Path) = if ([111] : Path) = [] then twoHalves.fileName else [111] := rfl
  have hsource : halvesFiles [97] = some (halves 2) := rfl
  obtain ⟨s, t, hr, -⟩ := exists_returned (start_running (F := interrupted)
    twoHalves_describes hmsg hfit hout rfl hsource)
  have hresumed : Resumed interrupted [111] twoHalves [true, false] := by
    refine ⟨Function.update_self .., ?_⟩
    rw [interrupted_output, Option.map_some, halves_length]
    rfl
  obtain ⟨-, -, hend⟩ :=
    transfer_delivers twoHalves_describes hmsg hfit hout hsource interrupted_begins hr
  obtain ⟨hsettled, -, houtput⟩ := hend rfl rfl
  have hsize : (halves 2).length = twoHalves.chunkCount.toNat * chunkSize := by
    rw [halves_length]
    rfl
  have hserved : served t.trace = undone [true, false] := (hsettled hresumed).served
  have hundone : undone [true, false] = [1] := by decide
  exact ⟨s, t, hr, hserved.trans hundone, houtput fun _ => hsize⟩

def stopped : Path → Option Bytes :=
  Function.update (fun _ => some [97]) (PartialFile.pathFor [111]) (some (record letter [true]))

theorem stopped_begins : Begins stopped [111] letter [97] [true] where
  length := rfl
  starts := .record (Function.update_self ..)
  held := by
    intro i hi
    have hlt := (List.getElem?_eq_some_iff.mp hi).1
    have hzero : i = 0 := Nat.lt_one_iff.mp hlt
    subst hzero
    refine ⟨[97], ?_, rfl⟩
    exact Function.update_of_ne (PartialFile.pathFor_ne [111]).symm ..

theorem stopped_not_resumed : ¬ Resumed stopped [111] letter [true] := by
  intro h
  have hsize := h.2
  rw [stopped, Function.update_of_ne (PartialFile.pathFor_ne [111]).symm] at hsize
  cases hsize

/-- A record of a file with a short last chunk is not accepted: every chunk is served again. -/
theorem transfer_restarts : ¬ ∀ (sha256 : Bytes → Hash) (m : FileMeta) (src : Bytes)
    (msg : Message) (F G : Path → Option Bytes) (out fd outputPath : Path) (bits : List Bool)
    (c₁ c₂ : Option ℕ) (p q : Prog Os Unit) (s t : World), Describes sha256 m src →
    makeFilemeta m = .ok msg → msg.payload.length ≤ MAX_PAYLOAD_SIZE →
    (out = if outputPath = [] then m.fileName else outputPath) → G fd = some src →
    Begins F out m src bits →
    JointReaches c₁ c₂ (start sha256 m outputPath fd F G) ((p, s), (q, t)) →
    (∀ e, p ≠ .raise e) ∧ (∀ e, q ≠ .raise e) ∧ (p = .ret () → q = .ret () →
      Settled out (undone bits) s t ∧ s.files out = some src) := by
  intro h
  obtain ⟨msg, hmsg, hfit⟩ := letter_message
  obtain ⟨s, t, hr, hrun⟩ := exists_returned
    (start_running (F := stopped) letter_describes hmsg hfit letter_out rfl letter_source)
  obtain ⟨-, -, hend⟩ := h _ _ _ _ _ _ _ _ _ _ _ _ _ _ _ _ letter_describes hmsg hfit letter_out
    letter_source stopped_begins hr
  obtain ⟨hset, -⟩ := hend rfl rfl
  obtain ⟨hset', -⟩ := running_returned hrun rfl rfl
  have hserved := hset.served.symm.trans hset'.served
  rw [startBits_fresh stopped_begins.starts stopped_not_resumed, undone_new] at hserved
  cases hserved

end Embr.EndToEnd
