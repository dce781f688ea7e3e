import Embr.Precompute
import Embr.Codecs

/-!
# The largest file that can be announced

`recv_msg` takes payloads of `MAX_PAYLOAD_SIZE` bytes at most, and a FILE_META
carries a hash for each chunk. `precompute_meta` and `send_msg` do not look at
the limit.
-/

open Octets Interact
open Embr.System Embr.Protocol Embr.Signals Embr.HashCache Embr.Hashing Embr.Precompute
namespace Embr.SizeLimit

/-- The FILE_META that is sent arrives as it was. -/
def Accepted (m : FileMeta) : Prop :=
  ∃ msg, makeFilemeta m = .ok msg ∧ ∀ s : World, s.read = s.out.length →
    Total loopback (fun _ _ => True) (fun m' _ => m' = m)
      (sendMsg tcp msg >>= fun _ => recvMeta tcp) s

def metaLength (m : FileMeta) : ℕ := 20 + m.fileName.length + m.chunkCount.toNat * hashSize

variable {E : Env Os} {s t : World} {m : FileMeta} {msg : Message}

theorem makeFilemeta_length (h : makeFilemeta m = .ok msg) : msg.payload.length = metaLength m := by
  rw [makeFilemeta] at h
  split_ifs at h with hlen
  cases h
  have hflat := flat_length m.chunkHashes
  rw [not_not.mp hlen, flat] at hflat
  simp only [List.length_append, putU64, putStr, putU32, be_length, hflat, metaLength]
  omega

def Bounded (E : Env Os) : Prop :=
  ∀ len s r s', E (.recv len) s r s' → ∀ bs, r = some bs → bs.length ≤ len

theorem recvExact_bounded (hE : Bounded E) (len : ℕ) :
    Sat E (fun _ _ => True) (fun _ _ => True) (recvExact tcp len) (fun bs _ => bs.length = len) s := by
  apply Sat.round (fun (received : Bytes) _ => received.length ≤ len) (Nat.zero_le _)
  intro received u hle
  refine ⟨trivial, ?_⟩
  split_ifs with hlt
  · refine sat_ask_bind.mpr ⟨trivial, fun r v hv => ?_⟩
    cases r with
    | none =>
      refine sat_get_bind.mpr ⟨trivial, ?_⟩
      split_ifs
      · exact sat_pure.mpr ⟨trivial, hle⟩
      · exact sat_raise.mpr ⟨trivial, trivial⟩
    | some bs =>
      have hbs := hE _ _ _ _ hv bs rfl
      dsimp only
      split_ifs
      · exact sat_raise.mpr ⟨trivial, trivial⟩
      · refine sat_pure.mpr ⟨trivial, ?_⟩
        change (received ++ bs).length ≤ len
        rw [List.length_append]
        omega
  · exact sat_pure.mpr ⟨trivial, trivial, by omega⟩

theorem recvMsg_bounded (hE : Bounded E) :
    Sat E (fun _ _ => True) (fun _ _ => True) (recvMsg tcp)
      (fun msg _ => msg.payload.length ≤ MAX_PAYLOAD_SIZE) s := by
  refine Sat.andThen (recvExact_bounded hE _) fun hdr u _ => ?_
  dsimp only
  split_ifs
  · exact sat_raise.mpr ⟨trivial, trivial⟩
  · exact sat_raise.mpr ⟨trivial, trivial⟩
  · exact sat_raise.mpr ⟨trivial, trivial⟩
  · refine Sat.andThen (recvExact_bounded hE _) fun payload v hv => sat_pure.mpr ⟨trivial, ?_⟩
    change payload.length ≤ _
    omega
  · exact sat_pure.mpr ⟨trivial, Nat.zero_le _⟩

theorem recvMeta_bounded (hE : Bounded E) :
    Sat E (fun _ _ => True) (fun _ _ => True) (recvMeta tcp)
      (fun m _ => metaLength m ≤ MAX_PAYLOAD_SIZE) s := by
  refine Sat.andThen (recvMsg_bounded hE) fun msg u hu => ?_
  split_ifs with htype
  · exact sat_raise.mpr ⟨trivial, trivial⟩
  · cases hm : parseFilemeta msg with
    | error e => exact sat_raise.mpr ⟨trivial, trivial⟩
    | ok m =>
      refine sat_pure.mpr ⟨trivial, ?_⟩
      obtain ⟨type, payload⟩ := msg
      cases not_not.mp htype
      obtain ⟨-, msg', hmake, hpre⟩ := parseFilemeta_prefix hm
      rw [← makeFilemeta_length hmake]
      exact hpre.length_le.trans hu

theorem bounded_loopback : Bounded loopback := by
  intro len s r s' h bs hr
  obtain ⟨bs', -, hle, -, rfl, -⟩ := h
  cases hr
  exact hle

theorem Accepted.fits (h : Accepted m) : metaLength m ≤ MAX_PAYLOAD_SIZE := by
  obtain ⟨msg, -, hexchange⟩ := h
  have hsat : Sat loopback (fun _ _ => True) (fun _ _ => True)
      (sendMsg tcp msg >>= fun _ => recvMeta tcp) (fun m _ => metaLength m ≤ MAX_PAYLOAD_SIZE)
      (.init fun _ => none) :=
    Sat.andThen (Sat.top _ _) fun _ _ _ => recvMeta_bounded bounded_loopback
  obtain ⟨m', t, -, hm, hfits⟩ := ((hexchange _ rfl).and hsat).returns
  rw [← hm]
  exact hfits

theorem accepted_of_fits (hlen : m.chunkHashes.length = m.chunkCount.toNat)
    (hfits : metaLength m ≤ MAX_PAYLOAD_SIZE) : Accepted m := by
  obtain ⟨msg, hmake⟩ : ∃ msg, makeFilemeta m = .ok msg := ⟨_, if_neg (not_not.mpr hlen)⟩
  have htype := makeFilemeta_type hmake
  have hname : m.fileName.length < 2 ^ 32 := by
    rw [metaLength, MAX_PAYLOAD_SIZE] at hfits
    omega
  have hvalid : msg.Valid := makeFilemeta_valid hmake (makeFilemeta_length hmake ▸ hfits)
  refine ⟨msg, hmake, fun s hs => Total.bind ?_⟩
  apply sendMsg_total
  · exact fun _ _ => trivial
  · exact fun _ _ _ => trivial
  apply Total.bind
  apply recvMsg_total hvalid
  · exact fun _ => rfl
  · change frame msg <+: (s.out ++ frame msg).drop s.read
    rw [hs, List.drop_left' rfl]
  · exact fun _ _ => trivial
  · exact fun _ _ _ => trivial
  rw [if_neg (not_not.mpr htype), parseFilemeta_make hmake hname]
  exact total_pure.mpr ⟨trivial, rfl⟩

section
variable {sha256 : Bytes → Hash} {pool : Bytes → ℕ → UInt32 → Except Exc (List Hash)}
  {hardwareConcurrency w : ℕ} {mtimeNs : UInt64} {filePath : Path} {src : Bytes}

theorem precomputed (hsrc : s.files filePath = some src) (hlt : src.length < 2 ^ 63)
    (hpool : Computes sha256 src src.length (chunkCountOf (UInt64.ofNat src.length)) w
      (pool src src.length (chunkCountOf (UInt64.ofNat src.length))))
    (h : Reaches rough (precomputeMeta pool hardwareConcurrency mtimeNs filePath, s) (.ret m, t)) :
    0 < src.length ∧ m.fileName = fileNameOf filePath ∧ m.fileSize.toNat = src.length ∧
      m.chunkCount.toNat = (src.length + chunkSize - 1) / chunkSize % 2 ^ 32 ∧
      m.chunkHashes.length = m.chunkCount.toNat := by
  obtain ⟨hpos, hashes, hsource, rfl⟩ := (precomputeMeta_sat hsrc hlt).returned h
  refine ⟨hpos, rfl, UInt64.toNat_ofNat_of_lt' (by change _ < 2 ^ 64; omega),
    chunkCountOf_toNat hlt, ?_⟩
  rcases hsource with ⟨cachePath, -, hcached⟩ | hok
  · obtain ⟨g, -, hg⟩ := Option.bind_eq_some_iff.mp hcached
    rw [cached] at hg
    split_ifs at hg
    cases hg
    rw [hashesAt, List.length_map, List.length_range]
  · rw [hok] at hpool
    exact hpool.length

/-- Exactly the files whose FILE_META fits into a payload are announced. -/
theorem size_limit (hsrc : s.files filePath = some src) (hlt : src.length < 2 ^ 63)
    (hpool : Computes sha256 src src.length (chunkCountOf (UInt64.ofNat src.length)) w
      (pool src src.length (chunkCountOf (UInt64.ofNat src.length))))
    (h : Reaches rough (precomputeMeta pool hardwareConcurrency mtimeNs filePath, s) (.ret m, t)) :
    m.chunkCount.toNat = (src.length + chunkSize - 1) / chunkSize ∧ Accepted m ↔
      20 + (fileNameOf filePath).length + (src.length + chunkSize - 1) / chunkSize * hashSize ≤
        MAX_PAYLOAD_SIZE := by
  obtain ⟨-, hname, -, hcount, hlen⟩ := precomputed hsrc hlt hpool h
  constructor
  · intro hboth
    have hfits := hboth.2.fits
    rwa [metaLength, hname, hboth.1] at hfits
  · intro hfits
    have hsmall : (src.length + chunkSize - 1) / chunkSize < 2 ^ 32 := by
      rw [MAX_PAYLOAD_SIZE, hashSize] at hfits
      omega
    rw [Nat.mod_eq_of_lt hsmall] at hcount
    refine ⟨hcount, accepted_of_fits hlen ?_⟩
    rw [metaLength, hname, hcount]
    exact hfits

/-- The store of a sender of one file. -/
def sender (src : Bytes) : World := .init fun path => if path = [97] then some src else none

theorem sender_file (src : Bytes) : (sender src).files [97] = some src := by
  simp only [sender, World.init, if_pos]

theorem sender_precomputes (hpos : 0 < src.length) (hlt : src.length < 2 ^ 63) :
    ∃ m t, Reaches rough (precomputeMeta (inOrder fun _ => zeroHash) 1 0 [97], sender src)
      (.ret m, t) := by
  have hends : Total (reliable anyPeer) (fun _ _ => True) (fun _ _ => True)
      (precomputeMeta (inOrder fun _ => zeroHash) 1 0 [97]) (sender src) :=
    precomputeMeta_ends (sender_file src) (by decide) hpos hlt rfl
  obtain ⟨m, t, hrun, -⟩ := hends.returns
  exact ⟨m, t, hrun.mono (kernel_of_reliable trivial fun _ _ _ _ h => h)⟩

theorem size_limit_oneByte :
    ∃ m t, Reaches rough (precomputeMeta (inOrder fun _ => zeroHash) 1 0 [97], sender [7])
        (.ret m, t) ∧
      (m.chunkCount.toNat = (1 + chunkSize - 1) / chunkSize ∧ Accepted m ↔
        20 + 1 + (1 + chunkSize - 1) / chunkSize * hashSize ≤ MAX_PAYLOAD_SIZE) := by
  obtain ⟨m, t, hrun⟩ : ∃ m t, Reaches rough (precomputeMeta (inOrder fun _ => zeroHash) 1 0 [97],
      sender [7]) (.ret m, t) := sender_precomputes (by decide) (by decide)
  have hpool : Computes (fun _ => zeroHash) [7] 1 (chunkCountOf 1) 1 _ :=
    computes_hashes (by decide) (by decide)
  exact ⟨m, t, hrun, size_limit (sender_file [7]) (by decide) hpool hrun⟩

/-- Two tebibytes are hashed, and then refused. -/
theorem announce_tooLarge :
    ∃ m t, Reaches rough (precomputeMeta (inOrder fun _ => zeroHash) 1 0 [97],
        sender (List.replicate (2 ^ 41) 0)) (.ret m, t) ∧
      ¬ (m.chunkCount.toNat = (2 ^ 41 + chunkSize - 1) / chunkSize ∧ Accepted m) := by
  have hlen : (List.replicate (2 ^ 41) (0 : UInt8)).length = 2 ^ 41 := List.length_replicate
  obtain ⟨m, t, hrun⟩ : ∃ m t, Reaches rough (precomputeMeta (inOrder fun _ => zeroHash) 1 0 [97],
      sender (List.replicate (2 ^ 41) 0)) (.ret m, t) :=
    sender_precomputes (by rw [hlen]; decide) (by rw [hlen]; decide)
  refine ⟨m, t, hrun, fun hboth => ?_⟩
  have hfits := hboth.2.fits
  rw [metaLength, hboth.1] at hfits
  have hcount : (2 ^ 41 + chunkSize - 1) / chunkSize * hashSize = MAX_PAYLOAD_SIZE := by decide
  omega

end

end Embr.SizeLimit
