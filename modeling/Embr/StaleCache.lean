import Embr.Precompute

/-!
# The cache of another chunk size

A cache file keeps the chunk size its hashes were made with, and
`hash_cache_load` reads it without looking at it. Size, time and count alone
decide, so hashes of other boundaries are served when their number is the same.
-/

open Octets Interact
open Embr.System Embr.Protocol Embr.Signals Embr.HashCache Embr.Hashing Embr.Precompute
namespace Embr.StaleCache

def chunksOf (sha256 : Bytes → Hash) (c : ℕ) (src : Bytes) : List Hash :=
  (List.range ((src.length + c - 1) / c)).map fun i => sha256 (slice src (i * c) c)

def cold (sha256 : Bytes → Hash) (src : Bytes) : List Hash :=
  (List.range (chunkCountOf (UInt64.ofNat src.length)).toNat).map
    (hashChunk sha256 src src.length)

def countOf (c : UInt32) (src : Bytes) : UInt32 :=
  UInt32.ofNat ((src.length + c.toNat - 1) / c.toNat)

structure CachedWith (sha256 : Bytes → Hash) (filePath : Path) (mtimeNs : UInt64) (src : Bytes)
    (c : UInt32) (s : World) : Prop where
  file : s.files filePath = some src
  cache : ∃ s₀ t cachePath, hashCachePathFor filePath = .ok cachePath ∧
    Reaches rough (hashCacheSave filePath (UInt64.ofNat src.length) mtimeNs c (countOf c src)
      (chunksOf sha256 c.toNat src), s₀) (.ret (), t) ∧
    s.files cachePath = t.files cachePath

/-- A hit yields the hashes of the file's own chunks, and the FILE_META is that of a cold run. -/
def ServesOwn (sha256 : Bytes → Hash) (filePath : Path) (mtimeNs : UInt64) (src : Bytes)
    (c : UInt32) : Prop :=
  ∀ s, CachedWith sha256 filePath mtimeNs src c s →
    (∀ hashes t, Reaches rough (hashCacheLoad filePath (UInt64.ofNat src.length) mtimeNs
        (chunkCountOf (UInt64.ofNat src.length)), s) (.ret (some hashes), t) →
      hashes = cold sha256 src) ∧
    ∀ pool hardwareConcurrency w m t, 0 < w →
      (chunkCountOf (UInt64.ofNat src.length)).toNat + w < 2 ^ 32 →
      Computes sha256 src src.length (chunkCountOf (UInt64.ofNat src.length)) w
        (pool src src.length (chunkCountOf (UInt64.ofNat src.length))) →
      Reaches rough (precomputeMeta pool hardwareConcurrency mtimeNs filePath, s) (.ret m, t) →
      m = ⟨fileNameOf filePath, UInt64.ofNat src.length, UInt32.ofNat chunkSize,
        chunkCountOf (UInt64.ofNat src.length), cold sha256 src⟩

/-- The same boundaries, or another number of chunks. -/
def SameChunks (src : Bytes) (c : UInt32) : Prop :=
  c.toNat = chunkSize ∨ (src.length ≤ c.toNat ∧ src.length ≤ chunkSize) ∨
    (src.length + c.toNat - 1) / c.toNat ≠ (src.length + chunkSize - 1) / chunkSize % 2 ^ 32

variable {sha256 : Bytes → Hash} {filePath cachePath : Path} {mtimeNs : UInt64} {src : Bytes}
  {c : UInt32} {s : World}

theorem countOf_toNat (hc : (src.length + c.toNat - 1) / c.toNat < 2 ^ 32) :
    (countOf c src).toNat = (src.length + c.toNat - 1) / c.toNat :=
  UInt32.toNat_ofNat_of_lt' hc

theorem chunksOf_length (hc : (src.length + c.toNat - 1) / c.toNat < 2 ^ 32) :
    (chunksOf sha256 c.toNat src).length = (countOf c src).toNat := by
  rw [chunksOf, List.length_map, List.length_range, countOf_toNat hc]

theorem CachedWith.record (h : CachedWith sha256 filePath mtimeNs src c s)
    (hpath : hashCachePathFor filePath = .ok cachePath) :
    s.files cachePath = some (cacheRecord (UInt64.ofNat src.length) mtimeNs c (countOf c src)
      (chunksOf sha256 c.toNat src)) := by
  obtain ⟨s₀, t, cachePath', hpath', hsave, hfiles⟩ := h.cache
  rw [hpath] at hpath'
  cases hpath'
  rw [hfiles, ((hashCacheSave_sat hpath).returned hsave).files]
  exact Function.update_self ..

theorem slice_min (bs : Bytes) (pos len : ℕ) :
    slice bs pos (min len (bs.length - pos)) = slice bs pos len := by
  rw [slice, slice, List.take_eq_take_iff, List.length_drop]
  omega

theorem hashChunk_slice (sha256 : Bytes → Hash) (hlt : src.length < 2 ^ 63) {i : ℕ}
    (hi : i * chunkSize ≤ src.length) :
    hashChunk sha256 src src.length i = sha256 (slice src (i * chunkSize) chunkSize) := by
  rw [hashChunk, chunkLen_of_le (by omega) hi, slice_min]

theorem ceil_one {n c : ℕ} (hn : 0 < n) (hc : n ≤ c) : (n + c - 1) / c = 1 :=
  Nat.div_eq_of_lt_le (by omega) (by omega)

theorem chunksOf_one (hpos : 0 < src.length) (hc : src.length ≤ c.toNat) :
    chunksOf sha256 c.toNat src = [sha256 src] := by
  rw [chunksOf, ceil_one hpos hc]
  simp [slice, List.take_of_length_le hc]

theorem chunksOf_cold (hpos : 0 < src.length) (hlt : src.length < 2 ^ 63)
    (hcount : (src.length + c.toNat - 1) / c.toNat < 2 ^ 32) (hsame : SameChunks src c)
    (heq : countOf c src = chunkCountOf (UInt64.ofNat src.length)) :
    chunksOf sha256 c.toNat src = cold sha256 src := by
  have hcold : ∀ i < (chunkCountOf (UInt64.ofNat src.length)).toNat,
      hashChunk sha256 src src.length i = sha256 (slice src (i * chunkSize) chunkSize) := by
    intro i hi
    refine hashChunk_slice sha256 hlt ?_
    rw [chunkCountOf_toNat hlt] at hi
    exact (chunk_start (hi.trans_le (Nat.mod_le _ _))).le
  have hnat := congrArg UInt32.toNat heq
  rw [countOf_toNat hcount] at hnat
  rcases hsame with hc | ⟨hc, hchunk⟩ | hne
  · rw [hc] at hnat
    rw [chunksOf, cold, hc, hnat]
    apply List.map_congr_left
    intro i hi
    exact (hcold i (List.mem_range.mp hi)).symm
  · rw [chunksOf_one hpos hc, cold, ← hnat, ceil_one hpos hc]
    rw [ceil_one hpos hc] at hnat
    have hzero := hcold 0 (by omega)
    rw [Nat.zero_mul, slice, List.drop_zero, List.take_of_length_le hchunk] at hzero
    simp [hzero]
  · rw [chunkCountOf_toNat hlt] at hnat
    exact absurd hnat hne

theorem cached_cold {hashes : List Hash} (hpos : 0 < src.length) (hlt : src.length < 2 ^ 63)
    (hcount : (src.length + c.toNat - 1) / c.toNat < 2 ^ 32) (hsame : SameChunks src c)
    (h : cached (cacheRecord (UInt64.ofNat src.length) mtimeNs c (countOf c src)
      (chunksOf sha256 c.toNat src)) (UInt64.ofNat src.length) mtimeNs
      (chunkCountOf (UInt64.ofNat src.length)) = some hashes) : hashes = cold sha256 src := by
  have hlen : (chunksOf sha256 c.toNat src).length = _ := chunksOf_length hcount
  obtain ⟨-, -, -, heq⟩ := cached_part hlen List.prefix_rfl h
  rw [heq, cached_record hlen] at h
  rw [← Option.some.inj h]
  exact chunksOf_cold hpos hlt hcount hsame heq.symm

theorem servesOwn_of_same (hpos : 0 < src.length) (hlt : src.length < 2 ^ 63)
    (hcount : (src.length + c.toNat - 1) / c.toNat < 2 ^ 32) (hsame : SameChunks src c) :
    ServesOwn sha256 filePath mtimeNs src c := by
  intro s hs
  obtain ⟨s₀, t₀, cachePath, hpath, hsave, hfiles⟩ := hs.cache
  have hrecord := hs.record hpath
  refine ⟨fun hashes t hr => ?_, fun pool hw w m t hpos' hsum hpool hr => ?_⟩
  · rcases (loadsAs_cached hpath).atWorst _ _ hr with h | h
    · rw [hrecord, Option.bind_some] at h
      exact cached_cold hpos hlt hcount hsame h.symm
    · cases h
  · obtain ⟨-, hashes, hsource, rfl⟩ := (precomputeMeta_sat hs.file hlt).returned hr
    congr 1
    rcases hsource with ⟨cachePath', hpath', h⟩ | h
    · rw [hpath] at hpath'
      cases hpath'
      rw [hrecord, Option.bind_some] at h
      exact cached_cold hpos hlt hcount hsame h
    · rw [h] at hpool
      exact hpool.hashes hpos' hsum

theorem returns_rough {α : Type} {p : Prog Os α} {Q : α → World → Prop}
    (h : Total (reliable anyPeer) (fun _ _ => True) Q p s) : Returns rough p Q s :=
  h.returns.env (kernel_of_reliable trivial fun _ _ _ _ h => h)

theorem cachePath_ne (hpath : hashCachePathFor filePath = .ok cachePath) :
    filePath ≠ cachePath := by
  intro h
  rw [hashCachePathFor] at hpath
  split_ifs at hpath
  have hlen := congrArg List.length (Except.ok.inj hpath)
  have hsplit := congrArg List.length (List.takeWhile_append_dropWhile
    (p := (· ≠ PartialFile.slash)) (l := filePath.reverse))
  have hsuffix : HashCache.suffix.length = 10 := rfl
  rw [← h] at hlen
  simp only [List.length_append, List.length_reverse, List.length_singleton] at hlen hsplit
  omega

theorem exists_cachedWith (hpath : hashCachePathFor filePath = .ok cachePath) :
    ∃ s, CachedWith sha256 filePath mtimeNs src c s := by
  let s₀ : World := .init fun path => if path = filePath then some src else none
  have hends : Total (reliable anyPeer) (fun _ _ => True) (fun _ _ => True)
      (hashCacheSave filePath (UInt64.ofNat src.length) mtimeNs c (countOf c src)
        (chunksOf sha256 c.toNat src)) s₀ := hashCacheSave_ends hpath
  obtain ⟨_, t, hsave, -⟩ := returns_rough hends
  refine ⟨t, ?_, s₀, t, cachePath, hpath, hsave, rfl⟩
  rw [((hashCacheSave_sat hpath).returned hsave).files,
    Function.update_of_ne (cachePath_ne hpath)]
  exact if_pos rfl

theorem first_ne (hdiff : ¬ SameChunks src c)
    (hcollide : sha256 (src.take c.toNat) = sha256 (src.take chunkSize) →
      src.take c.toNat = src.take chunkSize) :
    sha256 (src.take c.toNat) ≠ sha256 (src.take chunkSize) := by
  intro h
  have hlen := congrArg List.length (hcollide h)
  simp only [SameChunks, not_or] at hdiff
  rw [List.length_take, List.length_take] at hlen
  omega

theorem not_servesOwn (hpath : filePath ≠ []) (hpos : 0 < src.length) (hlt : src.length < 2 ^ 63)
    (hcpos : 0 < c.toNat) (hcount : (src.length + c.toNat - 1) / c.toNat < 2 ^ 32)
    (hdiff : ¬ SameChunks src c)
    (hcollide : sha256 (src.take c.toNat) = sha256 (src.take chunkSize) →
      src.take c.toNat = src.take chunkSize) :
    ¬ ServesOwn sha256 filePath mtimeNs src c := by
  intro hserves
  obtain ⟨cachePath, hcache⟩ : ∃ cachePath, hashCachePathFor filePath = .ok cachePath :=
    ⟨_, if_neg hpath⟩
  obtain ⟨s, hs⟩ : ∃ s, CachedWith sha256 filePath mtimeNs src c s := exists_cachedWith hcache
  have heq : countOf c src = chunkCountOf (UInt64.ofNat src.length) := by
    apply UInt32.toNat_inj.mp
    rw [countOf_toNat hcount, chunkCountOf_toNat hlt]
    simp only [SameChunks, not_or, not_not] at hdiff
    exact hdiff.2.2
  have hlen : (chunksOf sha256 c.toNat src).length = _ := chunksOf_length hcount
  have hloads : LoadsAs filePath (UInt64.ofNat src.length) mtimeNs
      (chunkCountOf (UInt64.ofNat src.length)) s _ := loadsAs_cached hcache
  rw [hs.record hcache, Option.bind_some, ← heq, cached_record hlen, heq] at hloads
  obtain ⟨r, t, hload, rfl⟩ := returns_rough (hloads.answers anyPeer)
  have hcold := congrArg (·[0]?) ((hserves s hs).1 _ t hload)
  have hone : 0 < (src.length + c.toNat - 1) / c.toNat := Nat.div_pos (by omega) hcpos
  have hcnt : 0 < (chunkCountOf (UInt64.ofNat src.length)).toNat := by
    rw [← heq, countOf_toNat hcount]
    exact hone
  have hfirst := hashChunk_slice sha256 hlt (i := 0) (by omega)
  simp only [chunksOf, cold, List.getElem?_map, List.getElem?_range hone, List.getElem?_range hcnt,
    Option.map_some, hfirst, Nat.zero_mul, slice, List.drop_zero, Option.some.injEq] at hcold
  exact first_ne hdiff hcollide hcold

/-- Exactly when a cache of chunks of `c` bytes serves no hashes but the file's own. -/
theorem serves_own_iff (sha256 : Bytes → Hash) (filePath : Path) (mtimeNs : UInt64) (src : Bytes)
    (c : UInt32) (hpath : filePath ≠ []) (hpos : 0 < src.length) (hlt : src.length < 2 ^ 63)
    (hcpos : 0 < c.toNat) (hcount : (src.length + c.toNat - 1) / c.toNat < 2 ^ 32)
    (hcollide : sha256 (src.take c.toNat) = sha256 (src.take chunkSize) →
      src.take c.toNat = src.take chunkSize) :
    ServesOwn sha256 filePath mtimeNs src c ↔ SameChunks src c := by
  refine ⟨fun hserves => ?_, servesOwn_of_same hpos hlt hcount⟩
  by_contra hdiff
  exact not_servesOwn hpath hpos hlt hcpos hcount hdiff hcollide hserves

/-- A stand-in for a hash that tells two lengths apart. -/
def lengthHash (bs : Bytes) : Hash := .ofBytes (be 8 bs.length)

theorem lengthHash_inj {a b : Bytes} (ha : a.length < 2 ^ 64) (hb : b.length < 2 ^ 64)
    (h : lengthHash a = lengthHash b) : a.length = b.length := by
  have hval := congrArg (fun v : Hash => ofBE (v.val.take 8)) h
  have htake : ∀ n, n < 2 ^ 64 → ofBE ((Hash.ofBytes (be 8 n)).val.take 8) = n := by
    intro n hn
    have hhead : (Hash.ofBytes (be 8 n)).val.take 8 = be 8 n := by
      change ((be 8 n ++ List.replicate hashSize 0).take hashSize).take 8 = _
      rw [List.take_take, Nat.min_eq_left (by decide), List.take_left' (be_length 8 n)]
    rw [hhead, ofBE_be_of_lt (by omega)]
  simpa [lengthHash, htake _ ha, htake _ hb] using hval

/-- Chunks of one byte, of which there are more than of `CHUNK_SIZE` bytes. -/
theorem serves_own_iff_bytes :
    (ServesOwn lengthHash [97] 0 (List.replicate (chunkSize + 1) 0) 1 ↔
      SameChunks (List.replicate (chunkSize + 1) 0) 1) ∧
    ServesOwn lengthHash [97] 0 (List.replicate (chunkSize + 1) 0) 1 := by
  have hlen : (List.replicate (chunkSize + 1) (0 : UInt8)).length = chunkSize + 1 :=
    List.length_replicate
  have hone : (1 : UInt32).toNat = 1 := rfl
  have hiff := serves_own_iff lengthHash [97] 0 (List.replicate (chunkSize + 1) 0) 1 (by decide)
    (by rw [hlen]; exact Nat.succ_pos _) (by rw [hlen]; decide) (by decide)
    (by rw [hlen, hone]; decide) fun h => by
      have hsame := lengthHash_inj (by rw [List.length_take, hlen, hone]; decide)
        (by rw [List.length_take, hlen]; decide) h
      rw [List.length_take, List.length_take, hlen, hone] at hsame
      exact absurd hsame (by decide)
  refine ⟨hiff, hiff.mpr ?_⟩
  rw [SameChunks, hlen, hone]
  decide

/-- Two chunks of a file of one chunk and a byte, cut one byte too early. -/
theorem serves_other :
    ¬ ServesOwn lengthHash [97] 0 (List.replicate (chunkSize + 1) 0)
      (UInt32.ofNat (chunkSize - 1)) := by
  have hc : (UInt32.ofNat (chunkSize - 1)).toNat = chunkSize - 1 := rfl
  have hlen : (List.replicate (chunkSize + 1) (0 : UInt8)).length = chunkSize + 1 :=
    List.length_replicate
  apply not_servesOwn
  · decide
  · rw [hlen]
    exact Nat.succ_pos _
  · rw [hlen]
    decide
  · decide
  · rw [hlen, hc]
    decide
  · rw [SameChunks, hlen, hc]
    decide
  · intro h
    have hsame := lengthHash_inj (by rw [List.length_take, hlen, hc]; decide)
      (by rw [List.length_take, hlen]; decide) h
    rw [List.length_take, List.length_take, hlen, hc] at hsame
    exact absurd hsame (by decide)

end Embr.StaleCache
