import Embr.HashCache
import Embr.Hashing

/-!
# The FILE_META of a file

`precompute_meta` of `core/push.cpp`. `pool` is what the workers of
`hash_compute_parallel` make of the mapped file, and `mtimeNs` is the time of
its last change, both unchanged while the program runs.
-/

open Octets Interact
open Embr.System Embr.Protocol Embr.Signals Embr.HashCache
namespace Embr.Precompute

def fileNameOf (filePath : Path) : Bytes :=
  (filePath.reverse.takeWhile (· ≠ PartialFile.slash)).reverse

/-- `static_cast<uint32_t>((file_size + CHUNK_SIZE - 1) / CHUNK_SIZE)`. -/
def chunkCountOf (fileSize : UInt64) : UInt32 :=
  ((fileSize + UInt64.ofNat chunkSize - 1) / UInt64.ofNat chunkSize).toUInt32

section
variable (pool : Bytes → ℕ → UInt32 → Except Exc (List Hash)) (hardwareConcurrency : ℕ)
  (mtimeNs : UInt64)

def hashComputeParallel (fd : Path) (fileSize : UInt64) (chunkCount : UInt32) :
    Prog Os (List Hash) := do
  match ← sys (.mmap fd 0 fileSize.toNat) with
  | none => throwErrno "hash_compute_parallel: mmap failed:"
  | some mapped => lift (pool mapped fileSize.toNat chunkCount)

def fileSizeOf (filePath : Path) : Prog Os UInt64 := do
  match ← sys (.stat filePath) with
  | none => do
    let s ← .get
    if s.errno = ENOENT ∨ s.errno = ENOTDIR then
      .raise (.runtimeError ("precompute_meta: file does not exist: " ++ text filePath))
    else .raise (.systemError "filesystem error: status: " s.errno)
  | some _ =>
    match ← sys (.stat filePath) with
    | none => throwErrno "filesystem error: cannot get file size: "
    | some fileSize => pure (UInt64.ofNat fileSize)

def chunkHashesOf (filePath : Path) (fileSize : UInt64) (chunkCount : UInt32) :
    Prog Os (List Hash) := do
  match ← hashCacheLoad filePath fileSize mtimeNs chunkCount with
  | some chunkHashes => do
    sys (.print .pushCached)
    pure chunkHashes
  | none => do
    sys (.print (.pushHashing (fileNameOf filePath) chunkCount.toNat hardwareConcurrency))
    let opened : Bool ← sys (.openRead filePath)
    if opened then do
      let chunkHashes ← hashComputeParallel pool filePath fileSize chunkCount
      hashCacheSave filePath fileSize mtimeNs (UInt32.ofNat chunkSize) chunkCount chunkHashes
      pure chunkHashes
    else throwErrno "precompute_meta: open failed: "

def precomputeMeta (filePath : Path) : Prog Os FileMeta := do
  let fileSize ← fileSizeOf filePath
  if fileSize = 0 then
    .raise (.runtimeError ("precompute_meta: file is empty: " ++ text filePath))
  else do
    match ← sys (.stat filePath) with
    | none => throwErrno "precompute_meta: stat failed: "
    | some _ => do
      let chunkCount := chunkCountOf fileSize
      let chunkHashes ←
        chunkHashesOf pool hardwareConcurrency mtimeNs filePath fileSize chunkCount
      pure ⟨fileNameOf filePath, fileSize, UInt32.ofNat chunkSize, chunkCount, chunkHashes⟩

end

section
variable {pool : Bytes → ℕ → UInt32 → Except Exc (List Hash)} {hardwareConcurrency : ℕ}
  {mtimeNs : UInt64} {filePath : Path} {src : Bytes} {s : World}

theorem chunkCountOf_toNat (hlt : src.length < 2 ^ 63) :
    (chunkCountOf (UInt64.ofNat src.length)).toNat =
      (src.length + chunkSize - 1) / chunkSize % 2 ^ 32 := by
  have hsize : (UInt64.ofNat src.length).toNat = src.length := UInt64.toNat_ofNat_of_lt' (by
    change _ < 2 ^ 64
    omega)
  have hchunk : (UInt64.ofNat chunkSize).toNat = chunkSize := rfl
  have hone : (1 : UInt64).toNat = 1 := rfl
  have hsum : (UInt64.ofNat src.length + UInt64.ofNat chunkSize - 1).toNat =
      src.length + chunkSize - 1 := by
    rw [UInt64.toNat_sub, UInt64.toNat_add, hsize, hchunk, hone, chunkSize]
    omega
  rw [chunkCountOf, UInt64.toNat_toUInt32, UInt64.toNat_div, hsum, hchunk]

/-- Where the hashes of a FILE_META come from: the cache, or the workers. -/
def Sourced (pool : Bytes → ℕ → UInt32 → Except Exc (List Hash)) (mtimeNs : UInt64)
    (filePath : Path) (src : Bytes) (s : World) (hashes : List Hash) : Prop :=
  (∃ cachePath, hashCachePathFor filePath = .ok cachePath ∧
    (s.files cachePath).bind (cached · (UInt64.ofNat src.length) mtimeNs
      (chunkCountOf (UInt64.ofNat src.length))) = some hashes) ∨
  pool src src.length (chunkCountOf (UInt64.ofNat src.length)) = .ok hashes

theorem fileSizeOf_sat (hsrc : s.files filePath = some src) :
    Sat rough (fun _ _ => True) (fun _ _ => True) (fileSizeOf filePath)
      (fun fileSize u => fileSize = UInt64.ofNat src.length ∧ Calm s u) s := by
  refine sat_ask_bind.mpr ⟨trivial, fun r u hr => ?_⟩
  rcases hr with ⟨f, -, rfl, rfl⟩ | ⟨rfl, -, hu⟩
  · refine sat_ask_bind.mpr ⟨trivial, fun r v hr => ?_⟩
    rcases hr with ⟨f', hf', rfl, rfl⟩ | ⟨rfl, -, hv⟩
    · rw [hsrc] at hf'
      cases hf'
      exact sat_pure.mpr ⟨trivial, rfl, .refl _⟩
    · exact sat_get_bind.mpr ⟨trivial, sat_raise.mpr ⟨trivial, trivial⟩⟩
  · refine sat_get_bind.mpr ⟨trivial, ?_⟩
    split_ifs
    · exact sat_raise.mpr ⟨trivial, trivial⟩
    · exact sat_raise.mpr ⟨trivial, trivial⟩

theorem chunkHashesOf_sat (hsrc : s.files filePath = some src) (hpos : 0 < src.length)
    (hlt : src.length < 2 ^ 63) :
    Sat rough (fun _ _ => True) (fun _ _ => True)
      (chunkHashesOf pool hardwareConcurrency mtimeNs filePath (UInt64.ofNat src.length)
        (chunkCountOf (UInt64.ofNat src.length)))
      (fun hashes _ => Sourced pool mtimeNs filePath src s hashes) s := by
  have hsize : (UInt64.ofNat src.length).toNat = src.length := UInt64.toNat_ofNat_of_lt' (by
    change _ < 2 ^ 64
    omega)
  cases hpath : hashCachePathFor filePath with
  | error e =>
    rw [chunkHashesOf, hashCacheLoad, hpath]
    exact sat_raise_bind.mpr ⟨trivial, trivial⟩
  | ok cachePath =>
    refine Sat.andThen ((hashCacheLoad_reads reads_rough hpath).throws fun _ _ _ => trivial) ?_
    intro r u hu
    obtain ⟨hcalm, hanswer⟩ := hu
    cases r with
    | some hashes =>
      have hloaded := hanswer.resolve_right (by rintro ⟨-, ⟨⟩⟩)
      refine sat_ask_bind.mpr ⟨trivial, fun _ v _ => sat_pure.mpr ⟨trivial, Or.inl ?_⟩⟩
      exact ⟨cachePath, hpath, hloaded.symm⟩
    | none =>
      refine sat_ask_bind.mpr ⟨trivial, fun _ v hv => ?_⟩
      subst hv
      refine sat_ask_bind.mpr ⟨trivial, fun r w hr => ?_⟩
      rcases hr with ⟨rfl, -, rfl⟩ | ⟨rfl, -, hw⟩
      · rw [if_pos rfl]
        refine Sat.bind (sat_ask_bind.mpr ⟨trivial, fun r x hr => ?_⟩)
        rcases hr with ⟨f, bs, hf, -, -, hmapped, rfl, rfl⟩ | ⟨rfl, -, -⟩
        · have hfile : some f = some src := by
            rw [← hf, ← hsrc]
            exact congrFun hcalm.files filePath
          cases hfile
          rw [hsize] at hmapped
          have hbs : bs = src := by
            rw [hmapped (by omega), slice, List.drop_zero, List.take_length]
          dsimp only
          rw [hbs, hsize]
          cases hpool : pool src src.length (chunkCountOf (UInt64.ofNat src.length)) with
          | error e => exact sat_raise.mpr ⟨trivial, trivial⟩
          | ok hashes =>
            refine sat_pure.mpr ⟨trivial, Sat.andThen (Sat.top _ _) fun _ _ _ => ?_⟩
            exact sat_pure.mpr ⟨trivial, Or.inr hpool⟩
        · exact sat_get_bind.mpr ⟨trivial, sat_raise.mpr ⟨trivial, trivial⟩⟩
      · exact sat_get_bind.mpr ⟨trivial, sat_raise.mpr ⟨trivial, trivial⟩⟩

theorem precomputeMeta_sat (hsrc : s.files filePath = some src) (hlt : src.length < 2 ^ 63) :
    Sat rough (fun _ _ => True) (fun _ _ => True)
      (precomputeMeta pool hardwareConcurrency mtimeNs filePath)
      (fun m _ => 0 < src.length ∧ ∃ hashes, Sourced pool mtimeNs filePath src s hashes ∧
        m = ⟨fileNameOf filePath, UInt64.ofNat src.length, UInt32.ofNat chunkSize,
          chunkCountOf (UInt64.ofNat src.length), hashes⟩) s := by
  refine Sat.andThen (fileSizeOf_sat hsrc) fun fileSize u hu => ?_
  obtain ⟨rfl, hcalm⟩ := hu
  split_ifs with hzero
  · exact sat_raise.mpr ⟨trivial, trivial⟩
  have hpos : 0 < src.length := by
    apply Nat.pos_of_ne_zero
    intro hlen
    rw [hlen] at hzero
    exact hzero rfl
  refine sat_ask_bind.mpr ⟨trivial, fun r v hr => ?_⟩
  rcases hr with ⟨f, -, rfl, rfl⟩ | ⟨rfl, -, -⟩
  · have hfv : v.files filePath = some src := by
      rw [hcalm.files]
      exact hsrc
    refine Sat.andThen (chunkHashesOf_sat hfv hpos hlt) fun hashes w hw => ?_
    refine sat_pure.mpr ⟨trivial, hpos, hashes, ?_, rfl⟩
    rw [Sourced, hcalm.files] at hw
    exact hw
  · exact sat_get_bind.mpr ⟨trivial, sat_raise.mpr ⟨trivial, trivial⟩⟩

section
variable {net : Env Os}

theorem stat_ends (hsrc : s.files filePath = some src) :
    Total (reliable net) (fun _ _ => True) (fun r u => r = some src.length ∧ u = s)
      (sys (.stat filePath)) s := by
  refine (total_ask (E := reliable net) (o := .stat filePath)).mpr
    ⟨trivial, ⟨some src.length, s, Or.inl ⟨src, hsrc, rfl, rfl⟩⟩, fun r u hr => ⟨trivial, ?_⟩⟩
  rcases hr with ⟨f, hf, rfl, rfl⟩ | ⟨-, hwhy, -⟩
  · rw [hsrc] at hf
    cases hf
    exact ⟨rfl, rfl⟩
  · rw [hsrc] at hwhy
    rcases hwhy with hfalse | hnone
    · exact hfalse.elim
    · cases hnone

theorem chunkHashesOf_ends {hashes : List Hash} (hsrc : s.files filePath = some src)
    (hpath : filePath ≠ []) (hpos : 0 < src.length) (hlt : src.length < 2 ^ 63)
    (hpool : pool src src.length (chunkCountOf (UInt64.ofNat src.length)) = .ok hashes) :
    Total (reliable net) (fun _ _ => True) (fun _ _ => True)
      (chunkHashesOf pool hardwareConcurrency mtimeNs filePath (UInt64.ofNat src.length)
        (chunkCountOf (UInt64.ofNat src.length))) s := by
  have hsize : (UInt64.ofNat src.length).toNat = src.length := UInt64.toNat_ofNat_of_lt' (by
    change _ < 2 ^ 64
    omega)
  obtain ⟨cachePath, hcache⟩ : ∃ cachePath, hashCachePathFor filePath = .ok cachePath :=
    ⟨_, if_neg hpath⟩
  have hsat : Sat (signalled net) _ _ (hashCacheLoad filePath (UInt64.ofNat src.length) mtimeNs
      (chunkCountOf (UInt64.ofNat src.length))) _ s := hashCacheLoad_reads reads_signalled hcache
  replace hsat := hsat.env signalled_of_reliable
  refine Total.andThen ((hashCacheLoad_ends hcache).and hsat) fun r u hu => ?_
  cases r with
  | some hashes =>
    exact total_ask_bind.mpr ⟨trivial, ⟨(), _, rfl⟩, fun _ _ _ => total_pure.mpr ⟨trivial, trivial⟩⟩
  | none =>
    have hfu : u.files filePath = some src := by
      rw [hu.2.1.files]
      exact hsrc
    refine total_ask_bind.mpr ⟨trivial, ⟨(), _, rfl⟩, fun _ v hv => ?_⟩
    subst hv
    refine total_ask_bind.mpr ⟨trivial, ⟨true, _, Or.inl ⟨rfl, hfu ▸ rfl, rfl⟩⟩, fun r w hr => ?_⟩
    rcases hr with ⟨rfl, -, rfl⟩ | ⟨-, hwhy, -⟩
    · rw [if_pos rfl]
      refine Total.bind (total_ask_bind.mpr ⟨trivial, ?_, fun r x hr => ?_⟩)
      · refine ⟨some src, _, Or.inl ⟨src, src, hfu, ?_, hsize.symm, fun _ => ?_, rfl, rfl⟩⟩
        · rw [hsize]
          exact hpos
        · rw [hsize, slice, List.drop_zero, List.take_length]
      rcases hr with ⟨f, bs, hf, -, -, hmapped, rfl, rfl⟩ | ⟨-, hwhy, -⟩
      · have hfile : some f = some src := hf.symm.trans hfu
        cases hfile
        rw [hsize] at hmapped
        have hbs : bs = src := by
          rw [hmapped (by omega), slice, List.drop_zero, List.take_length]
        dsimp only
        rw [hbs, hsize, hpool]
        refine total_pure.mpr ⟨trivial, Total.andThen (hashCacheSave_ends hcache) fun _ _ _ => ?_⟩
        exact total_pure.mpr ⟨trivial, trivial⟩
      · rw [hsize] at hwhy
        rcases hwhy with hfalse | hzero
        · exact hfalse.elim
        · omega
    · rcases hwhy with hfalse | hnone
      · exact hfalse.elim
      · cases hnone.symm.trans hfu

theorem precomputeMeta_ends {hashes : List Hash} (hsrc : s.files filePath = some src)
    (hpath : filePath ≠ []) (hpos : 0 < src.length) (hlt : src.length < 2 ^ 63)
    (hpool : pool src src.length (chunkCountOf (UInt64.ofNat src.length)) = .ok hashes) :
    Total (reliable net) (fun _ _ => True) (fun _ _ => True)
      (precomputeMeta pool hardwareConcurrency mtimeNs filePath) s := by
  have hzero : UInt64.ofNat src.length ≠ 0 := by
    intro hzero
    have hsize := congrArg UInt64.toNat hzero
    rw [UInt64.toNat_ofNat_of_lt' (by change _ < 2 ^ 64; omega)] at hsize
    change src.length = 0 at hsize
    omega
  refine Total.bind (Total.andThen (stat_ends hsrc) fun r u hu => ?_)
  obtain ⟨rfl, rfl⟩ := hu
  refine Total.andThen (stat_ends hsrc) fun r v hv => ?_
  obtain ⟨rfl, rfl⟩ := hv
  refine total_pure.mpr ⟨trivial, ?_⟩
  rw [if_neg hzero]
  refine Total.andThen (stat_ends hsrc) fun r v hv => ?_
  obtain ⟨rfl, rfl⟩ := hv
  refine Total.andThen (chunkHashesOf_ends hsrc hpath hpos hlt hpool) fun _ _ _ => ?_
  exact total_pure.mpr ⟨trivial, trivial⟩

end

end

end Embr.Precompute
