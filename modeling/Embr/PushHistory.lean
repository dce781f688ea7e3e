import Embr.EndToEnd
import Embr.StaleCache

/-!
# Pushing a file again and again

A file is changed and pushed in any order, and a push may fail or be stopped at any point of
`precompute_meta`. Size and time of the last change are all that the hash cache knows of a version,
so they have to tell the versions apart. The cache is then a part of a record of some version, and
what it answers are the hashes of the version that is there.
-/

open Octets Interact
open Embr.System Embr.Protocol Embr.Hashing Embr.HashCache Embr.Precompute Embr.StaleCache
open Embr.Delivery Embr.Channel Embr.EndToEnd
namespace Embr.PushHistory

structure Version where
  content : Bytes
  mtimeNs : UInt64

namespace Version

def size (v : Version) : UInt64 := UInt64.ofNat v.content.length

def count (v : Version) : UInt32 := chunkCountOf v.size

def record (sha256 : Bytes → Hash) (v : Version) : Bytes :=
  cacheRecord v.size v.mtimeNs (UInt32.ofNat chunkSize) v.count (cold sha256 v.content)

/-- Some schedule of at least one worker ends with what the pool answers. -/
def Pooled (sha256 : Bytes → Hash) (v : Version)
    (pool : Bytes → ℕ → UInt32 → Except Exc (List Hash)) : Prop :=
  ∃ w, 0 < w ∧ v.count.toNat + w < 2 ^ 32 ∧
    Computes sha256 v.content v.content.length v.count w (pool v.content v.content.length v.count)

end Version

/-- No two versions with different contents have the same size and time. -/
def Stamped (vs : List Version) : Prop :=
  ∀ v ∈ vs, ∀ x ∈ vs, v.size = x.size → v.mtimeNs = x.mtimeNs → v.content = x.content

/-- The versions so far, the last one first, and the files. -/
inductive History (sha256 : Bytes → Hash) (filePath cachePath : Path) :
    List Version → (Path → Option Bytes) → Prop where
  | created {files : Path → Option Bytes} (v : Version) : v.content.length < 2 ^ 63 →
      files filePath = some v.content → files cachePath = none →
      History sha256 filePath cachePath [v] files
  | changed {files files' : Path → Option Bytes} {vs : List Version} (v : Version) :
      v.content.length < 2 ^ 63 → History sha256 filePath cachePath vs files →
      files' filePath = some v.content → files' cachePath = files cachePath →
      History sha256 filePath cachePath (v :: vs) files'
  | pushed {v : Version} {vs : List Version} {s t : World} {p : Prog Os FileMeta}
      {pool : Bytes → ℕ → UInt32 → Except Exc (List Hash)} {hardwareConcurrency : ℕ} :
      History sha256 filePath cachePath (v :: vs) s.files → v.Pooled sha256 pool →
      Reaches rough (precomputeMeta pool hardwareConcurrency v.mtimeNs filePath, s) (p, t) →
      History sha256 filePath cachePath (v :: vs) t.files

variable {sha256 : Bytes → Hash} {filePath cachePath : Path} {v : Version} {vs : List Version}
  {pool : Bytes → ℕ → UInt32 → Except Exc (List Hash)} {hardwareConcurrency : ℕ}
  {hashes : List Hash} {s t u : World}

theorem Version.size_toNat (hlt : v.content.length < 2 ^ 63) :
    v.size.toNat = v.content.length := by
  refine UInt64.toNat_ofNat_of_lt' ?_
  change _ < 2 ^ 64
  omega

theorem cold_length (v : Version) : (cold sha256 v.content).length = v.count.toNat := by
  rw [cold, List.length_map, List.length_range]
  rfl

theorem Version.Pooled.cold (h : v.Pooled sha256 pool)
    (hpool : pool v.content v.content.length v.count = .ok hashes) :
    hashes = StaleCache.cold sha256 v.content := by
  obtain ⟨w, hw, hsum, hcomputes⟩ := h
  rw [hpool] at hcomputes
  exact hcomputes.hashes hw hsum

/-- The file is there, and the cache is a part of a record of one of the versions. -/
structure Kept (sha256 : Bytes → Hash) (filePath cachePath : Path) (v : Version)
    (vs : List Version) (files : Path → Option Bytes) : Prop where
  file : files filePath = some v.content
  cache : ∀ g, files cachePath = some g → ∃ x ∈ v :: vs, g <+: x.record sha256

theorem Kept.same (h : Kept sha256 filePath cachePath v vs s.files) (hfiles : t.files = s.files) :
    Kept sha256 filePath cachePath v vs t.files := by
  rwa [hfiles]

theorem Kept.path (hpath : hashCachePathFor filePath = .ok cachePath)
    (h : Kept sha256 filePath cachePath v vs s.files) {g : Bytes} (hg : g <+: v.record sha256)
    (hfiles : t.files = Function.update s.files cachePath (some g)) :
    Kept sha256 filePath cachePath v vs t.files := by
  rw [hfiles]
  refine ⟨?_, fun g' hg' => ?_⟩
  · rw [Function.update_of_ne (cachePath_ne hpath)]
    exact h.file
  · rw [Function.update_self] at hg'
    cases hg'
    exact ⟨v, List.mem_cons_self, hg⟩

abbrev Reading {α : Type} (p : Prog Os α) : Prop :=
  ∀ files, p.Keeps rough fun u => u.files = files

theorem refused_files {files : Path → Option Bytes} (hs : s.files = files) (h : s.Refused t) :
    t.files = files := by
  obtain ⟨e, rfl⟩ := h
  exact hs

theorem openRead_reads (path : Path) : Reading (sys (.openRead path)) := by
  refine fun files => .ask fun s r t hs hr => ?_
  rcases hr with ⟨-, -, rfl⟩ | ⟨-, -, hrefused⟩
  · exact hs
  · exact refused_files hs hrefused

theorem stat_reads (path : Path) : Reading (sys (.stat path)) := by
  refine fun files => .ask fun s r t hs hr => ?_
  rcases hr with ⟨f, -, -, rfl⟩ | ⟨-, -, hrefused⟩
  · exact hs
  · exact refused_files hs hrefused

theorem readExact_reads (fd : Path) (len : ℕ) : Reading (readExact fd len) := by
  refine fun files => .repeatUntil fun buf => .ite (.bind (.ask fun s r t hs hr => ?_) fun r => ?_)
    (.pure _)
  · rcases hr with ⟨f, bs, -, -, -, -, -, rfl⟩ | ⟨-, -, hrefused⟩
    · exact hs
    · exact refused_files hs hrefused
  · cases r with
    | none => exact .get_bind fun s => .ite (.pure _) (.pure _)
    | some bs => exact .ite (.pure _) (.pure _)

theorem orMiss_reads {α : Type} {p : Prog Os (Except Exc Bytes)} {k : Bytes → Prog Os (Option α)}
    (hp : Reading p) (hk : ∀ bs, Reading (k bs)) : Reading (orMiss p k) := by
  refine fun files => .bind (hp files) fun r => ?_
  cases r with
  | error e => exact .pure _
  | ok bs => exact hk bs files

theorem readHashes_reads (fd : Path) (n : ℕ) : Reading (readHashes fd n) := by
  induction n with
  | zero => exact fun files => .pure _
  | succ n ih =>
    exact orMiss_reads (readExact_reads _ _) fun hash files => .bind (ih files) fun _ => .pure _

theorem hashCacheLoad_reading (hpath : hashCachePathFor filePath = .ok cachePath)
    (fileSize mtimeNs : UInt64) (chunkCount : UInt32) :
    Reading (hashCacheLoad filePath fileSize mtimeNs chunkCount) := by
  rw [hashCacheLoad, hpath]
  intro files
  change Prog.Keeps rough _ (sys (.openRead cachePath) >>= _)
  refine .bind (openRead_reads _ files) fun opened => .ite ?_ (.pure _)
  refine orMiss_reads (readExact_reads _ _) (fun storedSize => ?_) files
  refine orMiss_reads (readExact_reads _ _) fun storedMtime => ?_
  refine orMiss_reads (readExact_reads _ _) fun _ => ?_
  refine orMiss_reads (readExact_reads _ _) fun storedCount files => ?_
  exact .ite (.pure _) (readHashes_reads _ _ files)

theorem fileSizeOf_reading : Reading (fileSizeOf filePath) := by
  refine fun files => .bind (stat_reads _ files) fun r => ?_
  cases r with
  | none => exact .get_bind fun s => .ite (.raise _) (.raise _)
  | some n =>
    refine .bind (stat_reads _ files) fun r => ?_
    cases r with
    | none => exact .get_bind fun s => .raise _
    | some fileSize => exact .pure _

theorem Reading.sat {α : Type} {p : Prog Os α} (hp : Reading p) :
    Sat rough (fun _ u => u.files = s.files) (fun _ _ => True) p
      (fun _ u => u.files = s.files) s :=
  (Prog.Keeps.sat (hp s.files) rfl).throws fun _ _ _ => trivial

abbrev Keeping (sha256 : Bytes → Hash) (filePath cachePath : Path) (v : Version)
    (vs : List Version) (_ : Option Op) (u : World) : Prop :=
  Kept sha256 filePath cachePath v vs u.files

theorem hashCacheSave_kept (hpath : hashCachePathFor filePath = .ok cachePath)
    (h : Kept sha256 filePath cachePath v vs s.files) :
    Sat rough (Keeping sha256 filePath cachePath v vs) (fun _ _ => True)
      (hashCacheSave filePath v.size v.mtimeNs (UInt32.ofNat chunkSize) v.count
        (cold sha256 v.content)) (fun _ u => Kept sha256 filePath cachePath v vs u.files) s := by
  have hsave : Sat rough _ _ (hashCacheSave filePath v.size v.mtimeNs (UInt32.ofNat chunkSize)
    v.count (cold sha256 v.content)) _ s := hashCacheSave_sat hpath
  refine hsave.mono (fun _ _ _ _ hr => hr) (fun _ u hu => ?_) (fun _ _ _ => trivial) fun _ u hu => ?_
  · rcases hu.1 with hcalm | ⟨g, hsaving⟩
    · rw [Keeping, hcalm.files]
      exact h
    · exact h.path hpath hsaving.part hsaving.files
  · exact h.path hpath hu.part hu.files

theorem chunkHashesOf_kept (hpath : hashCachePathFor filePath = .ok cachePath)
    (hlt : v.content.length < 2 ^ 63) (hpool : v.Pooled sha256 pool)
    (h : Kept sha256 filePath cachePath v vs s.files) :
    Sat rough (Keeping sha256 filePath cachePath v vs) (fun _ _ => True)
      (chunkHashesOf pool hardwareConcurrency v.mtimeNs filePath v.size v.count)
      (fun _ u => Kept sha256 filePath cachePath v vs u.files) s := by
  have hsize := Version.size_toNat hlt
  refine Sat.seq (hashCacheLoad_reading hpath _ _ _).sat (fun _ _ => h.same) fun r u hu => ?_
  have hu := h.same hu
  cases r with
  | some hashes =>
    refine sat_ask_bind.mpr ⟨hu, fun _ t ht => ?_⟩
    subst ht
    exact sat_pure.mpr ⟨hu, hu⟩
  | none =>
    refine sat_ask_bind.mpr ⟨hu, fun _ t ht => ?_⟩
    subst ht
    refine Sat.seq (openRead_reads filePath).sat (fun _ _ => hu.same) fun r x hx => ?_
    have hx := hu.same hx
    split_ifs
    · refine Sat.bind (sat_ask_bind.mpr ⟨hx, fun r y hr => ?_⟩)
      rcases hr with ⟨f, bs, hf, -, -, hmapped, rfl, rfl⟩ | ⟨rfl, -, hrefused⟩
      · rw [hx.file] at hf
        cases hf
        rw [hsize] at hmapped
        have hbs : bs = v.content := by
          rw [hmapped (by omega), slice, List.drop_zero, List.take_length]
        dsimp only
        rw [hbs, hsize]
        cases hanswer : pool v.content v.content.length v.count with
        | error e => exact sat_raise.mpr ⟨hx, trivial⟩
        | ok hashes =>
          rw [hpool.cold hanswer]
          refine sat_pure.mpr ⟨hx, Sat.andThen (hashCacheSave_kept hpath hx) fun _ z hz => ?_⟩
          exact sat_pure.mpr ⟨hz, hz⟩
      · have hy := hx.same (refused_files rfl hrefused)
        exact sat_get_bind.mpr ⟨hy, sat_raise.mpr ⟨hy, trivial⟩⟩
    · exact sat_get_bind.mpr ⟨hx, sat_raise.mpr ⟨hx, trivial⟩⟩

theorem precomputeMeta_kept (hpath : hashCachePathFor filePath = .ok cachePath)
    (hlt : v.content.length < 2 ^ 63) (hpool : v.Pooled sha256 pool)
    (h : Kept sha256 filePath cachePath v vs s.files) :
    Sat rough (Keeping sha256 filePath cachePath v vs) (fun _ _ => True)
      (precomputeMeta pool hardwareConcurrency v.mtimeNs filePath) (fun _ _ => True) s := by
  have hsource : Sat rough _ _ (fileSizeOf filePath) _ s := fileSizeOf_sat h.file
  have hread : Sat rough _ _ (fileSizeOf filePath) _ s := fileSizeOf_reading.sat
  refine Sat.seq ((hsource.and hread).throws fun _ _ _ => trivial) (fun _ u hu => ?_)
    fun fileSize u hu => ?_
  · exact h.same hu.2
  obtain ⟨⟨rfl, -⟩, hfiles⟩ := hu
  have hu := h.same hfiles
  split_ifs with hzero
  · exact sat_raise.mpr ⟨hu, trivial⟩
  refine Sat.seq (stat_reads filePath).sat (fun _ _ => hu.same) fun r x hx => ?_
  have hx := hu.same hx
  cases r with
  | none => exact sat_get_bind.mpr ⟨hx, sat_raise.mpr ⟨hx, trivial⟩⟩
  | some _ =>
    refine Sat.andThen (chunkHashesOf_kept hpath hlt hpool hx) fun hashes y hy => ?_
    exact sat_pure.mpr ⟨hy, trivial⟩

theorem History.kept {files : Path → Option Bytes}
    (hpath : hashCachePathFor filePath = .ok cachePath)
    (h : History sha256 filePath cachePath vs files) :
    (∀ x ∈ vs, x.content.length < 2 ^ 63) ∧
      ∃ v vs', vs = v :: vs' ∧ Kept sha256 filePath cachePath v vs' files := by
  induction h with
  | created v hlt hfile hnone =>
    refine ⟨fun x hx => ?_, v, [], rfl, hfile, fun g hg => ?_⟩
    · rw [List.mem_singleton.mp hx]
      exact hlt
    · cases hnone.symm.trans hg
  | changed v hlt _ hfile hsame ih =>
    obtain ⟨hall, v', vs', rfl, hkept⟩ := ih
    refine ⟨List.forall_mem_cons.mpr ⟨hlt, hall⟩, v, _, rfl, hfile, fun g hg => ?_⟩
    obtain ⟨x, hx, hpart⟩ := hkept.cache g (hsame ▸ hg)
    exact ⟨x, List.mem_cons_of_mem _ hx, hpart⟩
  | pushed _ hpool hrun ih =>
    obtain ⟨hall, v', vs', heq, hkept⟩ := ih
    cases heq
    have hthere := (precomputeMeta_kept hpath (hall _ List.mem_cons_self) hpool hkept).visited hrun
    exact ⟨hall, _, _, rfl, hthere⟩

theorem Kept.cached (h : Kept sha256 filePath cachePath v vs s.files) (hstamps : Stamped (v :: vs))
    (hhit : (s.files cachePath).bind (HashCache.cached · v.size v.mtimeNs v.count) = some hashes) :
    hashes = cold sha256 v.content := by
  obtain ⟨g, hg, hhit⟩ := Option.bind_eq_some_iff.mp hhit
  obtain ⟨x, hx, hpart⟩ := h.cache g hg
  obtain ⟨rfl, hsize, hmtime, hcount⟩ := cached_part (cold_length x) hpart hhit
  have hsame := hstamps v List.mem_cons_self x hx hsize hmtime
  rw [hsize, hmtime, hcount, cached_record (cold_length x)] at hhit
  rw [← Option.some.inj hhit, hsame]

theorem Sourced.cold (hpath : hashCachePathFor filePath = .ok cachePath)
    (hpool : v.Pooled sha256 pool) (h : Kept sha256 filePath cachePath v vs s.files)
    (hstamps : Stamped (v :: vs)) (hsource : Sourced pool v.mtimeNs filePath v.content s hashes) :
    hashes = StaleCache.cold sha256 v.content := by
  rcases hsource with ⟨cachePath', hpath', hhit⟩ | hanswer
  · cases hpath.symm.trans hpath'
    exact h.cached hstamps hhit
  · exact hpool.cold hanswer

/-- FILE_META of a file as `precompute_meta` fills it in. -/
def Version.fileMeta (sha256 : Bytes → Hash) (filePath : Path) (v : Version) : FileMeta :=
  ⟨fileNameOf filePath, v.size, UInt32.ofNat chunkSize, v.count, cold sha256 v.content⟩

theorem fileMeta_describes (hpos : 0 < v.content.length)
    (hfit : (v.content.length + chunkSize - 1) / chunkSize < 2 ^ 32) :
    Describes sha256 (v.fileMeta sha256 filePath) v.content := by
  have hlt : v.content.length < 2 ^ 63 := by
    rw [Nat.div_lt_iff_lt_mul (by decide)] at hfit
    rw [chunkSize] at hfit
    omega
  refine ⟨hpos, Version.size_toNat hlt, ?_, rfl⟩
  change (chunkCountOf (UInt64.ofNat _)).toNat = _
  rw [chunkCountOf_toNat hlt, Nat.mod_eq_of_lt hfit]

section transfer
variable {m : FileMeta} {msg : Message} {src : Bytes} {F G : Path → Option Bytes}
  {out fd outputPath : Path} {c₁ c₂ : Option ℕ} {q : Prog Os Unit}

theorem fresh_receives (hd : Describes sha256 m src) (hmsg : makeFilemeta m = .ok msg)
    (hfit : msg.payload.length ≤ MAX_PAYLOAD_SIZE)
    (hout : out = if outputPath = [] then m.fileName else outputPath)
    (hfd : G fd = some src) (hfresh : F (PartialFile.pathFor out) = none)
    (hrun : JointReaches c₁ c₂ (start sha256 m outputPath fd F G) ((.ret (), s), (q, t))) :
    s.files out = some src := by
  have hthere := (start_running (G := G) hd hmsg hfit hout rfl hfd).reaches (covers _ _) hrun
  obtain ⟨-, F', hfile, -, hs⟩ := total_ret.mp hthere.1
  have hstarts : Starts F out m (List.replicate m.chunkCount.toNat false) := by
    refine .fresh (fun f hf => ?_) fun i hi => ?_
    · cases hfresh.symm.trans hf
    · rw [List.getElem?_eq_getElem hi, List.getElem_replicate]
  have hnew : ¬ Resumed F out m (List.replicate m.chunkCount.toNat false) := by
    intro h
    cases hfresh.symm.trans h.1
  rw [startBits_fresh hstarts hnew, undone_new, fresh_output hd hstarts hnew] at hfile
  rw [hs.files, hfile]

end transfer

/-- However often the file was changed and pushed before, and wherever those pushes stopped: the
next push describes the file as it is, and who pulls it gets it. -/
theorem pushed_received (sha256 : Bytes → Hash) (filePath cachePath : Path) (v : Version)
    (vs : List Version) (pool : Bytes → ℕ → UInt32 → Except Exc (List Hash))
    (hardwareConcurrency : ℕ) (s t : World) (m : FileMeta)
    (hpath : hashCachePathFor filePath = .ok cachePath)
    (hhistory : History sha256 filePath cachePath (v :: vs) s.files)
    (hstamps : Stamped (v :: vs))
    (hsize : (v.content.length + chunkSize - 1) / chunkSize < 2 ^ 32)
    (hpool : v.Pooled sha256 pool)
    (hpush : Reaches rough (precomputeMeta pool hardwareConcurrency v.mtimeNs filePath, s)
      (.ret m, t)) :
    m = v.fileMeta sha256 filePath ∧ Describes sha256 m v.content ∧
      ∀ (msg : Message) (F G : Path → Option Bytes) (out outputPath : Path) (c₁ c₂ : Option ℕ)
        (q : Prog Os Unit) (x y : World), makeFilemeta m = .ok msg →
        msg.payload.length ≤ MAX_PAYLOAD_SIZE →
        (out = if outputPath = [] then m.fileName else outputPath) →
        G filePath = some v.content → F (PartialFile.pathFor out) = none →
        JointReaches c₁ c₂ (start sha256 m outputPath filePath F G) ((.ret (), x), (q, y)) →
        x.files out = some v.content := by
  obtain ⟨hall, v', vs', heq, hkept⟩ := hhistory.kept hpath
  cases heq
  have hmeta : Sat rough _ _ (precomputeMeta pool hardwareConcurrency v.mtimeNs filePath) _ s :=
    precomputeMeta_sat hkept.file (hall v List.mem_cons_self)
  obtain ⟨hpos, hashes, hsource, rfl⟩ := hmeta.returned hpush
  have hcold := Sourced.cold hpath hpool hkept hstamps hsource
  subst hcold
  have hd : Describes sha256 (v.fileMeta sha256 filePath) v.content := fileMeta_describes hpos hsize
  refine ⟨rfl, hd, ?_⟩
  intro msg F G out outputPath c₁ c₂ q x y hmsg hfit hout hfile hfresh hrun
  exact fresh_receives hd hmsg hfit hout hfile hfresh hrun

theorem inOrder_pooled (hsum : v.count.toNat + 1 < 2 ^ 32) :
    v.Pooled sha256 (inOrder sha256) := ⟨1, Nat.one_pos, hsum, computes_hashes Nat.one_pos hsum⟩

def one : Version := ⟨[7], 0⟩

def two : Version := ⟨[7, 8], 0⟩

def oneFile : Path → Option Bytes := fun path => if path = [97] then some one.content else none

theorem pushed_received_two : ∃ s t m,
    History (fun _ => zeroHash) [97] ([PartialFile.dot, 97] ++ HashCache.suffix) [two, one]
      s.files ∧
    Reaches rough (precomputeMeta (inOrder fun _ => zeroHash) 1 two.mtimeNs [97], s) (.ret m, t) ∧
    Describes (fun _ => zeroHash) m [7, 8] := by
  have hpath : hashCachePathFor [97] = .ok ([PartialFile.dot, 97] ++ HashCache.suffix) := by decide
  have hpooled : ∀ v : Version, v.count = 1 →
      v.Pooled (fun _ => zeroHash) (inOrder fun _ => zeroHash) := by
    intro v hcount
    refine inOrder_pooled ?_
    rw [hcount]
    decide
  have hends : ∀ (v : Version) (s : World), v.content ≠ [] → v.content.length < 2 ^ 63 →
      s.files [97] = some v.content →
      Total (Signals.reliable anyPeer) (fun _ _ => True) (fun _ _ => True)
        (precomputeMeta (inOrder fun _ => zeroHash) 1 v.mtimeNs [97]) s :=
    fun v s hne hlt hfile =>
      precomputeMeta_ends hfile (by decide) (List.length_pos_of_ne_nil hne) hlt rfl
  have hnone : oneFile ([PartialFile.dot, 97] ++ HashCache.suffix) = none := by decide
  have hcreated : History (fun _ => zeroHash) [97] ([PartialFile.dot, 97] ++ HashCache.suffix)
      [one] (World.init oneFile).files := .created one (by decide) rfl hnone
  obtain ⟨m₁, u, hrun₁, -⟩ := returns_rough (hends one (.init oneFile) (by decide) (by decide) rfl)
  have hpushed := hcreated.pushed (hpooled one rfl) hrun₁
  obtain ⟨s, hs⟩ : ∃ s : World, s.files = Function.update u.files [97] (some two.content) :=
    ⟨.init _, rfl⟩
  have hfile : s.files [97] = some two.content := by rw [hs, Function.update_self]
  have hsame : s.files ([PartialFile.dot, 97] ++ HashCache.suffix) =
      u.files ([PartialFile.dot, 97] ++ HashCache.suffix) := by
    rw [hs, Function.update_of_ne (cachePath_ne hpath).symm]
  have hchanged : History (fun _ => zeroHash) [97] ([PartialFile.dot, 97] ++ HashCache.suffix)
      [two, one] s.files :=
    .changed two (by decide) hpushed hfile hsame
  obtain ⟨m, t, hrun, -⟩ := returns_rough (hends two s (by decide) (by decide) hfile)
  have hstamps : Stamped [two, one] := by
    intro v hv x hx hsize _
    rcases List.mem_pair.mp hv with rfl | rfl
    · rcases List.mem_pair.mp hx with rfl | rfl
      · rfl
      · exact absurd hsize (by decide)
    · rcases List.mem_pair.mp hx with rfl | rfl
      · exact absurd hsize (by decide)
      · rfl
  exact ⟨s, t, m, hchanged, hrun, (pushed_received (fun _ => zeroHash) [97] _ two [one] _ 1 s t m
    hpath hchanged hstamps (by decide) (hpooled two rfl) hrun).2.1⟩

end Embr.PushHistory
