import Embr.Resume
import Embr.Lib.Trace

/-!
# What a pull does with the sizes it is told

`run_pull` indexes, subtracts and maps with the sizes of a FILE_META that it
never checks against each other. A pull is cut here into the steps between
which it does so, up to the requests and then chunk by chunk. `Fits` says which
FILE_METAs are safe for which way of opening the output.
-/

open Octets Interact
open Embr.System Embr.Protocol
namespace Embr.Pull

inductive How
  | fresh
  | resumed
  | recreated
  deriving DecidableEq

def outputPath (path : Path) (m : FileMeta) : Path := if path = [] then m.fileName else path

def announce (t : Transport Os) : Prog Os FileMeta := do
  sendMsg t (makeHandshake ⟨[]⟩)
  recvMeta t

def request (t : Transport Os) (m : FileMeta) (cm : ChunkManager) : Prog Os Unit := do
  sys (.print (.pullRequesting cm.neededChunks.length m.chunkCount.toNat))
  sendRequests t cm.neededChunks
  sendMsg t makeComplete

def opening (t : Transport Os) (path : Path) : Prog Os (FileMeta × ChunkManager) := do
  let m ← announce t
  sys (.print (.pullFile m))
  let prior ← PartialFile.load (outputPath path m) (hashAt m 0) m.chunkCount
  let cm ← openOutput (outputPath path m) m prior
  request t m cm
  pure (m, cm)

theorem runPull_eq (sha256 : Bytes → Hash) (t : Transport Os) (path : Path) :
    runPull sha256 t path = (opening t path).bind fun x =>
      (recvChunks sha256 t (outputPath path x.1) x.1 x.2.neededChunks x.2).bind
        (finish (outputPath path x.1)) := by
  change _ = opening t path >>= fun x =>
    recvChunks sha256 t (outputPath path x.1) x.1 x.2.neededChunks x.2 >>=
      finish (outputPath path x.1)
  simp only [opening, announce, request, bind_assoc, pure_bind]
  rfl

def awaitHeader (t : Transport Os) (chunkIndex : ℕ) : Prog Os Unit := do
  let hdrMsg ← recvMsg t
  if hdrMsg.type ≠ .chunkHdr then
    .raise (.runtimeError ("run_pull: expected CHUNK_HDR for chunk " ++ toString chunkIndex))
  else do
    let hdr ← lift (parseChunkHdr hdrMsg)
    if hdr.chunkIndex.toNat ≠ chunkIndex then
      .raise (.runtimeError ("run_pull: chunk index mismatch - expected " ++ toString chunkIndex
        ++ " got " ++ toString hdr.chunkIndex.toNat))
    else pure ()

def keepChunk (sha256 : Bytes → Hash) (out : Path) (m : FileMeta) (chunkIndex : ℕ)
    (mapped : Bytes) (cm : ChunkManager) : Prog Os ChunkManager := do
  let cm ← verifyChunk sha256 m chunkIndex mapped cm
  PartialFile.save out (hashAt m 0) cm
  sys (.print (.pullReceived (chunkIndex + 1) m.chunkCount.toNat))
  pure cm

def lengthAt (m : FileMeta) (i : ℕ) : ℕ := chunkLen m.fileSize.toNat i

theorem recvChunk_eq (sha256 : Bytes → Hash) (t : Transport Os) (out : Path) (m : FileMeta)
    (i : ℕ) (cm : ChunkManager) :
    recvChunk sha256 t out m i cm = (do
      awaitHeader t i
      t.recvFile out (i * chunkSize) (lengthAt m i)
      match ← sys (.mmap out (i * chunkSize) (lengthAt m i)) with
      | none =>
        throwErrno ("run_pull: mmap for verify failed at chunk " ++ toString i ++ " - ")
      | some mapped => keepChunk sha256 out m i mapped cm) := by
  rw [awaitHeader, bind_assoc, recvChunk]
  congr 1
  funext hdrMsg
  split_ifs
  · rfl
  rw [bind_assoc]
  congr 1
  funext hdr
  split_ifs
  · rfl
  rw [pure_bind]
  change t.recvFile _ _ _ >>= _ = _
  congr 1
  funext _
  congr 1
  funext r
  cases r <;> rfl

section
variable (E : Env Os) (sha256 : Bytes → Hash) (t : Transport Os)

inductive Opens (out : Path) (m : FileMeta) :
    Option ChunkManager → World → How → ChunkManager → World → Prop
  | fresh {u v w : World} : E (.openTrunc out) u true v →
      E (.ftruncate out m.fileSize.toNat) v true w →
      Opens out m none u .fresh (.new m.chunkCount) w
  | resumed {cm : ChunkManager} {u v : World} : E (.openReadWrite out) u true v →
      Opens out m (some cm) u .resumed cm v
  | recreated {cm : ChunkManager} {u v w : World} : E (.openReadWrite out) u false v →
      E (.openTrunc out) v true w → Opens out m (some cm) u .recreated (.new m.chunkCount) w

inductive Opened (path : Path) (s : World) : FileMeta → How → ChunkManager → World → Prop
  | requested {m : FileMeta} {prior : Option ChunkManager} {how : How} {cm : ChunkManager}
      {u₁ u₂ u₃ u₄ v : World} :
      Reaches E (announce t, s) (.ret m, u₁) → E (.print (.pullFile m)) u₁ () u₂ →
      Reaches E (PartialFile.load (outputPath path m) (hashAt m 0) m.chunkCount, u₂)
        (.ret prior, u₃) →
      Opens E (outputPath path m) m prior u₃ how cm u₄ →
      Reaches E (request t m cm, u₄) (.ret (), v) → Opened path s m how cm v

/-- A pull between two chunks: the chunks that had their hash, and those to come. -/
inductive Progress (out : Path) (m : FileMeta) (cm₀ : ChunkManager) (v : World) :
    List ℕ → List ℕ → ChunkManager → World → Prop
  | start : Progress out m cm₀ v [] cm₀.neededChunks cm₀ v
  | chunk {i : ℕ} {verified rest : List ℕ} {cm cm' : ChunkManager} {mapped : Bytes}
      {w w₁ w₂ w₃ w' : World} : Progress out m cm₀ v verified (i :: rest) cm w →
      Reaches E (awaitHeader t i, w) (.ret (), w₁) →
      Reaches E (t.recvFile out (i * chunkSize) (lengthAt m i), w₁) (.ret (), w₂) →
      E (.mmap out (i * chunkSize) (lengthAt m i)) w₂ (some mapped) w₃ →
      Reaches E (keepChunk sha256 out m i mapped cm, w₃) (.ret cm', w') →
      Progress out m cm₀ v (if sha256 mapped = hashAt m i then i :: verified else verified)
        rest cm' w'

def Receives (out : Path) (m : FileMeta) (cm₀ : ChunkManager) (v : World) (i : ℕ) (w₁ : World) :
    Prop :=
  ∃ verified rest cm w, Progress E sha256 t out m cm₀ v verified (i :: rest) cm w ∧
    Reaches E (awaitHeader t i, w) (.ret (), w₁)

/-- The pull is about to map chunk `i`. -/
def Maps (out : Path) (m : FileMeta) (cm₀ : ChunkManager) (v : World) (i : ℕ) (w₂ : World) :
    Prop :=
  ∃ w₁, Receives E sha256 t out m cm₀ v i w₁ ∧
    Reaches E (t.recvFile out (i * chunkSize) (lengthAt m i), w₁) (.ret (), w₂)

structure InFile (out : Path) (m : FileMeta) (i : ℕ) (w : World) : Prop where
  start : i * chunkSize ≤ m.fileSize.toNat
  nonempty : 0 < lengthAt m i
  inside : i * chunkSize + lengthAt m i ≤ m.fileSize.toNat
  extended : ∃ f, w.files out = some f ∧ m.fileSize.toNat ≤ f.length

/-- What a pull owes to the memory and the file it works on, and to its user. -/
structure Safe (out : Path) (m : FileMeta) (cm : ChunkManager) (v : World) : Prop where
  first : 0 < m.chunkHashes.length
  indexed : ∀ i ∈ cm.neededChunks, i < m.chunkHashes.length
  received : ∀ i w, Receives E sha256 t out m cm v i w → InFile out m i w
  mapped : ∀ i w, Maps E sha256 t out m cm v i w → InFile out m i w
  complete : ∀ verified cm' w, Progress E sha256 t out m cm v verified [] cm' w →
    cm'.allDone = true → ∀ k < m.fileSize.toNat,
      ∃ i, (i ∈ verified ∨ cm.bitmap[i]? = some true) ∧ i * chunkSize ≤ k ∧
        k < i * chunkSize + lengthAt m i

/-- The sizes agree with each other and with the way the output was opened. -/
structure Fits (m : FileMeta) (how : How) (cm : ChunkManager) : Prop where
  chunks : m.chunkCount ≠ 0
  begins : ∀ i ∈ cm.neededChunks, i * chunkSize < m.fileSize.toNat
  extended : cm.neededChunks ≠ [] → how ≠ .recreated ∧
    (how = .resumed → m.fileSize.toNat ≤ m.chunkCount.toNat * chunkSize)
  covered : (∀ i ∈ cm.neededChunks, ∃ bs, bs.length = lengthAt m i ∧ sha256 bs = hashAt m i) →
    m.fileSize.toNat ≤ m.chunkCount.toNat * chunkSize

end

variable {E : Env Os} {sha256 : Bytes → Hash} {t : Transport Os} {path out : Path} {s u v w : World}
  {m : FileMeta} {how : How} {cm cm' : ChunkManager} {verified rest : List ℕ} {i : ℕ}

theorem openOutput_opens {prior : Option ChunkManager}
    (h : Reaches E (openOutput out m prior, u) (.ret cm, v)) :
    ∃ how, Opens E out m prior u how cm v := by
  have hthrow : ∀ {what : String} {w : World},
      ¬ Reaches E ((throwErrno what : Prog Os ChunkManager), w) (.ret cm, v) := by
    intro what w h
    obtain ⟨_, _, -, h⟩ := h.of_bind
    rcases h.cases_head with h | ⟨_, hs, -⟩
    · cases h
    · exact Step.not_raise hs
  cases prior with
  | none =>
    obtain ⟨opened, w, hopen, h⟩ := h.of_ask
    cases opened with
    | false => exact (hthrow h).elim
    | true =>
      obtain ⟨truncated, x, htrunc, h⟩ := h.of_ask
      cases truncated with
      | false => exact (hthrow h).elim
      | true =>
        obtain ⟨rfl, rfl⟩ := h.of_pure
        exact ⟨.fresh, .fresh hopen htrunc⟩
  | some cm₀ =>
    obtain ⟨opened, w, hopen, h⟩ := h.of_ask
    cases opened with
    | true =>
      obtain ⟨rfl, rfl⟩ := h.of_pure
      exact ⟨.resumed, .resumed hopen⟩
    | false =>
      obtain ⟨opened, x, hagain, h⟩ := h.of_ask
      cases opened with
      | false => exact (hthrow h).elim
      | true =>
        obtain ⟨rfl, rfl⟩ := h.of_pure
        exact ⟨.recreated, .recreated hopen hagain⟩

theorem opening_opened {x : FileMeta × ChunkManager} (h : Reaches E (opening t path, s) (.ret x, v)) :
    ∃ how, Opened E t path s x.1 how x.2 v := by
  obtain ⟨m, u₁, hannounce, h⟩ := h.of_bind
  obtain ⟨_, u₂, hprint, h⟩ := h.of_ask
  obtain ⟨prior, u₃, hload, h⟩ := h.of_bind
  obtain ⟨cm, u₄, hopen, h⟩ := h.of_bind
  obtain ⟨how, hopens⟩ := openOutput_opens hopen
  obtain ⟨_, u₅, hrequest, h⟩ := h.of_bind
  obtain ⟨rfl, rfl⟩ := h.of_pure
  exact ⟨how, .requested hannounce hprint hload hopens hrequest⟩

theorem Progress.next {cm₀ : ChunkManager} {v : World}
    (hp : Progress E sha256 t out m cm₀ v verified (i :: rest) cm u)
    (h : Reaches E (recvChunk sha256 t out m i cm, u) (.ret cm', w)) :
    ∃ verified', Progress E sha256 t out m cm₀ v verified' rest cm' w := by
  rw [recvChunk_eq] at h
  obtain ⟨_, w₁, hhdr, h⟩ := h.of_bind
  obtain ⟨_, w₂, hrecv, h⟩ := h.of_bind
  obtain ⟨r, w₃, hmap, h⟩ := h.of_ask
  cases r with
  | none =>
    obtain ⟨_, _, -, hraise⟩ := h.of_bind
    rcases hraise.cases_head with heq | ⟨_, hs, -⟩
    · cases heq
    · exact (Step.not_raise hs).elim
  | some mapped => exact ⟨_, hp.chunk hhdr hrecv hmap h⟩

theorem recvChunks_progress {cm₀ : ChunkManager} {v : World}
    (hp : Progress E sha256 t out m cm₀ v verified rest cm u)
    (h : Reaches E (recvChunks sha256 t out m rest cm, u) (.ret cm', w)) :
    ∃ verified', Progress E sha256 t out m cm₀ v verified' [] cm' w := by
  induction rest generalizing verified cm u with
  | nil =>
    obtain ⟨rfl, rfl⟩ := h.of_pure
    exact ⟨verified, hp⟩
  | cons i rest ih =>
    obtain ⟨cm₁, x, hchunk, h⟩ := h.of_bind
    obtain ⟨verified', hp'⟩ := hp.next hchunk
    exact ih hp' h

def InChunk {α : Type} (E : Env Os) (sha256 : Bytes → Hash) (t : Transport Os) (out : Path)
    (m : FileMeta) (cm₀ : ChunkManager) (v : World) (q : Prog Os α) (w : World) : Prop :=
  ∃ verified i rest cm u p g, Progress E sha256 t out m cm₀ v verified (i :: rest) cm u ∧
    Reaches E (recvChunk sha256 t out m i cm, u) (p, w) ∧ q = p.bind g

theorem InChunk.bind {α β : Type} {cm₀ : ChunkManager} {v : World} {q : Prog Os α}
    (h : InChunk E sha256 t out m cm₀ v q w) (g : α → Prog Os β) :
    InChunk E sha256 t out m cm₀ v (q.bind g) w := by
  obtain ⟨verified, i, rest, cm, u, p, g', hp, hr, rfl⟩ := h
  exact ⟨verified, i, rest, cm, u, p, _, hp, hr, Prog.bind_assoc ..⟩

theorem recvChunks_passes {cm₀ : ChunkManager} {v : World} {q : Prog Os ChunkManager}
    (hp : Progress E sha256 t out m cm₀ v verified rest cm u)
    (h : Reaches E (recvChunks sha256 t out m rest cm, u) (q, w)) :
    InChunk E sha256 t out m cm₀ v q w ∨
      ∃ verified' cm', q = .ret cm' ∧ Progress E sha256 t out m cm₀ v verified' [] cm' w := by
  induction rest generalizing verified cm u with
  | nil =>
    rcases h.cases_head with heq | ⟨_, hs, -⟩
    · cases heq
      exact .inr ⟨verified, cm, rfl, hp⟩
    · exact (Step.not_ret hs).elim
  | cons i rest ih =>
    rcases Reaches.split h with ⟨p, rfl, hr⟩ | ⟨cm₁, x, hchunk, h⟩
    · exact .inl ⟨verified, i, rest, cm, u, p, _, hp, hr, rfl⟩
    · obtain ⟨verified', hp'⟩ := hp.next hchunk
      exact ih hp' h

theorem runPull_passes {q : Prog Os Unit} (h : Reaches E (runPull sha256 t path, s) (q, w)) :
    (∃ p g, Reaches E (opening t path, s) (p, w) ∧ q = p.bind g) ∨
    ∃ m how cm v, Opened E t path s m how cm v ∧
      (InChunk E sha256 t (outputPath path m) m cm v q w ∨
        ∃ verified cm' u, Progress E sha256 t (outputPath path m) m cm v verified [] cm' u ∧
          Reaches E (finish (outputPath path m) cm', u) (q, w)) := by
  rw [runPull_eq] at h
  rcases h.split with ⟨p, rfl, hr⟩ | ⟨x, v, hopening, h⟩
  · exact .inl ⟨p, _, hr, rfl⟩
  · obtain ⟨how, hopened⟩ := opening_opened hopening
    refine .inr ⟨x.1, how, x.2, v, hopened, ?_⟩
    rcases h.split with ⟨p, rfl, hr⟩ | ⟨cm', u, hchunks, h⟩
    · rcases recvChunks_passes .start hr with hin | ⟨verified, cm', rfl, hp⟩
      · exact .inl (hin.bind _)
      · exact .inr ⟨verified, cm', w, hp, .refl⟩
    · obtain ⟨verified, hp⟩ := recvChunks_progress .start hchunks
      exact .inr ⟨verified, cm', u, hp, h⟩

theorem runPull_returns (h : Reaches E (runPull sha256 t path, s) (.ret (), w)) :
    ∃ m how cm v verified cm' u, Opened E t path s m how cm v ∧
      Progress E sha256 t (outputPath path m) m cm v verified [] cm' u ∧
      Reaches E (finish (outputPath path m) cm', u) (.ret (), w) := by
  rw [runPull_eq] at h
  obtain ⟨x, v, hopening, h⟩ := Reaches.of_bind h
  obtain ⟨how, hopened⟩ := opening_opened hopening
  obtain ⟨cm', u, hchunks, h⟩ := Reaches.of_bind h
  obtain ⟨verified, hp⟩ := recvChunks_progress .start hchunks
  exact ⟨x.1, how, x.2, v, verified, cm', u, hopened, hp, h⟩

def Grown (out : Path) (n : ℕ) (w : World) : Prop := ∃ f, w.files out = some f ∧ n ≤ f.length

theorem awaitHeader_sat (ht : t.Confined) :
    Sat rough (Quiet s) (fun _ _ => True) (awaitHeader t i) (fun _ u => Calm s u) s := by
  refine Sat.andThen (recvMsg_sat ht) ?_
  intro msg u hu
  split_ifs
  · exact sat_raise.mpr ⟨hu.1.quiet, trivial⟩
  · cases parseChunkHdr msg with
    | error e => exact sat_raise.mpr ⟨hu.1.quiet, trivial⟩
    | ok hdr =>
      change Sat _ _ _ (if hdr.chunkIndex.toNat ≠ i then _ else _) _ _
      split_ifs
      · exact sat_raise.mpr ⟨hu.1.quiet, trivial⟩
      · exact sat_pure.mpr ⟨hu.1.quiet, hu.1⟩

theorem verifyChunk_bits {mapped : Bytes} :
    Sat rough (fun _ _ => True) (fun _ _ => True) (verifyChunk sha256 m i mapped cm)
      (fun cm' u => u.files = s.files ∧
        cm'.bitmap = cm.bitmap.set i (decide (sha256 mapped = hashAt m i))) s := by
  have hmark : ∀ {what : String} {done : Bool} {u : World} {g : ChunkManager → Prog Os ChunkManager}
      {Q : ChunkManager → World → Prop},
      (∀ cm', cm'.bitmap = cm.bitmap.set i done → Sat rough (fun _ _ => True) (fun _ _ => True)
        (g cm') Q u) →
      Sat rough (fun _ _ => True) (fun _ _ => True) (lift (ChunkManager.mark what done cm i) >>= g)
        Q u := by
    intro what done u g Q hg
    rw [ChunkManager.mark]
    split_ifs
    · exact sat_raise.mpr ⟨trivial, trivial⟩
    · exact hg _ rfl
  rw [verifyChunk]
  split_ifs with hhash
  · rw [← bind_pure (lift _)]
    refine hmark fun cm' hcm' => sat_pure.mpr ⟨trivial, rfl, ?_⟩
    rw [hcm', decide_eq_true hhash]
  · refine hmark fun cm' hcm' => sat_ask_bind.mpr ⟨trivial, ?_⟩
    intro r u hu
    subst hu
    refine sat_pure.mpr ⟨trivial, rfl, ?_⟩
    rw [hcm', decide_eq_false hhash]

theorem keepChunk_sat {mapped : Bytes} :
    Sat rough (fun _ _ => True) (fun _ _ => True) (keepChunk sha256 out m i mapped cm)
      (fun cm' u => u.files out = s.files out ∧
        cm'.bitmap = cm.bitmap.set i (decide (sha256 mapped = hashAt m i))) s := by
  refine Sat.andThen verifyChunk_bits ?_
  intro cm' u hcm'
  refine Sat.seq save_sat (fun _ _ _ => trivial) ?_
  intro _ v hv
  refine sat_ask_bind.mpr ⟨trivial, ?_⟩
  intro _ w hw
  subst hw
  refine sat_pure.mpr ⟨trivial, ?_, hcm'.2⟩
  change v.files out = _
  rw [hv.files, Function.update_of_ne (PartialFile.pathFor_ne out).symm, hcm'.1]

theorem request_sat (ht : t.Confined) :
    Sat rough (fun _ _ => True) (fun _ _ => True) (request t m cm)
      (fun _ u => u.files = s.files) s := by
  refine sat_ask_bind.mpr ⟨trivial, ?_⟩
  intro _ u hu
  subst hu
  refine Sat.seq (Resume.sendRequests_sat ht _) (fun _ _ _ => trivial) ?_
  intro _ v hv
  refine ((sendMsg_sat ht _).inside fun _ _ _ => trivial).weaken ?_
  intro _ w hw
  rw [hw.files, hv.files]
  rfl

structure Ready (out : Path) (m : FileMeta) (how : How) (cm : ChunkManager) (v : World) : Prop where
  hashes : m.chunkHashes.length = m.chunkCount.toNat
  bits : cm.bitmap.length = m.chunkCount.toNat
  fresh : how = .fresh → ∃ f, v.files out = some f ∧ f.length = m.fileSize.toNat
  resumed : how = .resumed → ∃ f, v.files out = some f ∧ f.length = m.chunkCount.toNat * chunkSize
  recreated : how = .recreated → v.files out = some []

theorem Opens.ready {prior : Option ChunkManager} (hE : ∀ o s r s', E o s r s' → rough o s r s')
    (h : Opens E out m prior u how cm v) (hhashes : m.chunkHashes.length = m.chunkCount.toNat)
    (hprior : ∀ cm, prior = some cm → cm.bitmap.length = m.chunkCount.toNat ∧
      ∃ f, u.files out = some f ∧ f.length = m.chunkCount.toNat * chunkSize) :
    Ready out m how cm v := by
  have hnew : (ChunkManager.new m.chunkCount).bitmap.length = m.chunkCount.toNat :=
    List.length_replicate
  cases h with
  | fresh hopen htrunc =>
    obtain ⟨-, rfl⟩ | ⟨hr, -⟩ := hE _ _ _ _ hopen
    · obtain ⟨f, -, -, rfl⟩ | ⟨hr, -⟩ := hE _ _ _ _ htrunc
      · refine ⟨hhashes, hnew, fun _ => ⟨_, Function.update_self .., ?_⟩, nofun, nofun⟩
        exact length_resize ..
      · cases hr
    · cases hr
  | resumed hopen =>
    obtain ⟨hbits, f, hf, hlen⟩ := hprior _ rfl
    obtain ⟨-, -, rfl⟩ | ⟨hr, -⟩ := hE _ _ _ _ hopen
    · exact ⟨hhashes, hbits, nofun, fun _ => ⟨f, hf, hlen⟩, nofun⟩
    · cases hr
  | recreated _ hopen =>
    obtain ⟨-, rfl⟩ | ⟨hr, -⟩ := hE _ _ _ _ hopen
    · exact ⟨hhashes, hnew, nofun, nofun, fun _ => World.store_self ..⟩
    · cases hr

theorem Ready.of_files (h : Ready out m how cm u) (hv : v.files = u.files) :
    Ready out m how cm v := by
  refine ⟨h.hashes, h.bits, ?_, ?_, ?_⟩ <;> rw [hv]
  · exact h.fresh
  · exact h.resumed
  · exact h.recreated

theorem Opened.ready (hE : ∀ o s r s', E o s r s' → rough o s r s') (ht : t.Confined)
    (h : Opened E t path s m how cm v) : Ready (outputPath path m) m how cm v := by
  cases h with
  | requested hannounce hprint hload hopens hrequest =>
    have hmeta : m.chunkHashes.length = m.chunkCount.toNat := by
      obtain ⟨_, _, -, hmeta⟩ := hannounce.of_bind
      exact (((recvMeta_sat ht).env hE).returned hmeta).2.2
    have hloaded := (load_sat.env hE).returned hload
    refine (hopens.ready hE hmeta ?_).of_files (((request_sat ht).env hE).returned hrequest)
    intro cm' hcm'
    obtain ⟨⟨g, hg, hlen⟩, f, raw, -, -, -, rfl⟩ := hloaded.2 cm' hcm'
    refine ⟨?_, g, ?_, hlen⟩
    · rw [unpack, List.length_map, List.length_range]
    · rw [hloaded.1.files]
      exact hg

structure Along (sha256 : Bytes → Hash) (out : Path) (m : FileMeta) (cm₀ : ChunkManager)
    (v : World) (verified rest : List ℕ) (cm : ChunkManager) (w : World) : Prop where
  bits : cm.bitmap.length = cm₀.bitmap.length
  hashed : ∀ i ∈ verified, i ∈ cm₀.neededChunks ∧
    ∃ bs, bs.length = lengthAt m i ∧ sha256 bs = hashAt m i
  needed : ∀ i ∈ rest, i ∈ cm₀.neededChunks
  done : ∀ i : ℕ, cm.bitmap[i]? = some true → i ∈ verified ∨ cm₀.bitmap[i]? = some true
  grown : ∀ n, Grown out n v → Grown out n w

theorem Grown.calm {n : ℕ} (h : Grown out n u) (hv : v.files out = u.files out) :
    Grown out n v := by
  rw [Grown, hv]
  exact h

theorem Grown.recvFile {n len : ℕ} (ht : t.Confined)
    (hE : ∀ o s r s', E o s r s' → rough o s r s')
    (hr : Reaches E (t.recvFile out (i * chunkSize) len, u) (.ret (), v))
    (h : Grown out n u) : Grown out n v := by
  obtain ⟨f, hf, hn⟩ := h
  have hsome : (u.files out).isSome := by
    rw [hf]
    rfl
  obtain ⟨htouched, -⟩ := ((ht.recvFile out _ len u hsome).env hE).returned hr
  obtain ⟨f', hf', hgrow, -⟩ := htouched.file f hf
  exact ⟨f', hf', hn.trans hgrow⟩

theorem Progress.along {cm₀ : ChunkManager} (ht : t.Confined)
    (hE : ∀ o s r s', E o s r s' → rough o s r s')
    (h : Progress E sha256 t out m cm₀ v verified rest cm w) :
    Along sha256 out m cm₀ v verified rest cm w := by
  induction h with
  | start => exact ⟨rfl, nofun, fun _ hi => hi, fun _ hi => .inr hi, fun _ hn => hn⟩
  | @chunk i verified rest cm cm' mapped w w₁ w₂ w₃ w' _ hhdr hrecv hmap hkeep ih =>
    have hcalm := ((awaitHeader_sat ht).env hE).returned hhdr
    have hkept := (keepChunk_sat.env hE).returned hkeep
    have hmapped : mapped.length = lengthAt m i ∧ w₃ = w₂ := by
      obtain ⟨f, bs, -, -, hlen, -, hbs, rfl⟩ | ⟨hr, -⟩ := hE _ _ _ _ hmap
      · cases hbs
        exact ⟨hlen, rfl⟩
      · cases hr
    obtain ⟨hlen, rfl⟩ := hmapped
    refine ⟨?_, ?_, fun j hj => ih.needed j (List.mem_cons_of_mem _ hj), ?_, ?_⟩
    · rw [hkept.2, List.length_set]
      exact ih.bits
    · intro j hj
      split_ifs at hj with hhash
      · rcases List.mem_cons.mp hj with rfl | hj
        · exact ⟨ih.needed _ (List.mem_cons_self ..), mapped, hlen, hhash⟩
        · exact ih.hashed j hj
      · exact ih.hashed j hj
    · intro j hj
      rw [hkept.2, List.getElem?_set] at hj
      split_ifs at hj with hij hlt
      · subst hij
        have hhash := of_decide_eq_true (Option.some.inj hj)
        exact .inl (by rw [if_pos hhash]; exact List.mem_cons_self ..)
      · refine (ih.done j hj).imp ?_ id
        intro hj
        split_ifs
        · exact List.mem_cons_of_mem _ hj
        · exact hj
    · intro n hn
      have hawait := (ih.grown n hn).calm (congrFun hcalm.files out)
      exact (hawait.recvFile ht hE hrecv).calm hkept.1

theorem InFile.of_grown (hi : i * chunkSize < m.fileSize.toNat)
    (h : Grown out m.fileSize.toNat w) : InFile out m i w := by
  have hlen : lengthAt m i = min chunkSize (m.fileSize.toNat - i * chunkSize) :=
    chunkLen_of_le m.fileSize.toNat_lt hi.le
  have hpos : 0 < chunkSize := by decide
  refine ⟨hi.le, ?_, ?_, h⟩ <;> omega

theorem Ready.grown (h : Ready out m how cm v) (hfits : Fits sha256 m how cm)
    (hneeded : cm.neededChunks ≠ []) : Grown out m.fileSize.toNat v := by
  obtain ⟨hkept, hresumed⟩ := hfits.extended hneeded
  cases how with
  | fresh =>
    obtain ⟨f, hf, hlen⟩ := h.fresh rfl
    exact ⟨f, hf, hlen.ge⟩
  | resumed =>
    obtain ⟨f, hf, hlen⟩ := h.resumed rfl
    exact ⟨f, hf, hlen ▸ hresumed rfl⟩
  | recreated => exact (hkept rfl).elim

theorem safe_of_fits (ht : t.Confined) (hE : ∀ o s r s', E o s r s' → rough o s r s')
    (h : Opened E t path s m how cm v) (hfits : Fits sha256 m how cm) :
    Safe E sha256 t (outputPath path m) m cm v := by
  have hready := h.ready hE ht
  have hreceives : ∀ i w, Receives E sha256 t (outputPath path m) m cm v i w →
      InFile (outputPath path m) m i w := by
    rintro i w ⟨verified, rest, cm', u, hp, hhdr⟩
    have halong := hp.along ht hE
    have hi := halong.needed i (List.mem_cons_self ..)
    have hgrown : Grown (outputPath path m) m.fileSize.toNat v :=
      hready.grown hfits (List.ne_nil_of_mem hi)
    have hcalm := ((awaitHeader_sat ht).env hE).returned hhdr
    exact .of_grown (hfits.begins i hi)
      ((halong.grown _ hgrown).calm (congrFun hcalm.files _))
  refine ⟨?_, fun i hi => ?_, hreceives, ?_, ?_⟩
  · rw [hready.hashes]
    exact Nat.pos_of_ne_zero fun hzero => hfits.chunks (UInt32.toNat_inj.mp hzero)
  · rw [hready.hashes, ← hready.bits]
    exact ChunkManager.neededChunks_lt hi
  · rintro i w ⟨w₁, hrec, hrecv⟩
    have hin := hreceives i w₁ hrec
    exact ⟨hin.start, hin.nonempty, hin.inside, Grown.recvFile ht hE hrecv hin.extended⟩
  · intro verified cm' w hp hdone k hk
    have halong := hp.along ht hE
    have hbit : ∀ i < m.chunkCount.toNat, i ∈ verified ∨ cm.bitmap[i]? = some true := by
      intro i hi
      refine halong.done i (ChunkManager.allDone_iff.mp hdone i ?_)
      rw [halong.bits, hready.bits]
      exact hi
    have hsize := hfits.covered fun i hi => by
      have hlt := ChunkManager.neededChunks_lt hi
      rw [hready.bits] at hlt
      rcases hbit i hlt with hv | hb
      · exact (halong.hashed i hv).2
      · rw [ChunkManager.mem_neededChunks.mp hi] at hb
        cases hb
    have hpos : 0 < chunkSize := by decide
    have hdiv := Nat.div_add_mod' k chunkSize
    have hmod := Nat.mod_lt k hpos
    have hlt : k / chunkSize < m.chunkCount.toNat := by
      rw [Nat.div_lt_iff_lt_mul hpos]
      omega
    refine ⟨k / chunkSize, hbit _ hlt, by omega, ?_⟩
    have hlen : lengthAt m (k / chunkSize) =
        min chunkSize (m.fileSize.toNat - k / chunkSize * chunkSize) :=
      chunkLen_of_le m.fileSize.toNat_lt (by omega)
    omega

end Embr.Pull
