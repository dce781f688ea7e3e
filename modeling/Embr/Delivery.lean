import Embr.Reliable

/-!
# What the two sides say to each other

The byte streams of a transfer of the chunks `ns`, and each side on its own fed
with the whole stream of the other: it ends, throws nothing, says its stream and
leaves the right files behind. `PullPoint` and `PushPoint` tell how far each
side can be ahead of what it has read.
-/

open Octets Interact
open Embr.System Embr.Protocol Embr.Reliable
namespace Embr.Delivery

def chunk (src : Bytes) (i : ℕ) : Bytes := slice src (i * chunkSize) (chunkLen src.length i)

/-- The FILE_META of a file, its name and chunk size aside. -/
structure Describes (sha256 : Bytes → Hash) (m : FileMeta) (src : Bytes) : Prop where
  nonempty : 0 < src.length
  size : m.fileSize.toNat = src.length
  count : m.chunkCount.toNat = (src.length + chunkSize - 1) / chunkSize
  hashes : m.chunkHashes = (List.range m.chunkCount.toNat).map fun i => sha256 (chunk src i)

def handshake : Bytes := frame (makeHandshake ⟨[]⟩)
def request (i : ℕ) : Bytes := frame (makeChunkReq ⟨UInt32.ofNat i⟩)
def complete : Bytes := frame makeComplete
def requests (ns : List ℕ) : Bytes := (ns.map request).flatten
def pullStream (ns : List ℕ) : Bytes := handshake ++ (requests ns ++ complete)

def answer (src : Bytes) (i : ℕ) : Bytes := frame (makeChunkHdr ⟨UInt32.ofNat i⟩) ++ chunk src i
def answers (src : Bytes) (ns : List ℕ) : Bytes := (ns.map (answer src)).flatten
def pushStream (msg : Message) (src : Bytes) (ns : List ℕ) : Bytes := frame msg ++ answers src ns

section streams
variable {sha256 : Bytes → Hash} {m : FileMeta} {src : Bytes} {msg : Message} {ns : List ℕ} {i : ℕ}

@[simp] theorem handshake_length : handshake.length = 10 := by decide
@[simp] theorem complete_length : complete.length = 6 := by decide

@[simp] theorem request_length (i : ℕ) : (request i).length = 10 := by
  simp [request, makeChunkReq, putU32, HEADER_SIZE]

theorem requests_length (ns : List ℕ) : (requests ns).length = 10 * ns.length := by
  induction ns with
  | nil => rfl
  | cons n ns ih =>
    simp only [requests, List.map_cons, List.flatten_cons, List.length_append, request_length,
      List.length_cons] at ih ⊢
    omega

theorem pullStream_length (ns : List ℕ) : (pullStream ns).length = 16 + 10 * ns.length := by
  simp only [pullStream, List.length_append, handshake_length, requests_length, complete_length]
  omega

theorem answers_cons (src : Bytes) (i : ℕ) (ns : List ℕ) :
    answers src (i :: ns) = answer src i ++ answers src ns := rfl

theorem answers_append (src : Bytes) (ns ns' : List ℕ) :
    answers src (ns ++ ns') = answers src ns ++ answers src ns' := by
  rw [answers, List.map_append, List.flatten_append]
  rfl

theorem answers_take_succ (src : Bytes) {j : ℕ} (hj : j < ns.length) :
    answers src (ns.take (j + 1)) = answers src (ns.take j) ++ answer src ns[j] := by
  rw [List.take_succ_eq_append_getElem hj, answers_append, answers_cons]
  simp [answers]

theorem answers_take_mono (src : Bytes) (ns : List ℕ) {j k : ℕ} (h : j ≤ k) :
    (answers src (ns.take j)).length ≤ (answers src (ns.take k)).length := by
  obtain ⟨d, rfl⟩ := Nat.exists_eq_add_of_le h
  rw [List.take_add, answers_append, List.length_append]
  exact Nat.le_add_right _ _

theorem answers_take_le (src : Bytes) (ns : List ℕ) (j : ℕ) :
    (answers src (ns.take j)).length ≤ (answers src ns).length := by
  have hmono := answers_take_mono src ns (Nat.le_add_right j ns.length)
  rwa [List.take_of_length_le (Nat.le_add_left ns.length j)] at hmono

theorem frame_pos (msg : Message) : 0 < (frame msg).length := by
  simp only [frame_length, HEADER_SIZE]
  omega

theorem answer_pos (src : Bytes) (i : ℕ) : 0 < (answer src i).length := by
  have hpos := frame_pos (makeChunkHdr ⟨UInt32.ofNat i⟩)
  rw [answer, List.length_append]
  omega

namespace Describes

theorem small (h : Describes sha256 m src) : src.length < 2 ^ 64 := by
  rw [← h.size]
  exact m.fileSize.toNat_lt

theorem chunkLen_pos (h : Describes sha256 m src) (hi : i < m.chunkCount.toNat) :
    0 < chunkLen src.length i ∧ i * chunkSize + chunkLen src.length i ≤ src.length := by
  rw [h.count] at hi
  have hstart := chunk_start hi
  have hpos : 0 < chunkSize := by decide
  rw [chunkLen_eq h.small hi]
  omega

theorem chunk_length (h : Describes sha256 m src) (hi : i < m.chunkCount.toNat) :
    (chunk src i).length = chunkLen src.length i := slice_length (h.chunkLen_pos hi).2

theorem hashAt_eq (h : Describes sha256 m src) (hi : i < m.chunkCount.toNat) :
    hashAt m i = sha256 (chunk src i) := by
  rw [hashAt, h.hashes, List.getD_eq_getElem?_getD, List.getElem?_map, List.getElem?_range hi]
  rfl

end Describes

end streams

/-! ## How far each side can be -/

/-- A point of the pull of the chunks `ns`: requests only after the whole
FILE_META, chunk data only after the last request. -/
structure PullPoint (msg : Message) (src : Bytes) (ns : List ℕ) (k : Kind) (out : Bytes)
    (read : ℕ) : Prop where
  said : out <+: pullStream ns
  heard : read ≤ (pushStream msg src ns).length
  early : read < (frame msg).length → out.length ≤ 10
  late : (frame msg).length < read → out = pullStream ns
  receives : k = .receives → (out.length = 10 ∧ read < (frame msg).length) ∨
    (out = pullStream ns ∧ read < (pushStream msg src ns).length)
  sends : k = .sends → (out.length < 10 ∧ read = 0) ∨
    (10 ≤ out.length ∧ out.length < (pullStream ns).length ∧ read = (frame msg).length)

structure PushPoint (msg : Message) (src : Bytes) (ns : List ℕ) (k : Kind) (out : Bytes)
    (read : ℕ) : Prop where
  said : out <+: pushStream msg src ns
  heard : read ≤ (pullStream ns).length
  early : read < 10 → out = []
  lower : ∀ j, 10 + 10 * j < read →
    (frame msg).length + (answers src (ns.take j)).length ≤ out.length
  receives : k = .receives → read < (pullStream ns).length ∧
    (10 ≤ read → (frame msg).length ≤ out.length)
  sends : k = .sends → ∃ j ≤ ns.length, read = 10 + 10 * j ∧
    out.length < (frame msg).length + (answers src (ns.take j)).length ∧
    (j = 0 ∨ (frame msg).length + (answers src (ns.take (j - 1))).length ≤ out.length)

section pull
variable {msg : Message} {src : Bytes} {ns : List ℕ} {k : ℕ}

theorem pullPoint_handshake (hk : k ≤ 10) :
    PullPoint msg src ns .silent (handshake.take k) 0 ∧
      (k < 10 → PullPoint msg src ns .sends (handshake.take k) 0) := by
  have hlen : (handshake.take k).length = k := by
    rw [List.length_take, handshake_length, Nat.min_eq_left hk]
  have hpre : handshake.take k <+: pullStream ns :=
    (List.take_prefix _ _).trans (List.prefix_append _ _)
  constructor
  · refine ⟨hpre, Nat.zero_le _, ?_, fun h => ?_, nofun, nofun⟩
    · intro _
      omega
    · omega
  · intro hlt
    refine ⟨hpre, Nat.zero_le _, ?_, fun h => ?_, nofun, fun _ => ?_⟩
    · intro _
      omega
    · omega
    · left
      exact ⟨by omega, rfl⟩

theorem pullPoint_meta (hk : k ≤ (frame msg).length) :
    PullPoint msg src ns .silent handshake k ∧
      (k < (frame msg).length → PullPoint msg src ns .receives handshake k) := by
  have hpre : handshake <+: pullStream ns := List.prefix_append _ _
  have hlen : (pushStream msg src ns).length = (frame msg).length + (answers src ns).length :=
    List.length_append
  constructor
  · refine ⟨hpre, by omega, fun _ => ?_, fun h => by omega, nofun, nofun⟩
    exact handshake_length.le
  · intro hlt
    refine ⟨hpre, by omega, fun _ => handshake_length.le, fun h => by omega, fun _ => ?_,
      nofun⟩
    left
    exact ⟨handshake_length, hlt⟩

theorem pullPoint_request {o : Bytes} (hpre : o <+: pullStream ns) (hlen : 10 ≤ o.length) :
    PullPoint msg src ns .silent o (frame msg).length ∧
      (o.length < (pullStream ns).length →
        PullPoint msg src ns .sends o (frame msg).length) := by
  have hle : (frame msg).length ≤ (pushStream msg src ns).length := by
    rw [pushStream, List.length_append]
    exact Nat.le_add_right _ _
  constructor
  · refine ⟨hpre, hle, fun h => ?_, fun h => ?_, nofun, nofun⟩
    · exact (lt_irrefl _ h).elim
    · exact (lt_irrefl _ h).elim
  · intro hlt
    refine ⟨hpre, hle, fun h => ?_, fun h => ?_, nofun, fun _ => ?_⟩
    · exact (lt_irrefl _ h).elim
    · exact (lt_irrefl _ h).elim
    · right
      exact ⟨hlen, hlt, rfl⟩

theorem pullPoint_data {R : ℕ} (hlo : (frame msg).length ≤ R)
    (hhi : R ≤ (pushStream msg src ns).length) :
    PullPoint msg src ns .silent (pullStream ns) R ∧
      (R < (pushStream msg src ns).length →
        PullPoint msg src ns .receives (pullStream ns) R) := by
  have hpre : pullStream ns <+: pullStream ns := List.prefix_refl _
  constructor
  · refine ⟨hpre, hhi, fun h => ?_, fun _ => rfl, nofun, nofun⟩
    omega
  · intro hlt
    refine ⟨hpre, hhi, fun h => ?_, fun _ => rfl, fun _ => ?_, nofun⟩
    · omega
    · right
      exact ⟨rfl, hlt⟩

end pull

section push
variable (msg : Message) (src : Bytes) (ns : List ℕ) {j k : ℕ}

theorem pushPoint_handshake (hk : k ≤ 10) :
    PushPoint msg src ns .silent [] k ∧ (k < 10 → PushPoint msg src ns .receives [] k) := by
  have hlen := pullStream_length ns
  have hlow : ∀ j, 10 + 10 * j < k →
      (frame msg).length + (answers src (ns.take j)).length ≤ ([] : Bytes).length := by
    intro j hj
    omega
  constructor
  · exact ⟨List.nil_prefix, by omega, fun _ => rfl, hlow, nofun, nofun⟩
  · intro hlt
    refine ⟨List.nil_prefix, by omega, fun _ => rfl, hlow, fun _ => ?_, nofun⟩
    constructor
    · omega
    · intro hge
      omega

theorem pushPoint_meta :
    PushPoint msg src ns .silent ((frame msg).take k) 10 ∧
      (k < (frame msg).length → PushPoint msg src ns .sends ((frame msg).take k) 10) := by
  have hlen := pullStream_length ns
  have hpre : (frame msg).take k <+: pushStream msg src ns :=
    (List.take_prefix _ _).trans (List.prefix_append _ _)
  have hlow : ∀ j, 10 + 10 * j < 10 →
      (frame msg).length + (answers src (ns.take j)).length ≤ ((frame msg).take k).length := by
    intro j hj
    omega
  constructor
  · exact ⟨hpre, by omega, fun h => by omega, hlow, nofun, nofun⟩
  · intro hlt
    refine ⟨hpre, by omega, fun h => by omega, hlow, nofun, fun _ => ⟨0, ?_⟩⟩
    refine ⟨Nat.zero_le _, rfl, ?_, Or.inl rfl⟩
    rw [List.length_take]
    omega

theorem pushPoint_request (hk : k ≤ 10)
    (hend : 10 + 10 * j + k ≤ (pullStream ns).length) :
    PushPoint msg src ns .silent (frame msg ++ answers src (ns.take j)) (10 + 10 * j + k) ∧
      (10 + 10 * j + k < (pullStream ns).length →
        PushPoint msg src ns .receives (frame msg ++ answers src (ns.take j))
          (10 + 10 * j + k)) := by
  have hpre : frame msg ++ answers src (ns.take j) <+: pushStream msg src ns := by
    rw [pushStream, List.prefix_append_right_inj]
    nth_rewrite 2 [← List.take_append_drop j ns]
    rw [answers_append]
    exact List.prefix_append _ _
  have hlow : ∀ j', 10 + 10 * j' < 10 + 10 * j + k →
      (frame msg).length + (answers src (ns.take j')).length ≤
        (frame msg ++ answers src (ns.take j)).length := by
    intro j' hj'
    have hmono := answers_take_mono src ns (j := j') (k := j) (by omega)
    rw [List.length_append]
    omega
  constructor
  · exact ⟨hpre, hend, fun h => by omega, hlow, nofun, nofun⟩
  · intro hlt
    refine ⟨hpre, hend, fun h => by omega, hlow, fun _ => ⟨hlt, fun _ => ?_⟩, nofun⟩
    rw [List.length_append]
    exact Nat.le_add_right _ _

theorem pushPoint_answer (hj : j < ns.length) (hk : k ≤ (answer src ns[j]).length) :
    PushPoint msg src ns .silent
        (frame msg ++ answers src (ns.take j) ++ (answer src ns[j]).take k) (10 + 10 * (j + 1)) ∧
      (k < (answer src ns[j]).length → PushPoint msg src ns .sends
        (frame msg ++ answers src (ns.take j) ++ (answer src ns[j]).take k)
        (10 + 10 * (j + 1))) := by
  have hlen := pullStream_length ns
  have hpre : frame msg ++ answers src (ns.take j) ++ (answer src ns[j]).take k <+:
      pushStream msg src ns := by
    rw [List.append_assoc, pushStream, List.prefix_append_right_inj]
    nth_rewrite 3 [← List.take_append_drop (j + 1) ns]
    rw [answers_append, answers_take_succ src hj, List.append_assoc,
      List.prefix_append_right_inj]
    exact (List.take_prefix _ _).trans (List.prefix_append _ _)
  have htake : ((answer src ns[j]).take k).length = k := by
    rw [List.length_take, Nat.min_eq_left hk]
  have hlow : ∀ j', 10 + 10 * j' < 10 + 10 * (j + 1) →
      (frame msg).length + (answers src (ns.take j')).length ≤
        (frame msg ++ answers src (ns.take j) ++ (answer src ns[j]).take k).length := by
    intro j' hj'
    have hmono := answers_take_mono src ns (j := j') (k := j) (by omega)
    simp only [List.length_append]
    omega
  constructor
  · exact ⟨hpre, by omega, fun h => by omega, hlow, nofun, nofun⟩
  · intro hlt
    refine ⟨hpre, by omega, fun h => by omega, hlow, nofun, fun _ => ⟨j + 1, hj, rfl, ?_, ?_⟩⟩
    · rw [answers_take_succ src hj]
      simp only [List.length_append, htake]
      omega
    · right
      rw [Nat.add_sub_cancel]
      simp only [List.length_append]
      omega

end push

/-! ## The receiver -/

def deliver (src : Bytes) (ns : List ℕ) (f : Bytes) : Bytes :=
  ns.foldl (fun f i => writeAt f (i * chunkSize) (chunk src i)) f

theorem deliver_cons (src : Bytes) (i : ℕ) (ns : List ℕ) (f : Bytes) :
    deliver src (i :: ns) f = deliver src ns (writeAt f (i * chunkSize) (chunk src i)) := by
  rw [deliver, deliver, List.foldl_cons]

/-- The bitmap a pull starts with, and the output once it is open. -/
def startBits (files : Path → Option Bytes) (out : Path) (m : FileMeta) : ChunkManager :=
  (loaded files out (hashAt m 0) m.chunkCount).getD (.new m.chunkCount)

def startFile (files : Path → Option Bytes) (out : Path) (m : FileMeta) : Bytes :=
  if (loaded files out (hashAt m 0) m.chunkCount).isSome then (files out).getD []
  else List.replicate m.fileSize.toNat 0

section receiver
variable {sha256 : Bytes → Hash} {m : FileMeta} {src f O : Bytes} {msg : Message}
  {ns : List ℕ} {out : Path} {F : Path → Option Bytes} {V : List ℕ} {R : ℕ} {s : World}
  {cm : ChunkManager}

theorem chunkIndex_toNat {i : ℕ} (hi : i < m.chunkCount.toNat) :
    (UInt32.ofNat i).toNat = i :=
  UInt32.toNat_ofNat_of_lt' (hi.trans m.chunkCount.toNat_lt)

theorem verifyChunk_at {i : ℕ} {K : Kind → Bytes → ℕ → Prop} {Y : Bytes}
    (hd : Describes sha256 m src) (hi : i < m.chunkCount.toNat) (hcm : i < cm.bitmap.length)
    (h : At F O R V s) (hK : K .silent O R) :
    Total (stream fun _ => Y) (Along K) (fun cm' u => cm' = ⟨cm.bitmap.set i true⟩ ∧ At F O R V u)
      (verifyChunk sha256 m i (chunk src i) cm) s := by
  rw [verifyChunk, if_pos (hd.hashAt_eq hi).symm, ChunkManager.markDone, ChunkManager.mark_ok hcm]
  exact total_pure.mpr ⟨h.along hK, rfl, h⟩

theorem recvChunk_at {i : ℕ} (hd : Describes sha256 m src) (hi : i < m.chunkCount.toNat)
    (hcm : i < cm.bitmap.length) (hf : F out = some f) (hlen : src.length ≤ f.length)
    (h : At F (pullStream ns) R V s) (hlo : (frame msg).length ≤ R)
    (hpre : answer src i <+: (pushStream msg src ns).drop R) :
    Total (stream fun _ => pushStream msg src ns) (Along (PullPoint msg src ns))
      (fun cm' u => cm' = ⟨cm.bitmap.set i true⟩ ∧
        ∃ F', F' out = some (writeAt f (i * chunkSize) (chunk src i)) ∧
          At F' (pullStream ns) (R + (answer src i).length) V u)
      (recvChunk sha256 tcp out m i cm) s := by
  have hhdr : (makeChunkHdr ⟨UInt32.ofNat i⟩).Valid := by
    refine ⟨(nofun), ?_⟩
    change (be 4 _).length ≤ _
    rw [be_length]
    decide
  have hclen := hd.chunk_length hi
  obtain ⟨hcpos, hcin⟩ := hd.chunkLen_pos hi
  have halen : (answer src i).length = (frame (makeChunkHdr ⟨UInt32.ofNat i⟩)).length +
      (chunk src i).length := List.length_append
  have havail := hpre.length_le
  have hapos := answer_pos src i
  rw [List.length_drop] at havail
  have hpoint : ∀ k ≤ (answer src i).length,
      PullPoint msg src ns .silent (pullStream ns) (R + k) := by
    intro k hk
    exact (pullPoint_data (by omega) (by omega)).1
  have hrecv : ∀ k < (answer src i).length,
      PullPoint msg src ns .receives (pullStream ns) (R + k) := by
    intro k hk
    exact (pullPoint_data (by omega) (by omega)).2 (by omega)
  refine Total.andThen (recvMsg_at h hhdr ?_ ?_ ?_) ?_
  · exact (List.prefix_append _ _).trans hpre
  · exact fun k hk => hpoint k (by omega)
  · exact fun k hk => hrecv k (by omega)
  intro hdrMsg t ht
  obtain ⟨rfl, ht⟩ := ht
  rw [if_neg (fun h => h rfl), parseChunkHdr_make]
  change Total _ _ _ (if (UInt32.ofNat i).toNat ≠ i then _ else _) _
  rw [if_neg (fun h => h (chunkIndex_toNat hi)), hd.size]
  dsimp only
  have hdata : slice (pushStream msg src ns) (R + (frame (makeChunkHdr ⟨UInt32.ofNat i⟩)).length)
      (chunkLen src.length i) = chunk src i := by
    obtain ⟨rest, hrest⟩ := hpre
    rw [slice, ← List.drop_drop, ← hrest, answer, List.append_assoc, List.drop_left' rfl,
      ← hclen, List.take_left' rfl]
  refine Total.andThen (recvFile_at ht hf (by omega) (by omega) ?_ ?_) ?_
  · intro k hk
    rw [Nat.add_assoc]
    exact hpoint _ (by omega)
  · intro k hk
    rw [Nat.add_assoc]
    exact hrecv _ (by omega)
  intro _ u hu
  rw [hdata, Nat.add_assoc, ← hclen, ← halen] at hu
  have hlocal := hpoint _ le_rfl
  have hfile : u.files out = some (writeAt f (i * chunkSize) (chunk src i)) := by
    rw [hu.files]
    exact Function.update_self ..
  have hback : slice (writeAt f (i * chunkSize) (chunk src i)) (i * chunkSize)
      (chunkLen src.length i) = chunk src i := by
    rw [← hclen]
    exact slice_writeAt ..
  apply total_ask_bind.mpr
  refine ⟨hu.along hlocal, ?_, ?_⟩
  · exact ⟨_, _, Or.inl ⟨_, chunk src i, hfile, hcpos, hclen, fun _ => hback.symm, rfl, rfl⟩⟩
  intro r v hv
  rcases hv with ⟨g, mapped, hg, -, -, hmap, rfl, rfl⟩ | ⟨-, hnone, -⟩
  · rw [hfile] at hg
    cases hg
    have hmapped : mapped = chunk src i := by
      rw [← hback]
      apply hmap
      rw [length_writeAt, hclen]
      exact le_max_right _ _
    subst hmapped
    refine Total.andThen (verifyChunk_at hd hi hcm hu hlocal) ?_
    intro cm' w hw
    obtain ⟨rfl, hw⟩ := hw
    refine Total.andThen (save_at hw hlocal) ?_
    intro _ x hx
    refine Total.andThen (print_at hx rfl hlocal) ?_
    intro _ y hy
    refine total_pure.mpr ⟨hy.along hlocal, rfl, _, ?_, hy⟩
    rw [Function.update_of_ne (PartialFile.pathFor_ne out).symm]
    exact Function.update_self ..
  · rcases hnone with hfalse | hzero
    · exact hfalse.elim
    · omega

theorem recvChunks_at {rest : List ℕ} (hd : Describes sha256 m src)
    (hrest : ∀ i ∈ rest, i < m.chunkCount.toNat) (hcm : cm.bitmap.length = m.chunkCount.toNat)
    (hf : F out = some f) (hlen : src.length ≤ f.length) (h : At F (pullStream ns) R V s)
    (hlo : (frame msg).length ≤ R) (hhi : R ≤ (pushStream msg src ns).length)
    (hdata : (pushStream msg src ns).drop R = answers src rest) :
    Total (stream fun _ => pushStream msg src ns) (Along (PullPoint msg src ns))
      (fun cm' u => cm'.bitmap.length = m.chunkCount.toNat ∧
        (∀ i < m.chunkCount.toNat, i ∈ rest ∨ cm.bitmap[i]? = some true →
          cm'.bitmap[i]? = some true) ∧
        ∃ F', F' out = some (deliver src rest f) ∧
          At F' (pullStream ns) (pushStream msg src ns).length V u)
      (recvChunks sha256 tcp out m rest cm) s := by
  induction rest generalizing cm F f R s with
  | nil =>
    have hend : R = (pushStream msg src ns).length := by
      have hnil : answers src [] = [] := rfl
      have hzero := congrArg List.length hdata
      rw [List.length_drop, hnil, List.length_nil] at hzero
      omega
    rw [← hend]
    refine total_pure.mpr ⟨h.along (pullPoint_data hlo hhi).1, hcm, ?_, F, hf, h⟩
    intro i _ hi
    rcases hi with hi | hi
    · cases hi
    · exact hi
  | cons i rest ih =>
    have hi := hrest i (List.mem_cons_self ..)
    have havail := congrArg List.length hdata
    rw [List.length_drop, answers_cons, List.length_append] at havail
    have hpre : answer src i <+: (pushStream msg src ns).drop R :=
      ⟨answers src rest, (answers_cons src i rest).symm.trans hdata.symm⟩
    rw [recvChunks]
    refine Total.andThen (recvChunk_at hd hi (hcm ▸ hi) hf hlen h hlo hpre) ?_
    intro cm' u hu
    obtain ⟨rfl, F', hf', hu⟩ := hu
    have hrest' : ∀ j ∈ rest, j < m.chunkCount.toNat :=
      fun j hj => hrest j (List.mem_cons_of_mem _ hj)
    have hcm' : (ChunkManager.mk (cm.bitmap.set i true)).bitmap.length = m.chunkCount.toNat :=
      List.length_set.trans hcm
    have hlen' : src.length ≤ (writeAt f (i * chunkSize) (chunk src i)).length := by
      rw [length_writeAt]
      exact hlen.trans (le_max_left _ _)
    have hlo' : (frame msg).length ≤ R + (answer src i).length := hlo.trans (Nat.le_add_right _ _)
    have hhi' : R + (answer src i).length ≤ (pushStream msg src ns).length := by
      omega
    have hdata' : (pushStream msg src ns).drop (R + (answer src i).length) = answers src rest := by
      rw [← List.drop_drop, hdata, answers_cons, List.drop_left' rfl]
    refine (ih hrest' hcm' hf' hlen' hu hlo' hhi' hdata').weaken ?_
    intro cm'' v hv
    obtain ⟨hlen'', hall, F'', hf'', hv⟩ := hv
    refine ⟨hlen'', ?_, F'', (deliver_cons src i rest f).symm ▸ hf'', hv⟩
    intro j hj hmem
    apply hall j hj
    rw [List.getElem?_set]
    by_cases hij : i = j
    · right
      rw [if_pos hij, if_pos (hcm ▸ hi)]
    · rcases hmem with hmem | hmem
      · left
        rcases List.mem_cons.mp hmem with heq | hmem
        · exact (hij heq.symm).elim
        · exact hmem
      · right
        rw [if_neg hij]
        exact hmem

theorem finish_at {K : Kind → Bytes → ℕ → Prop} {Y : Bytes} (hdone : cm.allDone = true)
    (h : At F O R V s) (hK : K .silent O R) :
    Total (stream fun _ => Y) (Along K)
      (fun _ u => At (Function.update F (PartialFile.pathFor out) none) O R V u)
      (finish out cm) s := by
  rw [finish, if_pos hdone]
  apply total_ask_bind.mpr
  refine ⟨h.along hK, ⟨(), _, Or.inl rfl⟩, ?_⟩
  intro r u hu
  rcases hu with rfl | ⟨hfalse, -⟩
  · exact print_at (h.store _ none) rfl hK
  · exact hfalse.elim

theorem sendRequests_at {sent rest : List ℕ} (hns : ns = sent ++ rest)
    (h : At F (handshake ++ requests sent) (frame msg).length V s) :
    Total (stream fun _ => pushStream msg src ns) (Along (PullPoint msg src ns))
      (fun _ u => At F (handshake ++ requests ns) (frame msg).length V u)
      (sendRequests tcp rest) s := by
  induction rest generalizing sent s with
  | nil =>
    rw [List.append_nil] at hns
    subst hns
    have hpre : handshake ++ requests ns <+: pullStream ns := by
      rw [pullStream, ← List.append_assoc]
      exact List.prefix_append _ _
    refine total_pure.mpr ⟨h.along (pullPoint_request hpre ?_).1, h⟩
    rw [List.length_append, handshake_length]
    omega
  | cons i rest ih =>
    have hpre : ∀ k, handshake ++ requests sent ++ (request i).take k <+: pullStream ns := by
      intro k
      have hsplit : pullStream ns =
          handshake ++ requests sent ++ (request i ++ (requests rest ++ complete)) := by
        simp [pullStream, hns, requests]
      rw [hsplit, List.prefix_append_right_inj]
      exact (List.take_prefix _ _).trans (List.prefix_append _ _)
    have hlong : ∀ k, 10 ≤ (handshake ++ requests sent ++ (request i).take k).length := by
      intro k
      simp only [List.length_append, handshake_length]
      omega
    refine Total.andThen (sendMsg_at h ?_ ?_) ?_
    · intro k _
      exact (pullPoint_request (hpre k) (hlong k)).1
    · intro k hk
      refine (pullPoint_request (hpre k) (hlong k)).2 ?_
      have hle := (hpre (k + 1)).length_le
      change k < (request i).length at hk
      simp only [List.length_append, List.length_take] at hle ⊢
      omega
    · intro _ u hu
      have hsent : requests (sent ++ [i]) = requests sent ++ request i := by
        simp [requests]
      have hns' : ns = (sent ++ [i]) ++ rest := by
        rw [hns]
        simp
      refine ih hns' ?_
      rw [hsent, ← List.append_assoc]
      exact hu

theorem startBits_length (F : Path → Option Bytes) (out : Path) (m : FileMeta) :
    (startBits F out m).bitmap.length = m.chunkCount.toNat := by
  have hnew : (ChunkManager.new m.chunkCount).bitmap.length = m.chunkCount.toNat :=
    List.length_replicate
  rw [startBits, loaded]
  split
  · split_ifs
    · change (unpack m.chunkCount _).bitmap.length = _
      rw [unpack, List.length_map, List.length_range]
    · exact hnew
  · exact hnew

theorem loaded_file {cm : ChunkManager} {h : Hash} {n : UInt32}
    (hload : loaded F out h n = some cm) :
    ∃ g, F out = some g ∧ g.length = n.toNat * chunkSize := by
  rw [loaded] at hload
  split at hload
  · rename_i f g hf hg
    split_ifs at hload with hcond
    exact ⟨g, hg, hcond.2.1⟩
  · cases hload

theorem startFile_length (hd : Describes sha256 m src) :
    src.length ≤ (startFile F out m).length := by
  rw [startFile]
  cases hload : loaded F out (hashAt m 0) m.chunkCount with
  | none =>
    rw [if_neg (by simp), List.length_replicate, hd.size]
  | some cm =>
    obtain ⟨g, hg, hlen⟩ := loaded_file hload
    have hcount := hd.count
    have hpos : 0 < chunkSize := by decide
    have hdiv := Nat.lt_div_mul_add (a := src.length + chunkSize - 1) hpos
    rw [if_pos (by simp), hg, Option.getD_some, hlen, hcount]
    omega

theorem pullInto_at (hd : Describes sha256 m src) (hns : ns = (startBits F out m).neededChunks)
    (h : At F handshake (frame msg).length V s) :
    Total (stream fun _ => pushStream msg src ns) (Along (PullPoint msg src ns))
      (fun _ u => ∃ F', F' out = some (deliver src ns (startFile F out m)) ∧
        F' (PartialFile.pathFor out) = none ∧
        At F' (pullStream ns) (pushStream msg src ns).length V u)
      (pullInto sha256 tcp m out) s := by
  have hlimit : (frame msg).length ≤ (pushStream msg src ns).length := by
    rw [pushStream, List.length_append]
    exact Nat.le_add_right _ _
  have hstart : PullPoint msg src ns .silent handshake (frame msg).length :=
    (pullPoint_request (List.prefix_append _ _) handshake_length.ge).1
  refine Total.andThen (load_at h hstart) ?_
  intro prior t ht
  obtain ⟨rfl, ht⟩ := ht
  have hopen : (loaded F out (hashAt m 0) m.chunkCount).isSome → (F out).isSome := by
    intro hsome
    obtain ⟨cm, hcm⟩ := Option.isSome_iff_exists.mp hsome
    obtain ⟨g, hg, -⟩ := loaded_file hcm
    rw [hg]
    rfl
  refine Total.andThen (openOutput_at ht hstart hopen) ?_
  intro cm t' ht'
  obtain ⟨hcm, ht'⟩ := ht'
  change cm = startBits F out m at hcm
  subst hcm
  rw [← hns]
  generalize hF' : (if (loaded F out (hashAt m 0) m.chunkCount).isSome then F
    else Function.update F out (some (List.replicate m.fileSize.toNat 0))) = F' at ht'
  have hfile : F' out = some (startFile F out m) := by
    rw [← hF', startFile]
    split_ifs with hsome
    · obtain ⟨g, hg⟩ := Option.isSome_iff_exists.mp (hopen hsome)
      rw [hg, Option.getD_some]
    · exact Function.update_self ..
  refine Total.andThen (print_at ht' rfl hstart) ?_
  intro _ v hv
  have hsent : At F' (handshake ++ requests []) (frame msg).length V v := by
    have hnil : handshake ++ requests [] = handshake := List.append_nil _
    rw [hnil]
    exact hv
  refine Total.andThen (sendRequests_at (List.nil_append ns).symm hsent) ?_
  intro _ w hw
  have hpre : ∀ k, handshake ++ requests ns ++ complete.take k <+: pullStream ns := by
    intro k
    rw [pullStream, ← List.append_assoc, List.prefix_append_right_inj]
    exact List.take_prefix _ _
  have hlong : ∀ k, 10 ≤ (handshake ++ requests ns ++ complete.take k).length := by
    intro k
    simp only [List.length_append, handshake_length]
    omega
  refine Total.andThen (sendMsg_at hw ?_ ?_) ?_
  · exact fun k _ => (pullPoint_request (hpre k) (hlong k)).1
  · intro k hk
    refine (pullPoint_request (hpre k) (hlong k)).2 ?_
    have hle := (hpre (k + 1)).length_le
    change k < complete.length at hk
    simp only [List.length_append, List.length_take] at hle ⊢
    omega
  intro _ x hx
  have hsaid : At F' (pullStream ns) (frame msg).length V x := by
    rw [pullStream, ← List.append_assoc]
    exact hx
  have hlt : ∀ i ∈ ns, i < m.chunkCount.toNat := by
    intro i hi
    rw [hns] at hi
    exact (startBits_length F out m) ▸ ChunkManager.neededChunks_lt hi
  have hdata : (pushStream msg src ns).drop (frame msg).length = answers src ns :=
    List.drop_left' rfl
  refine Total.andThen (recvChunks_at hd hlt (startBits_length F out m) hfile
    (startFile_length hd) hsaid le_rfl hlimit hdata) ?_
  intro cm u hu
  obtain ⟨hlen, hall, F'', hf'', hu⟩ := hu
  have hdone : cm.allDone = true := by
    apply ChunkManager.allDone_iff.mpr
    intro i hi
    rw [hlen] at hi
    apply hall i hi
    have hib : i < (startBits F out m).bitmap.length := (startBits_length F out m).symm ▸ hi
    rw [hns, ChunkManager.mem_neededChunks, List.getElem?_eq_getElem hib]
    cases (startBits F out m).bitmap[i] with
    | true => exact .inr rfl
    | false => exact .inl rfl
  refine (finish_at hdone hu (pullPoint_data hlimit le_rfl).1).weaken ?_
  intro _ y hy
  refine ⟨_, ?_, Function.update_self .., hy⟩
  rw [Function.update_of_ne (PartialFile.pathFor_ne out).symm]
  exact hf''

theorem runPull_at {outputPath : Path} (hd : Describes sha256 m src)
    (hmsg : makeFilemeta m = .ok msg) (hfit : msg.payload.length ≤ MAX_PAYLOAD_SIZE)
    (hout : out = if outputPath = [] then m.fileName else outputPath)
    (hns : ns = (startBits F out m).neededChunks) (h : At F [] 0 V s) :
    Total (stream fun _ => pushStream msg src ns) (Along (PullPoint msg src ns))
      (fun _ u => ∃ F', F' out = some (deliver src ns (startFile F out m)) ∧
        F' (PartialFile.pathFor out) = none ∧
        At F' (pullStream ns) (pushStream msg src ns).length V u)
      (runPull sha256 tcp outputPath) s := by
  refine Total.andThen (sendMsg_at h ?_ ?_) ?_
  · exact fun k hk => (pullPoint_handshake (hk.trans_eq handshake_length)).1
  · intro k hk
    have hlt : k < 10 := hk.trans_eq handshake_length
    exact (pullPoint_handshake hlt.le).2 hlt
  intro _ t ht
  change At F handshake 0 V t at ht
  have hvalid := makeFilemeta_valid hmsg hfit
  have hparse := parseFilemeta_make hmsg (makeFilemeta_fileName hmsg hfit)
  have hpoint : PullPoint msg src ns .silent handshake (frame msg).length :=
    (pullPoint_meta le_rfl).1
  apply Total.bind
  refine Total.andThen (recvMsg_at ht hvalid ?_ ?_ ?_) ?_
  · exact List.prefix_append _ _
  · intro k hk
    rw [Nat.zero_add]
    exact (pullPoint_meta hk).1
  · intro k hk
    rw [Nat.zero_add]
    exact (pullPoint_meta hk.le).2 hk
  intro r u hu
  obtain ⟨rfl, hu⟩ := hu
  rw [Nat.zero_add] at hu
  rw [if_neg (fun hne => hne (makeFilemeta_type hmsg)), hparse]
  refine total_pure.mpr ⟨hu.along hpoint, ?_⟩
  refine Total.andThen (print_at hu rfl hpoint) ?_
  intro _ v hv
  rw [← hout]
  exact pullInto_at hd hns hv

end receiver

/-! ## The sender -/

section sender
variable {sha256 : Bytes → Hash} {m : FileMeta} {src : Bytes} {msg : Message} {ns : List ℕ}
  {fd : Path} {F : Path → Option Bytes} {V : List ℕ} {s : World}

theorem pullStream_drop {j : ℕ} (hj : j ≤ ns.length) :
    (pullStream ns).drop (10 + 10 * j) = requests (ns.drop j) ++ complete := by
  have hsplit : requests ns = requests (ns.take j) ++ requests (ns.drop j) := by
    rw [requests, requests, requests, ← List.flatten_append, ← List.map_append,
      List.take_append_drop]
  rw [pullStream, hsplit, List.append_assoc, ← List.append_assoc, List.drop_left']
  rw [List.length_append, handshake_length, requests_length, List.length_take,
    Nat.min_eq_left hj]

theorem serveChunk_at {j : ℕ} (hd : Describes sha256 m src) (hj : j < ns.length)
    (hlt : ns[j] < m.chunkCount.toNat) (hfd : F fd = some src)
    (h : At F (frame msg ++ answers src (ns.take j)) (10 + 10 * (j + 1)) V s) :
    Total (stream fun _ => pullStream ns) (Along (PushPoint msg src ns))
      (fun _ u => At F (frame msg ++ answers src (ns.take (j + 1))) (10 + 10 * (j + 1)) V u)
      (serveChunk tcp fd m.fileSize.toNat (UInt32.ofNat ns[j])) s := by
  have hclen := hd.chunk_length hlt
  obtain ⟨-, hcin⟩ := hd.chunkLen_pos hlt
  have halen : (answer src ns[j]).length =
      (frame (makeChunkHdr ⟨UInt32.ofNat ns[j]⟩)).length + (chunk src ns[j]).length :=
    List.length_append
  have hhdr : ∀ k ≤ (frame (makeChunkHdr ⟨UInt32.ofNat ns[j]⟩)).length,
      (frame (makeChunkHdr ⟨UInt32.ofNat ns[j]⟩)).take k = (answer src ns[j]).take k := by
    intro k hk
    rw [answer, List.take_append_of_le_length hk]
  have hbody : ∀ k ≤ chunkLen src.length ns[j],
      frame (makeChunkHdr ⟨UInt32.ofNat ns[j]⟩) ++ slice src (ns[j] * chunkSize) k =
        (answer src ns[j]).take
          ((frame (makeChunkHdr ⟨UInt32.ofNat ns[j]⟩)).length + k) := by
    intro k hk
    rw [answer, List.take_length_add_append, chunk, slice, slice, List.take_take,
      Nat.min_eq_left hk]
  refine Total.andThen (sendMsg_at h ?_ ?_) ?_
  · intro k hk
    rw [hhdr k hk]
    exact (pushPoint_answer msg src ns hj (by omega)).1
  · intro k hk
    rw [hhdr k hk.le]
    exact (pushPoint_answer msg src ns hj (by omega)).2 (by omega)
  intro _ t ht
  rw [chunkIndex_toNat hlt, hd.size]
  refine (sendFile_at ht hfd hcin ?_ ?_).weaken ?_
  · intro k hk
    rw [List.append_assoc, hbody k hk]
    exact (pushPoint_answer msg src ns hj (by omega)).1
  · intro k hk
    rw [List.append_assoc, hbody k hk.le]
    exact (pushPoint_answer msg src ns hj (by omega)).2 (by omega)
  · intro _ u hu
    rw [answers_take_succ src hj, ← List.append_assoc, answer]
    rw [List.append_assoc] at hu
    exact hu

theorem serve_at (hd : Describes sha256 m src) (hlt : ∀ i ∈ ns, i < m.chunkCount.toNat)
    (hfd : F fd = some src) (h : At F (frame msg) 10 [] s) :
    Total (stream fun _ => pullStream ns) (Along (PushPoint msg src ns))
      (fun _ u => At F (pushStream msg src ns) (pullStream ns).length ns u)
      (serve tcp fd m.fileSize.toNat m.chunkCount) s := by
  have hlen := pullStream_length ns
  apply Total.round
    (fun _ (u : World) => ∃ j ≤ ns.length,
      At F (frame msg ++ answers src (ns.take j)) (10 + 10 * j) (ns.take j) u)
    (fun _ (u : World) => (pullStream ns).length - u.read)
  · refine ⟨0, Nat.zero_le _, ?_⟩
    rw [List.take_zero, answers, List.map_nil, List.flatten_nil, List.append_nil]
    exact h
  intro count u hx
  obtain ⟨j, hj, hu⟩ := hx
  have hpoint := fun k hk hend => pushPoint_request msg src ns (j := j) (k := k) hk hend
  refine ⟨hu.along (hpoint 0 (by omega) (by omega)).1, ?_⟩
  rcases hj.lt_or_eq with hj | rfl
  · have hi := hlt _ (List.getElem_mem hj)
    have hdrop : frame (makeChunkReq ⟨UInt32.ofNat ns[j]⟩) <+: (pullStream ns).drop (10 + 10 * j) := by
      rw [pullStream_drop hj.le, List.drop_eq_getElem_cons hj]
      change request ns[j] <+: request ns[j] ++ requests (ns.drop (j + 1)) ++ complete
      rw [List.append_assoc]
      exact List.prefix_append _ _
    have hreq : (frame (makeChunkReq ⟨UInt32.ofNat ns[j]⟩)).length = 10 := request_length _
    have hvalid : (makeChunkReq ⟨UInt32.ofNat ns[j]⟩).Valid := by
      refine ⟨nofun, ?_⟩
      change (be 4 _).length ≤ _
      rw [be_length]
      decide
    refine Total.andThen (recvMsg_at hu hvalid hdrop ?_ ?_) ?_
    · exact fun k hk => (hpoint k (by omega) (by omega)).1
    · exact fun k hk => (hpoint k (by omega) (by omega)).2 (by omega)
    intro r t ht
    obtain ⟨rfl, ht⟩ := ht
    rw [hreq] at ht
    have hat : 10 + 10 * j + 10 = 10 + 10 * (j + 1) := by omega
    rw [hat] at ht
    rw [if_neg (by nofun), if_neg (fun hne => hne rfl), parseChunkReq_make]
    change Total _ _ _ (if m.chunkCount ≤ UInt32.ofNat ns[j] then _ else _) _
    rw [if_neg (fun hle => by
      have hle' := UInt32.le_iff_toNat_le.mp hle
      rw [chunkIndex_toNat hi] at hle'
      omega)]
    refine Total.andThen (serveChunk_at hd hj hi hfd ht) ?_
    intro _ v hv
    have hdone := pushPoint_request msg src ns (j := j + 1)
      (k := 0) (Nat.zero_le _) (by omega)
    apply total_ask_bind.mpr
    refine ⟨hv.along hdone.1, ⟨(), _, rfl⟩, ?_⟩
    intro r w hw
    subst hw
    have hsent := hv.sentChunk (UInt32.ofNat ns[j]).toNat (count + 1).toNat
    rw [chunkIndex_toNat hi, ← List.take_succ_eq_append_getElem hj] at hsent
    refine total_pure.mpr ⟨?_, ⟨j + 1, hj, ?_⟩, ?_⟩
    · exact hsent.along hdone.1
    · rw [chunkIndex_toNat hi]
      exact hsent
    · change (pullStream ns).length - v.read < _
      rw [hv.read, hu.read]
      omega
  · have hdrop : frame makeComplete <+: (pullStream ns).drop (10 + 10 * ns.length) := by
      rw [pullStream_drop le_rfl, List.drop_length]
      exact List.prefix_refl _
    have hcomp : (frame makeComplete).length = 6 := complete_length
    have hvalid : makeComplete.Valid := ⟨(nofun), Nat.zero_le _⟩
    refine Total.andThen (recvMsg_at hu hvalid hdrop ?_ ?_) ?_
    · exact fun k hk => (hpoint k (by omega) (by omega)).1
    · exact fun k hk => (hpoint k (by omega) (by omega)).2 (by omega)
    intro r t ht
    obtain ⟨rfl, ht⟩ := ht
    have htype : makeComplete.type = .complete := rfl
    rw [if_pos htype]
    have hend := hpoint 6 (by omega) (by omega)
    rw [hcomp] at ht
    refine total_pure.mpr ⟨ht.along hend.1, ht.along hend.1, ?_⟩
    have hread : 10 + 10 * ns.length + 6 = (pullStream ns).length := by omega
    rw [List.take_length, hread] at ht
    exact ht

theorem runPush_at (hd : Describes sha256 m src) (hmsg : makeFilemeta m = .ok msg)
    (hlt : ∀ i ∈ ns, i < m.chunkCount.toNat) (hfd : F fd = some src) (h : At F [] 0 [] s) :
    Total (stream fun _ => pullStream ns) (Along (PushPoint msg src ns))
      (fun _ u => At F (pushStream msg src ns) (pullStream ns).length ns u)
      (runPush tcp fd m) s := by
  have hpoint := fun k hk => pushPoint_handshake msg src ns (k := k) hk
  have hhs : (frame (makeHandshake ⟨[]⟩)).length = 10 := handshake_length
  have hvalid : (makeHandshake ⟨[]⟩).Valid := ⟨(nofun), by decide⟩
  refine Total.andThen (recvMsg_at h hvalid (List.prefix_append _ _) ?_ ?_) ?_
  · intro k hk
    rw [Nat.zero_add]
    exact (hpoint k (by omega)).1
  · intro k hk
    rw [Nat.zero_add]
    exact (hpoint k (by omega)).2 (by omega)
  intro r t ht
  obtain ⟨rfl, ht⟩ := ht
  rw [hhs, Nat.zero_add] at ht
  rw [if_neg (fun hne => hne rfl), parseHandshake_make (by decide)]
  change Total _ _ _ (sys (.print (.pushConnected _)) >>= _) _
  refine Total.andThen (print_at ht rfl (hpoint 10 le_rfl).1) ?_
  intro _ u hu
  rw [hmsg]
  change Total _ _ _ (sendMsg tcp msg >>= _) _
  refine Total.andThen (sendMsg_at hu ?_ ?_) ?_
  · exact fun k hk => (pushPoint_meta msg src ns).1
  · exact fun k hk => (pushPoint_meta msg src ns).2 hk
  intro _ v hv
  have hall : PushPoint msg src ns .silent (frame msg) 10 := by
    have hfull := (pushPoint_meta msg src ns (k := (frame msg).length)).1
    rwa [List.take_length] at hfull
  refine Total.andThen (print_at hv rfl hall) ?_
  intro _ w hw
  refine Total.andThen (serve_at hd hlt hfd hw) ?_
  intro count x hx
  have hlen := pullStream_length ns
  have hend := (pushPoint_request msg src ns (j := ns.length) (k := 6)
    (by omega) (by omega)).1
  have hread : 10 + 10 * ns.length + 6 = (pullStream ns).length := by omega
  rw [List.take_length, hread] at hend
  exact print_at hx rfl hend

end sender

end Embr.Delivery
