import Embr.RecvRing

/-!
# The ring of a sender

Two buffers take turns: while the datagrams of one chunk go out, the next chunk
is read into the other. On a kernel that reads what it is asked for, every
datagram is a piece of the source, sent once the chunks before it were
acknowledged.
-/

open Octets Interact
namespace Embr.UdpTransport
open Embr.System (World)
open DataPlane (socket)

def readSqe (fd : Path) (offset len k : ℕ) (fixed : Bool) : Sqe :=
  ⟨.read fd (k % 2) (chunkLenAt len k % 2 ^ 32) (offset + k * chunkSize) fixed,
    makeUserData .read (k % 2)⟩

def sendSqe (i : ℕ) : Sqe := ⟨.sendmsg (i % QUEUE_DEPTH), makeUserData .send i⟩

def slotOf (src : Bytes) (k i : ℕ) : SendSlot :=
  ⟨writeFragHdr (fragHdr k (chunkLenAt src.length k) i), k % 2, i * UDP_PAYLOAD_SIZE,
    fragLen (chunkLenAt src.length k) i⟩

def chunkOf (src : Bytes) (k : ℕ) : Bytes := slice src (k * chunkSize) (chunkLenAt src.length k)

/-- Chunk `k` is in its buffer. -/
def Loaded (src : Bytes) (k : ℕ) (t : Store) : Prop := Holds (t.chunkBuf (k % 2)) 0 (chunkOf src k)

/-- What was sent: pieces of the source, each after the chunks before its own were acknowledged. -/
def Genuine (src : Bytes) (base : ℕ) (t : Store) : Prop :=
  ∀ d ∈ t.sent, ∃ k i, Piece src k i ∧ base + 1 + 4 * k ≤ t.os.read ∧ d = datagram src k i

def Request.readInto : Request → Option ℕ
  | .read _ chunkBuf _ _ _ => some chunkBuf
  | _ => none

/-- The chunk buffers that are being read into. -/
def Store.reads (t : Store) : List ℕ :=
  (t.sq ++ t.inflight).filterMap fun sqe => sqe.request.readInto

/-- At every point: the stash is of the only read there was. -/
structure Point (src : Bytes) (base : ℕ) (t : Store) : Prop where
  genuine : Genuine src base t
  single : t.reads.length ≤ 1
  stash : t.readCompleted = true → t.reads = []

structure Within (src : Bytes) (base k : ℕ) (t : Store) : Prop extends Point src base t where
  clear : k % 2 ∉ t.reads
  loaded : Loaded src k t
  points : ∀ slot userData, ⟨.sendmsg slot, userData⟩ ∈ t.inflight →
    ∃ i < fragCount (chunkLenAt src.length k), t.datagram slot = datagram src k i

def Wanted (src : Bytes) (j : ℕ) : Prop := j = 0 ∨ j < chunkCount src.length

/-- The chunk after the one that is sent: there is none, its read is outstanding, or it was
reaped while the datagrams were. -/
inductive Ahead (src : Bytes) (fd : Path) (offset j : ℕ) (t : Store) : List Sqe → Prop
  | last : chunkCount src.length ≤ j → t.readCompleted = false → Ahead src fd offset j t []
  | reading : Wanted src j → t.readCompleted = false →
      Ahead src fd offset j t [readSqe fd offset src.length j t.registered]
  | stashed : Wanted src j → t.readCompleted = true →
      (0 ≤ t.readResult → Loaded src j t) → Ahead src fd offset j t []

/-- Within `send_chunk`: `n` fragments were prepared and those of `out` are not done. -/
structure Sending (src : Bytes) (fd : Path) (offset base : ℕ) (f : Bytes) (k n : ℕ) (out : List ℕ)
    (t : Store) : Prop where
  ring : ∃ reads, Ahead src fd offset (k + 1) t reads ∧
    (t.sq ++ t.inflight).Perm (reads ++ out.map sendSqe)
  loaded : Loaded src k t
  slots : ∀ i ∈ out, i < n ∧ t.slots (i % QUEUE_DEPTH) = slotOf src k i
  covered : ∀ i < n, i ∈ out ∨ datagram src k i ∈ t.sent
  file : t.os.files fd = some f
  acked : base + 1 + 4 * k ≤ t.os.read
  earlier : ∀ j < k, ∀ i < fragCount (chunkLenAt src.length j), datagram src j i ∈ t.sent
  genuine : Genuine src base t

/-- Between two chunks nothing is outstanding, and the next one is in its buffer. -/
structure Ready (src : Bytes) (fd : Path) (base : ℕ) (f : Bytes) (k : ℕ) (t : Store) : Prop where
  idle : t.sq ++ t.inflight = []
  fresh : t.readCompleted = false
  loaded : k < chunkCount src.length → Loaded src k t
  file : t.os.files fd = some f
  acked : base + 1 + 4 * k ≤ t.os.read
  earlier : ∀ j < k, ∀ i < fragCount (chunkLenAt src.length j), datagram src j i ∈ t.sent
  genuine : Genuine src base t

variable {src f Y : Bytes} {fd : Path} {offset base j k n i : ℕ} {out : List ℕ} {s t u : Store}
  {os : Env System.Os} {arrives : Store → Bytes → Prop} {reads : List Sqe}

/-! ## What the buffers hold -/

theorem Loaded.piece (h : Loaded src k t) (hpiece : Piece src k i) :
    slice (t.chunkBuf (k % 2)) (i * UDP_PAYLOAD_SIZE) (fragLen (chunkLenAt src.length k) i) =
      fragment src k i := by
  have hwithin := hpiece.within
  have hend := (fragLen_bounds (chunkLenAt_le src.length k) hpiece.frag).2.2
  have hlen : (chunkOf src k).length = chunkLenAt src.length k := by
    have hstart := chunk_start hpiece.chunk
    have hle : chunkLenAt src.length k ≤ src.length - k * chunkSize := min_le_left _ _
    exact slice_length (by omega)
  apply List.ext_getElem?
  intro z
  rw [fragment, getElem?_slice, getElem?_slice]
  split_ifs with hz
  · have hbyte := h (i * UDP_PAYLOAD_SIZE + z) (by omega)
    rw [Nat.zero_add, chunkOf, getElem?_slice, if_pos (by omega), ← Nat.add_assoc] at hbyte
    exact hbyte
  · rfl

theorem Loaded.points (h : Loaded src k t) (hpiece : Piece src k i)
    (hslot : t.slots (i % QUEUE_DEPTH) = slotOf src k i) :
    t.datagram (i % QUEUE_DEPTH) = datagram src k i := by
  simp only [Store.datagram, hslot, slotOf, h.piece hpiece, UdpTransport.datagram]

theorem source_read (hsrc : Holds f offset src) (hj : j * chunkSize ≤ src.length) {m : ℕ}
    (hle : m ≤ chunkLenAt src.length j % 2 ^ 32)
    (hfull : m < min (chunkLenAt src.length j % 2 ^ 32) (f.length - (offset + j * chunkSize)) → False) :
    slice f (offset + j * chunkSize) m = chunkOf src j := by
  have hsize : chunkSize = 1048576 := rfl
  have hlen := chunkLenAt_le src.length j
  have hin : chunkLenAt src.length j ≤ src.length - j * chunkSize := min_le_left _ _
  rw [Nat.mod_eq_of_lt (by omega)] at hle hfull
  have hroom : chunkLenAt src.length j ≤ f.length - (offset + j * chunkSize) := by
    by_cases hpos : 0 < src.length
    · have hlast := hsrc (src.length - 1) (by omega)
      rw [List.getElem?_eq_getElem (by omega : src.length - 1 < src.length)] at hlast
      have hbound := (List.getElem?_eq_some_iff.mp hlast).1
      omega
    · omega
  have hm : m = chunkLenAt src.length j := by
    rw [Nat.min_eq_left hroom] at hfull
    exact Nat.le_antisymm hle (Nat.not_lt.mp hfull)
  subst hm
  apply List.ext_getElem?
  intro z
  rw [chunkOf, getElem?_slice, getElem?_slice]
  split_ifs with hz
  · rw [Nat.add_assoc]
    exact hsrc _ (by omega)
  · rfl

theorem Wanted.start (h : Wanted src j) : j * chunkSize ≤ src.length := by
  rcases h with rfl | h
  · rw [Nat.zero_mul]
    exact Nat.zero_le _
  · exact Nat.le_of_lt (chunk_start h)

theorem loaded_fill (t : Store) (src : Bytes) (k : ℕ) :
    Loaded src k (t.fillChunk (k % 2) (chunkOf src k)) := by
  rw [Loaded, Store.fillChunk]
  simp only [Function.update_self]
  exact holds_writeAt _ _ _

theorem Loaded.fill_next (h : Loaded src k t) (bs : Bytes) :
    Loaded src k (t.fillChunk ((k + 1) % 2) bs) := by
  have hne : k % 2 ≠ (k + 1) % 2 := by omega
  rw [Loaded, Store.fillChunk]
  simp only [Function.update_of_ne hne]
  exact h

/-! ## The ring -/

theorem done_cases {sqe : Sqe} {a c : List Sqe}
    (hperm : (t.sq ++ t.inflight).Perm (reads ++ out.map sendSqe)) (hin : t.inflight = a ++ sqe :: c)
    (hone : reads.length ≤ 1) :
    (reads = [sqe] ∧ (t.sq ++ (a ++ c)).Perm (out.map sendSqe)) ∨
      ∃ i ∈ out, sqe = sendSqe i ∧
        (t.sq ++ (a ++ c)).Perm (reads ++ (out.erase i).map sendSqe) := by
  have hfront : (sqe :: (t.sq ++ (a ++ c))).Perm (reads ++ out.map sendSqe) := by
    refine List.Perm.trans ?_ hperm
    rw [hin, ← List.append_assoc, ← List.append_assoc]
    exact List.perm_middle.symm
  rcases List.mem_append.mp (hfront.mem_iff.mp List.mem_cons_self) with hread | hsend
  · obtain ⟨r, hr⟩ : ∃ r, reads = [r] :=
      List.length_eq_one_iff.mp (Nat.le_antisymm hone (List.length_pos_of_mem hread))
    rw [hr, List.mem_singleton] at hread
    subst hread
    rw [hr] at hfront
    exact Or.inl ⟨hr, hfront.cons_inv⟩
  · obtain ⟨i, hi, rfl⟩ := List.mem_map.mp hsend
    refine Or.inr ⟨i, hi, rfl, ?_⟩
    have hout : (out.map sendSqe).Perm (sendSqe i :: (out.erase i).map sendSqe) :=
      (List.perm_cons_erase hi).map sendSqe
    exact (hfront.trans ((hout.append_left reads).trans List.perm_middle)).cons_inv

theorem Ahead.one (h : Ahead src fd offset j t reads) : reads.length ≤ 1 := by
  cases h with
  | last => exact Nat.zero_le 1
  | reading => exact le_rfl
  | stashed => exact Nat.zero_le 1

theorem Ahead.reap (h : Ahead src fd offset j t reads) {sqe : Sqe} (hone : reads = [sqe]) :
    Wanted src j ∧ sqe = readSqe fd offset src.length j t.registered := by
  cases h with
  | last => cases hone
  | reading hj =>
    cases hone
    exact ⟨hj, rfl⟩
  | stashed => cases hone

theorem Ahead.keep (h : Ahead src fd offset j t reads) (hregistered : u.registered = t.registered)
    (hcompleted : u.readCompleted = t.readCompleted) (hresult : u.readResult = t.readResult)
    (hbuf : u.chunkBuf = t.chunkBuf) : Ahead src fd offset j u reads := by
  cases h with
  | last hj hfresh => exact .last hj (hcompleted.trans hfresh)
  | reading hj hfresh =>
    rw [← hregistered]
    exact .reading hj (hcompleted.trans hfresh)
  | stashed hj hdone hloaded =>
    refine .stashed hj (hcompleted.trans hdone) fun hres => ?_
    rw [Loaded, hbuf]
    exact hloaded (hresult ▸ hres)

theorem reads_of_ring (hperm : (t.sq ++ t.inflight).Perm (reads ++ out.map sendSqe)) :
    t.reads.Perm (reads.filterMap fun sqe => sqe.request.readInto) := by
  have hsends : (out.map sendSqe).filterMap (fun sqe => sqe.request.readInto) = [] := by
    simp [sendSqe, Request.readInto]
  have hmap := hperm.filterMap fun sqe => sqe.request.readInto
  rwa [List.filterMap_append (l := reads), hsends, List.append_nil] at hmap

theorem Ahead.outstanding (h : Ahead src fd offset j t reads)
    (hperm : (t.sq ++ t.inflight).Perm (reads ++ out.map sendSqe)) :
    t.reads = [] ∨ t.reads = [j % 2] ∧ t.readCompleted = false := by
  have hmap := reads_of_ring hperm
  cases h with
  | last => exact Or.inl (List.perm_nil.mp hmap)
  | reading _ hfresh => exact Or.inr ⟨List.perm_singleton.mp hmap, hfresh⟩
  | stashed => exact Or.inl (List.perm_nil.mp hmap)

theorem Ahead.point (h : Ahead src fd offset j t reads)
    (hperm : (t.sq ++ t.inflight).Perm (reads ++ out.map sendSqe)) (hgenuine : Genuine src base t) :
    Point src base t := by
  rcases h.outstanding hperm with hnone | ⟨hone, hfresh⟩
  · exact ⟨hgenuine, by simp [hnone], fun _ => hnone⟩
  · refine ⟨hgenuine, by simp [hone], fun hcompleted => ?_⟩
    rw [hfresh] at hcompleted
    cases hcompleted

theorem Ahead.read_only (h : Ahead src fd offset j t reads) {sqe : Sqe} (hsqe : sqe ∈ reads) :
    sqe = readSqe fd offset src.length j t.registered := by
  cases h with
  | last => cases hsqe
  | reading => exact List.mem_singleton.mp hsqe
  | stashed => cases hsqe

theorem Ahead.within (h : Ahead src fd offset (k + 1) t reads)
    (hperm : (t.sq ++ t.inflight).Perm (reads ++ out.map sendSqe)) (hgenuine : Genuine src base t)
    (hk : k < chunkCount src.length) (hloaded : Loaded src k t)
    (hslots : ∀ i ∈ out, i < fragCount (chunkLenAt src.length k) ∧
      t.slots (i % QUEUE_DEPTH) = slotOf src k i) : Within src base k t := by
  refine ⟨h.point hperm hgenuine, ?_, hloaded, fun slot userData hmem => ?_⟩
  · have hother : k % 2 ≠ (k + 1) % 2 := by omega
    rcases h.outstanding hperm with hnone | ⟨hone, -⟩
    · simp [hnone]
    · simpa [hone] using hother
  · rcases List.mem_append.mp (hperm.subset (List.mem_append_right _ hmem)) with hread | hsend
    · cases h.read_only hread
    · obtain ⟨i, hi, heq⟩ := List.mem_map.mp hsend
      obtain ⟨hlt, hslot⟩ := hslots i hi
      cases heq
      exact ⟨i, hlt, hloaded.points ⟨hk, hlt⟩ hslot⟩

theorem Sending.within (h : Sending src fd offset base f k n out t) (hk : k < chunkCount src.length)
    (hn : n ≤ fragCount (chunkLenAt src.length k)) : Within src base k t := by
  obtain ⟨reads, hahead, hperm⟩ := h.ring
  refine hahead.within hperm h.genuine hk h.loaded fun i hi => ?_
  obtain ⟨hlt, hslot⟩ := h.slots i hi
  exact ⟨Nat.lt_of_lt_of_le hlt hn, hslot⟩

theorem Within.prepare (h : Within src base k t) (i : ℕ) : Within src base k (t.prepare (sendSqe i)) := by
  have hreads : (t.prepare (sendSqe i)).reads = t.reads := by
    simp [Store.reads, Store.prepare, sendSqe, Request.readInto]
  refine ⟨⟨h.genuine, ?_, ?_⟩, ?_, h.loaded, h.points⟩
  · rw [hreads]
    exact h.single
  · rw [hreads]
    exact h.stash
  · rw [hreads]
    exact h.clear

theorem Within.unstashed {res : ℤ}
    (h : Within src base k { t with readCompleted := true, readResult := res }) : Within src base k t :=
  ⟨⟨h.genuine, h.single, fun _ => h.stash rfl⟩, h.clear, h.loaded, h.points⟩

theorem Sending.prepared (h : Sending src fd offset base f k n out t) (hnew : n ∉ out)
    (hslots : ∀ i ∈ out, i % QUEUE_DEPTH ≠ n % QUEUE_DEPTH) :
    Sending src fd offset base f k (n + 1) (n :: out)
      ((t.prepare (sendSqe n)).fillSlot (n % QUEUE_DEPTH) (slotOf src k n)) := by
  obtain ⟨reads, hahead, hperm⟩ := h.ring
  refine ⟨⟨reads, hahead.keep rfl rfl rfl rfl, ?_⟩, h.loaded, ?_, ?_, h.file, h.acked, h.earlier,
    h.genuine⟩
  · change ((t.sq ++ [sendSqe n]) ++ t.inflight).Perm _
    rw [List.append_assoc]
    refine List.Perm.trans List.perm_middle ?_
    refine (hperm.cons (sendSqe n)).trans ?_
    exact List.perm_middle.symm
  · intro i hi
    change i < n + 1 ∧ Function.update t.slots _ _ _ = _
    rcases List.mem_cons.mp hi with rfl | hi
    · exact ⟨Nat.lt_succ_self i, Function.update_self ..⟩
    · obtain ⟨hlt, hslot⟩ := h.slots i hi
      rw [Function.update_of_ne (hslots i hi)]
      exact ⟨Nat.lt_succ_of_lt hlt, hslot⟩
  · intro i hi
    rcases Nat.lt_or_eq_of_le (Nat.le_of_lt_succ hi) with hlt | rfl
    · exact (h.covered i hlt).imp_left (List.mem_cons_of_mem n)
    · exact Or.inl List.mem_cons_self

theorem Sending.reaped (h : Sending src fd offset base f k n out t) (hsrc : Holds f offset src)
    (hj : Wanted src (k + 1)) {l : List Sqe}
    (hperm : (t.sq ++ l).Perm (out.map sendSqe)) {res : ℤ} {v : Store}
    (hdone : completes arrives False (readSqe fd offset src.length (k + 1) t.registered).request res
      (t.ring t.sq l) v) :
    Sending src fd offset base f k n out { v with readCompleted := true, readResult := res } := by
  have hstart := hj.start
  rcases hdone with ⟨hres, rfl⟩ | ⟨g, m, hg, hle, -, hfull, rfl, rfl⟩
  · refine ⟨⟨[], .stashed hj rfl fun hpos => ?_, hperm⟩, h.loaded, h.slots, h.covered, h.file,
      h.acked, h.earlier, h.genuine⟩
    exact absurd hpos (Int.not_le.mpr hres)
  · have hsame : g = f := by
      have hfile : some g = some f := hg.symm.trans h.file
      exact Option.some.inj hfile
    subst hsame
    rw [source_read hsrc hstart hle hfull]
    refine ⟨⟨[], .stashed hj rfl fun _ => ?_, hperm⟩, ?_, h.slots, h.covered, h.file, h.acked,
      h.earlier, h.genuine⟩
    · exact loaded_fill t src (k + 1)
    · exact h.loaded.fill_next _

theorem Sending.done (h : Sending src fd offset base f k n out t) (hk : k < chunkCount src.length)
    (hn : n ≤ fragCount (chunkLenAt src.length k)) (hi : i ∈ out)
    (hahead : Ahead src fd offset (k + 1) t reads)
    {l : List Sqe} (hperm : (t.sq ++ l).Perm (reads ++ (out.erase i).map sendSqe)) {res : ℤ}
    {v : Store} (hres : ¬ res < 0)
    (hdone : completes arrives False (sendSqe i).request res (t.ring t.sq l) v) :
    Sending src fd offset base f k n (out.erase i) v := by
  rcases hdone with ⟨hneg, -⟩ | ⟨-, rfl⟩
  · exact absurd hneg hres
  obtain ⟨hlt, hslot⟩ := h.slots i hi
  have hdatagram : (t.ring t.sq l).datagram (i % QUEUE_DEPTH) = datagram src k i :=
    h.loaded.points ⟨hk, Nat.lt_of_lt_of_le hlt hn⟩ hslot
  rw [hdatagram]
  refine ⟨⟨reads, hahead.keep rfl rfl rfl rfl, hperm⟩, h.loaded,
    fun c hc => h.slots c (List.mem_of_mem_erase hc), fun c hc => ?_, h.file, h.acked,
    fun j hj c hc => List.mem_append_left _ (h.earlier j hj c hc), fun d hd => ?_⟩
  · by_cases hci : c = i
    · rw [hci]
      exact Or.inr (List.mem_append_right _ (List.mem_singleton_self _))
    · rcases h.covered c hc with hout | hsent
      · exact Or.inl ((List.mem_erase_of_ne hci).mpr hout)
      · exact Or.inr (List.mem_append_left _ hsent)
  · rcases List.mem_append.mp hd with hd | hd
    · exact h.genuine d hd
    · rw [List.mem_singleton.mp hd]
      exact ⟨k, i, ⟨hk, Nat.lt_of_lt_of_le (h.slots i hi).1 hn⟩, h.acked, rfl⟩

theorem sendSqe_tag (hn : i < 2 ^ 56) : getTag (sendSqe i).userData = SqeTag.toByte .send :=
  getTag_makeUserData _ hn

theorem readSqe_tag {fixed : Bool} {len : ℕ} :
    getTag (readSqe fd offset len j fixed).userData = SqeTag.toByte .read :=
  getTag_makeUserData _ (by omega)

theorem drainSends_sat {waitFailed sendFailed : String} {limit : ℕ} (hsrc : Holds f offset src)
    (hk : k < chunkCount src.length) (hn : n ≤ fragCount (chunkLenAt src.length k))
    (h : Sending src fd offset base f k n out t) :
    Sat (kernel os arrives False) (fun _ => Within src base k) (fun _ => Within src base k)
      (drainSends waitFailed sendFailed limit out.length)
      (fun r u => ∃ out', r = out'.length ∧ out'.length < limit ∧
        Sending src fd offset base f k n out' u) t := by
  have hmax := (fragCount_eq (chunkLenAt_le src.length k)).2
  have hseventeen : MAX_FRAGS_PER_CHUNK = 17 := by decide
  apply Sat.round fun r u => ∃ out', r = out'.length ∧ Sending src fd offset base f k n out' u
  · exact ⟨out, rfl, h⟩
  intro r u hu
  obtain ⟨out', rfl, hu⟩ := hu
  have hhere := hu.within hk hn
  refine ⟨hhere, ?_⟩
  split_ifs with hmore
  · refine sat_ask_bind.mpr ⟨hhere, fun cqe v hv => ?_⟩
    rcases hv with ⟨rfl, rfl⟩ | ⟨a, sqe, c, res, hin, rfl, hdone⟩
    · exact sat_raise.mpr ⟨hhere, hhere⟩
    obtain ⟨reads, hahead, hperm⟩ := hu.ring
    rcases done_cases hperm hin hahead.one with ⟨hone, hrest⟩ | ⟨i, hi, rfl, hrest⟩
    · obtain ⟨hj, rfl⟩ := hahead.reap hone
      have hnext := hu.reaped hsrc hj hrest hdone
      simp only [readSqe_tag, if_true]
      have hwithin := hnext.within hk hn
      exact ⟨hwithin.unstashed, hwithin, out', rfl, hnext⟩
    · have htag : SqeTag.send.toByte ≠ SqeTag.read.toByte := by decide
      have hsmall : i < 2 ^ 56 := by
        have hlt := (hu.slots i hi).1
        omega
      simp only [sendSqe_tag hsmall, if_neg htag, if_true]
      split_ifs with hres
      · rcases hdone with ⟨-, rfl⟩ | ⟨rfl, -⟩
        · have hlost : Within src base k (u.ring u.sq (a ++ c)) := by
            have hsame : Ahead src fd offset (k + 1) (u.ring u.sq (a ++ c)) reads :=
              hahead.keep rfl rfl rfl rfl
            refine hsame.within hrest hu.genuine hk hu.loaded fun j hj => ?_
            obtain ⟨hlt, hslot⟩ := hu.slots j (List.mem_of_mem_erase hj)
            exact ⟨Nat.lt_of_lt_of_le hlt hn, hslot⟩
          exact sat_raise.mpr ⟨hlost, hlost⟩
        · omega
      · have hnext := hu.done hk hn hi hahead hrest hres hdone
        refine sat_pure.mpr ⟨hnext.within hk hn, out'.erase i, ?_, hnext⟩
        exact (List.length_erase_of_mem hi).symm
  · exact sat_pure.mpr ⟨hhere, hhere, out', rfl, Nat.lt_of_not_le hmore, hu⟩

/-! ## From chunk to chunk -/

theorem prepareSends_sat (hk : k < chunkCount src.length)
    (h : Sending src fd offset base f k 0 [] t) :
    Sat (kernel os arrives False) (fun _ => Within src base k) (fun _ => Within src base k)
      (prepareSends (k % 2) k (chunkLenAt src.length k))
      (fun r u => ∃ out, r = out.length ∧
        Sending src fd offset base f k (fragCount (chunkLenAt src.length k)) out u) t := by
  have hmax := (fragCount_eq (chunkLenAt_le src.length k)).2
  have hseventeen : MAX_FRAGS_PER_CHUNK = 17 := by decide
  have hdepth : QUEUE_DEPTH = 256 := rfl
  apply Sat.round fun x u => x.1 ≤ fragCount (chunkLenAt src.length k) ∧ x.2 = x.1 ∧
    ∃ out, out.length = x.1 ∧ Sending src fd offset base f k x.1 out u
  · exact ⟨Nat.zero_le _, rfl, [], rfl, h⟩
  intro x u hx
  obtain ⟨n, m⟩ := x
  obtain ⟨hle, hm, out, hout, hu⟩ := hx
  dsimp only at hle hm hout hu
  subst hm
  have hhere := hu.within hk hle
  refine ⟨hhere, ?_⟩
  dsimp only
  split_ifs with hlt
  · have hnew : m ∉ out := fun hmem => Nat.lt_irrefl m (hu.slots m hmem).1
    have hslots : ∀ i ∈ out, i % QUEUE_DEPTH ≠ m % QUEUE_DEPTH := by
      intro i hi
      have hbefore := (hu.slots i hi).1
      rw [hdepth]
      omega
    have hnext := hu.prepared hnew hslots
    rw [awaitSlot, if_neg (by omega), pure_bind]
    refine Sat.andThen (prepare_sat hhere (hhere.prepare m) fun _ => hhere) fun _ v hv => ?_
    obtain ⟨-, rfl⟩ := hv
    refine sat_modify_bind.mpr ⟨hhere.prepare m, ?_⟩
    refine sat_pure.mpr ⟨hnext.within hk hlt, hlt, rfl, m :: out, ?_, hnext⟩
    rw [List.length_cons, hout]
  · have hend : m = fragCount (chunkLenAt src.length k) := Nat.le_antisymm hle (Nat.not_lt.mp hlt)
    rw [← hend]
    exact sat_pure.mpr ⟨hhere, hhere, out, hout.symm, hu⟩

theorem Sending.submit (h : Sending src fd offset base f k n out t) (hu : Adds [] t u) :
    Sending src fd offset base f k n out u := by
  obtain ⟨q, m, rfl, hflushed⟩ := hu
  obtain ⟨reads, hahead, hperm⟩ := h.ring
  exact ⟨⟨reads, hahead.keep rfl rfl rfl rfl, hflushed.trans hperm⟩, h.loaded, h.slots, h.covered,
    h.file, h.acked, h.earlier, h.genuine⟩

theorem sendChunk_sat (hsrc : Holds f offset src) (hk : k < chunkCount src.length)
    (h : Sending src fd offset base f k 0 [] t) :
    Sat (kernel os arrives False) (fun _ => Within src base k) (fun _ => Within src base k)
      (sendChunk (k % 2) k (chunkLenAt src.length k))
      (fun _ u => Sending src fd offset base f k (fragCount (chunkLenAt src.length k)) [] u) t := by
  rw [sendChunk]
  have hhere := h.within hk (Nat.zero_le _)
  refine Sat.andThen (inRange_sat hhere fun _ => hhere) fun _ u hu => ?_
  obtain ⟨-, rfl⟩ := hu
  refine Sat.andThen (prepareSends_sat hk h) fun r u hu => ?_
  obtain ⟨out, rfl, hu⟩ := hu
  refine Sat.andThen (submit_sat fun v hv => (hu.submit hv).within hk le_rfl) fun _ v hv => ?_
  refine Sat.andThen (drainSends_sat hsrc hk le_rfl (hu.submit hv)) fun r w hw => ?_
  obtain ⟨out', -, hnone, hw⟩ := hw
  rw [List.eq_nil_of_length_eq_zero (Nat.lt_one_iff.mp hnone)] at hw
  exact sat_pure.mpr ⟨hw.within hk le_rfl, hw⟩

theorem submitRead_sat {buf pos len : ℕ} (hidle : t.sq ++ t.inflight = [])
    (hfresh : t.readCompleted = false) (hj : Wanted src j) (hgenuine : Genuine src base t)
    (hbuf : buf = j % 2) (hpos : pos = offset + j * chunkSize) (hlen : len = chunkLenAt src.length j) :
    Sat (kernel os arrives False) (fun _ => Point src base) (fun _ => Point src base)
      (submitRead buf fd pos len)
      (fun _ u => ∃ q m, u = t.ring q m ∧ ∃ reads, Ahead src fd offset j u reads ∧
        (q ++ m).Perm reads) t := by
  subst hbuf hpos hlen
  have hnone : t.reads = [] := by
    rw [Store.reads, hidle, List.filterMap_nil]
  have hpoint : Point src base t := ⟨hgenuine, by simp [hnone], fun _ => hnone⟩
  have hadded : ∀ u, Adds [readSqe fd offset src.length j t.registered] t u →
      ∃ q m, u = t.ring q m ∧ Ahead src fd offset j u [readSqe fd offset src.length j t.registered] ∧
        (q ++ m).Perm [readSqe fd offset src.length j t.registered] := by
    rintro u ⟨q, m, rfl, hperm⟩
    rw [hidle] at hperm
    exact ⟨q, m, rfl, .reading hj hfresh, hperm⟩
  have hafter : ∀ u, Adds [readSqe fd offset src.length j t.registered] t u → Point src base u := by
    intro u hu
    obtain ⟨q, m, rfl, hahead, hperm⟩ := hadded u hu
    have hring : (q ++ m).Perm ([readSqe fd offset src.length j t.registered] ++ [].map sendSqe) := by
      rwa [List.map_nil, List.append_nil]
    exact hahead.point hring hgenuine
  rw [submitRead]
  refine Sat.andThen (inRange_sat hpoint fun _ => hpoint) fun _ u hu => ?_
  obtain ⟨-, rfl⟩ := hu
  refine sat_get_bind.mpr ⟨hpoint, ?_⟩
  refine Sat.andThen (prepare_sat hpoint (hafter _ (prepare_adds _ _)) fun _ => hpoint)
    fun _ v hv => ?_
  obtain ⟨-, rfl⟩ := hv
  refine (submit_sat fun v hv => hafter v ((prepare_adds _ _).trans hv)).weaken fun _ v hv => ?_
  obtain ⟨q, m, rfl, hahead, hperm⟩ := hadded v ((prepare_adds _ _).trans hv)
  exact ⟨q, m, rfl, _, hahead, hperm⟩

structure Waits (src : Bytes) (fd : Path) (offset base j : ℕ) (o : Option Op) (t : Store) : Prop
    extends Point src base t where
  reads : o = some .waitCqe →
    ∀ sqe ∈ t.sq ++ t.inflight, sqe = readSqe fd offset src.length j t.registered

def unexpectedTag : Exc := .runtimeError "wait_read: unexpected CQE tag"

theorem waitRead_sat (hsrc : Holds f offset src) (hahead : Ahead src fd offset j t reads)
    (hperm : (t.sq ++ t.inflight).Perm reads) (hfile : t.os.files fd = some f)
    (hgenuine : Genuine src base t) :
    Sat (kernel os arrives False) (Waits src fd offset base j)
      (fun e u => Point src base u ∧ e ≠ unexpectedTag) waitRead
      (fun _ u => u.sq ++ u.inflight = [] ∧ u.readCompleted = false ∧ Loaded src j u ∧
        u.os = t.os ∧ u.sent = t.sent) t := by
  have hperm' : (t.sq ++ t.inflight).Perm (reads ++ ([] : List ℕ).map sendSqe) := by
    rwa [List.map_nil, List.append_nil]
  have hpoint := hahead.point hperm' hgenuine
  have hhere : ∀ {o}, Waits src fd offset base j o t :=
    ⟨hpoint, fun _ sqe hsqe => hahead.read_only (hperm.subset hsqe)⟩
  rw [waitRead]
  refine sat_get_bind.mpr ⟨hhere, ?_⟩
  split_ifs with hcompleted
  · cases hahead with
    | last _ hfresh => exact absurd hcompleted (by rw [hfresh]; decide)
    | reading _ hfresh => exact absurd hcompleted (by rw [hfresh]; decide)
    | stashed _ _ hloaded =>
      have hnone := List.perm_nil.mp hperm
      have hcleared : Point src base { t with readCompleted := false } :=
        ⟨hgenuine, hpoint.single, by rintro ⟨⟩⟩
      refine sat_modify_bind.mpr ⟨hhere, Sat.when ?_ ?_⟩
      · exact fun _ => sat_raise.mpr ⟨⟨hcleared, by rintro ⟨⟩⟩, hcleared, by rintro ⟨⟩⟩
      · intro hres
        exact ⟨⟨hcleared, by rintro ⟨⟩⟩, hnone, rfl, hloaded (Int.not_lt.mp hres), rfl, rfl⟩
  · refine sat_ask_bind.mpr ⟨hhere, fun cqe v hv => ?_⟩
    rcases hv with ⟨rfl, rfl⟩ | ⟨a, sqe, c, res, hin, rfl, hdone⟩
    · exact sat_raise.mpr ⟨hhere, hpoint, by simp [unexpectedTag]⟩
    rcases done_cases hperm' hin hahead.one with ⟨hone, hrest⟩ | ⟨i, hi, -⟩
    · obtain ⟨hj, rfl⟩ := hahead.reap hone
      have hnone : t.sq ++ (a ++ c) = [] := List.perm_nil.mp hrest
      have hidle : ∀ {u : Store}, u.sq ++ u.inflight = [] → Genuine src base u →
          Waits src fd offset base j none u := by
        intro u hu hsent
        have hreads : u.reads = [] := by
          rw [Store.reads, hu, List.filterMap_nil]
        exact ⟨⟨hsent, by simp [hreads], fun _ => hreads⟩, by rintro ⟨⟩⟩
      simp only [readSqe_tag, if_true]
      rcases hdone with ⟨hres, rfl⟩ | ⟨g, m, hg, hle, -, hfull, rfl, rfl⟩
      · have hlost := hidle (u := t.ring t.sq (a ++ c)) hnone hgenuine
        refine Sat.when (fun _ => sat_raise.mpr ⟨hlost, hlost.toPoint, by rintro ⟨⟩⟩) fun hpos => ?_
        exact absurd hres hpos
      · have hsame : g = f := by
          have hthere : some g = some f := hg.symm.trans hfile
          exact Option.some.inj hthere
        subst hsame
        rw [source_read hsrc hj.start hle hfull]
        have hfilled := hidle
          (u := (t.ring t.sq (a ++ c)).fillChunk (j % 2) (chunkOf src j)) hnone hgenuine
        refine Sat.when (fun _ => sat_raise.mpr ⟨hfilled, hfilled.toPoint, by rintro ⟨⟩⟩) fun _ => ?_
        exact ⟨hfilled, hnone, Bool.eq_false_of_not_eq_true hcompleted, loaded_fill t src j,
          rfl, rfl⟩
    · cases hi

theorem Genuine.more {w : World} (h : Genuine src base t) (hread : t.os.read ≤ w.read) :
    Genuine src base { t with os := w } := by
  intro d hd
  obtain ⟨k, i, hpiece, hacked, hdatagram⟩ := h d hd
  exact ⟨k, i, hpiece, Nat.le_trans hacked hread, hdatagram⟩

theorem Point.more {w : World} (h : Point src base t) (hread : t.os.read ≤ w.read) :
    Point src base { t with os := w } := ⟨h.genuine.more hread, h.single, h.stash⟩

theorem recvControl_sat {len : ℕ} (h : Point src base t) :
    Sat (kernel (socket fun _ => Y) arrives False) (fun _ => Point src base)
      (fun _ => Point src base) ((recvExact tcp len).embed control)
      (fun _ u => ∃ w : World, w.read = t.os.read + len ∧ w.files = t.os.files ∧
        u = { t with os := w }) t := by
  refine (control_sat (DataPlane.recvExact_sat len t.os) fun o w hw => ?_).weaken fun bs u hu => ?_
  · obtain ⟨bs, -, hgot, -⟩ := hw
    exact h.more (hgot.read ▸ Nat.le_add_right _ _)
  · obtain ⟨w, ⟨hlen, hgot⟩, rfl⟩ := hu
    exact ⟨w, by rw [hgot.read, hlen], hgot.files, rfl⟩

theorem Ready.point (h : Ready src fd base f k t) : Point src base t := by
  have hnone : t.reads = [] := by
    rw [Store.reads, h.idle, List.filterMap_nil]
  exact ⟨h.genuine, by simp [hnone], fun _ => hnone⟩

theorem Ready.sending (h : Ready src fd base f k t) (hk : k < chunkCount src.length)
    {q m : List Sqe} (hahead : Ahead src fd offset (k + 1) (t.ring q m) reads)
    (hperm : (q ++ m).Perm reads) : Sending src fd offset base f k 0 [] (t.ring q m) := by
  refine ⟨⟨reads, hahead, ?_⟩, h.loaded hk, ?_, ?_, h.file, h.acked, h.earlier, h.genuine⟩
  · rwa [List.map_nil, List.append_nil]
  · intro i hi
    cases hi
  · intro i hi
    exact absurd hi (Nat.not_lt_zero i)

theorem Sending.all (h : Sending src fd offset base f k (fragCount (chunkLenAt src.length k)) [] t) :
    ∀ j < k + 1, ∀ i < fragCount (chunkLenAt src.length j), datagram src j i ∈ t.sent := by
  intro j hj i hi
  rcases Nat.lt_or_eq_of_le (Nat.le_of_lt_succ hj) with hlt | rfl
  · exact h.earlier j hlt i hi
  · rcases h.covered i hi with hout | hsent
    · cases hout
    · exact hsent

structure Acked (src : Bytes) (fd : Path) (offset base : ℕ) (f : Bytes) (k : ℕ) (t : Store) :
    Prop where
  ring : ∃ reads, Ahead src fd offset k t reads ∧ (t.sq ++ t.inflight).Perm reads
  file : t.os.files fd = some f
  acked : base + 1 + 4 * k ≤ t.os.read
  earlier : ∀ j < k, ∀ i < fragCount (chunkLenAt src.length j), datagram src j i ∈ t.sent
  genuine : Genuine src base t

theorem Acked.point (h : Acked src fd offset base f k t) : Point src base t := by
  obtain ⟨reads, hahead, hperm⟩ := h.ring
  have hring : (t.sq ++ t.inflight).Perm (reads ++ [].map sendSqe) := by
    rwa [List.map_nil, List.append_nil]
  exact hahead.point hring h.genuine

theorem recvAck_sat (hk : k < chunkCount src.length)
    (h : Sending src fd offset base f k (fragCount (chunkLenAt src.length k)) [] t) :
    Sat (kernel (socket fun _ => Y) arrives False) (fun _ => Point src base)
      (fun _ => Point src base) (recvAck k) (fun _ u => Acked src fd offset base f (k + 1) u) t := by
  obtain ⟨reads, hahead, hperm⟩ := h.ring
  rw [List.map_nil, List.append_nil] at hperm
  have hpoint := (h.within hk le_rfl).toPoint
  rw [recvAck]
  refine Sat.andThen (recvControl_sat hpoint) fun ack u hu => ?_
  obtain ⟨w, hread, hfiles, rfl⟩ := hu
  have hmore : Point src base { t with os := w } := hpoint.more (by omega)
  have hacked := h.acked
  refine Sat.when (fun _ => sat_raise.mpr ⟨hmore, hmore⟩) fun _ => ⟨hmore, ?_⟩
  refine ⟨⟨reads, hahead.keep rfl rfl rfl rfl, hperm⟩, ?_, ?_, h.all, hmore.genuine⟩
  · rw [hfiles]
    exact h.file
  · change base + 1 + 4 * (k + 1) ≤ w.read
    omega

theorem Acked.ready_last (h : Acked src fd offset base f (k + 1) t)
    (hlast : ¬ k + 1 < chunkCount src.length) : Ready src fd base f (k + 1) t := by
  obtain ⟨reads, hahead, hperm⟩ := h.ring
  have hnone : ¬ Wanted src (k + 1) := by
    intro hwanted
    exact hwanted.elim (Nat.succ_ne_zero k) hlast
  cases hahead with
  | last _ hfresh =>
    exact ⟨List.perm_nil.mp hperm, hfresh, fun hk => absurd hk hlast, h.file, h.acked, h.earlier,
      h.genuine⟩
  | reading hj => exact absurd hj hnone
  | stashed hj => exact absurd hj hnone

theorem Acked.wait_sat (hsrc : Holds f offset src) (h : Acked src fd offset base f k t) :
    Sat (kernel os arrives False) (Waits src fd offset base k)
      (fun e u => Point src base u ∧ e ≠ unexpectedTag) waitRead
      (fun _ u => Ready src fd base f k u) t := by
  obtain ⟨reads, hahead, hperm⟩ := h.ring
  refine (waitRead_sat hsrc hahead hperm h.file h.genuine).weaken fun _ u hu => ?_
  obtain ⟨hidle, hfresh, hloaded, hos, hsent⟩ := hu
  refine ⟨hidle, hfresh, fun _ => hloaded, ?_, ?_, ?_, ?_⟩
  · rw [hos]
    exact h.file
  · rw [hos]
    exact h.acked
  · rw [hsent]
    exact h.earlier
  · rw [Genuine, hos, hsent]
    exact h.genuine

theorem Acked.waited_sat (hsrc : Holds f offset src) (h : Acked src fd offset base f k t) :
    Sat (kernel os arrives False) (fun _ => Point src base) (fun _ => Point src base) waitRead
      (fun _ u => Ready src fd base f k u) t :=
  ((h.wait_sat hsrc).inside fun _ _ hw => hw.toPoint).throws fun _ _ hw => hw.1

/-! ## The parts of a run -/

def coldRead (fd : Path) (offset len : ℕ) : Prog Udp Unit := do
  let _ ← (recvExact tcp 1).embed control
  submitRead 0 fd offset (min len chunkSize)

def readAhead (fd : Path) (offset len k : ℕ) : Prog Udp Unit :=
  .when (k + 1 < chunkCount len)
    (submitRead ((k + 1) % 2) fd (offset + (k + 1) * chunkSize) (chunkLenAt len (k + 1)))

theorem sendFile_eq (fd : Path) (offset len : ℕ) : sendFile fd offset len = (do
    coldRead fd offset len
    waitRead
    .repeatUntil (sendNext fd offset len) 0) := by
  simp only [sendFile, coldRead, bind_assoc]

theorem sendNext_eq {len : ℕ} (fd : Path) (offset : ℕ) (hk : k < chunkCount len) :
    sendNext fd offset len k = (do
      readAhead fd offset len k
      sendChunk (k % 2) k (chunkLenAt len k)
      recvAck k
      .when (k + 1 < chunkCount len) waitRead
      pure (.inl (k + 1))) := by
  rw [sendNext, if_pos hk]
  rfl

/-- A transport before a call of `send_file`, with the account of it still empty. -/
structure Idle (s : Store) : Prop where
  ring : s.sq ++ s.inflight = []
  fresh : s.readCompleted = false
  sent : s.sent = []

theorem idle_init (w : World) (registered : Bool) : Idle (.init w registered) := ⟨rfl, rfl, rfl⟩

theorem coldRead_sat (hs : Idle s) (hf : s.os.files fd = some f) :
    Sat (kernel (socket fun _ => Y) arrives False) (fun _ => Point src s.os.read)
      (fun _ => Point src s.os.read) (coldRead fd offset src.length)
      (fun _ u => Acked src fd offset s.os.read f 0 u) s := by
  have hstart : ∀ v, Genuine src s.os.read { s with os := v } := by
    intro v d hd
    change d ∈ s.sent at hd
    rw [hs.sent] at hd
    cases hd
  have hnone : s.reads = [] := by
    rw [Store.reads, hs.ring, List.filterMap_nil]
  have hpoint : Point src s.os.read s := ⟨hstart s.os, by simp [hnone], fun _ => hnone⟩
  refine Sat.andThen (recvControl_sat hpoint) fun _ t ht => ?_
  obtain ⟨v, hread, hfiles, rfl⟩ := ht
  have hpos : offset = offset + 0 * chunkSize := by simp
  have hlen : min src.length chunkSize = chunkLenAt src.length 0 := by simp [chunkLenAt]
  refine (submitRead_sat (t := { s with os := v }) hs.ring hs.fresh (Or.inl rfl) (hstart v) rfl hpos
    hlen).weaken fun _ u hu => ?_
  obtain ⟨q, m, rfl, reads, hahead, hperm⟩ := hu
  refine ⟨⟨reads, hahead, hperm⟩, ?_, le_of_eq hread.symm, ?_, hstart v⟩
  · change v.files fd = some f
    rw [hfiles]
    exact hf
  · intro j hj
    exact absurd hj (Nat.not_lt_zero j)

theorem readAhead_sat (h : Ready src fd base f k t) (hk : k < chunkCount src.length) :
    Sat (kernel os arrives False) (fun _ => Point src base) (fun _ => Point src base)
      (readAhead fd offset src.length k) (fun _ u => Sending src fd offset base f k 0 [] u) t := by
  apply Sat.when
  · intro hnext
    refine (submitRead_sat h.idle h.fresh (Or.inr hnext) h.genuine rfl rfl rfl).weaken
      fun _ u hu => ?_
    obtain ⟨q, m, rfl, reads, hahead, hperm⟩ := hu
    exact h.sending hk hahead hperm
  · intro hlast
    refine ⟨h.point, ?_⟩
    have hahead : Ahead src fd offset (k + 1) (t.ring t.sq t.inflight) [] :=
      .last (Nat.not_lt.mp hlast) h.fresh
    exact h.sending hk hahead (List.perm_nil.mpr h.idle)

theorem sendNext_sat (hsrc : Holds f offset src) (h : Ready src fd base f k t) :
    Sat (kernel (socket fun _ => Y) arrives False) (fun _ => Point src base)
      (fun _ => Point src base) (sendNext fd offset src.length k)
      (fun r u => r.elim (fun k' => k' = k + 1 ∧ k < chunkCount src.length ∧ Ready src fd base f k' u)
        (fun _ => chunkCount src.length ≤ k ∧ u = t)) t := by
  by_cases hk : k < chunkCount src.length
  · rw [sendNext_eq fd offset hk]
    refine Sat.andThen (readAhead_sat h hk) fun _ u hu => ?_
    have hchunk : Sat (kernel (socket fun _ => Y) arrives False) (fun _ => Point src base)
        (fun _ => Point src base) (sendChunk (k % 2) k (chunkLenAt src.length k))
        (fun _ v => Sending src fd offset base f k (fragCount (chunkLenAt src.length k)) [] v) u :=
      ((sendChunk_sat hsrc hk hu).inside fun _ _ hw => hw.toPoint).throws fun _ _ hw => hw.toPoint
    refine Sat.andThen hchunk fun _ v hv => ?_
    refine Sat.andThen (recvAck_sat hk hv) fun _ w hw => ?_
    have hready : Sat (kernel (socket fun _ => Y) arrives False) (fun _ => Point src base)
        (fun _ => Point src base) (.when (k + 1 < chunkCount src.length) waitRead)
        (fun _ u => Ready src fd base f (k + 1) u) w := by
      apply Sat.when
      · exact fun _ => hw.waited_sat hsrc
      · exact fun hlast => ⟨hw.point, hw.ready_last hlast⟩
    exact Sat.andThen hready fun _ x hx => sat_pure.mpr ⟨hx.point, rfl, hk, hx⟩
  · rw [sendNext, if_neg hk]
    exact sat_pure.mpr ⟨h.point, Nat.not_lt.mp hk, rfl⟩

theorem sendFile_sat (hsrc : Holds f offset src) (hs : Idle s) (hf : s.os.files fd = some f) :
    Sat (kernel (socket fun _ => Y) arrives False) (fun _ => Point src s.os.read)
      (fun _ => Point src s.os.read) (sendFile fd offset src.length)
      (fun _ u => ∀ k i, Piece src k i → datagram src k i ∈ u.sent) s := by
  rw [sendFile_eq]
  refine Sat.andThen (coldRead_sat hs hf) fun _ t ht => ?_
  refine Sat.andThen (ht.waited_sat hsrc) fun _ x hx => ?_
  apply Sat.round fun k t => k ≤ chunkCount src.length ∧ Ready src fd s.os.read f k t
  · exact ⟨Nat.zero_le _, hx⟩
  intro k t hk
  obtain ⟨hle, ht⟩ := hk
  refine ⟨ht.point, (sendNext_sat hsrc ht).weaken fun r y hy => ?_⟩
  cases r with
  | inl k' =>
    obtain ⟨rfl, hlt, hy⟩ := hy
    exact ⟨hlt, hy⟩
  | inr _ =>
    obtain ⟨hge, rfl⟩ := hy
    have hend : k = chunkCount src.length := Nat.le_antisymm hle hge
    subst hend
    exact ⟨ht.point, fun k i hpiece => ht.earlier k hpiece.chunk i hpiece.frag⟩

end Embr.UdpTransport
