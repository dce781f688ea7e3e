import Embr.Delivery
import Embr.Lib.Workers

/-!
# Hashing the chunks of a file in parallel

`sha256_buf` and `hash_compute_parallel` of `core/hash.cpp`. The workers share
the counter of the next chunk, the hashes and the exceptions, and take turns in
any order; a `fetch_add` is one step, and so is the hash of one chunk. The
digest comes from OpenSSL and may fail on any chunk.
-/

open Octets Workers
open Embr.Protocol
namespace Embr.Hashing

/-- What `sha256_buf` throws. -/
def hashErrors : List Exc :=
  [.runtimeError "EVP_MD_CTX_new failed",
   .runtimeError "sha256_buf: EVP_DigestInit_ex() failed",
   .runtimeError "sha256_buf: EVP_DigestUpdate() failed",
   .runtimeError "sha256_buf: EVP_DigestFinal_ex() failed"]

structure Shared where
  nextChunk : UInt32
  chunkHashes : List Hash
  workerExceptions : List (Option Exc)

inductive Phase
  | claiming
  | hashing (chunk : UInt32)
  | caught (e : Exc)
  | left

inductive Event
  | claim (chunk : UInt32)
  | hash (chunk : UInt32)
  | throw (chunk : UInt32) (e : Exc)
  | store (e : Exc)

section
variable (sha256 : Bytes → Hash) (mapped : Bytes) (fileSize : ℕ) (chunkCount : UInt32)

def hashChunk (i : ℕ) : Hash := sha256 (slice mapped (i * chunkSize) (chunkLen fileSize i))

inductive Worker : ℕ → Shared → Phase → Event → Shared → Phase → Prop where
  | claim {t : ℕ} {s : Shared} : s.nextChunk < chunkCount →
      Worker t s .claiming (.claim s.nextChunk) { s with nextChunk := s.nextChunk + 1 }
        (.hashing s.nextChunk)
  | leave {t : ℕ} {s : Shared} : chunkCount ≤ s.nextChunk →
      Worker t s .claiming (.claim s.nextChunk) { s with nextChunk := s.nextChunk + 1 } .left
  | hash {t : ℕ} {s : Shared} {i : UInt32} :
      Worker t s (.hashing i) (.hash i)
        { s with chunkHashes := s.chunkHashes.set i.toNat (hashChunk sha256 mapped fileSize i.toNat) }
        .claiming
  | throw {t : ℕ} {s : Shared} {i : UInt32} {e : Exc} : e ∈ hashErrors →
      Worker t s (.hashing i) (.throw i e) s (.caught e)
  | store {t : ℕ} {s : Shared} {e : Exc} :
      Worker t s (.caught e) (.store e)
        { s with workerExceptions := s.workerExceptions.set t (some e) } .left

def begin (w : ℕ) : State Shared Phase :=
  ⟨⟨0, List.replicate chunkCount.toNat zeroHash, List.replicate w none⟩, fun _ => .claiming⟩

/-- What the call makes of it when all workers are joined. -/
def result (s : Shared) : Except Exc (List Hash) :=
  match s.workerExceptions.findSome? id with
  | some e => .error e
  | none => .ok s.chunkHashes

abbrev Hashed (w : ℕ) : List Event → State Shared Phase → Prop :=
  Run (Worker sha256 mapped fileSize chunkCount) w (begin chunkCount w)

/-- What `w` workers can answer on a mapping. -/
def Computes (w : ℕ) (r : Except Exc (List Hash)) : Prop :=
  ∃ ls s, Hashed sha256 mapped fileSize chunkCount w ls s ∧ AllJoined (· = .left) w s ∧
    r = result s.shared

end

/-! ## Each chunk is claimed once -/

def Phase.isLeft : Phase → ℕ
  | .left => 1
  | _ => 0

def Phase.isHashing (i : ℕ) : Phase → ℕ
  | .hashing chunk => if chunk.toNat = i then 1 else 0
  | _ => 0

def Phase.todo : Phase → ℕ
  | .hashing _ => 2
  | .caught _ => 1
  | _ => 0

def Event.attempt : Event → Option ℕ
  | .hash chunk => some chunk.toNat
  | .throw chunk _ => some chunk.toNat
  | _ => none

def Event.hashed : Event → Option ℕ
  | .hash chunk => some chunk.toNat
  | _ => none

def Event.tried (i : ℕ) : Event → ℕ
  | .hash chunk => if chunk.toNat = i then 1 else 0
  | .throw chunk _ => if chunk.toNat = i then 1 else 0
  | _ => 0

def tries (i : ℕ) (ls : List Event) : ℕ := (ls.filterMap Event.attempt).count i

@[simp] theorem tries_nil (i : ℕ) : tries i [] = 0 := rfl

@[simp] theorem tries_concat (i : ℕ) (ls : List Event) (l : Event) :
    tries i (ls ++ [l]) = tries i ls + l.tried i := by
  rw [tries, List.filterMap_append, List.count_append]
  cases l with
  | claim | store => rfl
  | hash | throw => simp [tries, Event.tried, Event.attempt, List.count_singleton]

/-- The counter has run past the end at most once for each worker that left, and
every chunk below it was tried or is being hashed by one worker. -/
structure Counted (chunkCount : UInt32) (w : ℕ) (ls : List Event) (s : State Shared Phase) :
    Prop where
  counter : s.shared.nextChunk.toNat ≤ chunkCount.toNat + tally w Phase.isLeft s.place
  owner : ∀ i, tries i ls + tally w (Phase.isHashing i) s.place =
    if i < s.shared.nextChunk.toNat ∧ i < chunkCount.toNat then 1 else 0
  length : ls.length + tally w Phase.todo s.place ≤ 3 * s.shared.nextChunk.toNat

section
variable {sha256 : Bytes → Hash} {mapped : Bytes} {fileSize : ℕ} {chunkCount : UInt32} {w : ℕ}
  {ls : List Event} {s : State Shared Phase}

theorem Counted.room {t : ℕ} (h : Counted chunkCount w ls s)
    (hsum : chunkCount.toNat + w < 2 ^ 32) (ht : t < w) (hp : s.place t = .claiming) :
    (s.shared.nextChunk + 1).toNat = s.shared.nextChunk.toNat + 1 := by
  have hlt : tally w Phase.isLeft s.place < w * 1 := by
    apply tally_lt (fun p => ?_) ht
    · rw [hp]
      exact Nat.zero_lt_one
    · cases p <;> simp [Phase.isLeft]
  have hcounter := h.counter
  have hone : (1 : UInt32).toNat = 1 := rfl
  rw [UInt32.toNat_add]
  omega

theorem Counted.move {t : ℕ} {l : Event} {x : Shared} {p : Phase} (h : Counted chunkCount w ls s)
    (hsum : chunkCount.toNat + w < 2 ^ 32) (ht : t < w)
    (hmove : Worker sha256 mapped fileSize chunkCount t s.shared (s.place t) l x p) :
    Counted chunkCount w (ls ++ [l]) ⟨x, Function.update s.place t p⟩ := by
  have hleft := tally_move Phase.isLeft s.place ht p
  have htodo := tally_move Phase.todo s.place ht p
  have hbusy := fun i => tally_move (Phase.isHashing i) s.place ht p
  have hroom := h.room hsum ht
  have hcounter := h.counter
  have hlength := h.length
  have howner := h.owner
  generalize hp : s.place t = q at hmove hleft htodo hbusy hroom
  cases hmove with
  | claim hlt =>
    have hlt := UInt32.lt_iff_toNat_lt.mp hlt
    have hroom := hroom rfl
    refine ⟨?_, fun i => ?_, ?_⟩
    · simp only [Phase.isLeft] at hleft ⊢
      omega
    · have hi := howner i
      have hbusy := hbusy i
      simp only [tries_concat, Event.tried, Phase.isHashing, hroom] at hi hbusy ⊢
      split_ifs at hi hbusy ⊢ <;> omega
    · simp only [List.length_append, List.length_singleton, Phase.todo, hroom] at htodo ⊢
      omega
  | leave hle =>
    have hle := UInt32.le_iff_toNat_le.mp hle
    have hroom := hroom rfl
    refine ⟨?_, fun i => ?_, ?_⟩
    · simp only [Phase.isLeft] at hleft ⊢
      omega
    · have hi := howner i
      have hbusy := hbusy i
      simp only [tries_concat, Event.tried, Phase.isHashing, hroom] at hi hbusy ⊢
      split_ifs at hi ⊢ <;> omega
    · simp only [List.length_append, List.length_singleton, Phase.todo, hroom] at htodo ⊢
      omega
  | hash | throw =>
    refine ⟨?_, fun i => ?_, ?_⟩
    · simp only [Phase.isLeft] at hleft ⊢
      omega
    · have hi := howner i
      have hbusy := hbusy i
      simp only [tries_concat, Event.tried, Phase.isHashing] at hi hbusy ⊢
      split_ifs at hi hbusy ⊢ <;> omega
    · simp only [List.length_append, List.length_singleton, Phase.todo] at htodo ⊢
      omega
  | store =>
    refine ⟨?_, fun i => ?_, ?_⟩
    · simp only [Phase.isLeft] at hleft ⊢
      omega
    · have hi := howner i
      have hbusy := hbusy i
      simp only [tries_concat, Event.tried, Phase.isHashing] at hi hbusy ⊢
      split_ifs at hi ⊢ <;> omega
    · simp only [List.length_append, List.length_singleton, Phase.todo] at htodo ⊢
      omega

theorem counted (hsum : chunkCount.toNat + w < 2 ^ 32)
    (h : Hashed sha256 mapped fileSize chunkCount w ls s) : Counted chunkCount w ls s := by
  refine h.inv ?_ fun ls s t l x p _ hs ht hmove => hs.move hsum ht hmove
  have hzero : ∀ f : Phase → ℕ, f .claiming = 0 → tally w f (begin chunkCount w).place = 0 :=
    fun f hf => tally_const 0 fun _ _ => hf
  refine ⟨Nat.zero_le _, fun i => ?_, ?_⟩
  · rw [hzero _ rfl]
    rfl
  · rw [hzero _ rfl]
    rfl

/-! ## What the workers leave behind -/

structure Filled (sha256 : Bytes → Hash) (mapped : Bytes) (fileSize : ℕ) (chunkCount : UInt32)
    (ls : List Event) (s : State Shared Phase) : Prop where
  inside : ∀ t i, s.place t = .hashing i → i.toNat < chunkCount.toNat
  size : s.shared.chunkHashes.length = chunkCount.toNat
  stored : ∀ i, .hash i ∈ ls →
    s.shared.chunkHashes[i.toNat]? = some (hashChunk sha256 mapped fileSize i.toNat)

theorem Filled.move {t : ℕ} {l : Event} {x : Shared} {p : Phase}
    (h : Filled sha256 mapped fileSize chunkCount ls s)
    (hmove : Worker sha256 mapped fileSize chunkCount t s.shared (s.place t) l x p) :
    Filled sha256 mapped fileSize chunkCount (ls ++ [l]) ⟨x, Function.update s.place t p⟩ := by
  have hold : ∀ q, (∀ i, q = .hashing i → i.toNat < chunkCount.toNat) →
      ∀ u i, Function.update s.place t q u = .hashing i → i.toNat < chunkCount.toNat := by
    intro q hq u i hu
    by_cases hut : u = t
    · rw [hut, Function.update_self] at hu
      exact hq i hu
    · rw [Function.update_of_ne hut] at hu
      exact h.inside u i hu
  have hmem : ∀ {i}, (∀ i, l ≠ .hash i) → .hash i ∈ ls ++ [l] → .hash i ∈ ls := by
    intro i hl hi
    rcases List.mem_append.mp hi with hi | hi
    · exact hi
    · exact absurd (List.mem_singleton.mp hi).symm (hl i)
  generalize hp : s.place t = q at hmove
  cases hmove with
  | claim hlt =>
    refine ⟨hold _ fun i hi => ?_, h.size, fun i hi => h.stored i (hmem (by simp) hi)⟩
    cases hi
    exact UInt32.lt_iff_toNat_lt.mp hlt
  | leave | throw | store =>
    exact ⟨hold _ (by simp), h.size, fun i hi => h.stored i (hmem (by simp) hi)⟩
  | @hash i =>
    have hi := h.inside t i hp
    refine ⟨hold _ (by simp), ?_, fun j hj => ?_⟩
    · rw [List.length_set]
      exact h.size
    · change (List.set _ _ _)[j.toNat]? = _
      rw [List.getElem?_set]
      split_ifs with heq hlen
      · rw [heq]
      · rw [h.size] at hlen
        exact absurd hi hlen
      · rcases List.mem_append.mp hj with hj | hj
        · exact h.stored j hj
        · cases List.mem_singleton.mp hj
          exact absurd rfl heq

theorem filled (h : Hashed sha256 mapped fileSize chunkCount w ls s) :
    Filled sha256 mapped fileSize chunkCount ls s := by
  refine h.inv ?_ fun ls s t l x p _ hs _ hmove => hs.move hmove
  exact ⟨(fun _ _ h => nomatch h), List.length_replicate, (fun _ h => nomatch h)⟩

structure Excepted (chunkCount : UInt32) (w : ℕ) (ls : List Event) (s : State Shared Phase) :
    Prop where
  slots : s.shared.workerExceptions.length = w
  caught : ∀ t e, s.place t = .caught e → ∃ i, .throw i e ∈ ls
  settled : ∀ t e, s.shared.workerExceptions[t]? = some (some e) →
    s.place t = .left ∧ ∃ i, .throw i e ∈ ls
  known : ∀ i e, .throw i e ∈ ls → e ∈ hashErrors
  thrown : ∀ i e, .throw i e ∈ ls →
    ∃ t < w, s.place t = .caught e ∨ s.shared.workerExceptions[t]? = some (some e)
  left : ∀ t, s.place t = .left → s.shared.workerExceptions[t]? = some none →
    chunkCount.toNat ≤ s.shared.nextChunk.toNat

theorem Excepted.elsewhere {t : ℕ} {l : Event} {x : Shared} {p : Phase}
    (h : Excepted chunkCount w ls s) (ht : t < w) (hx : x.workerExceptions = s.shared.workerExceptions)
    (hnext : s.shared.nextChunk.toNat ≤ x.nextChunk.toNat)
    (hold : s.place t ≠ .left ∧ ∀ e, s.place t ≠ .caught e)
    (hcaught : ∀ e, p = .caught e → ∃ i, l = .throw i e)
    (hthrow : ∀ i e, l = .throw i e → p = .caught e ∧ e ∈ hashErrors)
    (hleft : p = .left → chunkCount.toNat ≤ x.nextChunk.toNat) :
    Excepted chunkCount w (ls ++ [l]) ⟨x, Function.update s.place t p⟩ := by
  have hmem : ∀ {i e}, .throw i e ∈ ls ++ [l] → .throw i e ∈ ls ∨ l = .throw i e := by
    intro i e hi
    exact (List.mem_append.mp hi).imp_right fun hi => (List.mem_singleton.mp hi).symm
  refine ⟨?_, fun u e hu => ?_, fun u e hu => ?_, fun i e hi => ?_, fun i e hi => ?_,
    fun u hu hnone => ?_⟩
  · rw [hx]
    exact h.slots
  · by_cases hut : u = t
    · rw [hut] at hu
      change Function.update s.place t p t = _ at hu
      rw [Function.update_self] at hu
      obtain ⟨i, hl⟩ := hcaught e hu
      exact ⟨i, by simp [hl]⟩
    · change Function.update s.place t p u = _ at hu
      rw [Function.update_of_ne hut] at hu
      obtain ⟨i, hi⟩ := h.caught u e hu
      exact ⟨i, List.mem_append_left _ hi⟩
  · rw [hx] at hu
    obtain ⟨hplace, i, hi⟩ := h.settled u e hu
    have hut : u ≠ t := fun hut => hold.1 (hut ▸ hplace)
    refine ⟨?_, i, List.mem_append_left _ hi⟩
    change Function.update s.place t p u = _
    rw [Function.update_of_ne hut]
    exact hplace
  · rcases hmem hi with hi | hl
    · exact h.known i e hi
    · exact (hthrow i e hl).2
  · rcases hmem hi with hi | hl
    · obtain ⟨u, huw, hu⟩ := h.thrown i e hi
      refine ⟨u, huw, hu.imp (fun hu => ?_) fun hu => ?_⟩
      · have hut : u ≠ t := fun hut => hold.2 e (hut ▸ hu)
        change Function.update s.place t p u = _
        rw [Function.update_of_ne hut]
        exact hu
      · rw [hx]
        exact hu
    · exact ⟨t, ht, Or.inl ((Function.update_self ..).trans (hthrow i e hl).1)⟩
  · rw [hx] at hnone
    by_cases hut : u = t
    · rw [hut] at hu
      change Function.update s.place t p t = _ at hu
      rw [Function.update_self] at hu
      exact hleft hu
    · change Function.update s.place t p u = _ at hu
      rw [Function.update_of_ne hut] at hu
      exact (h.left u hu hnone).trans hnext

theorem Excepted.store {t : ℕ} {e : Exc} (h : Excepted chunkCount w ls s) (ht : t < w)
    (hp : s.place t = .caught e) :
    Excepted chunkCount w (ls ++ [.store e])
      ⟨{ s.shared with workerExceptions := s.shared.workerExceptions.set t (some e) },
        Function.update s.place t .left⟩ := by
  obtain ⟨i₀, hthrown⟩ := h.caught t e hp
  have hlen := h.slots
  have hset : (s.shared.workerExceptions.set t (some e))[t]? = some (some e) :=
    List.getElem?_set_self (by omega)
  have hne : ∀ u, u ≠ t → (s.shared.workerExceptions.set t (some e))[u]? =
      s.shared.workerExceptions[u]? := fun u hu => List.getElem?_set_ne (Ne.symm hu)
  have hmem : ∀ {i e'}, .throw i e' ∈ ls ++ [.store e] → .throw i e' ∈ ls := by
    intro i e' hi
    simpa using hi
  refine ⟨?_, fun u e' hu => ?_, fun u e' hu => ?_, fun i e' hi => h.known i e' (hmem hi),
    fun i e' hi => ?_, fun u hu hnone => ?_⟩
  · rw [List.length_set]
    exact hlen
  · change Function.update s.place t .left u = _ at hu
    by_cases hut : u = t
    · rw [hut, Function.update_self] at hu
      cases hu
    · rw [Function.update_of_ne hut] at hu
      obtain ⟨i, hi⟩ := h.caught u e' hu
      exact ⟨i, List.mem_append_left _ hi⟩
  · change (s.shared.workerExceptions.set t (some e))[u]? = _ at hu
    change Function.update s.place t .left u = _ ∧ _
    by_cases hut : u = t
    · rw [hut, hset] at hu
      cases hu
      rw [hut, Function.update_self]
      exact ⟨rfl, i₀, List.mem_append_left _ hthrown⟩
    · rw [hne u hut] at hu
      obtain ⟨hplace, i, hi⟩ := h.settled u e' hu
      rw [Function.update_of_ne hut]
      exact ⟨hplace, i, List.mem_append_left _ hi⟩
  · obtain ⟨u, huw, hu⟩ := h.thrown i e' (hmem hi)
    change ∃ u < w, Function.update s.place t .left u = _ ∨
      (s.shared.workerExceptions.set t (some e))[u]? = _
    by_cases hut : u = t
    · rw [hut, hp] at hu
      rcases hu with hu | hu
      · cases hu
        exact ⟨t, ht, Or.inr hset⟩
      · have hplace := (h.settled t e' hu).1
        rw [hp] at hplace
        cases hplace
    · refine ⟨u, huw, ?_⟩
      rw [Function.update_of_ne hut, hne u hut]
      exact hu
  · change (s.shared.workerExceptions.set t (some e))[u]? = _ at hnone
    change Function.update s.place t .left u = _ at hu
    by_cases hut : u = t
    · rw [hut, hset] at hnone
      cases hnone
    · rw [hne u hut] at hnone
      rw [Function.update_of_ne hut] at hu
      exact h.left u hu hnone

theorem excepted (hsum : chunkCount.toNat + w < 2 ^ 32)
    (h : Hashed sha256 mapped fileSize chunkCount w ls s) : Excepted chunkCount w ls s := by
  apply h.inv
  · refine ⟨List.length_replicate, (fun _ _ h => nomatch h), fun u e hu => ?_, (fun _ _ h => nomatch h),
      (fun _ _ h => nomatch h), (fun _ h => nomatch h)⟩
    have hmem := List.mem_of_getElem? hu
    cases List.eq_of_mem_replicate hmem
  intro ls s t l x p hrun hs ht hmove
  have hroom := (counted hsum hrun).room hsum ht
  generalize hp : s.place t = q at hmove hroom
  cases hmove with
  | claim =>
    have hroom := hroom rfl
    exact hs.elsewhere ht rfl (by dsimp only; omega) (by simp [hp]) (by simp) (by simp) (by simp)
  | leave hle =>
    have hle := UInt32.le_iff_toNat_le.mp hle
    have hroom := hroom rfl
    refine hs.elsewhere ht rfl (by dsimp only; omega) (by simp [hp]) (by simp) (by simp) fun _ => ?_
    dsimp only
    omega
  | hash => exact hs.elsewhere ht rfl le_rfl (by simp [hp]) (by simp) (by simp) (by simp)
  | throw he =>
    refine hs.elsewhere ht rfl le_rfl (by simp [hp]) ?_ ?_ (by simp)
    · intro e' he'
      cases he'
      exact ⟨_, rfl⟩
    · intro i e' hl
      cases hl
      exact ⟨rfl, he⟩
  | store => exact hs.store ht hp

/-! ## When all workers are joined -/

def attempts (ls : List Event) : List ℕ := ls.filterMap Event.attempt

def hashed (ls : List Event) : List ℕ := ls.filterMap Event.hashed

def Thrown (ls : List Event) : Prop := ∃ i e, .throw i e ∈ ls

theorem attempts_nodup (h : Counted chunkCount w ls s) :
    (attempts ls).Nodup ∧ ∀ i ∈ attempts ls, i < chunkCount.toNat := by
  have hle : ∀ i, (attempts ls).count i ≤ if i < chunkCount.toNat then 1 else 0 := by
    intro i
    have howner := h.owner i
    rw [tries] at howner
    rw [attempts]
    split_ifs at howner ⊢ <;> omega
  refine ⟨List.nodup_iff_count_le_one.mpr fun i => ?_, fun i hi => ?_⟩
  · have := hle i
    split_ifs at this <;> omega
  · have hpos := List.count_pos_iff.mpr hi
    have := hle i
    split_ifs at this with hlt
    · exact hlt
    · omega

theorem hashed_of_calm (h : ¬ Thrown ls) : hashed ls = attempts ls := by
  apply List.filterMap_congr
  intro l hl
  cases l with
  | throw i e => exact absurd ⟨i, e, hl⟩ h
  | _ => rfl

theorem mem_hashed {i : ℕ} (h : i ∈ hashed ls) : ∃ c : UInt32, c.toNat = i ∧ .hash c ∈ ls := by
  obtain ⟨l, hl, hli⟩ := List.mem_filterMap.mp h
  cases l with
  | hash c =>
    cases hli
    exact ⟨c, rfl, hl⟩
  | _ => cases hli

theorem progress (h : ¬ AllJoined (· = Phase.left) w s) :
    ∃ l s', Step (Worker sha256 mapped fileSize chunkCount) w s l s' ∧ ∀ i e, l ≠ .throw i e := by
  simp only [AllJoined, not_forall] at h
  obtain ⟨t, ht, hp⟩ := h
  have hmoves : ∃ l x p, Worker sha256 mapped fileSize chunkCount t s.shared (s.place t) l x p ∧
      ∀ i e, l ≠ .throw i e := by
    cases hq : s.place t with
    | claiming =>
      by_cases hlt : s.shared.nextChunk < chunkCount
      · exact ⟨_, _, _, .claim hlt, by simp⟩
      · exact ⟨_, _, _, .leave (UInt32.not_lt.mp hlt), by simp⟩
    | hashing i => exact ⟨_, _, _, .hash, by simp⟩
    | caught e => exact ⟨_, _, _, .store, by simp⟩
    | left => exact absurd hq hp
  obtain ⟨l, x, p, hmove, hcalm⟩ := hmoves
  exact ⟨l, _, .move ht hmove, hcalm⟩

theorem joined_tally {i : ℕ} (h : AllJoined (· = .left) w s) : tally w (Phase.isHashing i) s.place = 0 :=
  tally_const 0 fun t ht => by rw [h t ht]; rfl

theorem result_thrown (h : Excepted chunkCount w ls s) (hjoined : AllJoined (· = .left) w s)
    (hthrown : Thrown ls) : ∃ e ∈ hashErrors, result s.shared = .error e := by
  obtain ⟨i, e, hi⟩ := hthrown
  obtain ⟨t, ht, hwhere⟩ := h.thrown i e hi
  have hstored : some e ∈ s.shared.workerExceptions := by
    rcases hwhere with hcaught | hstored
    · rw [hjoined t ht] at hcaught
      cases hcaught
    · exact List.mem_of_getElem? hstored
  cases hfind : s.shared.workerExceptions.findSome? id with
  | none =>
    have hnone := List.findSome?_eq_none_iff.mp hfind _ hstored
    cases hnone
  | some e' =>
    refine ⟨e', ?_, by rw [result, hfind]⟩
    obtain ⟨x, hx, hxe⟩ := List.exists_of_findSome?_eq_some hfind
    cases hxe
    obtain ⟨u, hu⟩ := List.getElem?_of_mem hx
    obtain ⟨-, i, hi⟩ := h.settled u e' hu
    exact h.known i e' hi

theorem result_hashes (hcounted : Counted chunkCount w ls s) (hexcepted : Excepted chunkCount w ls s)
    (hfilled : Filled sha256 mapped fileSize chunkCount ls s) (hw : 0 < w)
    (hjoined : AllJoined (· = .left) w s) (hcalm : ¬ Thrown ls) :
    (hashed ls).Perm (List.range chunkCount.toNat) ∧
      result s.shared =
        .ok ((List.range chunkCount.toNat).map (hashChunk sha256 mapped fileSize)) := by
  have hnone : ∀ x ∈ s.shared.workerExceptions, x = none := by
    intro x hx
    obtain ⟨u, hu⟩ := List.getElem?_of_mem hx
    cases x with
    | none => rfl
    | some e =>
      obtain ⟨-, i, hi⟩ := hexcepted.settled u e hu
      exact absurd ⟨i, e, hi⟩ hcalm
  have hlen := hexcepted.slots
  have hdone : chunkCount.toNat ≤ s.shared.nextChunk.toNat := by
    have hzero : 0 < s.shared.workerExceptions.length := by omega
    refine hexcepted.left 0 (hjoined 0 hw) ?_
    rw [List.getElem?_eq_getElem hzero, hnone _ (List.getElem_mem hzero)]
  obtain ⟨hnodup, hlt⟩ := attempts_nodup hcounted
  have hmem : ∀ i, i ∈ hashed ls ↔ i ∈ List.range chunkCount.toNat := by
    intro i
    rw [hashed_of_calm hcalm, List.mem_range]
    refine ⟨hlt i, fun hi => ?_⟩
    have howner := hcounted.owner i
    rw [joined_tally hjoined, if_pos ⟨by omega, hi⟩, tries] at howner
    exact List.count_pos_iff.mp (by rw [attempts]; omega)
  refine ⟨?_, ?_⟩
  · rw [List.perm_ext_iff_of_nodup _ List.nodup_range]
    · exact hmem
    · rw [hashed_of_calm hcalm]
      exact hnodup
  · have hfind : s.shared.workerExceptions.findSome? id = none :=
      List.findSome?_eq_none_iff.mpr fun x hx => hnone x hx
    rw [result, hfind]
    apply congrArg Except.ok
    apply List.ext_getElem?
    intro i
    rcases lt_or_ge i chunkCount.toNat with hi | hi
    · obtain ⟨c, rfl, hc⟩ := mem_hashed ((hmem i).mpr (List.mem_range.mpr hi))
      rw [hfilled.stored c hc, List.getElem?_map, List.getElem?_range hi]
      rfl
    · rw [List.getElem?_eq_none (by rw [hfilled.size]; exact hi),
        List.getElem?_eq_none (by rw [List.length_map, List.length_range]; exact hi)]

theorem Counted.bounded (h : Counted chunkCount w ls s) :
    ls.length ≤ 3 * (chunkCount.toNat + w) := by
  have hleft : tally w Phase.isLeft s.place ≤ w * 1 :=
    tally_le fun p => by cases p <;> simp [Phase.isLeft]
  have hlength := h.length
  have hcounter := h.counter
  omega

theorem completes (hsum : chunkCount.toNat + w < 2 ^ 32)
    (h : Hashed sha256 mapped fileSize chunkCount w ls s) (hcalm : ¬ Thrown ls) :
    ∃ ls' s', Hashed sha256 mapped fileSize chunkCount w ls' s' ∧
      AllJoined (· = Phase.left) w s' ∧ ¬ Thrown ls' := by
  generalize hn : 3 * (chunkCount.toNat + w) - ls.length = n
  induction n using Nat.strongRecOn generalizing ls s with
  | _ n ih =>
    by_cases hjoined : AllJoined (· = Phase.left) w s
    · exact ⟨ls, s, h, hjoined, hcalm⟩
    obtain ⟨l, s', hstep, hl⟩ := progress hjoined
    have hnext := h.step hstep
    have hbound := (counted hsum hnext).bounded
    rw [List.length_append, List.length_singleton] at hbound
    refine ih _ ?_ hnext (fun hthrown => ?_) rfl
    · rw [List.length_append, List.length_singleton]
      omega
    · obtain ⟨i, e, hi⟩ := hthrown
      rcases List.mem_append.mp hi with hi | hi
      · exact hcalm ⟨i, e, hi⟩
      · exact hl i e (List.mem_singleton.mp hi).symm

/-- The workers of a schedule on which no hash fails. -/
def inOrder (sha256 : Bytes → Hash) (mapped : Bytes) (fileSize : ℕ) (chunkCount : UInt32) :
    Except Exc (List Hash) :=
  .ok ((List.range chunkCount.toNat).map (hashChunk sha256 mapped fileSize))

theorem Computes.length {hashes : List Hash}
    (h : Computes sha256 mapped fileSize chunkCount w (.ok hashes)) :
    hashes.length = chunkCount.toNat := by
  obtain ⟨ls, s, hrun, -, hr⟩ := h
  rw [result] at hr
  split at hr
  · cases hr
  · cases hr
    exact (filled hrun).size

theorem Computes.hashes {hashes : List Hash} (hw : 0 < w) (hsum : chunkCount.toNat + w < 2 ^ 32)
    (h : Computes sha256 mapped fileSize chunkCount w (.ok hashes)) :
    hashes = (List.range chunkCount.toNat).map (hashChunk sha256 mapped fileSize) := by
  obtain ⟨ls, s, hrun, hjoined, hr⟩ := h
  by_cases hthrown : Thrown ls
  · obtain ⟨e, -, he⟩ := result_thrown (excepted hsum hrun) hjoined hthrown
    cases hr.trans he
  · have hok := (result_hashes (counted hsum hrun) (excepted hsum hrun) (filled hrun) hw hjoined
      hthrown).2
    exact Except.ok.inj (hr.trans hok)

theorem computes_hashes (hw : 0 < w) (hsum : chunkCount.toNat + w < 2 ^ 32) :
    Computes sha256 mapped fileSize chunkCount w (inOrder sha256 mapped fileSize chunkCount) := by
  have hstart : Hashed sha256 mapped fileSize chunkCount w [] (begin chunkCount w) := .start
  obtain ⟨ls, s, hrun, hjoined, hcalm⟩ := completes hsum hstart fun ⟨_, _, h⟩ => nomatch h
  have hok := (result_hashes (counted hsum hrun) (excepted hsum hrun) (filled hrun) hw hjoined
    hcalm).2
  exact ⟨ls, s, hrun, hjoined, hok.symm⟩

/-- The hashes one chunk after another. -/
def serial (sha256 : Bytes → Hash) (file : Bytes) : List Hash :=
  (List.range ((file.length + chunkSize - 1) / chunkSize)).map fun i =>
    sha256 (slice file (i * chunkSize)
      (min ((i + 1) * chunkSize) file.length - i * chunkSize))

theorem hashChunk_eq {file : Bytes} (hlt : file.length < 2 ^ 64) {i : ℕ}
    (hi : i < (file.length + chunkSize - 1) / chunkSize) :
    hashChunk sha256 file file.length i = sha256 (slice file (i * chunkSize)
      (min ((i + 1) * chunkSize) file.length - i * chunkSize)) := by
  rw [hashChunk, chunkLen_eq hlt hi, ← Nat.sub_min_sub_right, Nat.add_mul, Nat.one_mul,
    Nat.add_sub_cancel_left]

theorem small_of_count {file : Bytes}
    (hcount : chunkCount.toNat = (file.length + chunkSize - 1) / chunkSize) :
    file.length < 2 ^ 64 := by
  have hlt := chunkCount.toNat_lt
  rw [hcount, Nat.div_lt_iff_lt_mul (by decide)] at hlt
  rw [chunkSize] at hlt
  omega

/-- Every schedule of the workers ends with the serial hashes, or with an exception
if a hash threw one. -/
theorem hash_compute_parallel_serial (sha256 : Bytes → Hash) (file : Bytes) (chunkCount : UInt32)
    (w : ℕ) (hcount : chunkCount.toNat = (file.length + chunkSize - 1) / chunkSize) (hw : 0 < w)
    (hsum : chunkCount.toNat + w < 2 ^ 32) (ls : List Event) (s : State Shared Phase)
    (h : Hashed sha256 file file.length chunkCount w ls s) :
    ls.length ≤ 3 * (chunkCount.toNat + w) ∧
    (¬ AllJoined (· = .left) w s →
      ∃ l s', Step (Worker sha256 file file.length chunkCount) w s l s') ∧
    (attempts ls).Nodup ∧
    (∀ i ∈ attempts ls, i < chunkCount.toNat ∧
      i * chunkSize + chunkLen file.length i ≤ file.length) ∧
    (AllJoined (· = .left) w s →
      (Thrown ls → ∃ e ∈ hashErrors, result s.shared = .error e) ∧
      (¬ Thrown ls → (hashed ls).Perm (List.range chunkCount.toNat) ∧
        result s.shared = .ok (serial sha256 file))) := by
  have hcounted := counted hsum h
  have hexcepted := excepted hsum h
  have hfilled := filled h
  have hsmall := small_of_count hcount
  obtain ⟨hnodup, hlt⟩ := attempts_nodup hcounted
  refine ⟨hcounted.bounded, fun hopen => ?_, hnodup, fun i hi => ⟨hlt i hi, ?_⟩,
    fun hjoined => ⟨?_, ?_⟩⟩
  · obtain ⟨l, s', hstep, -⟩ := progress hopen
    exact ⟨l, s', hstep⟩
  · have hin := hlt i hi
    rw [hcount] at hin
    have hstart := chunk_start hin
    rw [chunkLen_eq hsmall hin]
    omega
  · exact result_thrown hexcepted hjoined
  · intro hcalm
    obtain ⟨hperm, hresult⟩ := result_hashes hcounted hexcepted hfilled hw hjoined hcalm
    refine ⟨hperm, ?_⟩
    rw [hresult, serial, ← hcount]
    apply congrArg Except.ok
    apply List.map_congr_left
    intro i hi
    refine hashChunk_eq hsmall ?_
    rw [← hcount]
    exact List.mem_range.mp hi

/-- A stand-in for the digest that tells the chunks of a file apart. -/
def headHash (chunk : Bytes) : Hash := ⟨List.replicate 32 (chunk.headD 0), List.length_replicate⟩

def twoChunkFile : Bytes := List.replicate chunkSize 1 ++ [2]

theorem twoChunkFile_length : twoChunkFile.length = chunkSize + 1 := by
  rw [twoChunkFile, List.length_append, List.length_replicate, List.length_singleton]

/-- The second of two workers hashes the second chunk before the first hashes the first. -/
theorem hash_compute_parallel_serial_two :
    ∃ ls s, Hashed headHash twoChunkFile twoChunkFile.length 2 2 ls s ∧
      hashed ls = [1, 0] ∧ AllJoined (· = .left) 2 s ∧
      result s.shared = .ok (serial headHash twoChunkFile) := by
  have hclaim : Hashed headHash twoChunkFile twoChunkFile.length 2 2 _ _ :=
    .step .start (.move (t := 0) Nat.two_pos (.claim (by decide)))
  have hother := hclaim.step (.move (t := 1) Nat.one_lt_two (.claim (by decide)))
  have hhashed := (hother.step (.move (t := 1) Nat.one_lt_two .hash)).step
    (.move (t := 0) Nat.two_pos .hash)
  have hleave := hhashed.step (.move (t := 1) Nat.one_lt_two (.leave (by decide)))
  obtain ⟨s, hrun, hfirst, hsecond⟩ : ∃ s, Hashed headHash twoChunkFile twoChunkFile.length 2 2
      [.claim 0, .claim 1, .hash 1, .hash 0, .claim 2, .claim 3] s ∧
        s.place 0 = .left ∧ s.place 1 = .left :=
    ⟨_, hleave.step (.move (t := 0) Nat.two_pos (.leave (by decide))), rfl, rfl⟩
  have hjoined : AllJoined (· = .left) 2 s := by
    intro t ht
    obtain rfl | rfl : t = 0 ∨ t = 1 := by omega
    · exact hfirst
    · exact hsecond
  have hall := hash_compute_parallel_serial headHash twoChunkFile 2 2
    (by rw [twoChunkFile_length]; decide) (by decide) (by decide) _ _ hrun
  refine ⟨_, s, hrun, rfl, hjoined, ((hall.2.2.2.2 hjoined).2 ?_).2⟩
  intro ⟨i, e, hi⟩
  simp at hi

end

end Embr.Hashing
