import Embr.Signals

/-!
# The hash cache

`hash_cache_path_for`, `hash_cache_load` and `hash_cache_save` of
`core/hash.cpp`. The integers of a record are written as the host keeps them,
lowest byte first.
-/

open Octets Interact
open Embr.System Embr.Protocol Embr.Signals
namespace Embr.HashCache

def suffix : Bytes := ".embr.hash".toList.map fun c => UInt8.ofNat c.toNat

def hashCachePathFor (filePath : Path) : Except Exc Path :=
  if filePath = [] then .error (.runtimeError "hash_cache_path_for: file_path is empty")
  else
    let dir := (filePath.reverse.dropWhile (· ≠ PartialFile.slash)).reverse
    let base := (filePath.reverse.takeWhile (· ≠ PartialFile.slash)).reverse
    .ok (dir ++ [PartialFile.dot] ++ base ++ suffix)

def orMiss {α : Type} (p : Prog Os (Except Exc Bytes)) (k : Bytes → Prog Os (Option α)) :
    Prog Os (Option α) := do
  match ← p with
  | .error _ => pure none
  | .ok bs => k bs

def readHashes (fd : Path) : ℕ → Prog Os (Option (List Hash))
  | 0 => pure (some [])
  | n + 1 =>
    orMiss (readExact fd hashSize) fun hash => do
      let hashes ← readHashes fd n
      pure (hashes.map (Hash.ofBytes hash :: ·))

def hashCacheLoad (filePath : Path) (fileSize mtimeNs : UInt64) (chunkCount : UInt32) :
    Prog Os (Option (List Hash)) := do
  let cachePath ← lift (hashCachePathFor filePath)
  let opened : Bool ← sys (.openRead cachePath)
  if opened then
    orMiss (readExact cachePath 8) fun storedSize =>
    orMiss (readExact cachePath 8) fun storedMtime =>
    orMiss (readExact cachePath 4) fun _storedChunkSize =>
    orMiss (readExact cachePath 4) fun storedCount =>
      if ofLE storedSize ≠ fileSize.toNat ∨ ofLE storedMtime ≠ mtimeNs.toNat ∨
          ofLE storedCount ≠ chunkCount.toNat then pure none
      else readHashes cachePath chunkCount.toNat
  else pure none

def writeHashes (fd : Path) : List Hash → Prog Os Unit
  | [] => pure ()
  | hash :: hashes => do
    writeExact fd hash.val
    writeHashes fd hashes

def hashCacheSave (filePath : Path) (fileSize mtimeNs : UInt64) (chunkSize chunkCount : UInt32)
    (chunkHashes : List Hash) : Prog Os Unit := do
  let cachePath ← lift (hashCachePathFor filePath)
  let opened : Bool ← sys (.openTrunc cachePath)
  if opened then do
    writeExact cachePath (le 8 fileSize.toNat)
    writeExact cachePath (le 8 mtimeNs.toNat)
    writeExact cachePath (le 4 chunkSize.toNat)
    writeExact cachePath (le 4 chunkCount.toNat)
    writeHashes cachePath chunkHashes
  else .raise (.runtimeError ("hash_cache_save: failed to open: " ++ text cachePath))

def flat (hashes : List Hash) : Bytes := (hashes.map Subtype.val).flatten

def headOf (fileSize mtimeNs : UInt64) (chunkSize chunkCount : UInt32) : Bytes :=
  le 8 fileSize.toNat ++ le 8 mtimeNs.toNat ++ le 4 chunkSize.toNat ++ le 4 chunkCount.toNat

def cacheRecord (fileSize mtimeNs : UInt64) (chunkSize chunkCount : UInt32) (hashes : List Hash) :
    Bytes := headOf fileSize mtimeNs chunkSize chunkCount ++ flat hashes

def hashesAt (f : Bytes) (pos n : ℕ) : List Hash :=
  (List.range n).map fun i => .ofBytes (slice f (pos + i * hashSize) hashSize)

def cached (f : Bytes) (fileSize mtimeNs : UInt64) (chunkCount : UInt32) : Option (List Hash) :=
  if 24 + chunkCount.toNat * hashSize ≤ f.length ∧ ofLE (slice f 0 8) = fileSize.toNat ∧
      ofLE (slice f 8 8) = mtimeNs.toNat ∧ ofLE (slice f 20 4) = chunkCount.toNat then
    some (hashesAt f 24 chunkCount.toNat)
  else none

theorem hashesAt_succ (f : Bytes) (pos n : ℕ) :
    hashesAt f pos (n + 1) =
      .ofBytes (slice f pos hashSize) :: hashesAt f (pos + hashSize) n := by
  rw [hashesAt, List.range_succ_eq_map, List.map_cons, List.map_map, Nat.zero_mul, Nat.add_zero]
  congr 1
  apply List.map_congr_left
  intro i _
  change Hash.ofBytes (slice f (pos + (i + 1) * hashSize) hashSize) = _
  rw [Nat.add_mul, Nat.one_mul, Nat.add_comm (i * hashSize), Nat.add_assoc]

@[simp] theorem flat_length (hashes : List Hash) :
    (flat hashes).length = hashes.length * hashSize := by
  induction hashes with
  | nil => rfl
  | cons hash hashes ih =>
    change (hash.val ++ flat hashes).length = _
    rw [List.length_append, ih, hash.property, List.length_cons, Nat.add_mul, Nat.one_mul,
      Nat.add_comm]

@[simp] theorem headOf_length (fileSize mtimeNs : UInt64) (chunkSize chunkCount : UInt32) :
    (headOf fileSize mtimeNs chunkSize chunkCount).length = 24 := by
  simp [headOf]

theorem hashesAt_flat (pre : Bytes) (hashes : List Hash) :
    hashesAt (pre ++ flat hashes) pre.length hashes.length = hashes := by
  induction hashes generalizing pre with
  | nil => rfl
  | cons hash hashes ih =>
    have hflat : pre ++ flat (hash :: hashes) = (pre ++ hash.val) ++ flat hashes :=
      (List.append_assoc ..).symm
    have hlen : (pre ++ hash.val).length = pre.length + hashSize := by
      rw [List.length_append, hash.property]
    have hslice : slice (pre ++ flat (hash :: hashes)) pre.length hashSize = hash.val := by
      have happend := slice_append pre hash.val (flat hashes)
      rw [hash.property] at happend
      rw [hflat, happend]
    rw [List.length_cons, hashesAt_succ, hslice, Hash.ofBytes_val, hflat, ← hlen, ih]

variable {net : Env Os} {E : Env Os} {fails : Prop} {s s₀ : World} {fd : Path} {f : Bytes}
  {len pos n : ℕ} {filePath cachePath : Path} {fileSize mtimeNs : UInt64}
  {chunkSize chunkCount : UInt32}

theorem orMiss_reads {α : Type} {k : Bytes → Prog Os (Option α)} {Q : Option α → World → Prop}
    (hE : Reads E fails) (hs : Calm s₀ s) (hf : s₀.files fd = some f) (hpos : s.cursor fd = pos)
    (hle : pos ≤ f.length)
    (hmiss : ∀ u, Calm s₀ u → fails ∨ f.length < pos + len → Q none u)
    (hk : pos + len ≤ f.length → ∀ u, Calm s₀ u → u.cursor fd = pos + len →
      Sat E (fun _ _ => True) (fun _ _ => fails) (k (slice f pos len)) Q u) :
    Sat E (fun _ _ => True) (fun _ _ => fails) (orMiss (readExact fd len) k) Q s := by
  have hfs : s.files fd = some f := by
    rw [hs.files]
    exact hf
  subst hpos
  refine Sat.andThen (hE.read fd f len s hfs hle) fun r u hu => ?_
  have hcalm := hs.trans hu.calm
  cases r with
  | error e => exact sat_pure.mpr ⟨trivial, hmiss u hcalm (hu.error e rfl)⟩
  | ok bs =>
    obtain ⟨hin, rfl, hcur⟩ := hu.ok bs rfl
    exact hk hin u hcalm hcur

theorem readHashes_reads (hE : Reads E fails) (hs : Calm s₀ s) (hf : s₀.files fd = some f)
    (hpos : s.cursor fd = pos) (hle : pos ≤ f.length) :
    Sat E (fun _ _ => True) (fun _ _ => fails) (readHashes fd n)
      (fun r u => Calm s₀ u ∧ ((pos + n * hashSize ≤ f.length ∧ r = some (hashesAt f pos n)) ∨
        (r = none ∧ (fails ∨ f.length < pos + n * hashSize)))) s := by
  induction n generalizing s pos with
  | zero =>
    refine sat_pure.mpr ⟨trivial, hs, Or.inl ⟨?_, rfl⟩⟩
    rw [Nat.zero_mul]
    exact hle
  | succ n ih =>
    have hstep : pos + (n + 1) * hashSize = pos + hashSize + n * hashSize := by
      rw [Nat.add_mul, Nat.one_mul]
      omega
    rw [hstep]
    refine orMiss_reads hE hs hf hpos hle (fun u hu hwhy => ⟨hu, Or.inr ⟨rfl, hwhy.imp_right ?_⟩⟩) ?_
    · intro hshort
      omega
    intro hin u hu hcur
    refine Sat.andThen (ih hu hcur hin) fun r v hv => ?_
    obtain ⟨hcalm, ⟨hall, rfl⟩ | ⟨rfl, hwhy⟩⟩ := hv
    · refine sat_pure.mpr ⟨trivial, hcalm, Or.inl ⟨hall, ?_⟩⟩
      rw [hashesAt_succ]
      rfl
    · exact sat_pure.mpr ⟨trivial, hcalm, Or.inr ⟨rfl, hwhy⟩⟩

/-- The answer `x`, or none where a call may fail. -/
def Answered (fails : Prop) (x : Option (List Hash)) (s : World) (r : Option (List Hash))
    (u : World) : Prop := Calm s u ∧ (r = x ∨ fails ∧ r = none)

theorem hashCacheLoad_reads (hE : Reads E fails) (hpath : hashCachePathFor filePath = .ok cachePath) :
    Sat E (fun _ _ => True) (fun _ _ => fails)
      (hashCacheLoad filePath fileSize mtimeNs chunkCount)
      (Answered fails ((s.files cachePath).bind (cached · fileSize mtimeNs chunkCount)) s) s := by
  rw [hashCacheLoad, hpath]
  refine sat_ask_bind.mpr ⟨trivial, fun r u hr => ?_⟩
  rcases hE.openRead _ _ _ _ hr with ⟨rfl, hsome, rfl⟩ | ⟨rfl, hwhy, hu⟩
  · obtain ⟨f, hf⟩ := Option.isSome_iff_exists.mp hsome
    have hcalm := (Calm.refl s).seek cachePath 0
    have hcur : (s.seek cachePath 0).cursor cachePath = 0 := Function.update_self ..
    have hshort : f.length < 24 + chunkCount.toNat * hashSize →
        cached f fileSize mtimeNs chunkCount = none :=
      fun hlt => if_neg fun h => absurd h.1 (Nat.not_le.mpr hlt)
    rw [hf, Option.bind_some, if_pos rfl]
    have hmiss : ∀ {m : ℕ}, m ≤ 24 → ∀ u : World, Calm s u → fails ∨ f.length < m →
        Answered fails (cached f fileSize mtimeNs chunkCount) s none u := by
      intro m hm u hu hwhy
      refine ⟨hu, ?_⟩
      rcases hwhy with hfails | hlt
      · exact Or.inr ⟨hfails, rfl⟩
      · exact Or.inl (hshort (by omega)).symm
    refine orMiss_reads hE hcalm hf hcur (Nat.zero_le _) (hmiss (by decide)) fun hin u hu hcur => ?_
    refine orMiss_reads hE hu hf hcur hin (hmiss (by decide)) fun hin u hu hcur => ?_
    refine orMiss_reads hE hu hf hcur hin (hmiss (by decide)) fun hin u hu hcur => ?_
    refine orMiss_reads hE hu hf hcur hin (hmiss (by decide)) fun hin u hu hcur => ?_
    split_ifs with hne
    · refine sat_pure.mpr ⟨trivial, hu, Or.inl ?_⟩
      refine (if_neg fun h => ?_).symm
      simp [h.2.1, h.2.2.1, h.2.2.2] at hne
    · push Not at hne
      refine (readHashes_reads hE hu hf hcur hin).weaken fun r v hv => ?_
      obtain ⟨hcalm, ⟨hall, rfl⟩ | ⟨rfl, hfails | hlt⟩⟩ := hv
      · exact ⟨hcalm, Or.inl (if_pos ⟨hall, hne⟩).symm⟩
      · exact ⟨hcalm, Or.inr ⟨hfails, rfl⟩⟩
      · exact ⟨hcalm, Or.inl (hshort hlt).symm⟩
  · refine sat_pure.mpr ⟨trivial, (Calm.refl s).refused hu, ?_⟩
    rcases hwhy with hfails | hnone
    · exact Or.inr ⟨hfails, rfl⟩
    · refine Or.inl ?_
      rw [hnone]
      rfl

theorem readHashes_ends (hf : s.files fd = some f) :
    Total (reliable net) (fun _ _ => True) (fun _ _ => True) (readHashes fd n) s := by
  induction n generalizing s with
  | zero => exact total_pure.mpr ⟨trivial, trivial⟩
  | succ n ih =>
    refine Total.andThen (readExact_ends hf) fun r u hu => ?_
    have hfu : u.files fd = some f := by
      rw [hu]
      exact hf
    cases r with
    | error e => exact total_pure.mpr ⟨trivial, trivial⟩
    | ok hash => exact Total.andThen (ih hfu) fun _ _ _ => total_pure.mpr ⟨trivial, trivial⟩

theorem orMiss_ends {α : Type} {k : Bytes → Prog Os (Option α)} (hf : s.files fd = some f)
    (hk : ∀ bs u, u.files fd = some f →
      Total (reliable net) (fun _ _ => True) (fun _ _ => True) (k bs) u) :
    Total (reliable net) (fun _ _ => True) (fun _ _ => True) (orMiss (readExact fd len) k) s := by
  refine Total.andThen (readExact_ends hf) fun r u hu => ?_
  cases r with
  | error e => exact total_pure.mpr ⟨trivial, trivial⟩
  | ok bs =>
    refine hk bs u ?_
    rw [hu]
    exact hf

theorem hashCacheLoad_ends (hpath : hashCachePathFor filePath = .ok cachePath) :
    Total (reliable net) (fun _ _ => True) (fun _ _ => True)
      (hashCacheLoad filePath fileSize mtimeNs chunkCount) s := by
  rw [hashCacheLoad, hpath]
  refine total_ask_bind.mpr ⟨trivial, ?_, fun r u hr => ?_⟩
  · cases hf : s.files cachePath with
    | none => exact ⟨false, _, Or.inr ⟨rfl, Or.inr hf, 0, rfl⟩⟩
    | some f => exact ⟨true, _, Or.inl ⟨rfl, hf ▸ rfl, rfl⟩⟩
  rcases hr with ⟨rfl, hsome, rfl⟩ | ⟨rfl, -, -⟩
  · obtain ⟨f, hf⟩ := Option.isSome_iff_exists.mp hsome
    rw [if_pos rfl]
    refine orMiss_ends (f := f) hf fun _ u hu => orMiss_ends hu fun _ u hu =>
      orMiss_ends hu fun _ u hu => orMiss_ends hu fun _ u hu => ?_
    split_ifs
    · exact total_pure.mpr ⟨trivial, trivial⟩
    · exact readHashes_ends hu
  · exact total_pure.mpr ⟨trivial, trivial⟩

/-- What `hash_cache_load` answers in a store: always if no call fails, at worst nothing otherwise. -/
structure LoadsAs (filePath : Path) (fileSize mtimeNs : UInt64) (chunkCount : UInt32) (s : World)
    (x : Option (List Hash)) : Prop where
  answers : ∀ net, Total (reliable net) (fun _ _ => True) (fun r _ => r = x)
    (hashCacheLoad filePath fileSize mtimeNs chunkCount) s
  signals : ∀ net, Sat (signalled net) (fun _ _ => True) (fun _ _ => False)
    (hashCacheLoad filePath fileSize mtimeNs chunkCount) (fun r _ => r = x) s
  atWorst : ∀ r t, Reaches rough (hashCacheLoad filePath fileSize mtimeNs chunkCount, s)
    (.ret r, t) → r = x ∨ r = none

theorem loadsAs_cached (hpath : hashCachePathFor filePath = .ok cachePath) :
    LoadsAs filePath fileSize mtimeNs chunkCount s
      ((s.files cachePath).bind (cached · fileSize mtimeNs chunkCount)) where
  answers net := by
    have hsat : Sat (signalled net) _ _ (hashCacheLoad filePath fileSize mtimeNs chunkCount) _ s :=
      hashCacheLoad_reads reads_signalled hpath
    replace hsat := hsat.env signalled_of_reliable
    refine ((hashCacheLoad_ends hpath).and hsat).weaken fun r u h => ?_
    exact h.2.2.resolve_right fun h => h.1
  signals net := (hashCacheLoad_reads reads_signalled hpath).weaken fun r u h =>
    h.2.resolve_right fun h => h.1
  atWorst r t h := ((hashCacheLoad_reads reads_rough hpath).returned h).2.imp_right fun h => h.2

theorem writeField_sat {content pre buf rest : Bytes} {t : World}
    (hall : pre ++ (buf ++ rest) = content) (h : Saving fd content s pre t) :
    Sat rough (Recording fd content s) (fun _ _ => True) (writeExact fd buf)
      (fun _ u => (pre ++ buf) ++ rest = content ∧ Saving fd content s (pre ++ buf) u) t := by
  rw [← List.append_assoc] at hall
  exact (writeExact_sat ⟨rest, hall⟩ h).weaken fun _ u hu => ⟨hall, hu⟩

theorem writeHashes_sat {content pre : Bytes} {t : World} {hashes : List Hash}
    (hbuf : pre ++ flat hashes <+: content) (h : Saving fd content s pre t) :
    Sat rough (Recording fd content s) (fun _ _ => True) (writeHashes fd hashes)
      (fun _ u => Saving fd content s (pre ++ flat hashes) u) t := by
  induction hashes generalizing pre t with
  | nil =>
    refine sat_pure.mpr ⟨h.recording, ?_⟩
    change Saving fd content s (pre ++ []) t
    rw [List.append_nil]
    exact h
  | cons hash hashes ih =>
    have hflat : pre ++ flat (hash :: hashes) = (pre ++ hash.val) ++ flat hashes :=
      (List.append_assoc ..).symm
    rw [hflat] at hbuf ⊢
    have hfirst : pre ++ hash.val <+: content := (List.prefix_append _ _).trans hbuf
    exact Sat.andThen (writeExact_sat hfirst h) fun _ v hv => ih hbuf hv

theorem hashCacheSave_sat {hashes : List Hash} (hpath : hashCachePathFor filePath = .ok cachePath) :
    Sat rough (Recording cachePath (cacheRecord fileSize mtimeNs chunkSize chunkCount hashes) s)
      (fun _ _ => True) (hashCacheSave filePath fileSize mtimeNs chunkSize chunkCount hashes)
      (fun _ u => Saving cachePath (cacheRecord fileSize mtimeNs chunkSize chunkCount hashes) s
        (cacheRecord fileSize mtimeNs chunkSize chunkCount hashes) u) s := by
  rw [hashCacheSave, hpath]
  refine sat_ask_bind.mpr ⟨⟨Or.inl (.refl s), ?_⟩, fun r u hr => ?_⟩
  · intro _ ho
    cases ho
    exact fun h => h
  rcases hr with ⟨rfl, rfl⟩ | ⟨rfl, -, hu⟩
  · rw [if_pos rfl]
    generalize hcontent : cacheRecord fileSize mtimeNs chunkSize chunkCount hashes = content
    have hempty : Saving cachePath content s []
        (((s.store cachePath (some [])).seek cachePath 0).log (.truncated cachePath)) :=
      ⟨rfl, rfl, Function.update_self .., List.nil_prefix⟩
    have hall : [] ++ (le 8 fileSize.toNat ++ (le 8 mtimeNs.toNat ++ (le 4 chunkSize.toNat ++
        (le 4 chunkCount.toNat ++ flat hashes)))) = content := by
      rw [← hcontent, cacheRecord, headOf]
      simp only [List.append_assoc, List.nil_append]
    refine Sat.andThen (writeField_sat hall hempty) fun _ v hv => ?_
    refine Sat.andThen (writeField_sat hv.1 hv.2) fun _ v hv => ?_
    refine Sat.andThen (writeField_sat hv.1 hv.2) fun _ v hv => ?_
    refine Sat.andThen (writeField_sat hv.1 hv.2) fun _ v hv => ?_
    refine (writeHashes_sat (hv.1 ▸ List.prefix_rfl) hv.2).weaken fun _ w hw => ?_
    rwa [hv.1] at hw
  · have hcalm := (Calm.refl s).refused hu
    refine sat_raise.mpr ⟨⟨Or.inl hcalm, ?_⟩, trivial⟩
    intro _ ho
    cases ho

theorem hashCacheSave_ends {hashes : List Hash} (hpath : hashCachePathFor filePath = .ok cachePath) :
    Total (reliable net) (fun _ _ => True) (fun _ _ => True)
      (hashCacheSave filePath fileSize mtimeNs chunkSize chunkCount hashes) s := by
  have hhashes : ∀ hashes u, Besides cachePath s u →
      Total (reliable net) (fun _ _ => True) (fun _ _ => True) (writeHashes cachePath hashes) u := by
    intro hashes
    induction hashes with
    | nil => exact fun _ _ => total_pure.mpr ⟨trivial, trivial⟩
    | cons hash hashes ih => exact fun u hu => Total.andThen (writeExact_ends hu) fun _ v hv => ih v hv
  rw [hashCacheSave, hpath]
  refine total_ask_bind.mpr ⟨trivial, ⟨true, _, Or.inl ⟨rfl, rfl⟩⟩, fun r u hr => ?_⟩
  rcases hr with ⟨rfl, rfl⟩ | ⟨-, hfalse, -⟩
  · have hopen : Besides cachePath s
        (((s.store cachePath (some [])).seek cachePath 0).log (.truncated cachePath)) := by
      refine ⟨?_, fun path hp => World.store_of_ne s _ hp⟩
      have hself := World.store_self s cachePath (some [])
      exact Option.isSome_of_eq_some hself
    rw [if_pos rfl]
    refine Total.andThen (writeExact_ends hopen) fun _ u hu => ?_
    refine Total.andThen (writeExact_ends hu) fun _ u hu => ?_
    refine Total.andThen (writeExact_ends hu) fun _ u hu => ?_
    refine Total.andThen (writeExact_ends hu) fun _ u hu => ?_
    exact hhashes hashes u hu
  · exact hfalse.elim

theorem slice_part {a b : Bytes} (h : a <+: b) (pos len : ℕ) (hle : pos + len ≤ a.length) :
    slice a pos len = slice b pos len := by
  obtain ⟨r, rfl⟩ := h
  rw [slice, slice, List.drop_append_of_le_length (by omega), List.take_append_of_le_length]
  rw [List.length_drop]
  omega

theorem head_fields (fileSize mtimeNs : UInt64) (chunkSize chunkCount : UInt32) (rest : Bytes) :
    slice (headOf fileSize mtimeNs chunkSize chunkCount ++ rest) 0 8 = le 8 fileSize.toNat ∧
    slice (headOf fileSize mtimeNs chunkSize chunkCount ++ rest) 8 8 = le 8 mtimeNs.toNat ∧
    slice (headOf fileSize mtimeNs chunkSize chunkCount ++ rest) 16 4 = le 4 chunkSize.toNat ∧
    slice (headOf fileSize mtimeNs chunkSize chunkCount ++ rest) 20 4 = le 4 chunkCount.toNat := by
  have h₁ := slice_append [] (le 8 fileSize.toNat) (le 8 mtimeNs.toNat ++ le 4 chunkSize.toNat ++
    le 4 chunkCount.toNat ++ rest)
  have h₂ := slice_append (le 8 fileSize.toNat) (le 8 mtimeNs.toNat) (le 4 chunkSize.toNat ++
    le 4 chunkCount.toNat ++ rest)
  have h₃ := slice_append (le 8 fileSize.toNat ++ le 8 mtimeNs.toNat) (le 4 chunkSize.toNat)
    (le 4 chunkCount.toNat ++ rest)
  have h₄ := slice_append (le 8 fileSize.toNat ++ le 8 mtimeNs.toNat ++ le 4 chunkSize.toNat)
    (le 4 chunkCount.toNat) rest
  simp only [List.length_append, le_length, List.append_assoc, List.nil_append,
    List.length_nil] at h₁ h₂ h₃ h₄
  simp only [headOf, List.append_assoc]
  exact ⟨h₁, h₂, h₃, h₄⟩

theorem ofLE_size : ofLE (le 8 fileSize.toNat) = fileSize.toNat :=
  ofLE_le_of_lt fileSize.toNat_lt

theorem ofLE_count : ofLE (le 4 chunkCount.toNat) = chunkCount.toNat :=
  ofLE_le_of_lt chunkCount.toNat_lt

theorem cacheRecord_length {hashes : List Hash} (hlen : hashes.length = chunkCount.toNat) :
    (cacheRecord fileSize mtimeNs chunkSize chunkCount hashes).length =
      24 + chunkCount.toNat * hashSize := by
  rw [cacheRecord, List.length_append, headOf_length, flat_length, hlen]

theorem cached_record {hashes : List Hash} (hlen : hashes.length = chunkCount.toNat) :
    cached (cacheRecord fileSize mtimeNs chunkSize chunkCount hashes) fileSize mtimeNs chunkCount =
      some hashes := by
  obtain ⟨h₁, h₂, -, h₄⟩ := head_fields fileSize mtimeNs chunkSize chunkCount (flat hashes)
  have hflat := hashesAt_flat (headOf fileSize mtimeNs chunkSize chunkCount) hashes
  rw [headOf_length, hlen] at hflat
  refine (if_pos ⟨(cacheRecord_length hlen).ge, ?_, ?_, ?_⟩).trans (congrArg some hflat)
  · rw [cacheRecord, h₁, ofLE_size]
  · rw [cacheRecord, h₂, ofLE_size]
  · rw [cacheRecord, h₄, ofLE_count]

theorem cached_part {hashes got : List Hash} {g : Bytes} {fileSize' mtimeNs' : UInt64}
    {chunkCount' : UInt32} (hlen : hashes.length = chunkCount.toNat)
    (hpart : g <+: cacheRecord fileSize mtimeNs chunkSize chunkCount hashes)
    (h : cached g fileSize' mtimeNs' chunkCount' = some got) :
    g = cacheRecord fileSize mtimeNs chunkSize chunkCount hashes ∧ fileSize' = fileSize ∧
      mtimeNs' = mtimeNs ∧ chunkCount' = chunkCount := by
  rw [cached] at h
  split_ifs at h with hall
  obtain ⟨hlong, hsize, hmtime, hcount⟩ := hall
  obtain ⟨h₁, h₂, -, h₄⟩ := head_fields fileSize mtimeNs chunkSize chunkCount (flat hashes)
  rw [slice_part hpart _ _ (by omega), cacheRecord, h₁, ofLE_size] at hsize
  rw [slice_part hpart _ _ (by omega), cacheRecord, h₂, ofLE_size] at hmtime
  rw [slice_part hpart _ _ (by omega), cacheRecord, h₄, ofLE_count] at hcount
  refine ⟨hpart.eq_of_length_le ?_, (UInt64.toNat_inj.mp hsize).symm,
    (UInt64.toNat_inj.mp hmtime).symm, (UInt32.toNat_inj.mp hcount).symm⟩
  rw [cacheRecord_length hlen, hcount]
  exact hlong

theorem save_path {hashes : List Hash} {t : World}
    (h : Reaches rough (hashCacheSave filePath fileSize mtimeNs chunkSize chunkCount hashes, s)
      (.ret (), t)) : ∃ cachePath, hashCachePathFor filePath = .ok cachePath := by
  cases hpath : hashCachePathFor filePath with
  | ok cachePath => exact ⟨cachePath, rfl⟩
  | error e =>
    have hsat : Sat rough (fun _ _ => True) (fun _ _ => True)
        (hashCacheSave filePath fileSize mtimeNs chunkSize chunkCount hashes) (fun _ _ => False)
        s := by
      rw [hashCacheSave, hpath]
      exact sat_raise_bind.mpr ⟨trivial, trivial⟩
    exact (hsat.returned h).elim

/-- A saved record answers its own hashes and no other request, and a part of it answers nothing. -/
theorem hash_cache_codec (filePath : Path) (fileSize mtimeNs : UInt64)
    (chunkSize chunkCount : UInt32) (hashes : List Hash)
    (hlen : hashes.length = chunkCount.toNat) :
    (∀ s t, Reaches rough
        (hashCacheSave filePath fileSize mtimeNs chunkSize chunkCount hashes, s) (.ret (), t) →
      LoadsAs filePath fileSize mtimeNs chunkCount t (some hashes) ∧
      ∀ fileSize' mtimeNs' chunkCount',
        fileSize' ≠ fileSize ∨ mtimeNs' ≠ mtimeNs ∨ chunkCount' ≠ chunkCount →
        LoadsAs filePath fileSize' mtimeNs' chunkCount' t none) ∧
    ∀ cachePath s g, hashCachePathFor filePath = .ok cachePath →
      g <+: cacheRecord fileSize mtimeNs chunkSize chunkCount hashes →
      g ≠ cacheRecord fileSize mtimeNs chunkSize chunkCount hashes → s.files cachePath = some g →
      ∀ fileSize' mtimeNs' chunkCount',
        LoadsAs filePath fileSize' mtimeNs' chunkCount' s none := by
  refine ⟨fun s t hr => ?_, fun cachePath s g hpath hpart hne hg size mtime count => ?_⟩
  · obtain ⟨cachePath, hpath⟩ := save_path hr
    have hfile : t.files cachePath =
        some (cacheRecord fileSize mtimeNs chunkSize chunkCount hashes) := by
      rw [((hashCacheSave_sat hpath).returned hr).files]
      exact Function.update_self ..
    refine ⟨?_, fun size mtime count hother => ?_⟩
    · have hloads : LoadsAs filePath fileSize mtimeNs chunkCount t _ := loadsAs_cached hpath
      rwa [hfile, Option.bind_some, cached_record hlen] at hloads
    · have hloads : LoadsAs filePath size mtime count t _ := loadsAs_cached hpath
      have hnone : cached (cacheRecord fileSize mtimeNs chunkSize chunkCount hashes) size mtime count =
          none := by
        cases h : cached (cacheRecord fileSize mtimeNs chunkSize chunkCount hashes) size mtime count with
        | none => rfl
        | some got =>
          obtain ⟨-, rfl, rfl, rfl⟩ := cached_part hlen List.prefix_rfl h
          simp at hother
      rwa [hfile, Option.bind_some, hnone] at hloads
  · have hloads : LoadsAs filePath size mtime count s _ := loadsAs_cached hpath
    have hnone : cached g size mtime count = none := by
      cases h : cached g size mtime count with
      | none => rfl
      | some got => exact absurd (cached_part hlen hpart h).1 hne
    rwa [hg, Option.bind_some, hnone] at hloads

theorem hash_cache_codec_oneChunk :
    ∃ t, LoadsAs [97] 5 7 1 t (some [zeroHash]) ∧ LoadsAs [97] 6 7 1 t none := by
  have hends : Total (reliable anyPeer) (fun _ _ => True) (fun _ _ => True)
      (hashCacheSave [97] 5 7 1048576 1 [zeroHash]) (.init fun _ => none) :=
    hashCacheSave_ends rfl
  obtain ⟨_, t, hsave, -⟩ := hends.returns.env (kernel_of_reliable trivial fun _ _ _ _ h => h)
  have hcodec := (hash_cache_codec [97] 5 7 1048576 1 [zeroHash] rfl).1 _ t hsave
  exact ⟨t, hcodec.1, hcodec.2 6 7 1 (by decide)⟩

end Embr.HashCache
