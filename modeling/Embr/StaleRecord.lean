import Embr.Resume

/-!
# Resuming from a stale record

Opening the output afresh leaves a record of an earlier, different transfer in
place. A run stopped right after that is followed by one that takes the old
record for the new, empty output: it reports the transfer complete with chunks
that were never received.
-/

open Octets Interact
open Embr.System Embr.Protocol
namespace Embr.Resume

variable {sha256 : Bytes → Hash} {metas : Set FileMeta} {out : Path} {m : FileMeta}
  {cm : ChunkManager} {s : World} {α β : Type}

theorem sys_returns {o : Op} {r : o.Reply} {u : World} {Q : o.Reply → World → Prop}
    (h : rough o s r u) (ho : ∀ m, o ≠ .print (.pullFile m)) (hQ : Q r u) :
    Returns (hostile metas) (sys o) Q s :=
  .ask ⟨h, fun m hm => (ho m hm).elim⟩ hQ

theorem sendExact_returns {buf : Bytes} {Q : Unit → World → Prop} (hQ : Q () s) :
    Returns (hostile metas) (sendExact tcp buf) Q s := by
  apply Returns.round
  by_cases hpos : 0 < buf.length
  · rw [if_pos hpos]
    refine .bind (sys_returns (r := some buf.length) (u := s) ?_ (fun _ h => nomatch h) ?_)
    · exact Or.inl ⟨_, by rw [List.drop_zero], rfl, rfl⟩
    · simp only [if_neg (Nat.pos_iff_ne_zero.mp hpos)]
      refine .ret (Returns.round ?_)
      rw [Nat.zero_add, if_neg (lt_irrefl _)]
      exact .ret hQ
  · rw [if_neg hpos]
    exact .ret hQ

theorem recvExact_returns (bs : Bytes) {Q : Bytes → World → Prop} (hQ : Q bs s) :
    Returns (hostile metas) (recvExact tcp bs.length) Q s := by
  apply Returns.round
  by_cases hpos : ([] : Bytes).length < bs.length
  · rw [if_pos hpos]
    refine .bind (sys_returns (r := some bs) (u := s) ?_ (fun _ h => nomatch h) ?_)
    · exact Or.inl ⟨bs, le_rfl, rfl, rfl⟩
    · have hne : ¬ bs.length = 0 := Nat.ne_of_gt hpos
      simp only [if_neg hne]
      refine .ret (Returns.round ?_)
      rw [List.nil_append, if_neg (lt_irrefl _)]
      exact .ret hQ
  · have hnil : bs = [] := List.eq_nil_of_length_eq_zero (Nat.eq_zero_of_not_pos hpos)
    subst hnil
    exact .ret hQ

theorem sendMsg_returns {msg : Message} {Q : Unit → World → Prop} (hQ : Q () s) :
    Returns (hostile metas) (sendMsg tcp msg) Q s := by
  refine .bind (sendExact_returns ?_)
  split_ifs
  · exact sendExact_returns hQ
  · exact .ret hQ

theorem recvMsg_returns {msg : Message} (hmsg : msg.Valid) {Q : Message → World → Prop}
    (hQ : Q msg s) : Returns (hostile metas) (recvMsg tcp) Q s := by
  have hrecv : Returns (hostile metas) (recvExact tcp (header msg).length)
      (fun bs u => bs = header msg ∧ u = s) s := recvExact_returns _ ⟨rfl, rfl⟩
  rw [header_length] at hrecv
  refine .bind (hrecv.mono ?_)
  rintro _ _ ⟨rfl, rfl⟩
  have hversion : (header msg).getD 0 0 = PROTOCOL_VERSION := rfl
  have htype : (header msg).getD 1 0 = msg.type.toByte := rfl
  have hplen := header_payloadLen hmsg.2
  simp only [hversion, htype, hplen, ne_eq, not_true_eq_false, if_false,
    if_neg (MsgType.toByte_range hmsg.1), if_neg (Nat.not_lt.mpr hmsg.2), MsgType.ofByte_toByte]
  by_cases hpos : 0 < msg.payload.length
  · rw [if_pos hpos]
    exact .bind (recvExact_returns msg.payload (.ret hQ))
  · have hnil : msg.payload = [] := List.eq_nil_of_length_eq_zero (Nat.eq_zero_of_not_pos hpos)
    rw [if_neg hpos, ← hnil]
    exact .ret hQ

/-- Nothing has happened to the files or to the pipe. -/
structure Idle (s t : World) : Prop extends Calm s t where
  pipe : t.pipe = s.pipe

theorem readExact_returns {fd : Path} {f : Bytes} {len : ℕ} (hf : s.files fd = some f)
    (hlen : s.cursor fd + len ≤ f.length) {Q : Except Exc Bytes → World → Prop}
    (hQ : ∀ t, Idle s t → t.cursor fd = s.cursor fd + len →
      Q (.ok (slice f (s.cursor fd) len)) t) : Returns (hostile metas) (readExact fd len) Q s := by
  have hslen := slice_length hlen
  apply Returns.round
  by_cases hpos : 0 < len - ([] : Bytes).length
  · rw [if_pos hpos]
    refine .bind (sys_returns (r := some (slice f (s.cursor fd) len))
      (u := s.seek fd (s.cursor fd + len)) ?_ (fun _ h => nomatch h) ?_)
    · refine Or.inl ⟨f, slice f (s.cursor fd) len, hf, List.take_prefix _ _, hslen.le,
        fun hnil => ?_, rfl, ?_⟩
      · rw [hnil] at hslen
        exact Or.inl hslen.symm
      · rw [hslen]
    · have hne : ¬ (slice f (s.cursor fd) len).length = 0 := by
        rw [hslen]
        exact Nat.ne_of_gt hpos
      simp only [if_neg hne]
      refine .ret (Returns.round ?_)
      rw [List.nil_append, hslen, Nat.sub_self, if_neg (lt_irrefl _)]
      exact .ret (hQ _ ⟨⟨rfl, rfl⟩, rfl⟩ (Function.update_self ..))
  · rw [if_neg hpos]
    have hzero : len = 0 := Nat.eq_zero_of_not_pos hpos
    subst hzero
    refine .ret ?_
    have h := hQ s ⟨.refl s, rfl⟩ rfl
    rwa [slice, List.take_zero] at h

theorem writeExact_returns {fd : Path} {f buf : Bytes} (hf : s.files fd = some f)
    (hcur : s.cursor fd = f.length) {Q : Unit → World → Prop}
    (hQ : ∀ t, t.files = Function.update s.files fd (some (f ++ buf)) → t.trace = s.trace →
      t.cursor fd = (f ++ buf).length → Q () t) :
    Returns (hostile metas) (writeExact fd buf) Q s := by
  apply Returns.round
  by_cases hpos : 0 < buf.length - 0
  · rw [if_pos hpos]
    refine .bind (sys_returns (r := some buf.length)
      (u := (s.store fd (some (writeAt f (s.cursor fd) buf))).seek fd (s.cursor fd + buf.length))
      ?_ (fun _ h => nomatch h) ?_)
    · refine Or.inl ⟨f, buf.length, hf, le_rfl, fun _ => trivial, rfl, ?_⟩
      rw [List.drop_zero, List.take_length]
    · refine .ret (Returns.round ?_)
      rw [Nat.zero_add, Nat.sub_self, if_neg (lt_irrefl _)]
      refine .ret (hQ _ ?_ rfl ?_)
      · rw [hcur, writeAt_end]
        rfl
      · rw [List.length_append, ← hcur]
        exact Function.update_self ..
  · rw [if_neg hpos]
    have hnil : buf = [] := List.eq_nil_of_length_eq_zero (Nat.eq_zero_of_not_pos hpos)
    subst hnil
    rw [List.append_nil] at hQ
    refine .ret (hQ s ?_ rfl hcur)
    rw [← hf, Function.update_eq_self]

theorem save_returns {fileHash : Hash} {Q : Unit → World → Prop}
    (hQ : ∀ t, t.files = Function.update s.files (PartialFile.pathFor out)
        (some (recordOf fileHash cm.bitmap)) →
      t.trace = .truncated (PartialFile.pathFor out) :: s.trace → Q () t) :
    Returns (hostile metas) (PartialFile.save out fileHash cm) Q s := by
  refine .bind (sys_returns (r := true) (Or.inl ⟨rfl, rfl⟩) (fun _ h => nomatch h) ?_)
  rw [if_pos rfl]
  refine .bind (writeExact_returns (f := []) ?_ ?_ ?_)
  · exact World.store_self ..
  · exact Function.update_self ..
  intro t hfiles htrace hcur
  rw [List.nil_append] at hfiles hcur
  refine writeExact_returns (f := fileHash.val) ?_ hcur fun u hu htrace' _ => ?_
  · rw [hfiles]
    exact Function.update_self ..
  · refine hQ u ?_ (htrace'.trans htrace)
    rw [hu, hfiles, Function.update_idem]
    exact Function.update_idem ..

theorem load_returns_none {fileHash : Hash} {n : UInt32}
    (h : s.files (PartialFile.pathFor out) = none ∨ ∃ f,
      s.files (PartialFile.pathFor out) = some f ∧ hashSize ≤ f.length ∧
      f.take hashSize ≠ fileHash.val) {Q : Option ChunkManager → World → Prop}
    (hQ : ∀ t, Idle s t → Q none t) :
    Returns (hostile metas) (PartialFile.load out fileHash n) Q s := by
  rcases h with hnone | ⟨f, hf, hlen, hne⟩
  · refine .bind (sys_returns (r := false) (u := s) ?_ (fun _ h => nomatch h) ?_)
    · exact Or.inr ⟨rfl, Or.inr hnone, s.errno, rfl⟩
    · rw [if_neg Bool.false_ne_true]
      exact .ret (hQ s ⟨.refl s, rfl⟩)
  · refine .bind (sys_returns (r := true) (u := s.seek (PartialFile.pathFor out) 0) ?_
      (fun _ h => nomatch h) ?_)
    · exact Or.inl ⟨rfl, hf ▸ rfl, rfl⟩
    · have hcur : (s.seek (PartialFile.pathFor out) 0).cursor (PartialFile.pathFor out) = 0 :=
        Function.update_self ..
      rw [if_pos rfl]
      refine .bind (readExact_returns (s := s.seek (PartialFile.pathFor out) 0) (f := f)
        hf (by rw [hcur]; omega) ?_)
      intro t ht _
      have hslice : slice f 0 hashSize ≠ fileHash.val := hne
      rw [hcur]
      dsimp only
      rw [if_pos hslice]
      exact .ret (hQ t ⟨⟨ht.files, ht.trace⟩, ht.pipe⟩)

theorem load_returns_some {fileHash : Hash} {n : UInt32} {raw f : Bytes}
    (hrec : s.files (PartialFile.pathFor out) = some (fileHash.val ++ raw))
    (hraw : raw.length = bitmapBytes n) (hf : s.files out = some f)
    (hsize : f.length = n.toNat * chunkSize) {Q : Option ChunkManager → World → Prop}
    (hQ : ∀ t, Idle s t → Q (some (unpack n raw)) t) :
    Returns (hostile metas) (PartialFile.load out fileHash n) Q s := by
  refine .bind (sys_returns (r := true) (u := s.seek (PartialFile.pathFor out) 0) ?_
    (by rintro _ ⟨⟩) ?_)
  · exact Or.inl ⟨rfl, hrec ▸ rfl, rfl⟩
  have hcur : (s.seek (PartialFile.pathFor out) 0).cursor (PartialFile.pathFor out) = 0 :=
    Function.update_self ..
  have hlen : (fileHash.val ++ raw).length = hashSize + bitmapBytes n := by
    rw [List.length_append, hraw, fileHash.property]
  rw [if_pos rfl]
  refine .bind (readExact_returns (s := s.seek (PartialFile.pathFor out) 0)
    (f := fileHash.val ++ raw) hrec (by rw [hcur]; omega) ?_)
  intro t ht htcur
  have hslice : slice (fileHash.val ++ raw) 0 hashSize = fileHash.val := by
    rw [slice, List.drop_zero, List.take_left' fileHash.property]
  rw [hcur] at htcur ⊢
  rw [hslice]
  dsimp only
  rw [if_neg (fun h => h rfl)]
  have hft : t.files out = some f := by
    rw [ht.files]
    exact hf
  refine .bind (sys_returns (r := some f.length) (u := t) ?_ (by rintro _ ⟨⟩) ?_)
  · exact Or.inl ⟨f, hft, rfl, rfl⟩
  dsimp only
  rw [if_neg (fun h => h hsize)]
  refine .bind (readExact_returns (f := fileHash.val ++ raw) ?_
    (by rw [htcur]; omega) ?_)
  · rw [ht.files]
    exact hrec
  intro u hu _
  have hslice' : slice (fileHash.val ++ raw) (0 + hashSize) (bitmapBytes n) = raw := by
    rw [slice, Nat.zero_add, List.drop_left' fileHash.property, ← hraw, List.take_length]
  rw [htcur, hslice']
  refine .ret (hQ u ⟨⟨?_, ?_⟩, ?_⟩)
  · rw [hu.files, ht.files]
    rfl
  · rw [hu.trace, ht.trace]
    rfl
  · rw [hu.pipe, ht.pipe]
    rfl

def Drained (s : World) : Prop := s.pipe = none ∨ s.pipe = some []

theorem openPipe_returns (hpipe : Drained s) {Q : Unit → World → Prop}
    (hQ : ∀ t, Calm s t → t.pipe = some [] → Q () t) :
    Returns (hostile metas) TcpTransport.openPipe Q s := by
  refine .bind (.get ?_)
  rcases hpipe with hnone | hsome
  · rw [hnone, Option.isSome_none, if_neg Bool.false_ne_true]
    refine .bind (sys_returns (r := true) (u := s.fill []) (Or.inl ⟨rfl, rfl⟩)
      (fun _ h => nomatch h) ?_)
    exact .ret (hQ _ ⟨rfl, rfl⟩ rfl)
  · rw [hsome, Option.isSome_some, if_pos rfl]
    exact .ret (hQ s (.refl s) hsome)

theorem recvFile_returns {fd : Path} {f c : Bytes} {offset : ℕ} (hpipe : Drained s)
    (hf : s.files fd = some f) (hc : 0 < c.length) {Q : Unit → World → Prop}
    (hQ : ∀ t, t.files = Function.update s.files fd (some (writeAt f offset c)) →
      t.trace = s.trace → t.pipe = some [] → Q () t) :
    Returns (hostile metas) (tcp.recvFile fd offset c.length) Q s := by
  have hne : ¬ c.length = 0 := Nat.ne_of_gt hc
  refine .bind (openPipe_returns hpipe fun u hu hpipe => ?_)
  have hf : u.files fd = some f := by
    rw [hu.files]
    exact hf
  refine .round ?_
  change Returns _ (if 0 < c.length then _ else _) _ _
  rw [if_pos hc]
  refine .bind (sys_returns (r := some c.length) (u := u.fill ([] ++ c)) ?_
    (fun _ h => nomatch h) ?_)
  · exact Or.inl ⟨[], c, hpipe, le_rfl, rfl, rfl⟩
  simp only [if_neg hne]
  refine .bind (Returns.round ?_)
  change Returns _ (if 0 < c.length then _ else _) _ _
  rw [if_pos hc]
  refine .bind (sys_returns (r := some c.length)
    (u := ((u.fill ([] ++ c)).store fd (some (writeAt f offset c))).fill [])
    ?_ (fun _ h => nomatch h) ?_)
  · refine Or.inl ⟨c, f, c.length, rfl, hf, hc, le_rfl, le_rfl, rfl, ?_⟩
    rw [List.take_length, List.drop_length]
  simp only [if_neg hne]
  refine .ret (Returns.round ?_)
  rw [Nat.sub_self, if_neg (lt_irrefl _)]
  refine .ret (.ret (Returns.round ?_))
  change Returns _ (if 0 < 0 then _ else _) _ _
  rw [if_neg (lt_irrefl _)]
  refine .ret (hQ _ ?_ hu.trace rfl)
  change Function.update u.files _ _ = _
  rw [hu.files]

theorem recvChunk_returns {f c : Bytes} {i : ℕ} (hpipe : Drained s)
    (hf : s.files out = some f) (hlen : c.length = chunkLen m.fileSize.toNat i)
    (hc : 0 < c.length) (hi : i < cm.bitmap.length) (hi32 : i < 2 ^ 32)
    (hhash : sha256 c = hashAt m i) {Q : ChunkManager → World → Prop}
    (hQ : ∀ t, t.files = Function.update
        (Function.update s.files out (some (writeAt f (i * chunkSize) c)))
        (PartialFile.pathFor out) (some (recordOf (hashAt m 0) (cm.bitmap.set i true))) →
      announced t.trace = announced s.trace → Q ⟨cm.bitmap.set i true⟩ t) :
    Returns (hostile metas) (recvChunk sha256 tcp out m i cm) Q s := by
  have hvalid : (makeChunkHdr ⟨UInt32.ofNat i⟩).Valid := by
    refine ⟨(by rintro ⟨⟩), ?_⟩
    change (be 4 _).length ≤ _
    rw [be_length]
    decide
  refine .bind (recvMsg_returns hvalid ?_)
  rw [if_neg (fun h => h rfl), parseChunkHdr_make]
  change Returns _ (if (UInt32.ofNat i).toNat ≠ i then _ else _) _ _
  rw [if_neg (fun h => h (UInt32.toNat_ofNat_of_lt' hi32))]
  rw [← hlen]
  refine .bind (recvFile_returns hpipe hf hc fun t hfiles htrace _ => ?_)
  have hft : t.files out = some (writeAt f (i * chunkSize) c) := by
    rw [hfiles]
    exact Function.update_self ..
  refine .bind (sys_returns (r := some c) (u := t) ?_ (by rintro _ ⟨⟩) ?_)
  · exact Or.inl ⟨_, c, hft, hc, rfl, fun _ => (slice_writeAt f _ c).symm, rfl, rfl⟩
  dsimp only
  rw [verifyChunk, if_pos hhash, ChunkManager.markDone, ChunkManager.mark_ok hi]
  refine .bind (.ret (.bind (save_returns fun u hu htrace' => ?_)))
  refine .bind (sys_returns (r := ()) rfl (by rintro _ ⟨⟩) ?_)
  refine .ret (hQ _ ?_ ?_)
  · change u.files = _
    rw [hu, hfiles]
  · change announced u.trace = _
    rw [htrace', ← htrace]
    rfl

theorem sendRequests_returns {needed : List ℕ} {Q : Unit → World → Prop} (hQ : Q () s) :
    Returns (hostile metas) (sendRequests tcp needed) Q s := by
  induction needed with
  | nil => exact .ret hQ
  | cons i needed ih => exact .bind (sendMsg_returns ih)

theorem launch_passes {msg : Message} (hmem : m ∈ metas) (hmake : makeFilemeta m = .ok msg)
    (hvalid : msg.Valid) (hname : m.fileName.length < 2 ^ 32) (hout : out ≠ [])
    {φ : Prog Os Unit → World → Prop}
    (h : Passes (hostile metas) (pullInto sha256 tcp m out) φ
      ((restart s).log (.line (.pullFile m)))) :
    Passes (hostile metas) (launch sha256 tcp out) φ s := by
  have htype : msg.type = .fileMeta := by
    rw [makeFilemeta] at hmake
    split_ifs at hmake
    cases hmake
    rfl
  refine .after (.modify (.after (sendMsg_returns (.after (.bind (recvMsg_returns hvalid ?_))))))
  rw [if_neg (fun h => h htype), parseFilemeta_make hmake hname]
  have hprint : hostile metas (.print (.pullFile m)) (restart s) ()
      ((restart s).log (.line (.pullFile m))) := by
    refine ⟨rfl, fun m' hm' => ?_⟩
    cases hm'
    exact hmem
  refine .ret (.after (.ask hprint ?_))
  rw [if_neg hout]
  exact h

theorem fresh_returns {Q : ChunkManager → World → Prop}
    (hQ : ∀ t, t.files = Function.update s.files out
        (some (List.replicate m.fileSize.toNat 0)) → t.pipe = s.pipe →
      announced t.trace = announced s.trace → Q (.new m.chunkCount) t) :
    Returns (hostile metas) (openOutput out m none) Q s := by
  refine .bind (sys_returns (r := true) (Or.inl ⟨rfl, rfl⟩) (fun _ h => nomatch h) ?_)
  rw [if_pos rfl]
  refine .bind (sys_returns (r := true) (Or.inl ⟨[], World.store_self .., rfl, rfl⟩)
    (fun _ h => nomatch h) ?_)
  rw [if_pos rfl]
  refine .ret (hQ _ ?_ rfl rfl)
  have hzero : resize [] m.fileSize.toNat = List.replicate m.fileSize.toNat 0 := by
    rw [resize, List.take_nil, List.nil_append, List.length_nil, Nat.sub_zero]
  rw [hzero]
  exact Function.update_idem ..

def twoChunks (h : Hash) : FileMeta := ⟨[97], 2097152, 1048576, 2, [h, h]⟩

def zeros : Bytes := List.replicate chunkSize 0

theorem twoChunks_launch {h : Hash} (hmem : twoChunks h ∈ metas) (hout : out ≠ [])
    {φ : Prog Os Unit → World → Prop}
    (hpull : Passes (hostile metas) (pullInto sha256 tcp (twoChunks h) out) φ
      ((restart s).log (.line (.pullFile (twoChunks h))))) :
    Passes (hostile metas) (launch sha256 tcp out) φ s := by
  have hname : (twoChunks h).fileName.length < 2 ^ 32 := (by decide : 1 < 2 ^ 32)
  refine launch_passes hmem rfl ⟨(fun h => nomatch h), ?_⟩ hname hout hpull
  simp only [twoChunks, putU64, putStr, putU32, List.length_append, be_length, hashes_length]
  exact (by decide : 4 + 4 + (4 + 1) + 4 + 4 + 2 * hashSize ≤ MAX_PAYLOAD_SIZE)

theorem twoChunks_chunkLen (h : Hash) {i : ℕ} (hi : i < 2) :
    chunkLen (twoChunks h).fileSize.toNat i = chunkSize := by
  change chunkLen 2097152 i = chunkSize
  rw [chunkLen, chunkSize]
  omega

theorem first_passes {c : Bytes} (hmem : twoChunks (sha256 c) ∈ metas) (hout : out ≠ [])
    (hc : c.length = chunkSize) (hrec : s.files (PartialFile.pathFor out) = none) :
    Passes (hostile metas) (launch sha256 tcp out) (fun _ u =>
      u.files (PartialFile.pathFor out) = some (recordOf (sha256 c) [true, false])) s := by
  have hrec₀ : ((restart s).log (.line (.pullFile (twoChunks (sha256 c))))).files
      (PartialFile.pathFor out) = none := hrec
  refine twoChunks_launch hmem hout (.after (load_returns_none (Or.inl hrec₀) fun t ht => ?_))
  refine .after (fresh_returns fun u hfiles hpipe _ => ?_)
  refine .after (sys_returns (r := ()) rfl (fun _ h => nomatch h) ?_)
  refine .after (sendRequests_returns (.after (sendMsg_returns (.inside ?_))))
  have hneeded : (ChunkManager.new 2).neededChunks = [0, 1] := by decide
  change Passes _ (recvChunks sha256 tcp out (twoChunks (sha256 c))
    (ChunkManager.new 2).neededChunks (.new 2)) _ _
  rw [hneeded]
  have hlen := hc.trans (twoChunks_chunkLen (sha256 c) (i := 0) (by decide)).symm
  refine .after (recvChunk_returns (f := List.replicate 2097152 0) (c := c) ?_ ?_ hlen ?_
    (by decide) (by decide) rfl fun v hv _ => .here ?_)
  · left
    change u.pipe = none
    rw [hpipe, ht.pipe]
    rfl
  · change u.files out = _
    rw [hfiles]
    exact Function.update_self ..
  · rw [hc]
    decide
  · rw [hv]
    exact Function.update_self ..

theorem second_passes {c : Bytes} {h : Hash} (hmem : twoChunks h ∈ metas) (hout : out ≠ [])
    (hne : sha256 c ≠ h)
    (hrec : s.files (PartialFile.pathFor out) = some (recordOf (sha256 c) [true, false])) :
    Passes (hostile metas) (launch sha256 tcp out) (fun _ u =>
      u.files (PartialFile.pathFor out) = some (recordOf (sha256 c) [true, false]) ∧
      u.files out = some (List.replicate 2097152 0)) s := by
  have hhash : (sha256 c).val.length = hashSize := (sha256 c).property
  have hrec₀ : ((restart s).log (.line (.pullFile (twoChunks h)))).files
      (PartialFile.pathFor out) = some (recordOf (sha256 c) [true, false]) := hrec
  refine twoChunks_launch hmem hout (.after (load_returns_none (Or.inr ⟨_, hrec₀, ?_, ?_⟩) ?_))
  · rw [recordOf, List.length_append]
    omega
  · rw [recordOf, List.take_left' hhash]
    exact fun heq => hne (Subtype.ext heq)
  · intro t ht
    refine .after (fresh_returns fun u hfiles _ _ => .here ⟨?_, ?_⟩)
    · rw [hfiles, Function.update_of_ne (PartialFile.pathFor_ne out), ht.files]
      exact hrec
    · rw [hfiles]
      exact Function.update_self ..

theorem third_passes {c : Bytes} (hmem : twoChunks (sha256 c) ∈ metas) (hout : out ≠ [])
    (hc : c.length = chunkSize)
    (hrec : s.files (PartialFile.pathFor out) = some (recordOf (sha256 c) [true, false]))
    (hzero : s.files out = some (List.replicate 2097152 0)) :
    Passes (hostile metas) (launch sha256 tcp out) (fun q u =>
      q.head = some (.unlink (PartialFile.pathFor out)) ∧
      announced u.trace = some (twoChunks (sha256 c)) ∧
      u.files out = some (writeAt (List.replicate 2097152 0) chunkSize c)) s := by
  have hsize : (List.replicate 2097152 (0 : UInt8)).length = (2 : UInt32).toNat * chunkSize :=
    List.length_replicate
  have hrec₀ : ((restart s).log (.line (.pullFile (twoChunks (sha256 c))))).files
      (PartialFile.pathFor out) = some ((sha256 c).val ++ pack [true, false]) := hrec
  have hzero₀ : ((restart s).log (.line (.pullFile (twoChunks (sha256 c))))).files out =
      some (List.replicate 2097152 0) := hzero
  have hraw : (pack [true, false]).length = bitmapBytes 2 := by decide
  refine twoChunks_launch hmem hout (.after (load_returns_some hrec₀ hraw hzero₀ hsize
    fun t ht => ?_))
  have hunpack : unpack 2 (pack [true, false]) = ⟨[true, false]⟩ := unpack_pack (by decide) rfl
  rw [hunpack]
  have hopen : (t.files out).isSome := by
    rw [ht.files]
    exact congrArg Option.isSome hzero
  refine .after (.bind (sys_returns (r := true) (Or.inl ⟨rfl, hopen, rfl⟩)
    (fun _ h => nomatch h) ?_))
  rw [if_pos rfl]
  refine .ret (.after (sys_returns (r := ()) rfl (fun _ h => nomatch h) ?_))
  refine .after (sendRequests_returns (.after (sendMsg_returns ?_)))
  have hneeded : (ChunkManager.mk [true, false]).neededChunks = [1] := by decide
  rw [hneeded]
  have hlen := hc.trans (twoChunks_chunkLen (sha256 c) (i := 1) (by decide)).symm
  refine .after (.bind (recvChunk_returns (f := List.replicate 2097152 0) (c := c) ?_ ?_ hlen ?_
    (by decide) (by decide) rfl fun v hv hann => .ret (.here ⟨rfl, ?_, ?_⟩)))
  · exact .inl ht.pipe
  · change t.files out = _
    rw [ht.files]
    exact hzero
  · rw [hc]
    decide
  · rw [hann]
    change announced t.trace = _
    rw [ht.trace]
    rfl
  · rw [hv, Function.update_of_ne (PartialFile.pathFor_ne out).symm, Function.update_self,
      Nat.one_mul]

theorem stale_record_resumed (sha256 : Bytes → Hash) {c : Bytes} (hc : c.length = chunkSize)
    (hne : sha256 c ≠ sha256 zeros) (out : Path) (hout : out ≠ []) :
    let metas : Set FileMeta := {twoChunks (sha256 c), twoChunks (sha256 zeros)}
    Admissible metas ∧ ¬ Sound (hostile metas) sha256 tcp metas out := by
  intro metas
  have hA : twoChunks (sha256 c) ∈ metas := Set.mem_insert ..
  have hB : twoChunks (sha256 zeros) ∈ metas := Set.mem_insert_of_mem _ rfl
  refine ⟨⟨?_, ?_, ?_⟩, fun hsound => ?_⟩
  · rintro m (rfl | rfl) <;> exact (by decide : 1 ≤ 2)
  · rintro m (rfl | rfl) <;> exact (by decide : 2 = (2097152 + chunkSize - 1) / chunkSize)
  · rintro m (rfl | rfl) m' (rfl | rfl) hhash -
    · rfl
    · exact (hne hhash).elim
    · exact (hne hhash.symm).elim
    · rfl
  · have hlaunch : Launches sha256 tcp metas out (launch sha256 tcp out) :=
      ⟨out, Or.inl ⟨hout, rfl⟩, rfl⟩
    have h₀ : Session (hostile metas) (Launches sha256 tcp metas out) (fun _ => True) (Start out)
        (.init fun _ => none) := .start ⟨rfl, rfl⟩
    obtain ⟨q₁, s₁, hr₁, hrec₁⟩ := first_passes (s := .init fun _ => none) hA hout hc rfl
    obtain ⟨q₂, s₂, hr₂, hrec₂, hout₂⟩ := second_passes hB hout hne hrec₁
    obtain ⟨q₃, s₃, hr₃, hhead, hann, hout₃⟩ := third_passes hA hout hc hrec₂ hout₂
    have h₂ := (h₀.next hlaunch hr₁ trivial).next hlaunch hr₂ trivial
    obtain ⟨f, hf, hok⟩ := hsound s₂ h₂ _ hlaunch q₃ s₃ hr₃ _ hhead trivial _ hann
    rw [hout₃] at hf
    cases hf
    have hchunk := (hok 0 (by decide : 0 < 2)).2
    have hmin : min chunkSize ((twoChunks (sha256 c)).fileSize.toNat - 0 * chunkSize) =
        chunkSize := (by decide : min chunkSize (2097152 - 0 * chunkSize) = chunkSize)
    have hslice : slice (writeAt (List.replicate 2097152 0) chunkSize c) (0 * chunkSize) chunkSize =
        zeros := by
      have hsame : slice (writeAt (List.replicate 2097152 0) chunkSize c) 0 chunkSize =
          slice (List.replicate 2097152 0) 0 chunkSize := by
        apply slice_congr
        intro i _ hi
        have hsz : chunkSize = 1048576 := rfl
        apply getElem?_writeAt_before (by omega)
        rw [List.length_replicate]
        omega
      rw [Nat.zero_mul, hsame, slice, List.drop_zero, List.take_replicate]
      rfl
    rw [hmin, hslice] at hchunk
    exact hne hchunk.symm

/-- A stand-in that tells byte strings apart by their first byte. -/
def firstByte (bs : Bytes) : Hash := .ofBytes [bs.headD 0]

/-- What the histories promise without that condition is false. -/
theorem resume_unsound : ¬ ∀ (sha256 : Bytes → Hash) (t : Transport Os), t.Confined →
    ∀ metas : Set FileMeta, Admissible metas → ∀ out : Path,
      Sound (hostile metas) sha256 t metas out := by
  intro h
  have hc : (List.replicate chunkSize (1 : UInt8)).length = chunkSize := List.length_replicate
  have hone : firstByte (List.replicate chunkSize 1) = .ofBytes [1] := rfl
  have hzero : firstByte zeros = .ofBytes [0] := rfl
  have hne : firstByte (List.replicate chunkSize 1) ≠ firstByte zeros := by
    rw [hone, hzero]
    decide
  obtain ⟨hmetas, hunsound⟩ := stale_record_resumed firstByte hc hne [111] (by decide)
  exact hunsound (h _ _ tcp_confined _ hmetas _)

end Embr.Resume
