import Embr.PullSafety
import Embr.StaleRecord

/-!
# Sizes that do not agree

Over a socket, to a peer that may say anything, the condition on the sizes is
exact: where they do not agree some run reaches outside the file or reports a
transfer complete that is not.
-/

open Octets Interact
open Embr.System Embr.Protocol
namespace Embr.Pull

variable {sha256 : Bytes → Hash} {path out : Path} {s u v w : World} {m : FileMeta} {how : How}
  {cm cm' cm₀ : ChunkManager} {verified rest : List ℕ} {i : ℕ} {p : Option Bytes}

def Pipes : Op → Prop
  | .pipe => True
  | .spliceIn _ => True
  | .spliceOut _ _ _ => True
  | _ => False

theorem rough_pipe {o : Op} {r : o.Reply} (ho : ¬ Pipes o) (h : rough o u r v) :
    v.pipe = u.pipe := by
  have hrefused : u.Refused v → v.pipe = u.pipe := by
    intro h
    obtain ⟨e, rfl⟩ := h
    rfl
  cases o with
  | send buf =>
    obtain ⟨_, -, -, rfl⟩ | ⟨-, h⟩ := h
    · rfl
    · exact hrefused h
  | recv len =>
    obtain ⟨_, -, -, rfl⟩ | ⟨-, h⟩ := h
    · rfl
    · exact hrefused h
  | sendfile fd offset len =>
    obtain ⟨_, -, -, rfl⟩ | ⟨-, h⟩ := h
    · rfl
    · exact hrefused h
  | pipe => exact (ho trivial).elim
  | spliceIn len => exact (ho trivial).elim
  | spliceOut fd offset len => exact (ho trivial).elim
  | openRead path =>
    obtain ⟨-, -, rfl⟩ | ⟨-, -, h⟩ := h
    · rfl
    · exact hrefused h
  | openReadWrite path =>
    obtain ⟨-, -, rfl⟩ | ⟨-, -, h⟩ := h
    · rfl
    · exact hrefused h
  | openTrunc path =>
    obtain ⟨-, rfl⟩ | ⟨-, -, h⟩ := h
    · rfl
    · exact hrefused h
  | ftruncate fd len =>
    obtain ⟨_, -, -, rfl⟩ | ⟨-, -, h⟩ := h
    · rfl
    · exact hrefused h
  | stat path =>
    obtain ⟨_, -, -, rfl⟩ | ⟨-, -, h⟩ := h
    · rfl
    · exact hrefused h
  | read fd len =>
    obtain ⟨_, _, -, -, -, -, -, rfl⟩ | ⟨-, -, h⟩ := h
    · rfl
    · exact hrefused h
  | write fd buf =>
    obtain ⟨_, _, -, -, -, -, rfl⟩ | ⟨-, -, h⟩ := h
    · rfl
    · exact hrefused h
  | mmap fd offset len =>
    obtain ⟨_, _, -, -, -, -, -, rfl⟩ | ⟨-, -, h⟩ := h
    · rfl
    · exact hrefused h
  | unlink path =>
    obtain rfl | ⟨-, h⟩ := h
    · rfl
    · exact hrefused h
  | print l =>
    rw [show v = u.log (.line l) from h]
    rfl

abbrev KeepsPipe (p : Option Bytes) {α : Type} (q : Prog Os α) : Prop :=
  q.Keeps rough fun w => w.pipe = p

theorem sys_keeps {o : Op} (ho : ¬ Pipes o) : KeepsPipe p (sys o) :=
  .ask fun _ _ _ hs hr => (rough_pipe ho hr).trans hs

theorem lift_keeps {α : Type} (x : Except Exc α) : KeepsPipe p (lift x : Prog Os α) := by
  cases x with
  | ok a => trivial
  | error e => trivial

theorem sendExact_keeps (buf : Bytes) : KeepsPipe p (sendExact tcp buf) := by
  refine .repeatUntil fun sent => .ite (.bind (sys_keeps id) fun r => ?_) (.pure _)
  cases r with
  | none => exact .get_bind fun s => .ite (.pure _) (.raise _)
  | some n => exact .ite (.raise _) (.pure _)

theorem recvExact_keeps (len : ℕ) : KeepsPipe p (recvExact tcp len) := by
  refine .repeatUntil fun received => .ite (.bind (sys_keeps id) fun r => ?_) (.pure _)
  cases r with
  | none => exact .get_bind fun s => .ite (.pure _) (.raise _)
  | some bs => exact .ite (.raise _) (.pure _)

theorem sendMsg_keeps (msg : Message) : KeepsPipe p (sendMsg tcp msg) :=
  .bind (sendExact_keeps _) fun _ => .ite (sendExact_keeps _) (.pure _)

theorem recvMsg_keeps : KeepsPipe p (recvMsg tcp) := by
  refine .bind (recvExact_keeps _) fun hdr => .ite (.raise _) (.ite (.raise _) (.ite (.raise _) ?_))
  exact .ite (.bind (recvExact_keeps _) fun _ => .pure _) (.pure _)

theorem announce_keeps : KeepsPipe p (announce tcp) :=
  .bind (sendMsg_keeps _) fun _ => .bind recvMsg_keeps fun _ => .ite (.raise _) (lift_keeps _)

theorem readExact_keeps (fd : Path) (len : ℕ) : KeepsPipe p (readExact fd len) := by
  refine .repeatUntil fun buf => .ite (.bind (sys_keeps id) fun r => ?_) (.pure _)
  cases r with
  | none => exact .get_bind fun s => .ite (.pure _) (.pure _)
  | some bs => exact .ite (.pure _) (.pure _)

theorem writeExact_keeps (fd : Path) (buf : Bytes) : KeepsPipe p (writeExact fd buf) := by
  refine .repeatUntil fun offset => .ite (.bind (sys_keeps id) fun r => ?_) (.pure _)
  cases r with
  | none => exact .get_bind fun s => .ite (.pure _) (.raise _)
  | some n => exact .pure _

theorem load_keeps {h : Hash} {n : UInt32} : KeepsPipe p (PartialFile.load out h n) := by
  refine .bind (sys_keeps id) fun opened => .ite (.bind (readExact_keeps _ _) fun r => ?_) (.pure _)
  cases r with
  | error e => exact .pure _
  | ok storedHash =>
    refine .ite (.pure _) (.bind (sys_keeps id) fun size => ?_)
    cases size with
    | none => exact .pure _
    | some size =>
      refine .ite (.pure _) (.bind (readExact_keeps _ _) fun raw => ?_)
      cases raw with
      | error e => exact .pure _
      | ok raw => exact .pure _

theorem request_keeps : KeepsPipe p (request tcp m cm) := by
  have hrequests : ∀ needed, KeepsPipe p (sendRequests tcp needed) := by
    intro needed
    induction needed with
    | nil => exact .pure _
    | cons i needed ih => exact .bind (sendMsg_keeps _) fun _ => ih
  exact .bind (sys_keeps id) fun _ => .bind (hrequests _) fun _ => sendMsg_keeps _

theorem keepChunk_keeps {mapped : Bytes} : KeepsPipe p (keepChunk sha256 out m i mapped cm) := by
  refine .bind (.ite (lift_keeps _) ?_) fun _ => .bind (.bind (sys_keeps id) fun _ => ?_) ?_
  · exact .bind (lift_keeps _) fun _ => .bind (sys_keeps id) fun _ => .pure _
  · exact .ite (.bind (writeExact_keeps _ _) fun _ => writeExact_keeps _ _) (.raise _)
  · exact fun _ => .bind (sys_keeps id) fun _ => .pure _

theorem Opens.pipe {prior : Option ChunkManager} (h : Opens rough out m prior u how cm v) :
    v.pipe = u.pipe := by
  cases h with
  | fresh hopen htrunc => exact (rough_pipe id htrunc).trans (rough_pipe id hopen)
  | resumed hopen => exact rough_pipe id hopen
  | recreated hopen hagain => exact (rough_pipe id hagain).trans (rough_pipe id hopen)

theorem Opened.pipe (h : Opened rough tcp path s m how cm v) : v.pipe = s.pipe := by
  cases h with
  | requested hannounce hprint hload hopens hrequest =>
    have hafter := (request_keeps.reaches rfl hrequest).trans hopens.pipe
    have hbefore := (rough_pipe id hprint).trans (announce_keeps.reaches rfl hannounce)
    exact (hafter.trans (load_keeps.reaches rfl hload)).trans hbefore

theorem hostile_rough {metas : Set FileMeta} (o : Op) (u : World) (r : o.Reply) (v : World)
    (h : Resume.hostile metas o u r v) : rough o u r v := h.1

theorem awaitHeader_returns (hi : i < 2 ^ 32) :
    Returns rough (awaitHeader tcp i) (fun _ u => u = s) s := by
  have hvalid : (makeChunkHdr ⟨UInt32.ofNat i⟩).Valid := by
    refine ⟨nofun, ?_⟩
    change (be 4 _).length ≤ _
    rw [be_length]
    decide
  have hrun : Returns (Resume.hostile ∅) (awaitHeader tcp i) (fun _ u => u = s) s := by
    refine .bind (Resume.recvMsg_returns hvalid ?_)
    rw [if_neg (fun h => h rfl), parseChunkHdr_make]
    change Returns _ (if (UInt32.ofNat i).toNat ≠ i then _ else _) _ _
    rw [if_neg (fun h => h (UInt32.toNat_ofNat_of_lt' hi))]
    exact .ret rfl
  exact hrun.env hostile_rough

theorem keepChunk_returns {mapped : Bytes} (hi : i < cm.bitmap.length) :
    Returns rough (keepChunk sha256 out m i mapped cm) (fun _ _ => True) s := by
  have hsaved : ∀ (cm' : ChunkManager) (u : World), Returns (Resume.hostile ∅) (do
      PartialFile.save out (hashAt m 0) cm'
      sys (.print (.pullReceived (i + 1) m.chunkCount.toNat))
      pure cm') (fun _ _ => True) u := by
    intro cm' u
    refine .bind (Resume.save_returns fun v _ _ => ?_)
    refine .bind (Resume.sys_returns (r := ()) rfl (by rintro _ ⟨⟩) ?_)
    exact .ret trivial
  have hrun : Returns (Resume.hostile ∅) (keepChunk sha256 out m i mapped cm)
      (fun _ _ => True) s := by
    refine .bind ?_
    rw [verifyChunk]
    split_ifs
    · rw [ChunkManager.markDone, ChunkManager.mark_ok hi]
      exact .ret (hsaved _ _)
    · rw [ChunkManager.markTodo, ChunkManager.mark_ok hi]
      refine .bind (.ret (.bind (Resume.sys_returns (r := ()) rfl (by rintro _ ⟨⟩) ?_)))
      exact .ret (hsaved _ _)
  exact hrun.env hostile_rough

structure Runnable (out : Path) (cm : ChunkManager) (rest : List ℕ) (w : World) : Prop where
  pipe : Resume.Drained w
  opened : (w.files out).isSome
  small : cm.bitmap.length < 2 ^ 32
  bits : ∀ i ∈ rest, i < cm.bitmap.length

theorem Progress.receives (h : Progress rough sha256 tcp out m cm₀ v verified (i :: rest) cm w)
    (hw : Runnable out cm (i :: rest) w) : Receives rough sha256 tcp out m cm₀ v i w := by
  have hi := (hw.bits i (List.mem_cons_self ..)).trans hw.small
  obtain ⟨_, _, hr, rfl⟩ := awaitHeader_returns (s := w) hi
  exact ⟨verified, rest, cm, _, h, hr⟩

theorem Progress.advance (h : Progress rough sha256 tcp out m cm₀ v verified (i :: rest) cm w)
    (hw : Runnable out cm (i :: rest) w) {c : Bytes} (hc : c.length = lengthAt m i)
    (hpos : 0 < c.length) :
    ∃ cm' w', Progress rough sha256 tcp out m cm₀ v
        (if sha256 c = hashAt m i then i :: verified else verified) rest cm' w' ∧
      Runnable out cm' rest w' ∧
      cm'.bitmap = cm.bitmap.set i (decide (sha256 c = hashAt m i)) := by
  have hi := hw.bits i (List.mem_cons_self ..)
  obtain ⟨f, hf⟩ := Option.isSome_iff_exists.mp hw.opened
  obtain ⟨_, _, hhdr, rfl⟩ := awaitHeader_returns (s := w) (hi.trans hw.small)
  have hrecv : Returns (Resume.hostile ∅) (Transport.recvFile tcp out (i * chunkSize) c.length)
      (fun _ t => t.files = Function.update _ out (some (writeAt f (i * chunkSize) c)) ∧
        t.pipe = some []) _ :=
    Resume.recvFile_returns hw.pipe hf hpos fun t hfiles _ hpipe => ⟨hfiles, hpipe⟩
  obtain ⟨_, x, hrecv, hfiles, hpipe⟩ := hrecv.env hostile_rough
  have hx : x.files out = some (writeAt f (i * chunkSize) c) := by
    rw [hfiles]
    exact Function.update_self ..
  have hmap : rough (.mmap out (i * chunkSize) c.length) x (some c) x :=
    .inl ⟨_, c, hx, hpos, rfl, fun _ => (slice_writeAt f _ c).symm, rfl, rfl⟩
  obtain ⟨cm', y, hkeep, -⟩ : Returns rough (keepChunk sha256 out m i c cm) (fun _ _ => True) x :=
    keepChunk_returns hi
  obtain ⟨hout, hbits⟩ := keepChunk_sat.returned hkeep
  rw [hc] at hrecv hmap
  refine ⟨cm', y, h.chunk hhdr hrecv hmap hkeep, ⟨?_, ?_, ?_, ?_⟩, hbits⟩
  · exact .inr (keepChunk_keeps.reaches hpipe hkeep)
  · rw [hout, hx]
    rfl
  · rw [hbits, List.length_set]
    exact hw.small
  · intro j hj
    rw [hbits, List.length_set]
    exact hw.bits j (List.mem_cons_of_mem _ hj)

theorem Safe.reaches_chunk (hsafe : Safe rough sha256 tcp out m cm₀ v)
    (h : Progress rough sha256 tcp out m cm₀ v verified rest cm w) (hw : Runnable out cm rest w)
    (hi : i ∈ rest) : ∃ w₁, Receives rough sha256 tcp out m cm₀ v i w₁ := by
  induction rest generalizing verified cm w with
  | nil => cases hi
  | cons j rest ih =>
    rcases List.mem_cons.mp hi with rfl | hi
    · exact ⟨w, h.receives hw⟩
    · have hpos := (hsafe.received j w (h.receives hw)).nonempty
      have hzeros : (List.replicate (lengthAt m j) (0 : UInt8)).length = lengthAt m j :=
        List.length_replicate
      obtain ⟨cm', w', h', hw', -⟩ := h.advance hw hzeros (hpos.trans_eq hzeros.symm)
      exact ih h' hw' hi

theorem Safe.completes (hsafe : Safe rough sha256 tcp out m cm₀ v)
    (h : Progress rough sha256 tcp out m cm₀ v verified rest cm w) (hw : Runnable out cm rest w)
    (hhashes : ∀ i ∈ rest, ∃ bs, bs.length = lengthAt m i ∧ sha256 bs = hashAt m i)
    (hdone : ∀ i < cm.bitmap.length, cm.bitmap[i]? = some true ∨ i ∈ rest) :
    ∃ verified' cm' w', Progress rough sha256 tcp out m cm₀ v verified' [] cm' w' ∧
      cm'.allDone = true := by
  induction rest generalizing verified cm w with
  | nil =>
    refine ⟨verified, cm, w, h, ChunkManager.allDone_iff.mpr fun i hi => ?_⟩
    exact (hdone i hi).resolve_right nofun
  | cons j rest ih =>
    obtain ⟨bs, hlen, hhash⟩ := hhashes j (List.mem_cons_self ..)
    have hpos := (hsafe.received j w (h.receives hw)).nonempty
    obtain ⟨cm', w', h', hw', hbits⟩ := h.advance hw hlen (hpos.trans_eq hlen.symm)
    have hj := hw.bits j (List.mem_cons_self ..)
    refine ih h' hw' (fun i hi => hhashes i (List.mem_cons_of_mem _ hi)) fun i hi => ?_
    rw [hbits, List.length_set] at hi
    rw [hbits, decide_eq_true hhash]
    by_cases hij : i = j
    · subst hij
      exact .inl (List.getElem?_set_self hi)
    · rw [List.getElem?_set_ne (Ne.symm hij)]
      refine (hdone i hi).imp_right fun hi => ?_
      exact (List.mem_cons.mp hi).resolve_left hij

theorem fits_of_safe (hs : s.pipe = none) (h : Opened rough tcp path s m how cm v)
    (hsafe : Safe rough sha256 tcp (outputPath path m) m cm v) : Fits sha256 m how cm := by
  have hready := h.ready (fun _ _ _ _ hr => hr) tcp_confined
  have hstart : Progress rough sha256 tcp (outputPath path m) m cm v [] cm.neededChunks cm v :=
    .start
  have hopened : (v.files (outputPath path m)).isSome := by
    cases how with
    | fresh =>
      obtain ⟨f, hf, -⟩ := hready.fresh rfl
      exact Option.isSome_of_eq_some hf
    | resumed =>
      obtain ⟨f, hf, -⟩ := hready.resumed rfl
      exact Option.isSome_of_eq_some hf
    | recreated => exact Option.isSome_of_eq_some (hready.recreated rfl)
  have hrun : Runnable (outputPath path m) cm cm.neededChunks v := by
    refine ⟨.inl (h.pipe.trans hs), hopened, ?_, fun i hi => ChunkManager.neededChunks_lt hi⟩
    rw [hready.bits]
    exact m.chunkCount.toNat_lt
  have hreceived : ∀ i ∈ cm.neededChunks, ∃ w, InFile (outputPath path m) m i w := by
    intro i hi
    obtain ⟨w, hw⟩ := hsafe.reaches_chunk hstart hrun hi
    exact ⟨w, hsafe.received i w hw⟩
  refine ⟨?_, fun i hi => ?_, fun hne => ?_, fun hhashes => ?_⟩
  · intro hzero
    have hpos := hsafe.first
    rw [hready.hashes, hzero] at hpos
    exact lt_irrefl _ hpos
  · obtain ⟨w, hw⟩ := hreceived i hi
    have hpos := hw.nonempty
    have hin := hw.inside
    omega
  · obtain ⟨i, rest, hneeded⟩ := List.exists_cons_of_ne_nil hne
    rw [hneeded] at hstart hrun
    have hfirst := hsafe.received i v (hstart.receives hrun)
    obtain ⟨f, hf, hlen⟩ := hfirst.extended
    refine ⟨fun hrec => ?_, fun hres => ?_⟩
    · rw [hready.recreated hrec] at hf
      cases hf
      have hpos := hfirst.nonempty
      have hin := hfirst.inside
      rw [List.length_nil] at hlen
      omega
    · obtain ⟨g, hg, hsize⟩ := hready.resumed hres
      rw [hf] at hg
      cases hg
      exact hsize ▸ hlen
  · have hbits : ∀ i < cm.bitmap.length, cm.bitmap[i]? = some true ∨ i ∈ cm.neededChunks := by
      intro i hi
      rw [ChunkManager.mem_neededChunks, List.getElem?_eq_getElem hi]
      cases cm.bitmap[i] <;> simp
    obtain ⟨verified, cm', w, hend, hdone⟩ := hsafe.completes hstart hrun hhashes hbits
    by_contra hlarge
    obtain ⟨i, hi, hle, hlt⟩ :=
      hsafe.complete verified cm' w hend hdone (m.chunkCount.toNat * chunkSize) (by omega)
    have hi : i < m.chunkCount.toNat := by
      rw [← hready.bits]
      rcases hi with hi | hi
      · have halong := hend.along tcp_confined fun _ _ _ _ hr => hr
        exact ChunkManager.neededChunks_lt (halong.hashed i hi).1
      · exact (List.getElem?_eq_some_iff.mp hi).1
    have hchunk : lengthAt m i ≤ chunkSize := chunkLen_le _ _
    have hmul : (i + 1) * chunkSize ≤ m.chunkCount.toNat * chunkSize := Nat.mul_le_mul_right _ hi
    rw [Nat.add_mul, Nat.one_mul] at hmul
    omega

/-- Over any transport and on any system a pull whose sizes agree is safe; over
a socket no other pull is. -/
theorem pull_safe (sha256 : Bytes → Hash) (path : Path) (s v : World) (m : FileMeta) (how : How)
    (cm : ChunkManager) :
    (∀ (E : Env Os) (t : Transport Os), (∀ o s r s', E o s r s' → rough o s r s') → t.Confined →
      Opened E t path s m how cm v → Fits sha256 m how cm →
        Safe E sha256 t (outputPath path m) m cm v) ∧
    (s.pipe = none → Opened rough tcp path s m how cm v →
      Safe rough sha256 tcp (outputPath path m) m cm v → Fits sha256 m how cm) :=
  ⟨fun _ _ hE ht h hfits => safe_of_fits ht hE h hfits, fun hs h hsafe => fits_of_safe hs h hsafe⟩

theorem announce_returns {msg : Message} (hmake : makeFilemeta m = .ok msg) (hvalid : msg.Valid)
    (hname : m.fileName.length < 2 ^ 32) :
    Returns rough (announce tcp) (fun m' u => m = m' ∧ u = s) s := by
  have htype := makeFilemeta_type hmake
  have hrun : Returns (Resume.hostile ∅) (announce tcp) (fun m' u => m = m' ∧ u = s) s := by
    refine .bind (Resume.sendMsg_returns (.bind (Resume.recvMsg_returns hvalid ?_)))
    rw [if_neg (fun h => h htype), parseFilemeta_make hmake hname]
    exact .ret ⟨rfl, rfl⟩
  exact hrun.env hostile_rough

theorem request_returns : Returns rough (request tcp m cm) (fun _ _ => True) s := by
  have hrun : Returns (Resume.hostile ∅) (request tcp m cm) (fun _ _ => True) s := by
    refine .bind (Resume.sys_returns (r := ()) rfl (fun _ h => nomatch h) ?_)
    exact .bind (Resume.sendRequests_returns (Resume.sendMsg_returns trivial))
  exact hrun.env hostile_rough

theorem opened {msg : Message} (hmake : makeFilemeta m = .ok msg) (hvalid : msg.Valid)
    (hname : m.fileName.length < 2 ^ 32) (hpath : path ≠ []) (prior : Option ChunkManager)
    (hload : ∀ u, u.files = s.files →
      Returns rough (PartialFile.load path (hashAt m 0) m.chunkCount)
        (fun r v => prior = r ∧ ∃ w, Opens rough path m prior v how cm w) u) :
    ∃ v, Opened rough tcp path s m how cm v := by
  have hout : outputPath path m = path := if_neg hpath
  obtain ⟨_, _, hannounce, rfl, rfl⟩ := announce_returns hmake hvalid hname
  obtain ⟨_, v, hload, rfl, w, hopens⟩ := hload (s.log (.line (.pullFile m))) rfl
  obtain ⟨_, x, hrequest, -⟩ : Returns rough (request tcp m cm) (fun _ _ => True) w :=
    request_returns
  rw [← hout] at hload hopens
  exact ⟨x, .requested hannounce rfl hload hopens hrequest⟩

theorem fresh_opened {msg : Message} (hmake : makeFilemeta m = .ok msg) (hvalid : msg.Valid)
    (hname : m.fileName.length < 2 ^ 32) (hpath : path ≠ [])
    (hrec : s.files (PartialFile.pathFor path) = none) :
    ∃ v, Opened rough tcp path s m .fresh (.new m.chunkCount) v := by
  refine opened hmake hvalid hname hpath none fun u hu => ?_
  rw [← hu] at hrec
  have hload : Returns (Resume.hostile ∅) (PartialFile.load path (hashAt m 0) m.chunkCount)
      (fun r v => none = r ∧ ∃ w, Opens rough path m none v .fresh (.new m.chunkCount) w) u := by
    refine Resume.load_returns_none (.inl hrec) fun v _ => ⟨rfl, ?_⟩
    exact ⟨_, .fresh (.inl ⟨rfl, rfl⟩) (.inl ⟨[], World.store_self .., rfl, rfl⟩)⟩
  exact hload.env hostile_rough

/-- One byte in no chunks. -/
def unchunked : FileMeta := ⟨[97], 1, 1048576, 0, []⟩

theorem unchunked_opened (hpath : path ≠ []) (hrec : s.files (PartialFile.pathFor path) = none) :
    ∃ v, Opened rough tcp path s unchunked .fresh (.new 0) v := by
  refine fresh_opened (m := unchunked) rfl ⟨nofun, ?_⟩ (by decide : 1 < 2 ^ 32) hpath hrec
  exact (by decide : (putU64 1 ++ putStr [97] ++ putU32 1048576 ++ putU32 0 ++ []).length ≤
    MAX_PAYLOAD_SIZE)

theorem oneByte_valid : ∃ msg, makeFilemeta Resume.oneByte = .ok msg ∧ msg.Valid := by
  refine ⟨_, rfl, nofun, ?_⟩
  change (putU64 1 ++ putStr [97] ++ putU32 1048576 ++ putU32 1 ++
    ([zeroHash].map Subtype.val).flatten).length ≤ MAX_PAYLOAD_SIZE
  rw [List.length_append, hashes_length]
  decide

theorem oneByte_opened (hpath : path ≠ [])
    (hrec : s.files (PartialFile.pathFor path) = some (zeroHash.val ++ [0]))
    (hout : s.files path = some Resume.zeros) :
    ∃ v, Opened rough tcp path s Resume.oneByte .recreated (.new 1) v := by
  obtain ⟨msg, hmake, hvalid⟩ := oneByte_valid
  refine opened hmake hvalid (by decide : 1 < 2 ^ 32) hpath (some (unpack 1 [0]))
    fun u hu => ?_
  rw [← hu] at hrec hout
  have hload : Returns (Resume.hostile ∅) (PartialFile.load path zeroHash 1)
      (fun r v => some (unpack 1 [0]) = r ∧
        ∃ w, Opens rough path Resume.oneByte (some (unpack 1 [0])) v .recreated (.new 1) w) u := by
    have hsize : Resume.zeros.length = (1 : UInt32).toNat * chunkSize := List.length_replicate
    refine Resume.load_returns_some hrec rfl hout hsize fun v _ => ⟨rfl, ?_⟩
    exact ⟨_, .recreated (.inr ⟨rfl, .inl trivial, v.errno, rfl⟩) (.inl ⟨rfl, rfl⟩)⟩
  exact hload.env hostile_rough

/-- The output of an earlier pull, none of whose chunks arrived. -/
def interrupted : Path → Option Bytes := fun p =>
  if p = [111] then some Resume.zeros
  else if p = PartialFile.pathFor [111] then some (zeroHash.val ++ [0])
  else none

/-- A FILE_META without chunks is reported complete, and an output that is gone
is mapped past its end. -/
theorem pull_unsafe :
    (∃ v, Opened rough tcp [111] (.init fun _ => none) unchunked .fresh (.new 0) v ∧
      ¬ Safe rough Resume.firstByte tcp [111] unchunked (.new 0) v) ∧
    ∃ v, Opened rough tcp [111] (.init interrupted) Resume.oneByte .recreated (.new 1) v ∧
      ¬ Safe rough Resume.firstByte tcp [111] Resume.oneByte (.new 1) v := by
  have hpath : ([111] : Path) ≠ [] := by decide
  constructor
  · obtain ⟨v, hv⟩ := unchunked_opened (s := .init fun _ => none) hpath rfl
    refine ⟨v, hv, fun hsafe => ?_⟩
    exact (fits_of_safe rfl hv hsafe).chunks rfl
  · have hrec : interrupted (PartialFile.pathFor [111]) = some (zeroHash.val ++ [0]) := by
      rw [interrupted, if_neg (PartialFile.pathFor_ne _), if_pos rfl]
    obtain ⟨v, hv⟩ := oneByte_opened (s := .init interrupted) hpath hrec rfl
    refine ⟨v, hv, fun hsafe => ?_⟩
    have hneeded : (ChunkManager.new 1).neededChunks ≠ [] := by decide
    exact ((fits_of_safe rfl hv hsafe).extended hneeded).1 rfl

/-- A file of one byte, pulled for the first time. -/
theorem pull_safe_oneByte :
    ∃ v, Opened rough tcp [111] (.init fun _ => none) Resume.oneByte .fresh (.new 1) v ∧
      Safe rough Resume.firstByte tcp [111] Resume.oneByte (.new 1) v ∧
      Fits Resume.firstByte Resume.oneByte .fresh (.new 1) := by
  obtain ⟨msg, hmake, hvalid⟩ := oneByte_valid
  obtain ⟨v, hv⟩ := fresh_opened (s := .init fun _ => none) hmake hvalid
    (by decide : 1 < 2 ^ 32) (by decide : ([111] : Path) ≠ []) rfl
  have hneeded : (ChunkManager.new 1).neededChunks = [0] := by decide
  have hfits : Fits Resume.firstByte Resume.oneByte .fresh (.new 1) := by
    refine ⟨(by decide : (1 : UInt32) ≠ 0), ?_, fun _ => ⟨nofun, nofun⟩, fun _ => ?_⟩
    · rw [hneeded]
      intro i hi
      rw [List.mem_singleton.mp hi]
      exact Nat.one_pos
    · exact (by decide : 1 ≤ 1 * chunkSize)
  have hexact := pull_safe Resume.firstByte [111] (.init fun _ => none) v Resume.oneByte .fresh
    (.new 1)
  have hsafe := hexact.1 rough tcp (fun _ _ _ _ hr => hr) tcp_confined hv hfits
  exact ⟨v, hv, hsafe, hexact.2 rfl hv hsafe⟩

end Embr.Pull
