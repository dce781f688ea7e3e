import Embr.Hostile

/-!
# Resuming an interrupted pull

Runs of `run_pull` on one output path, each stopped anywhere. The trace of the
process tells which FILE_META the record on disk speaks for: the one announced
when the record was created, as long as the output has not been opened with
`O_TRUNC` since.
-/

open Octets Interact
open Embr.System Embr.Protocol
namespace Embr.Resume

def announced : List Event → Option FileMeta
  | [] => none
  | .line (.pullFile m) :: _ => some m
  | _ :: es => announced es

def owner (out : Path) : List Event → Option FileMeta
  | [] => none
  | .line _ :: es => owner out es
  | .truncated path :: es =>
    if path = PartialFile.pathFor out then announced es
    else if path = out then none
    else owner out es

/-- FILE_METAs are those of files with `ceil(file_size / CHUNK_SIZE) >= 1`
chunks, and the first hash with the chunk count tells them apart. -/
structure Admissible (metas : Set FileMeta) : Prop where
  pos : ∀ m ∈ metas, 1 ≤ m.chunkCount.toNat
  count : ∀ m ∈ metas, m.chunkCount.toNat = (m.fileSize.toNat + chunkSize - 1) / chunkSize
  agree : ∀ m ∈ metas, ∀ m' ∈ metas, hashAt m 0 = hashAt m' 0 →
    m.chunkCount = m'.chunkCount → m = m'

/-- Any call may fail and any peer may answer, with a FILE_META of `metas`. -/
def hostile (metas : Set FileMeta) : Env Os := fun o s r s' =>
  rough o s r s' ∧ ∀ m, o = .print (.pullFile m) → m ∈ metas

def MayResume (out : Path) (s : World) : Prop :=
  ∀ m, announced s.trace = some m →
    (∃ m', owner out s.trace = some m' ∧ m'.chunkCount = m.chunkCount) ∨
    ∀ f, s.files (PartialFile.pathFor out) = some f →
      ∀ i < m.chunkCount.toNat, testBit (f.drop hashSize) i = false

/-- The runs that resume only when they may. -/
def resumable (metas : Set FileMeta) (out : Path) : Env Os := fun o s r s' =>
  hostile metas o s r s' ∧ (o = .openReadWrite out → MayResume out s)

section invariant
variable (sha256 : Bytes → Hash) (metas : Set FileMeta) (out : Path)

def ChunkOk (m : FileMeta) (u : World) (i : ℕ) : Prop :=
  ∃ f, u.files out = some f ∧ i * chunkSize + chunkLen m.fileSize.toNat i ≤ f.length ∧
    sha256 (slice f (i * chunkSize) (chunkLen m.fileSize.toNat i)) = hashAt m i

def AllOk (m : FileMeta) (u : World) : Prop := ∀ i < m.chunkCount.toNat, ChunkOk sha256 out m u i

def Recorded (P : ℕ → Prop) (u : World) : Prop :=
  ∀ m, owner out u.trace = some m → m ∈ metas ∧ m.chunkCount.toNat + 7 < 2 ^ 32 ∧
    ∀ f, u.files (PartialFile.pathFor out) = some f →
      ∃ bits : List Bool, bits.length = m.chunkCount.toNat ∧
        f <+: recordOf (hashAt m 0) bits ∧
        ∀ i : ℕ, bits[i]? = some true → ChunkOk sha256 out m u i ∧ P i

def Inv (o : Option Op) (u : World) : Prop :=
  Recorded sha256 metas out (fun _ => True) u ∧
    ∀ op, o = some op → reports op → ∀ m, announced u.trace = some m →
      m ∈ metas ∧ AllOk sha256 out m u

/-- A run past the opening of its output: the bitmap in memory is right, and the
record marks nothing that the run still needs. -/
structure Running (m : FileMeta) (cm : ChunkManager) (u : World) : Prop where
  current : announced u.trace = some m
  mem : m ∈ metas
  small : m.chunkCount.toNat + 7 < 2 ^ 32
  opened : (u.files out).isSome
  length : cm.bitmap.length = m.chunkCount.toNat
  done : ∀ i : ℕ, cm.bitmap[i]? = some true → ChunkOk sha256 out m u i
  recorded : Recorded sha256 metas out (fun i => cm.bitmap[i]? ≠ some false) u

end invariant

variable {sha256 : Bytes → Hash} {metas : Set FileMeta} {out : Path} {m : FileMeta}
  {cm : ChunkManager} {s u : World} {P : ℕ → Prop} {i : ℕ}

theorem ChunkOk.of_output (h : ChunkOk sha256 out m s i) (hu : u.files out = s.files out) :
    ChunkOk sha256 out m u i := by
  rw [ChunkOk, hu]
  exact h

theorem Recorded.of_eq (h : Recorded sha256 metas out P s) (hfiles : u.files = s.files)
    (howner : owner out u.trace = owner out s.trace) : Recorded sha256 metas out P u := by
  intro m hm
  rw [howner] at hm
  obtain ⟨hmem, hsmall, hrec⟩ := h m hm
  refine ⟨hmem, hsmall, fun f hf => ?_⟩
  rw [hfiles] at hf
  obtain ⟨bits, hlen, hpre, hbits⟩ := hrec f hf
  refine ⟨bits, hlen, hpre, fun i hi => ⟨(hbits i hi).1.of_output ?_, (hbits i hi).2⟩⟩
  rw [hfiles]

theorem Recorded.calm (h : Recorded sha256 metas out P s) (hu : Calm s u) :
    Recorded sha256 metas out P u := h.of_eq hu.files (by rw [hu.trace])

theorem Recorded.mono {P' : ℕ → Prop} (h : Recorded sha256 metas out P s)
    (hP : ∀ i, P i → P' i) : Recorded sha256 metas out P' s := by
  intro m hm
  obtain ⟨hmem, hsmall, hrec⟩ := h m hm
  refine ⟨hmem, hsmall, fun f hf => ?_⟩
  obtain ⟨bits, hlen, hpre, hbits⟩ := hrec f hf
  exact ⟨bits, hlen, hpre, fun i hi => ⟨(hbits i hi).1, hP i (hbits i hi).2⟩⟩

theorem Recorded.of_owner (h : owner out u.trace = none) : Recorded sha256 metas out P u := by
  intro m hm
  rw [h] at hm
  cases hm

theorem Recorded.of_file (h : Recorded sha256 metas out P s)
    (howner : owner out u.trace = owner out s.trace)
    (hfile : u.files (PartialFile.pathFor out) = none) : Recorded sha256 metas out P u := by
  intro m hm
  rw [howner] at hm
  refine ⟨(h m hm).1, (h m hm).2.1, fun f hf => ?_⟩
  rw [hfile] at hf
  cases hf

theorem ChunkOk.touched {len j : ℕ} (h : ChunkOk sha256 out m s j) (hlen : len ≤ chunkSize)
    (hu : Touched out (i * chunkSize) len s u) (hne : j ≠ i) : ChunkOk sha256 out m u j := by
  obtain ⟨f, hf, hin, hhash⟩ := h
  obtain ⟨f', hf', hgrow, hsame⟩ := hu.file f hf
  have hle := chunkLen_le m.fileSize.toNat j
  have hapart : (j + 1) * chunkSize ≤ i * chunkSize ∨ (i + 1) * chunkSize ≤ j * chunkSize := by
    rcases Nat.lt_or_gt_of_ne hne with h | h
    · exact Or.inl (Nat.mul_le_mul_right _ h)
    · exact Or.inr (Nat.mul_le_mul_right _ h)
  rw [Nat.add_mul, Nat.add_mul, Nat.one_mul] at hapart
  refine ⟨f', hf', by omega, ?_⟩
  rw [← hhash]
  congr 1
  apply slice_congr
  intro k hk hk'
  exact hsame k (by omega) (by omega)

theorem Recorded.touched {len : ℕ} (h : Recorded sha256 metas out P s) (hlen : len ≤ chunkSize)
    (hu : Touched out (i * chunkSize) len s u) (hi : ¬ P i) : Recorded sha256 metas out P u := by
  intro m hm
  rw [hu.trace] at hm
  obtain ⟨hmem, hsmall, hrec⟩ := h m hm
  refine ⟨hmem, hsmall, fun f hf => ?_⟩
  rw [hu.others _ (PartialFile.pathFor_ne out)] at hf
  obtain ⟨bits, hblen, hpre, hbits⟩ := hrec f hf
  refine ⟨bits, hblen, hpre, fun j hj => ?_⟩
  obtain ⟨hok, hPj⟩ := hbits j hj
  have hne : j ≠ i := fun hji => hi (hji ▸ hPj)
  exact ⟨hok.touched hlen hu hne, hPj⟩

theorem Inv.of_quiet {o : Option Op} (h : Recorded sha256 metas out P u)
    (ho : ∀ op, o = some op → ¬ reports op) : Inv sha256 metas out o u :=
  ⟨h.mono fun _ _ => trivial, fun op hop hrep => (ho op hop hrep).elim⟩

theorem Recorded.quiet (h : Recorded sha256 metas out P s) (o : Option Op) (u : World)
    (hu : Quiet s o u) : Inv sha256 metas out o u := .of_quiet (h.calm hu.1) hu.2

theorem Recorded.here (h : Recorded sha256 metas out P s) : Inv sha256 metas out none s :=
  h.quiet none s (Calm.refl s).quiet

theorem Recorded.asks {op : Op} (h : Recorded sha256 metas out P s) (hop : ¬ reports op) :
    Inv sha256 metas out (some op) s := h.quiet _ s ((Calm.refl s).asks hop)

namespace Running

theorem of_eq (h : Running sha256 metas out m cm s) (hfiles : u.files = s.files)
    (hann : announced u.trace = announced s.trace)
    (howner : owner out u.trace = owner out s.trace) : Running sha256 metas out m cm u := by
  refine ⟨hann.trans h.current, h.mem, h.small, ?_, h.length, fun i hi => ?_, ?_⟩
  · rw [hfiles]
    exact h.opened
  · exact (h.done i hi).of_output (by rw [hfiles])
  · exact h.recorded.of_eq hfiles howner

theorem calm (h : Running sha256 metas out m cm s) (hu : Calm s u) :
    Running sha256 metas out m cm u := h.of_eq hu.files (by rw [hu.trace]) (by rw [hu.trace])

theorem touched {len : ℕ} (h : Running sha256 metas out m cm s)
    (hi : cm.bitmap[i]? = some false) (hlen : len ≤ chunkSize)
    (hu : Touched out (i * chunkSize) len s u) : Running sha256 metas out m cm u := by
  refine ⟨?_, h.mem, h.small, ?_, h.length, fun j hj => ?_, ?_⟩
  · rw [hu.trace]
    exact h.current
  · obtain ⟨f, hf⟩ := Option.isSome_iff_exists.mp h.opened
    obtain ⟨f', hf', -⟩ := hu.file f hf
    rw [hf']
    rfl
  · have hne : j ≠ i := by
      rintro rfl
      rw [hi] at hj
      cases hj
    exact (h.done j hj).touched hlen hu hne
  · exact h.recorded.touched hlen hu (fun hP => hP hi)

theorem saving {g : Bytes} (h : Running sha256 metas out m cm s)
    (hu : Saving (PartialFile.pathFor out) (recordOf (hashAt m 0) cm.bitmap) s g u) :
    Running sha256 metas out m cm u := by
  have hout : u.files out = s.files out := by
    rw [hu.files, Function.update_of_ne (PartialFile.pathFor_ne out).symm]
  have howner : owner out u.trace = some m := by
    rw [hu.trace, owner, if_pos rfl]
    exact h.current
  refine ⟨?_, h.mem, h.small, ?_, h.length, fun i hi => (h.done i hi).of_output hout, ?_⟩
  · rw [hu.trace]
    exact h.current
  · rw [hout]
    exact h.opened
  · intro m' hm'
    rw [howner] at hm'
    cases hm'
    refine ⟨h.mem, h.small, fun f hf => ?_⟩
    rw [hu.files, Function.update_self] at hf
    cases hf
    refine ⟨cm.bitmap, h.length, hu.part, fun i hi => ⟨(h.done i hi).of_output hout, ?_⟩⟩
    intro hfalse
    rw [hi] at hfalse
    cases hfalse

theorem marked {v : Bool} (h : Running sha256 metas out m cm s)
    (hi : cm.bitmap[i]? = some false) (hok : v = true → ChunkOk sha256 out m s i) :
    Running sha256 metas out m ⟨cm.bitmap.set i v⟩ s := by
  refine ⟨h.current, h.mem, h.small, h.opened, ?_, fun j hj => ?_, h.recorded.mono ?_⟩
  · rw [List.length_set]
    exact h.length
  · rw [List.getElem?_set] at hj
    split_ifs at hj with hij hlt
    · subst hij
      exact hok (Option.some.inj hj)
    · exact h.done j hj
  · intro j hj hset
    rw [List.getElem?_set] at hset
    split_ifs at hset with hij hlt
    · subst hij
      exact hj hi
    · exact hj hset

theorem line {l : Line} (h : Running sha256 metas out m cm s)
    (hl : ∀ m, l ≠ .pullFile m) : Running sha256 metas out m cm (s.log (.line l)) := by
  refine h.of_eq rfl ?_ rfl
  cases l with
  | pullFile m => exact (hl m rfl).elim
  | _ => rfl

end Running

section run
variable {t : Transport Os}

theorem print_sat {l : Line} (h : Running sha256 metas out m cm s) (hl : ∀ m, l ≠ .pullFile m)
    (hrep : ¬ reports (.print l)) {α : Type} {k : Unit → Prog Os α} {Q : α → World → Prop}
    (hk : ∀ u, Running sha256 metas out m cm u →
      Sat rough (Inv sha256 metas out) (fun _ _ => True) (k ()) Q u) :
    Sat rough (Inv sha256 metas out) (fun _ _ => True) (sys (.print l) >>= k) Q s := by
  refine sat_ask_bind.mpr ⟨h.recorded.asks hrep, ?_⟩
  rintro r _ rfl
  exact hk _ (h.line hl)

theorem verifyChunk_sat {mapped : Bytes} (h : Running sha256 metas out m cm s)
    (hi : cm.bitmap[i]? = some false) :
    Sat rough (Inv sha256 metas out) (fun _ _ => True) (verifyChunk sha256 m i mapped cm)
      (fun cm' u => Running sha256 metas out m cm u ∧ u.files = s.files ∧
        ∃ v, cm' = ⟨cm.bitmap.set i v⟩ ∧ (v = true → sha256 mapped = hashAt m i)) s := by
  have hlt : i < cm.bitmap.length := (List.getElem?_eq_some_iff.mp hi).1
  rw [verifyChunk]
  split_ifs with hhash
  · rw [ChunkManager.markDone, ChunkManager.mark_ok hlt]
    exact sat_pure.mpr ⟨h.recorded.here, h, rfl, true, rfl, fun _ => hhash⟩
  · rw [ChunkManager.markTodo, ChunkManager.mark_ok hlt]
    refine sat_ask_bind.mpr ⟨h.recorded.asks (fun h => h), ?_⟩
    rintro r _ rfl
    have hline := h.line (l := .pullMismatch i) (fun _ hl => nomatch hl)
    exact sat_pure.mpr ⟨hline.recorded.here, hline, rfl, false, rfl, fun hv => nomatch hv⟩

theorem recvChunk_sat (ht : t.Confined) (h : Running sha256 metas out m cm s)
    (hi : cm.bitmap[i]? = some false) :
    Sat rough (Inv sha256 metas out) (fun _ _ => True) (recvChunk sha256 t out m i cm)
      (fun cm' u => (∃ v, cm' = ⟨cm.bitmap.set i v⟩) ∧ Running sha256 metas out m cm' u) s := by
  refine Sat.seq (recvMsg_sat ht) h.recorded.quiet ?_
  rintro msg u ⟨hu, -⟩
  have hrun := h.calm hu
  split_ifs
  · exact sat_raise.mpr ⟨hrun.recorded.here, trivial⟩
  cases parseChunkHdr msg with
  | error e => exact sat_raise.mpr ⟨hrun.recorded.here, trivial⟩
  | ok hdr =>
    change Sat _ _ _ (if hdr.chunkIndex.toNat ≠ i then _ else _) _ _
    split_ifs
    · exact sat_raise.mpr ⟨hrun.recorded.here, trivial⟩
    have hlen := chunkLen_le m.fileSize.toNat i
    refine Sat.seq (ht.recvFile out (i * chunkSize) _ u hrun.opened) ?_ ?_
    · intro o v hv
      exact .of_quiet (hrun.touched hi hlen hv.1).recorded hv.2
    rintro - v ⟨hv, hcover⟩
    have hrun := hrun.touched hi hlen hv
    refine sat_ask_bind.mpr ⟨hrun.recorded.asks (fun h => h), ?_⟩
    rintro r w (⟨f, mapped, hf, hpos, -, hmap, rfl, rfl⟩ | ⟨rfl, -, hw⟩)
    · refine Sat.andThen (verifyChunk_sat hrun hi) ?_
      rintro _ x ⟨hx, hfiles, v, rfl, hhash⟩
      obtain ⟨f', hf', hin⟩ := hcover hpos
      rw [hf] at hf'
      cases hf'
      have hok : v = true → ChunkOk sha256 out m x i := by
        intro hv
        refine ⟨f, hfiles ▸ hf, hin, ?_⟩
        rw [← hmap hin]
        exact hhash hv
      have hmarked := hx.marked hi hok
      refine Sat.seq save_sat ?_ ?_
      · rintro o y ⟨hy | ⟨g, hy⟩, ho⟩
        · exact .of_quiet (hmarked.calm hy).recorded ho
        · exact .of_quiet (hmarked.saving hy).recorded ho
      · intro _ y hy
        refine print_sat (l := .pullReceived (i + 1) m.chunkCount.toNat) (hmarked.saving hy)
          (fun _ hl => nomatch hl) (fun h => h) ?_
        exact fun z hz => sat_pure.mpr ⟨hz.recorded.here, ⟨v, rfl⟩, hz⟩
    · have hrefused := hrun.calm ((Calm.refl v).refused hw)
      refine sat_get_bind.mpr ⟨hrefused.recorded.here, ?_⟩
      exact sat_raise.mpr ⟨hrefused.recorded.here, trivial⟩

theorem recvChunks_sat (ht : t.Confined) {needed : List ℕ} (h : Running sha256 metas out m cm s)
    (hneeded : ∀ i ∈ needed, cm.bitmap[i]? = some false) (hnodup : needed.Nodup) :
    Sat rough (Inv sha256 metas out) (fun _ _ => True) (recvChunks sha256 t out m needed cm)
      (fun cm' u => Running sha256 metas out m cm' u) s := by
  induction needed generalizing cm s with
  | nil => exact sat_pure.mpr ⟨h.recorded.here, h⟩
  | cons i needed ih =>
    refine Sat.andThen (recvChunk_sat ht h (hneeded i (List.mem_cons_self ..))) ?_
    rintro _ u ⟨⟨v, rfl⟩, hu⟩
    obtain ⟨hi, hnodup⟩ := List.nodup_cons.mp hnodup
    refine ih hu (fun j hj => ?_) hnodup
    have hne : i ≠ j := fun hij => hi (hij ▸ hj)
    rw [List.getElem?_set_ne hne]
    exact hneeded j (List.mem_cons_of_mem _ hj)

theorem sendRequests_sat (ht : t.Confined) (needed : List ℕ) :
    Sat rough (Quiet s) (fun _ _ => True) (sendRequests t needed) (fun _ u => Calm s u) s := by
  induction needed generalizing s with
  | nil => exact sat_pure.mpr ⟨(Calm.refl s).quiet, .refl s⟩
  | cons i needed ih =>
    refine Sat.andThen (sendMsg_sat ht _) fun _ u hu => ?_
    exact (ih.inside hu.mono_quiet).weaken fun _ v hv => hu.trans hv

theorem finish_sat (h : Running sha256 metas out m cm s) :
    Sat rough (Inv sha256 metas out) (fun _ _ => True) (finish out cm) (fun _ _ => True) s := by
  rw [finish]
  split_ifs with hdone
  · have hall : ∀ u, u.files out = s.files out → AllOk sha256 out m u := by
      intro u hu i hi
      have hbit := ChunkManager.allDone_iff.mp hdone i (h.length ▸ hi)
      exact (h.done i hbit).of_output hu
    have hout : out ≠ PartialFile.pathFor out := (PartialFile.pathFor_ne out).symm
    refine sat_ask_bind.mpr ⟨⟨h.recorded.mono fun _ _ => trivial, ?_⟩, ?_⟩
    · intro _ _ _ m' hm'
      rw [h.current] at hm'
      cases hm'
      exact ⟨h.mem, hall s rfl⟩
    rintro r u hu
    have hrec : Recorded sha256 metas out (fun _ => True) u ∧ u.files out = s.files out ∧
        u.trace = s.trace := by
      rcases hu with rfl | ⟨-, hu⟩
      · refine ⟨Recorded.of_file (h.recorded.mono fun _ _ => trivial) rfl ?_, ?_, rfl⟩
        · exact Function.update_self ..
        · exact Function.update_of_ne hout ..
      · have hcalm := (Calm.refl s).refused hu
        refine ⟨(h.recorded.calm hcalm).mono fun _ _ => trivial, ?_, hcalm.trace⟩
        rw [hcalm.files]
    obtain ⟨hrec, hfiles, htrace⟩ := hrec
    refine sat_ask.mpr ⟨⟨hrec, ?_⟩, ?_⟩
    · intro _ _ _ m' hm'
      rw [htrace, h.current] at hm'
      cases hm'
      exact ⟨h.mem, hall u hfiles⟩
    · rintro r _ rfl
      exact ⟨(hrec.of_eq rfl rfl).here, trivial⟩
  · refine sat_ask.mpr ⟨h.recorded.asks (fun h => h), ?_⟩
    rintro r _ rfl
    exact ⟨(h.recorded.of_eq rfl rfl).here, trivial⟩

end run

theorem new_running (hcur : announced u.trace = some m) (hmem : m ∈ metas)
    (hsmall : m.chunkCount.toNat + 7 < 2 ^ 32) (hopen : (u.files out).isSome)
    (howner : owner out u.trace = none) : Running sha256 metas out m (.new m.chunkCount) u := by
  refine ⟨hcur, hmem, hsmall, hopen, List.length_replicate, fun i hi => ?_, .of_owner howner⟩
  rw [ChunkManager.new, List.getElem?_replicate] at hi
  split_ifs at hi
  cases hi

theorem resume_running (hmetas : Admissible metas) {f raw : Bytes}
    (h : Recorded sha256 metas out (fun _ => True) u) (hmay : MayResume out u)
    (hcur : announced u.trace = some m) (hmem : m ∈ metas)
    (hsmall : m.chunkCount.toNat + 7 < 2 ^ 32) (hopen : (u.files out).isSome)
    (hf : u.files (PartialFile.pathFor out) = some f) (hpre : (hashAt m 0).val ++ raw <+: f)
    (hraw : raw.length = bitmapBytes m.chunkCount) :
    Running sha256 metas out m (unpack m.chunkCount raw) u := by
  rw [bitmapBytes_eq hsmall] at hraw
  have hrest : raw <+: f.drop hashSize := by
    obtain ⟨r, rfl⟩ := hpre
    rw [List.append_assoc, List.drop_left' (hashAt m 0).property]
    exact ⟨r, rfl⟩
  have hlen : (unpack m.chunkCount raw).bitmap.length = m.chunkCount.toNat := by
    rw [unpack, List.length_map, List.length_range]
  rcases hmay m hcur with ⟨m', howner, hcount⟩ | hnone
  · obtain ⟨hmem', -, hrec⟩ := h m' howner
    obtain ⟨bits, hblen, hbpre, hbits⟩ := hrec f hf
    have hall := hpre.trans hbpre
    rw [recordOf] at hall
    have hhash : hashAt m 0 = hashAt m' 0 := by
      apply Subtype.ext
      have hlen := (hashAt m 0).property.trans (hashAt m' 0).property.symm
      have hleft := (List.prefix_append _ raw).trans hall
      have hright := List.prefix_append (hashAt m' 0).val (pack bits)
      exact (List.prefix_of_prefix_length_le hleft hright hlen.le).eq_of_length hlen
    have hm : m = m' := hmetas.agree m hmem m' hmem' hhash hcount.symm
    subst hm
    have hsmall' : bits.length + 7 < 2 ^ 32 := hblen ▸ hsmall
    have hbits_raw : raw = pack bits := by
      apply List.IsPrefix.eq_of_length ((List.prefix_append_right_inj _).mp hall)
      rw [hraw, pack_length hsmall', hblen]
    have hunpack : unpack m.chunkCount raw = ⟨bits⟩ := by
      rw [hbits_raw]
      exact unpack_pack hsmall' hblen.symm
    rw [hunpack] at hlen ⊢
    refine ⟨hcur, hmem, hsmall, hopen, hlen, fun i hi => (hbits i hi).1, ?_⟩
    intro m' hm'
    rw [howner] at hm'
    cases hm'
    refine ⟨hmem, hsmall, fun g hg => ?_⟩
    rw [hf] at hg
    cases hg
    refine ⟨bits, hblen, hbpre, fun i hi => ⟨(hbits i hi).1, fun hfalse => ?_⟩⟩
    change bits[i]? = some false at hfalse
    rw [hi] at hfalse
    cases hfalse
  · have hclear : ∀ i < m.chunkCount.toNat, testBit raw i = false := by
      intro i hi
      rw [testBit_of_le hrest (by omega)]
      exact hnone f hf i hi
    refine ⟨hcur, hmem, hsmall, hopen, hlen, fun i hi => ?_, fun m' hm' => ?_⟩
    · rw [getElem?_unpack] at hi
      split_ifs at hi with hlt
      rw [hclear i hlt] at hi
      cases hi
    · obtain ⟨hmem', hsmall', hrec⟩ := h m' hm'
      refine ⟨hmem', hsmall', fun g hg => ?_⟩
      obtain ⟨bits, hblen, hbpre, hbits⟩ := hrec g hg
      refine ⟨bits, hblen, hbpre, fun i hi => ⟨(hbits i hi).1, fun hfalse => ?_⟩⟩
      rw [getElem?_unpack] at hfalse
      split_ifs at hfalse with hlt
      rw [hf] at hg
      cases hg
      have hbl : i < bits.length := (List.getElem?_eq_some_iff.mp hi).1
      have hdrop : f.drop hashSize <+: pack bits := by
        obtain ⟨r, hr⟩ := hbpre
        have hcat := congrArg (List.drop hashSize) hr
        rw [recordOf, List.drop_left' (hashAt m' 0).property,
          List.drop_append_of_le_length] at hcat
        · exact ⟨r, hcat⟩
        · have hle := hpre.length_le
          rw [List.length_append, (hashAt m 0).property] at hle
          omega
      have hin : i / 8 < (f.drop hashSize).length := by
        have hle := hrest.length_le
        omega
      have htrue := testBit_pack (hblen ▸ hsmall' : bits.length + 7 < 2 ^ 32) hbl
      rw [← testBit_of_le hdrop hin, hnone f hf i hlt, List.getD_eq_getElem?_getD, hi] at htrue
      cases htrue

theorem openOutput_sat (hmetas : Admissible metas) {prior : Option ChunkManager}
    (h : Recorded sha256 metas out (fun _ => True) s) (hcur : announced s.trace = some m)
    (hmem : m ∈ metas) (hsmall : m.chunkCount.toNat + 7 < 2 ^ 32)
    (hprior : ∀ cm, prior = some cm → ∃ f raw, s.files (PartialFile.pathFor out) = some f ∧
      (hashAt m 0).val ++ raw <+: f ∧ raw.length = bitmapBytes m.chunkCount ∧
      cm = unpack m.chunkCount raw) :
    Sat (resumable metas out) (Inv sha256 metas out) (fun _ _ => True) (openOutput out m prior)
      (fun cm u => Running sha256 metas out m cm u) s := by
  have howner : ∀ es, owner out (.truncated out :: es) = none := by
    intro es
    rw [owner, if_neg (PartialFile.pathFor_ne out).symm, if_pos rfl]
  cases prior with
  | none =>
    refine sat_ask_bind.mpr ⟨h.asks (fun h => h), ?_⟩
    rintro r u ⟨⟨⟨rfl, rfl⟩ | ⟨rfl, -, hu⟩, -⟩, -⟩
    · have hnew : Running sha256 metas out m (.new m.chunkCount)
          (((s.store out (some [])).seek out 0).log (.truncated out)) := by
        refine new_running hcur hmem hsmall ?_ (howner _)
        exact congrArg Option.isSome (World.store_self s out (some []))
      rw [if_pos rfl]
      refine sat_ask_bind.mpr ⟨hnew.recorded.asks (fun h => h), ?_⟩
      rintro r u ⟨⟨⟨f, -, rfl, rfl⟩ | ⟨rfl, -, hu⟩, -⟩, -⟩
      · have hsized : Running sha256 metas out m (.new m.chunkCount)
            ((((s.store out (some [])).seek out 0).log (.truncated out)).store out
              (some (resize f m.fileSize.toNat))) := by
          refine new_running hcur hmem hsmall ?_ (howner _)
          exact congrArg Option.isSome (World.store_self _ out (some _))
        exact sat_pure.mpr ⟨hsized.recorded.here, hsized⟩
      · have hrefused := hnew.calm ((Calm.refl _).refused hu)
        refine sat_get_bind.mpr ⟨hrefused.recorded.here, ?_⟩
        exact sat_raise.mpr ⟨hrefused.recorded.here, trivial⟩
    · have hrefused := h.calm ((Calm.refl s).refused hu)
      refine sat_get_bind.mpr ⟨hrefused.here, ?_⟩
      exact sat_raise.mpr ⟨hrefused.here, trivial⟩
  | some cm =>
    obtain ⟨f, raw, hf, hpre, hraw, rfl⟩ := hprior cm rfl
    refine sat_ask_bind.mpr ⟨h.asks (fun h => h), ?_⟩
    rintro r u ⟨⟨⟨rfl, hopen, rfl⟩ | ⟨rfl, -, hu⟩, -⟩, hmay⟩
    · have hseek := (Calm.refl s).seek out 0
      have hrun := (resume_running hmetas h (hmay rfl) hcur hmem hsmall hopen hf hpre hraw).calm hseek
      exact sat_pure.mpr ⟨hrun.recorded.here, hrun⟩
    · have hcalm := (Calm.refl s).refused hu
      have hrefused := h.calm hcalm
      refine sat_ask_bind.mpr ⟨hrefused.asks (fun h => h), ?_⟩
      rintro r v ⟨⟨⟨rfl, rfl⟩ | ⟨rfl, -, hv⟩, -⟩, -⟩
      · have hnew : Running sha256 metas out m (.new m.chunkCount)
            (((u.store out (some [])).seek out 0).log (.truncated out)) := by
          refine new_running ?_ hmem hsmall ?_ (howner _)
          · change announced u.trace = some m
            rw [hcalm.trace]
            exact hcur
          · exact congrArg Option.isSome (World.store_self u out (some []))
        exact sat_pure.mpr ⟨hnew.recorded.here, hnew⟩
      · have hrefused := hrefused.calm ((Calm.refl u).refused hv)
        refine sat_get_bind.mpr ⟨hrefused.here, ?_⟩
        exact sat_raise.mpr ⟨hrefused.here, trivial⟩

def Resolves (metas : Set FileMeta) (out path : Path) : Prop :=
  (path ≠ [] ∧ path = out) ∨ (path = [] ∧ ∀ m ∈ metas, m.fileName = out)

theorem runPull_sat {t : Transport Os} (ht : t.Confined) (hmetas : Admissible metas) {path : Path}
    (hpath : Resolves metas out path) (h : Recorded sha256 metas out (fun _ => True) s) :
    Sat (resumable metas out) (Inv sha256 metas out) (fun _ _ => True) (runPull sha256 t path)
      (fun _ _ => True) s := by
  have hrough : ∀ o s r s', resumable metas out o s r s' → rough o s r s' :=
    fun _ _ _ _ hr => hr.1.1
  refine Sat.seq ((sendMsg_sat ht _).env hrough) h.quiet fun _ u hu => ?_
  have h := h.calm hu
  refine Sat.seq ((recvMeta_sat ht).env hrough) h.quiet ?_
  rintro m v ⟨hv, hsmall, -⟩
  have h := h.calm hv
  refine sat_ask_bind.mpr ⟨h.asks (fun h => h), ?_⟩
  rintro r _ ⟨⟨rfl, hmem⟩, -⟩
  have hmem := hmem m rfl
  have hout : (if path = [] then m.fileName else path) = out := by
    rcases hpath with ⟨hne, rfl⟩ | ⟨rfl, hname⟩
    · rw [if_neg hne]
    · rw [if_pos rfl]
      exact hname m hmem
  dsimp only
  rw [hout]
  have hcur : announced (v.log (.line (.pullFile m))).trace = some m := rfl
  have h : Recorded sha256 metas out (fun _ => True) (v.log (.line (.pullFile m))) :=
    h.of_eq rfl rfl
  refine Sat.seq (load_sat.env hrough) h.quiet ?_
  rintro prior w ⟨hw, hprior⟩
  have h := h.calm hw
  refine Sat.andThen (openOutput_sat hmetas h (by rw [hw.trace]; exact hcur) hmem hsmall ?_) ?_
  · intro cm hcm
    rw [hw.files]
    exact (hprior cm hcm).2
  intro cm x hrun
  refine (Sat.env ?_ hrough)
  refine print_sat (l := .pullRequesting cm.neededChunks.length m.chunkCount.toNat) hrun
    (fun _ hl => nomatch hl) (fun h => h) fun x hrun => ?_
  refine Sat.seq (sendRequests_sat ht _) hrun.recorded.quiet fun _ y hy => ?_
  have hrun := hrun.calm hy
  refine Sat.seq (sendMsg_sat ht _) hrun.recorded.quiet fun _ z hz => ?_
  have hrun := hrun.calm hz
  refine Sat.andThen (recvChunks_sat ht hrun ?_ ?_) fun cm' _ hend => finish_sat hend
  · exact fun i hi => ChunkManager.mem_neededChunks.mp hi
  · exact List.nodup_range.filter _

def restart (s : World) : World := { s with errno := 0, pipe := none, out := [], read := 0 }

def launch (sha256 : Bytes → Hash) (t : Transport Os) (path : Path) : Prog Os Unit := do
  .modify restart
  runPull sha256 t path

def Launches (sha256 : Bytes → Hash) (t : Transport Os) (metas : Set FileMeta) (out : Path)
    (p : Prog Os Unit) : Prop := ∃ path, Resolves metas out path ∧ p = launch sha256 t path

/-- Before the first run there is no record. -/
def Start (out : Path) (s : World) : Prop :=
  s.trace = [] ∧ s.files (PartialFile.pathFor out) = none

/-- After any sequence of runs, each stopped anywhere, a run that removes the
record or reports the transfer complete has an output whose chunk ranges all
have the hashes of its FILE_META. -/
def Sound (E : Env Os) (sha256 : Bytes → Hash) (t : Transport Os) (metas : Set FileMeta)
    (out : Path) : Prop :=
  ∀ s, Session E (Launches sha256 t metas out) (fun _ => True) (Start out) s →
    ∀ p, Launches sha256 t metas out p → ∀ q u, Reaches E (p, s) (q, u) →
      ∀ op, q.head = some op → reports op → ∀ m, announced u.trace = some m →
        ∃ f, u.files out = some f ∧ ∀ i < m.chunkCount.toNat,
          i * chunkSize + min chunkSize (m.fileSize.toNat - i * chunkSize) ≤ f.length ∧
          sha256 (slice f (i * chunkSize) (min chunkSize (m.fileSize.toNat - i * chunkSize))) =
            hashAt m i

theorem launch_sat {t : Transport Os} (ht : t.Confined) (hmetas : Admissible metas)
    {p : Prog Os Unit} (hp : Launches sha256 t metas out p)
    (h : Recorded sha256 metas out (fun _ => True) s) :
    Sat (resumable metas out) (Inv sha256 metas out) (fun _ _ => True) p (fun _ _ => True) s := by
  obtain ⟨path, hpath, rfl⟩ := hp
  have hcalm : Calm s (restart s) := ⟨rfl, rfl⟩
  exact sat_modify_bind.mpr ⟨h.here, runPull_sat ht hmetas hpath (h.calm hcalm)⟩

theorem session_recorded {t : Transport Os} (ht : t.Confined) (hmetas : Admissible metas)
    (h : Session (resumable metas out) (Launches sha256 t metas out) (fun _ => True) (Start out) s) :
    Recorded sha256 metas out (fun _ => True) s := by
  refine h.crash_inv (fun s hs => .of_owner ?_) fun p hp s hs => ⟨fun _ _ => True, ?_⟩
  · rw [hs.1]
    rfl
  · exact (launch_sat ht hmetas hp hs).inside fun _ _ hi => hi.1

/-- Resume soundness over whole histories, as long as a run resumes only from a
record of its own chunk count that is younger than the last opening of the
output with `O_TRUNC`, or from one that marks nothing. -/
theorem resume_sound {t : Transport Os} (ht : t.Confined) (hmetas : Admissible metas)
    (out : Path) : Sound (resumable metas out) sha256 t metas out := by
  intro s hs p hp q u hr op hop hrep m hm
  have hinv := (launch_sat ht hmetas hp (session_recorded ht hmetas hs)).visited hr
  obtain ⟨hmem, hall⟩ := hinv.2 op hop hrep m hm
  obtain ⟨f, hf, -⟩ := hall 0 (hmetas.pos m hmem)
  refine ⟨f, hf, fun i hi => ?_⟩
  obtain ⟨f', hf', hin, hhash⟩ := hall i hi
  rw [hf] at hf'
  cases hf'
  rw [hmetas.count m hmem] at hi
  rw [chunkLen_eq m.fileSize.toNat_lt hi] at hin hhash
  exact ⟨hin, hhash⟩

/-- A file of one byte. -/
def oneByte : FileMeta := ⟨[97], 1, 1048576, 1, [zeroHash]⟩

/-- A file of one chunk and a byte. -/
def oneMoreByte : FileMeta := ⟨[97], 1048577, 1048576, 2, [.ofBytes [1], .ofBytes [2]]⟩

theorem two_admissible : Admissible {oneByte, oneMoreByte} where
  pos := by
    rintro m (rfl | rfl)
    · decide
    · decide
  count := by
    rintro m (rfl | rfl)
    · decide
    · decide
  agree := by
    rintro m (rfl | rfl) m' (rfl | rfl) _ hcount
    · rfl
    · exact absurd hcount (by decide)
    · exact absurd hcount (by decide)
    · rfl

/-- The file has been either of two, and the stand-in for the digest tells chunks apart. -/
theorem resume_sound_two :
    Sound (resumable {oneByte, oneMoreByte} [111]) Hash.ofBytes tcp {oneByte, oneMoreByte} [111] :=
  resume_sound tcp_confined two_admissible [111]

end Embr.Resume
