import Embr.Transfer

/-!
# A system that promises nothing

Any call may fail, a receive delivers any bytes at all, and a transfer moves
any part of what it was asked for. What `run_pull` is built from is specified
here by what it leaves alone on disk.
-/

open Octets Interact
open Embr.System Embr.Protocol
namespace Embr

def anyPeer : (o : Op) → World → o.Reply → World → Prop
  | .send buf, s, r, s' =>
      (∃ k ≤ buf.length, r = some k ∧ s' = s) ∨ (r = none ∧ s.Refused s')
  | .recv len, s, r, s' =>
      (∃ bs, bs.length ≤ len ∧ r = some bs ∧ s' = s) ∨ (r = none ∧ s.Refused s')
  | .sendfile _ _ len, s, r, s' => (∃ k ≤ len, r = some k ∧ s' = s) ∨ (r = none ∧ s.Refused s')
  | .spliceIn len, s, r, s' =>
      (∃ buf bs, s.pipe = some buf ∧ bs.length ≤ len ∧ r = some bs.length ∧
        s' = s.fill (buf ++ bs)) ∨ (r = none ∧ s.Refused s')
  | _, _, _, _ => False

abbrev rough : Env Os := kernel True anyPeer

def reports : Op → Prop
  | .unlink _ => True
  | .print (.pullComplete _) => True
  | _ => False

structure Calm (s u : World) : Prop where
  files : u.files = s.files
  trace : u.trace = s.trace

def Quiet (s : World) (o : Option Op) (u : World) : Prop :=
  Calm s u ∧ ∀ op, o = some op → ¬ reports op

structure Touched (fd : Path) (offset len : ℕ) (s u : World) : Prop where
  trace : u.trace = s.trace
  others : ∀ path, path ≠ fd → u.files path = s.files path
  file : ∀ f, s.files fd = some f → ∃ f', u.files fd = some f' ∧ f.length ≤ f'.length ∧
    ∀ i < f.length, i < offset ∨ offset + len ≤ i → f'[i]? = f[i]?

namespace Calm
variable {s t u : World}

theorem refl (s : World) : Calm s s := ⟨rfl, rfl⟩

theorem trans (h : Calm s t) (h' : Calm t u) : Calm s u :=
  ⟨h'.files.trans h.files, h'.trace.trans h.trace⟩

theorem refused (h : Calm s t) (hu : t.Refused u) : Calm s u := by
  obtain ⟨e, rfl⟩ := hu
  exact ⟨h.files, h.trace⟩

theorem seek (h : Calm s t) (path : Path) (pos : ℕ) : Calm s (t.seek path pos) :=
  ⟨h.files, h.trace⟩

theorem fill (h : Calm s t) (bs : Bytes) : Calm s (t.fill bs) := ⟨h.files, h.trace⟩

theorem mono_quiet (h : Calm s t) (o : Option Op) (u : World) (hu : Quiet t o u) :
    Quiet s o u := ⟨h.trans hu.1, hu.2⟩

theorem quiet (h : Calm s t) : Quiet s none t := ⟨h, fun _ ho => nomatch ho⟩

theorem asks {op : Op} (h : Calm s t) (hop : ¬ reports op) : Quiet s (some op) t := by
  refine ⟨h, fun o ho => ?_⟩
  cases ho
  exact hop

end Calm

namespace Touched
variable {fd : Path} {offset len : ℕ} {s t u : World}

theorem refl (s : World) : Touched fd offset len s s :=
  ⟨rfl, fun _ _ => rfl, fun f hf => ⟨f, hf, le_rfl, fun _ _ _ => rfl⟩⟩

theorem calm (h : Touched fd offset len s t) (hu : Calm t u) : Touched fd offset len s u := by
  refine ⟨hu.trace.trans h.trace, fun path hp => ?_, fun f hf => ?_⟩
  · rw [hu.files]
    exact h.others path hp
  · rw [hu.files]
    exact h.file f hf

theorem write {f buf : Bytes} {pos : ℕ} (h : Touched fd offset len s t)
    (hf : t.files fd = some f) (hl : offset ≤ pos) (hr : pos + buf.length ≤ offset + len) :
    Touched fd offset len s (t.store fd (some (writeAt f pos buf))) := by
  refine ⟨h.trace, fun path hp => ?_, fun f₀ hf₀ => ?_⟩
  · exact (Function.update_of_ne hp _ _).trans (h.others path hp)
  · obtain ⟨f', hf', hlen, hsame⟩ := h.file f₀ hf₀
    rw [hf] at hf'
    cases hf'
    refine ⟨_, Function.update_self .., ?_, fun i hi ho => ?_⟩
    · rw [length_writeAt]
      omega
    · rw [getElem?_writeAt_outside (by omega) (by omega)]
      exact hsame i hi ho

end Touched

/-- What `transport.hpp` promises of the disk: `send` and `recv` leave it alone
and receive no more than asked for, and `recv_file` writes its own range of the
output file, all of it when it returns. -/
structure Transport.Confined (t : Transport Os) : Prop where
  send : ∀ buf s, Sat rough (Quiet s) (fun _ _ => True) (t.send buf) (fun _ u => Calm s u) s
  recv : ∀ len s, Sat rough (Quiet s) (fun _ _ => True) (t.recv len)
    (fun r u => Calm s u ∧ ∀ bs, r = some bs → bs.length ≤ len) s
  recvFile : ∀ fd offset len s, (s.files fd).isSome →
    Sat rough (fun o u => Touched fd offset len s u ∧ ∀ op, o = some op → ¬ reports op)
      (fun _ _ => True) (t.recvFile fd offset len)
      (fun _ u => Touched fd offset len s u ∧
        (0 < len → ∃ f, u.files fd = some f ∧ offset + len ≤ f.length)) s

section tcp
variable {fd : Path} {offset len : ℕ} {s t : World}

structure Fed (fd : Path) (offset len : ℕ) (s : World) (pos : ℕ) (t : World) : Prop where
  touched : Touched fd offset len s t
  start : offset ≤ pos
  file : ∃ f, t.files fd = some f ∧ (pos = offset ∨ pos ≤ f.length)

theorem Fed.calm {pos : ℕ} {u : World} (h : Fed fd offset len s pos t) (hu : Calm t u) :
    Fed fd offset len s pos u := by
  refine ⟨h.touched.calm hu, h.start, ?_⟩
  rw [hu.files]
  exact h.file

abbrev Receiving (fd : Path) (offset len : ℕ) (s : World) (o : Option Op) (u : World) : Prop :=
  Touched fd offset len s u ∧ ∀ op, o = some op → ¬ reports op

theorem Fed.receiving {pos : ℕ} (h : Fed fd offset len s pos t) :
    Receiving fd offset len s none t := ⟨h.touched, fun _ ho => nomatch ho⟩

theorem Fed.asks {pos : ℕ} {op : Op} (h : Fed fd offset len s pos t) (hop : ¬ reports op) :
    Receiving fd offset len s (some op) t := by
  refine ⟨h.touched, fun o ho => ?_⟩
  cases ho
  exact hop

theorem retry_sat {E : Env Os} {I : Option Op → World → Prop} {σ β : Type} {what : String} {x : σ}
    {Q : σ ⊕ β → World → Prop} (hI : I none s) (hQ : Q (.inl x) s) :
    Sat E I (fun _ _ => True) (retry what x) Q s := by
  refine sat_get_bind.mpr ⟨hI, ?_⟩
  split_ifs
  · exact sat_pure.mpr ⟨hI, hQ⟩
  · exact sat_raise.mpr ⟨hI, trivial⟩

theorem drainPipe_sat {pos n : ℕ} (h : Fed fd offset len s pos t) (hn : pos + n ≤ offset + len) :
    Sat rough (Receiving fd offset len s) (fun _ _ => True) (TcpTransport.drainPipe fd pos n)
      (fun r u => r = pos + n ∧ Fed fd offset len s r u) t := by
  apply Sat.round (fun x u => x.1 + x.2 = pos + n ∧ Fed fd offset len s x.1 u)
  · exact ⟨rfl, h⟩
  rintro ⟨pos', remain⟩ u ⟨hsum, hfed⟩
  refine ⟨hfed.receiving, ?_⟩
  change Sat _ _ _ (if 0 < remain then _ else _) _ _
  by_cases hpos : 0 < remain
  · rw [if_pos hpos]
    refine sat_ask_bind.mpr ⟨hfed.asks (fun h => h), ?_⟩
    rintro r u' (⟨buf, f, k, -, hf, hk, hkl, hkb, rfl, rfl⟩ | ⟨-, rfl, rfl⟩ | ⟨-, rfl, hu⟩)
    · have hlen : (buf.take k).length = k := List.length_take_of_le hkb
      have hnew : Fed fd offset len s (pos' + k)
          ((u.store fd (some (writeAt f pos' (buf.take k)))).fill (buf.drop k)) := by
        refine Fed.calm (t := u.store fd (some (writeAt f pos' (buf.take k)))) ⟨?_, ?_, ?_⟩
          ((Calm.refl _).fill _)
        · exact hfed.touched.write hf hfed.start (by rw [hlen]; change pos' + remain = _ at hsum; omega)
        · exact hfed.start.trans (Nat.le_add_right ..)
        · refine ⟨_, Function.update_self .., Or.inr ?_⟩
          rw [length_writeAt, hlen]
          omega
      simp only [if_neg (Nat.pos_iff_ne_zero.mp hk)]
      rw [sat_pure]
      refine ⟨hnew.receiving, ?_, hnew⟩
      change pos' + remain = _ at hsum
      change pos' + k + (remain - k) = _
      omega
    · exact sat_raise.mpr ⟨hfed.receiving, trivial⟩
    · have hcalm := hfed.calm ((Calm.refl u).refused hu)
      exact retry_sat hcalm.receiving ⟨hsum, hcalm⟩
  · rw [if_neg hpos, sat_pure]
    have hend : pos' = pos + n := by
      change pos' + remain = _ at hsum
      omega
    exact ⟨hfed.receiving, hfed.receiving, hend, hfed⟩

theorem openPipe_sat (h : Fed fd offset len s offset t) :
    Sat rough (Receiving fd offset len s) (fun _ _ => True) TcpTransport.openPipe
      (fun _ u => Fed fd offset len s offset u) t := by
  refine sat_get_bind.mpr ⟨h.receiving, ?_⟩
  split_ifs
  · exact sat_pure.mpr ⟨h.receiving, h⟩
  · refine sat_ask_bind.mpr ⟨h.asks (fun h => h), ?_⟩
    rintro r u (⟨rfl, rfl⟩ | ⟨rfl, -, hu⟩)
    · have hfill := h.calm ((Calm.refl t).fill [])
      exact sat_pure.mpr ⟨hfill.receiving, hfill⟩
    · have hcalm := h.calm ((Calm.refl t).refused hu)
      exact sat_get_bind.mpr ⟨hcalm.receiving, sat_raise.mpr ⟨hcalm.receiving, trivial⟩⟩

theorem tcp_recvFile_sat (hs : (s.files fd).isSome) :
    Sat rough (Receiving fd offset len s) (fun _ _ => True) (tcp.recvFile fd offset len)
      (fun _ u => Touched fd offset len s u ∧
        (0 < len → ∃ f, u.files fd = some f ∧ offset + len ≤ f.length)) s := by
  obtain ⟨f, hf⟩ := Option.isSome_iff_exists.mp hs
  refine Sat.andThen (openPipe_sat ⟨.refl s, le_rfl, f, hf, Or.inl rfl⟩) fun _ t ht => ?_
  apply Sat.round (fun x u => x.1 + x.2 = offset + len ∧ Fed fd offset len s x.1 u)
  · exact ⟨rfl, ht⟩
  rintro ⟨pos', remain⟩ u ⟨hsum, hfed⟩
  change pos' + remain = _ at hsum
  refine ⟨hfed.receiving, ?_⟩
  change Sat _ _ _ (if 0 < remain then _ else _) _ _
  by_cases hpos : 0 < remain
  · rw [if_pos hpos]
    refine sat_ask_bind.mpr ⟨hfed.asks (fun h => h), ?_⟩
    rintro r u' (⟨buf, bs, -, hbl, rfl, rfl⟩ | ⟨rfl, hu⟩)
    · have hfill := hfed.calm ((Calm.refl u).fill (buf ++ bs))
      by_cases hzero : bs.length = 0
      · simp only [if_pos hzero]
        exact sat_raise.mpr ⟨hfill.receiving, trivial⟩
      · simp only [if_neg hzero]
        refine Sat.andThen (drainPipe_sat hfill (n := bs.length) ?_) ?_
        · omega
        · rintro r v ⟨rfl, hv⟩
          refine sat_pure.mpr ⟨hv.receiving, ?_, hv⟩
          change pos' + bs.length + (remain - bs.length) = _
          omega
    · have hcalm := hfed.calm ((Calm.refl u).refused hu)
      exact retry_sat hcalm.receiving ⟨hsum, hcalm⟩
  · rw [if_neg hpos, sat_pure]
    refine ⟨hfed.receiving, hfed.receiving, hfed.touched, fun hlen => ?_⟩
    obtain ⟨g, hg, hcov⟩ := hfed.file
    exact ⟨g, hg, by change pos' = _ ∨ pos' ≤ _ at hcov; omega⟩

theorem tcp_confined : tcp.Confined where
  send buf s := by
    refine sat_ask.mpr ⟨(Calm.refl s).asks (fun h => h), ?_⟩
    rintro r u (⟨k, -, rfl, rfl⟩ | ⟨rfl, hu⟩)
    · exact ⟨(Calm.refl _).quiet, .refl _⟩
    · have hcalm := (Calm.refl s).refused hu
      exact ⟨hcalm.quiet, hcalm⟩
  recv len s := by
    refine sat_ask.mpr ⟨(Calm.refl s).asks (fun h => h), ?_⟩
    rintro r u (⟨bs, hbs, rfl, rfl⟩ | ⟨rfl, hu⟩)
    · refine ⟨(Calm.refl _).quiet, .refl _, ?_⟩
      rintro _ ⟨⟩
      exact hbs
    · have hcalm := (Calm.refl s).refused hu
      exact ⟨hcalm.quiet, hcalm, fun _ h => nomatch h⟩
  recvFile fd offset len s hs := tcp_recvFile_sat hs

end tcp

section messages
variable {t : Transport Os} {s : World}

theorem sendExact_sat (ht : t.Confined) (buf : Bytes) :
    Sat rough (Quiet s) (fun _ _ => True) (sendExact t buf) (fun _ u => Calm s u) s := by
  apply Sat.round (fun _ u => Calm s u) (.refl s)
  intro sent u hu
  refine ⟨hu.quiet, ?_⟩
  split_ifs with hlt
  · refine Sat.seq (ht.send (buf.drop sent) u) hu.mono_quiet ?_
    rintro (_ | n) v hv
    · have hcalm := hu.trans hv
      refine sat_get_bind.mpr ⟨hcalm.quiet, ?_⟩
      split_ifs
      · exact sat_pure.mpr ⟨hcalm.quiet, hcalm⟩
      · exact sat_raise.mpr ⟨hcalm.quiet, trivial⟩
    · have hcalm := hu.trans hv
      by_cases hn : n = 0
      · simp only [if_pos hn]
        exact sat_raise.mpr ⟨hcalm.quiet, trivial⟩
      · simp only [if_neg hn]
        exact sat_pure.mpr ⟨hcalm.quiet, hcalm⟩
  · exact sat_pure.mpr ⟨hu.quiet, hu.quiet, hu⟩

theorem recvExact_sat (ht : t.Confined) (len : ℕ) :
    Sat rough (Quiet s) (fun _ _ => True) (recvExact t len)
      (fun bs u => Calm s u ∧ bs.length = len) s := by
  apply Sat.round (fun received u => Calm s u ∧ received.length ≤ len) ⟨.refl s, Nat.zero_le _⟩
  rintro received u ⟨hu, hle⟩
  refine ⟨hu.quiet, ?_⟩
  split_ifs with hlt
  · refine Sat.seq (ht.recv (len - received.length) u) hu.mono_quiet ?_
    rintro (_ | bs) v ⟨hv, hbs⟩
    · have hcalm := hu.trans hv
      refine sat_get_bind.mpr ⟨hcalm.quiet, ?_⟩
      split_ifs
      · exact sat_pure.mpr ⟨hcalm.quiet, hcalm, hle⟩
      · exact sat_raise.mpr ⟨hcalm.quiet, trivial⟩
    · have hcalm := hu.trans hv
      have hmore := hbs bs rfl
      by_cases hn : bs.length = 0
      · simp only [if_pos hn]
        exact sat_raise.mpr ⟨hcalm.quiet, trivial⟩
      · simp only [if_neg hn]
        refine sat_pure.mpr ⟨hcalm.quiet, hcalm, ?_⟩
        rw [List.length_append]
        omega
  · refine sat_pure.mpr ⟨hu.quiet, hu.quiet, hu, ?_⟩
    omega

theorem sendMsg_sat (ht : t.Confined) (msg : Message) :
    Sat rough (Quiet s) (fun _ _ => True) (sendMsg t msg) (fun _ u => Calm s u) s := by
  refine Sat.andThen (sendExact_sat ht _) fun _ u hu => ?_
  split_ifs
  · exact ((sendExact_sat ht _).inside hu.mono_quiet).weaken fun _ v hv => hu.trans hv
  · exact sat_pure.mpr ⟨hu.quiet, hu⟩

theorem recvMsg_sat (ht : t.Confined) :
    Sat rough (Quiet s) (fun _ _ => True) (recvMsg t)
      (fun msg u => Calm s u ∧ msg.payload.length ≤ MAX_PAYLOAD_SIZE) s := by
  refine Sat.andThen (recvExact_sat ht _) ?_
  rintro hdr u ⟨hu, -⟩
  dsimp only
  split_ifs with hversion htype hmax hpos
  · exact sat_raise.mpr ⟨hu.quiet, trivial⟩
  · exact sat_raise.mpr ⟨hu.quiet, trivial⟩
  · exact sat_raise.mpr ⟨hu.quiet, trivial⟩
  · refine Sat.seq (recvExact_sat ht _) hu.mono_quiet ?_
    rintro payload v ⟨hv, hlen⟩
    refine sat_pure.mpr ⟨(hu.trans hv).quiet, hu.trans hv, ?_⟩
    change payload.length ≤ _
    omega
  · exact sat_pure.mpr ⟨hu.quiet, hu, Nat.zero_le _⟩

theorem recvMeta_sat (ht : t.Confined) :
    Sat rough (Quiet s) (fun _ _ => True) (recvMeta t)
      (fun m u => Calm s u ∧ m.chunkCount.toNat + 7 < 2 ^ 32 ∧
        m.chunkHashes.length = m.chunkCount.toNat) s := by
  refine Sat.andThen (recvMsg_sat ht) ?_
  rintro msg u ⟨hu, hmax⟩
  split_ifs
  · exact sat_raise.mpr ⟨hu.quiet, trivial⟩
  · cases hm : parseFilemeta msg with
    | error e => exact sat_raise.mpr ⟨hu.quiet, trivial⟩
    | ok m =>
      have hcount := parseFilemeta_chunkCount hm
      refine sat_pure.mpr ⟨hu.quiet, hu, ?_, parseFilemeta_chunkHashes hm⟩
      rw [hashSize] at hcount
      rw [MAX_PAYLOAD_SIZE] at hmax
      omega

end messages

section record
variable {s : World} {fd out : Path}

theorem readExact_sat {f : Bytes} (hf : s.files fd = some f) (len : ℕ) :
    Sat rough (Quiet s) (fun _ _ => True) (readExact fd len)
      (fun r u => Calm s u ∧ ∀ bs, r = .ok bs → bs.length = len ∧
        u.cursor fd = s.cursor fd + len ∧ bs <+: f.drop (s.cursor fd)) s := by
  apply Sat.round (fun (buf : Bytes) (u : World) => Calm s u ∧ buf.length ≤ len ∧
    u.cursor fd = s.cursor fd + buf.length ∧ buf <+: f.drop (s.cursor fd))
  · exact ⟨.refl s, Nat.zero_le _, rfl, List.nil_prefix⟩
  rintro buf u ⟨hu, hle, hcur, hpre⟩
  refine ⟨hu.quiet, ?_⟩
  split_ifs with hlt
  · refine sat_ask_bind.mpr ⟨hu.asks (fun h => h), ?_⟩
    rintro r v (⟨g, bs, hg, hbs, hbl, -, rfl, rfl⟩ | ⟨rfl, -, hv⟩)
    · have hcalm := hu.seek fd (u.cursor fd + bs.length)
      by_cases hzero : bs.length = 0
      · simp only [if_pos hzero]
        exact sat_pure.mpr ⟨hcalm.quiet, hcalm.quiet, hcalm, fun _ h => nomatch h⟩
      · simp only [if_neg hzero]
        rw [hu.files, hf] at hg
        cases hg
        refine sat_pure.mpr ⟨hcalm.quiet, hcalm, ?_, ?_, ?_⟩
        · rw [List.length_append]
          omega
        · rw [List.length_append, ← Nat.add_assoc, ← hcur]
          exact Function.update_self ..
        · rw [hcur, ← List.drop_drop] at hbs
          exact append_isPrefix hpre hbs
    · have hcalm := hu.refused hv
      obtain ⟨e, rfl⟩ := hv
      refine sat_get_bind.mpr ⟨hcalm.quiet, ?_⟩
      split_ifs
      · exact sat_pure.mpr ⟨hcalm.quiet, hcalm, hle, hcur, hpre⟩
      · exact sat_pure.mpr ⟨hcalm.quiet, hcalm.quiet, hcalm, fun _ h => nomatch h⟩
  · refine sat_pure.mpr ⟨hu.quiet, hu.quiet, hu, ?_⟩
    rintro _ ⟨⟩
    have hlen : buf.length = len := by omega
    exact ⟨hlen, hlen ▸ hcur, hpre⟩

theorem load_sat {fileHash : Hash} {chunkCount : UInt32} :
    Sat rough (Quiet s) (fun _ _ => True) (PartialFile.load out fileHash chunkCount)
      (fun r u => Calm s u ∧ ∀ cm, r = some cm →
        (∃ g, s.files out = some g ∧ g.length = chunkCount.toNat * chunkSize) ∧ ∃ f raw,
        s.files (PartialFile.pathFor out) = some f ∧ fileHash.val ++ raw <+: f ∧
        raw.length = bitmapBytes chunkCount ∧ cm = unpack chunkCount raw) s := by
  refine sat_ask_bind.mpr ⟨(Calm.refl s).asks (fun h => h), ?_⟩
  rintro r u (⟨rfl, hsome, rfl⟩ | ⟨rfl, -, hu⟩)
  · obtain ⟨f, hf⟩ := Option.isSome_iff_exists.mp hsome
    have hcalm := (Calm.refl s).seek (PartialFile.pathFor out) 0
    have hcur : (s.seek (PartialFile.pathFor out) 0).cursor (PartialFile.pathFor out) = 0 :=
      Function.update_self ..
    have hf₀ : (s.seek (PartialFile.pathFor out) 0).files (PartialFile.pathFor out) = some f := hf
    rw [if_pos rfl]
    refine Sat.seq (readExact_sat hf₀ hashSize) hcalm.mono_quiet ?_
    rintro (e | storedHash) v ⟨hv, hread⟩
    · exact sat_pure.mpr ⟨(hcalm.trans hv).quiet, hcalm.trans hv, fun _ h => nomatch h⟩
    obtain ⟨hlen, hpos, hpre⟩ := hread storedHash rfl
    rw [hcur] at hpos hpre
    have hcalm := hcalm.trans hv
    dsimp only
    split_ifs with hne
    · exact sat_pure.mpr ⟨hcalm.quiet, hcalm, fun _ h => nomatch h⟩
    have hstored : storedHash = fileHash.val := not_not.mp hne
    refine sat_ask_bind.mpr ⟨hcalm.asks (fun h => h), ?_⟩
    rintro r w (⟨g, hg, rfl, rfl⟩ | ⟨rfl, -, hw⟩)
    · dsimp only
      split_ifs with hsize
      · exact sat_pure.mpr ⟨hcalm.quiet, hcalm, fun _ h => nomatch h⟩
      · have hf' : w.files (PartialFile.pathFor out) = some f := by
          rw [hcalm.files]
          exact hf
        refine Sat.seq (readExact_sat hf' _) hcalm.mono_quiet ?_
        rintro (e | raw) x ⟨hx, hread'⟩
        · exact sat_pure.mpr ⟨(hcalm.trans hx).quiet, hcalm.trans hx, fun _ h => nomatch h⟩
        · obtain ⟨hlen', -, hpre'⟩ := hread' raw rfl
          refine sat_pure.mpr ⟨(hcalm.trans hx).quiet, hcalm.trans hx, ?_⟩
          rintro _ ⟨⟩
          rw [hcalm.files] at hg
          refine ⟨⟨g, hg, not_not.mp hsize⟩, f, raw, hf, append_isPrefix ?_ ?_, hlen', rfl⟩
          · rw [← hstored]
            exact hpre
          · rw [fileHash.property, ← Nat.zero_add hashSize, ← hpos]
            exact hpre'
    · have hcalm := hcalm.refused hw
      exact sat_pure.mpr ⟨hcalm.quiet, hcalm, fun _ h => nomatch h⟩
  · have hcalm := (Calm.refl s).refused hu
    exact sat_pure.mpr ⟨hcalm.quiet, hcalm, fun _ h => nomatch h⟩

structure Saving (fd : Path) (content : Bytes) (s : World) (g : Bytes) (u : World) : Prop where
  trace : u.trace = .truncated fd :: s.trace
  files : u.files = Function.update s.files fd (some g)
  cursor : u.cursor fd = g.length
  part : g <+: content

theorem Saving.refused {content g : Bytes} {t u : World} (h : Saving fd content s g t)
    (hu : t.Refused u) : Saving fd content s g u := by
  obtain ⟨e, rfl⟩ := hu
  exact ⟨h.trace, h.files, h.cursor, h.part⟩

def Recording (fd : Path) (content : Bytes) (s : World) (o : Option Op) (u : World) : Prop :=
  (Calm s u ∨ ∃ g, Saving fd content s g u) ∧ ∀ op, o = some op → ¬ reports op

theorem Saving.recording {content g : Bytes} {t : World} (h : Saving fd content s g t) :
    Recording fd content s none t := ⟨Or.inr ⟨g, h⟩, fun _ ho => nomatch ho⟩

theorem writeExact_sat {pre buf content : Bytes} {t : World} (hbuf : pre ++ buf <+: content)
    (h : Saving fd content s pre t) :
    Sat rough (Recording fd content s) (fun _ _ => True) (writeExact fd buf)
      (fun _ u => Saving fd content s (pre ++ buf) u) t := by
  apply Sat.round (fun offset u => offset ≤ buf.length ∧
    Saving fd content s (pre ++ buf.take offset) u)
  · refine ⟨Nat.zero_le _, ?_⟩
    rw [List.take_zero, List.append_nil]
    exact h
  rintro offset u ⟨hle, hu⟩
  refine ⟨hu.recording, ?_⟩
  split_ifs with hlt
  · refine sat_ask_bind.mpr ⟨⟨Or.inr ⟨_, hu⟩, ?_⟩, ?_⟩
    · rintro _ ⟨⟩ h
      exact h
    rintro r v (⟨f, k, hf, hk, -, rfl, rfl⟩ | ⟨rfl, -, hv⟩)
    · rw [List.length_drop] at hk
      have hfile : f = pre ++ buf.take offset := by
        rw [hu.files, Function.update_self] at hf
        exact (Option.some.inj hf).symm
      have hpart : pre ++ buf.take (offset + k) <+: content :=
        ((List.prefix_append_right_inj pre).mpr (List.take_prefix _ _)).trans hbuf
      have hwrite : writeAt f (u.cursor fd) ((buf.drop offset).take k) =
          pre ++ buf.take (offset + k) := by
        rw [hu.cursor, hfile, writeAt_end, List.append_assoc, List.take_add]
      have hnew : Saving fd content s (pre ++ buf.take (offset + k))
          ((u.store fd (some (writeAt f (u.cursor fd) ((buf.drop offset).take k)))).seek fd
            (u.cursor fd + k)) := by
        rw [hwrite]
        refine ⟨hu.trace, ?_, ?_, hpart⟩
        · change Function.update u.files _ _ = _
          rw [hu.files, Function.update_idem]
        · have hcur : ∀ w : World, (w.seek fd (u.cursor fd + k)).cursor fd = u.cursor fd + k :=
            fun w => Function.update_self ..
          rw [hcur, hu.cursor]
          simp only [List.length_append, List.length_take]
          omega
      exact sat_pure.mpr ⟨hnew.recording, by omega, hnew⟩
    · have hrefused := hu.refused hv
      exact retry_sat hrefused.recording ⟨hle, hrefused⟩
  · have hend : offset = buf.length := by omega
    rw [hend, List.take_length] at hu
    exact sat_pure.mpr ⟨hu.recording, hu.recording, hu⟩

/-- The record of a bitmap. -/
def recordOf (fileHash : Hash) (bitmap : List Bool) : Bytes := fileHash.val ++ pack bitmap

theorem save_sat {fileHash : Hash} {cm : ChunkManager} :
    Sat rough (Recording (PartialFile.pathFor out) (recordOf fileHash cm.bitmap) s)
      (fun _ _ => True) (PartialFile.save out fileHash cm)
      (fun _ u => Saving (PartialFile.pathFor out) (recordOf fileHash cm.bitmap) s
        (recordOf fileHash cm.bitmap) u) s := by
  refine sat_ask_bind.mpr ⟨⟨Or.inl (.refl s), ?_⟩, ?_⟩
  · rintro _ ⟨⟩ h
    exact h
  rintro r u (⟨rfl, rfl⟩ | ⟨rfl, -, hu⟩)
  · have hempty : Saving (PartialFile.pathFor out) (recordOf fileHash cm.bitmap) s []
        (((s.store (PartialFile.pathFor out) (some [])).seek (PartialFile.pathFor out) 0).log
          (.truncated (PartialFile.pathFor out))) :=
      ⟨rfl, rfl, Function.update_self .., List.nil_prefix⟩
    rw [if_pos rfl]
    refine Sat.andThen (writeExact_sat ⟨pack cm.bitmap, rfl⟩ hempty) fun _ v hv => ?_
    exact writeExact_sat (List.prefix_refl _) hv
  · have hcalm := (Calm.refl s).refused hu
    refine sat_raise.mpr ⟨⟨Or.inl hcalm, ?_⟩, trivial⟩
    rintro _ ⟨⟩

end record

end Embr
