import Embr.RecvRuns

/-!
# Late duplicates

A receiver to which the datagrams of a sender come in any order, any number of
times, and after their chunk was acknowledged. `process_fragment` looks at the
fragment index and never at the chunk index, so that the first datagram with an
index is the one that is written, whichever chunk it is of.
-/

open Octets Interact Slots
namespace Embr.LateDuplicates
open Embr.UdpTransport
open Embr.System (World)
open DataPlane (socket)

variable {src d : Bytes} {j k i : ℕ}

/-- What may come in: any datagram of a chunk whose predecessors were acknowledged. -/
def delivers (src : Bytes) (base : ℕ) (s : Store) (d : Bytes) : Prop :=
  ∃ k i, Piece src k i ∧ base + 1 + 4 * k ≤ s.os.out.length ∧ d = datagram src k i

def Late (src : Bytes) (k i : ℕ) (d : Bytes) : Prop :=
  ∃ j ≤ k, Piece src j i ∧ d = datagram src j i

/-! ## The log of the datagrams received -/

def firstAt (log : List (ℕ × Bytes)) (n i : ℕ) : Option Bytes :=
  (log.find? fun e => e.1 = n ∧ index e.2 = i).map Prod.snd

section log
variable {log : List (ℕ × Bytes)} {n m : ℕ}

theorem firstAt_append (log : List (ℕ × Bytes)) (n m i : ℕ) (d : Bytes) :
    firstAt (log ++ [(n, d)]) m i =
      (firstAt log m i).or (if n = m ∧ index d = i then some d else none) := by
  rw [firstAt, List.find?_append, Option.map_or]
  congr 1
  rw [List.find?_singleton]
  by_cases h : n = m ∧ index d = i
  · simp [h]
  · simp [h]

theorem mem_of_firstAt (h : firstAt log n i = some d) : (n, d) ∈ log ∧ index d = i := by
  obtain ⟨e, he, rfl⟩ := Option.map_eq_some_iff.mp h
  have hprop := List.find?_some he
  simp only [decide_eq_true_eq] at hprop
  have hmem := List.mem_of_find?_eq_some he
  obtain ⟨rfl, rfl⟩ := hprop
  exact ⟨hmem, rfl⟩

theorem firstAt_none (h : ∀ e ∈ log, e.1 ≠ n) : firstAt log n i = none := by
  cases hfirst : firstAt log n i with
  | none => rfl
  | some d => exact absurd rfl (h _ (mem_of_firstAt hfirst).1)

end log

theorem Late.facts (h : Late src k i d) :
    d.take UDP_MTU = d ∧ index d = i ∧ payload d ≠ [] ∧
      (parseFragHdr d).fragLen.toNat = (payload d).length ∧
      i * UDP_PAYLOAD_SIZE + (payload d).length ≤ chunkSize := by
  obtain ⟨j, -, hj, rfl⟩ := h
  have hparse := Piece.parse src j i []
  rw [List.append_nil] at hparse
  obtain ⟨hpos, -, hend⟩ := fragLen_bounds (chunkLenAt_le src.length j) hj.frag
  have hle := chunkLenAt_le src.length j
  have hlength := hj.length
  refine ⟨List.take_of_length_le hj.fits, hj.index_datagram, ?_, ?_, ?_⟩
  · rw [Piece.payload_datagram]
    exact List.ne_nil_of_length_pos (by omega)
  · rw [hparse, hj.hdr_len, Piece.payload_datagram]
  · rw [Piece.payload_datagram]
    omega

theorem Late.payload_le (h : Late src k i d) : (payload d).length ≤ UDP_PAYLOAD_SIZE := by
  obtain ⟨j, -, hj, rfl⟩ := h
  rw [Piece.payload_datagram, hj.length]
  exact (fragLen_bounds (chunkLenAt_le src.length j) hj.frag).2.1

theorem Late.parse (h : Late src k i d) (rest : Bytes) :
    parseFragHdr (d ++ rest) = parseFragHdr d := by
  obtain ⟨j, -, -, rfl⟩ := h
  rw [← List.append_nil (datagram src j i), List.append_assoc, Piece.parse, Piece.parse]

/-! ## One chunk -/

def file (t : Store) (fd : Path) : Bytes := (t.os.files fd).getD []

def place (offset k i : ℕ) : ℕ := offset + k * chunkSize + i * UDP_PAYLOAD_SIZE

def Apart (C : ℕ) (f g : Bytes) : Prop :=
  ∀ y, (y < C ∧ y < f.length) ∨ C + chunkSize ≤ y → g[y]? = f[y]?

theorem Apart.writeAt {C pos : ℕ} {f g bs : Bytes} (h : Apart C f g) (hstart : C ≤ pos)
    (hend : pos + bs.length ≤ C + chunkSize) : Apart C f (writeAt g pos bs) := by
  intro y hy
  rw [← h y hy]
  rcases hy with ⟨hbefore, hlt⟩ | hafter
  · have hthere := h y (.inl ⟨hbefore, hlt⟩)
    rw [List.getElem?_eq_getElem hlt] at hthere
    exact getElem?_writeAt_before (by omega) (List.getElem?_eq_some_iff.mp hthere).1
  · exact getElem?_writeAt_after (by omega)

structure Landing (src : Bytes) (fd : Path) (offset base k : ℕ) (s : Store) (x : Progress)
    (held : Held) (t : Store) : Prop where
  fileFd : x.state.fileFd = fd
  chunkOffset : x.state.chunkOffset = offset + k * chunkSize
  fragCount : x.state.fragCount = fragCount (chunkLenAt src.length k)
  out : t.os.out.length = base + 1 + 4 * k
  older : ∀ m, m ≠ base + 1 + 4 * k → ∀ i, firstAt t.arrived m i = firstAt s.arrived m i
  known : ∀ e ∈ t.arrived, e ∈ s.arrived ∨ e.1 = base + 1 + 4 * k
  late : ∀ i d, firstAt t.arrived (base + 1 + 4 * k) i = some d → Late src k i d
  marked : ∀ i, x.state.received i = (firstAt t.arrived (base + 1 + 4 * k) i).isSome
  buffered : ∀ b hdr, held b = some hdr → ∃ d,
    firstAt t.arrived (base + 1 + 4 * k) hdr.fragIndex.toNat = some d ∧ d <+: t.fragBuf b ∧
      hdr = parseFragHdr d
  settled : ∀ i d, firstAt t.arrived (base + 1 + 4 * k) i = some d →
    (∃ b hdr, held b = some hdr ∧ hdr.fragIndex.toNat = i) ∨
      Holds (file t fd) (place offset k i) (payload d)
  apart : Apart (offset + k * chunkSize) (file s fd) (file t fd)

section turns
variable {fd : Path} {offset base : ℕ} {s t u : Store} {x y : Progress} {held held' : Held}
  {b : ℕ} {l q m : List Sqe}

theorem delivers_late (hd : delivers src base t d) (hout : t.os.out.length = base + 1 + 4 * k) :
    ∃ i, Late src k i d := by
  obtain ⟨j, i, hpiece, hacked, rfl⟩ := hd
  exact ⟨i, j, by omega, hpiece, rfl⟩

theorem heard_prefix (hd : Late src k i d) : d <+: (t.heard b d).fragBuf b := by
  change d <+: Function.update t.fragBuf b _ b
  rw [Function.update_self, hd.facts.1, writeAt_zero]
  exact List.prefix_append ..

theorem heard_hdr (hd : Late src k i d) : hdrIn (t.heard b d) b = parseFragHdr d := by
  obtain ⟨rest, hrest⟩ := heard_prefix (t := t) (b := b) hd
  rw [hdrIn, ← hrest, hd.parse]

theorem heard_log (hout : t.os.out.length = base + 1 + 4 * k) :
    (t.heard b d).arrived = t.arrived ++ [(base + 1 + 4 * k, d)] := by
  rw [← hout]
  rfl

theorem firstAt_again (hd : index d = i) (hout : t.os.out.length = base + 1 + 4 * k)
    (hsome : (firstAt t.arrived (base + 1 + 4 * k) i).isSome) (m i' : ℕ) :
    firstAt (t.heard b d).arrived m i' = firstAt t.arrived m i' := by
  rw [heard_log hout, firstAt_append]
  split_ifs with hsame
  · obtain ⟨rfl, rfl⟩ := hsame
    rw [hd]
    obtain ⟨d', hd'⟩ := Option.isSome_iff_exists.mp hsome
    rw [hd', Option.some_or]
  · exact Option.or_none

theorem firstAt_new (hd : index d = i) (hout : t.os.out.length = base + 1 + 4 * k)
    (hnone : firstAt t.arrived (base + 1 + 4 * k) i = none) (m i' : ℕ) :
    firstAt (t.heard b d).arrived m i' =
      if base + 1 + 4 * k = m ∧ i = i' then some d else firstAt t.arrived m i' := by
  rw [heard_log hout, firstAt_append, hd]
  split_ifs with hsame
  · obtain ⟨rfl, rfl⟩ := hsame
    rw [hnone, Option.none_or]
  · exact Option.or_none

namespace Landing

theorem again (h : Landing src fd offset base k s x held t) (hnone : held b = none)
    (hd : Late src k i d) (hdup : x.state.received i = true) :
    Landing src fd offset base k s x held ((t.heard b d).ring q m) := by
  rw [h.marked] at hdup
  have hsame := firstAt_again (b := b) hd.facts.2.1 h.out hdup
  refine ⟨h.fileFd, h.chunkOffset, h.fragCount, h.out, ?_, ?_, ?_, ?_, ?_, ?_, h.apart⟩
  · intro m' hm' i'
    exact (hsame m' i').trans (h.older m' hm' i')
  · intro e he
    rcases List.mem_append.mp he with he | he
    · exact h.known e he
    · rw [List.mem_singleton.mp he]
      exact Or.inr h.out
  · intro i' d' hd'
    exact h.late i' d' ((hsame _ i').symm.trans hd')
  · intro i'
    exact (h.marked i').trans (congrArg Option.isSome (hsame _ i').symm)
  · intro c hdr hc
    obtain ⟨d', hfirst, hbegins, hhdr⟩ := h.buffered c hdr hc
    have hne : c ≠ b := by
      intro heq
      rw [heq, hnone] at hc
      cases hc
    refine ⟨d', (hsame _ _).trans hfirst, ?_, hhdr⟩
    change d' <+: Function.update t.fragBuf b _ c
    rwa [Function.update_of_ne hne]
  · intro i' d' hd'
    exact h.settled i' d' ((hsame _ i').symm.trans hd')

theorem landed (h : Landing src fd offset base k s x held t) (hnone : held b = none)
    (hd : Late src k i d) (hnew : x.state.received i = false) {w r : ℕ} :
    Landing src fd offset base k s ⟨x.state.mark i, w, r⟩
      (Function.update held b (some (parseFragHdr d))) ((t.heard b d).ring q m) := by
  rw [h.marked, Option.isSome_eq_false_iff, Option.isNone_iff_eq_none] at hnew
  have hindex : (parseFragHdr d).fragIndex.toNat = i := hd.facts.2.1
  have hfirst := firstAt_new (b := b) hd.facts.2.1 h.out hnew
  refine ⟨h.fileFd, h.chunkOffset, h.fragCount, h.out, ?_, ?_, ?_, ?_, ?_, ?_, h.apart⟩
  · intro m' hm' i'
    have hother := hfirst m' i'
    rw [if_neg fun hc => hm' hc.1.symm] at hother
    exact hother.trans (h.older m' hm' i')
  · intro e he
    rcases List.mem_append.mp he with he | he
    · exact h.known e he
    · rw [List.mem_singleton.mp he]
      exact Or.inr h.out
  · intro i' d' hd'
    have hhere := (hfirst _ i').symm.trans hd'
    split_ifs at hhere with heq
    · cases hhere
      rw [← heq.2]
      exact hd
    · exact h.late i' d' hhere
  · intro i'
    change Function.update x.state.received i true i' = (firstAt (t.heard b d).arrived _ i').isSome
    rw [hfirst]
    by_cases heq : i = i'
    · subst heq
      simp
    · rw [Function.update_of_ne (Ne.symm heq), if_neg fun hc => heq hc.2]
      exact h.marked i'
  · intro c hdr hc
    by_cases heq : c = b
    · subst heq
      rw [Function.update_self] at hc
      cases hc
      refine ⟨d, ?_, heard_prefix hd, rfl⟩
      rw [hindex]
      exact (hfirst _ i).trans (if_pos ⟨rfl, rfl⟩)
    · rw [Function.update_of_ne heq] at hc
      obtain ⟨d', hd', hbegins, hhdr⟩ := h.buffered c hdr hc
      refine ⟨d', ?_, ?_, hhdr⟩
      · refine (hfirst _ _).trans ?_
        split_ifs with hsame
        · rw [← hsame.2, hnew] at hd'
          cases hd'
        · exact hd'
      · change d' <+: Function.update t.fragBuf b _ c
        rwa [Function.update_of_ne heq]
  · intro i' d' hd'
    have hhere := (hfirst _ i').symm.trans hd'
    split_ifs at hhere with heq
    · cases hhere
      refine Or.inl ⟨b, _, Function.update_self .., ?_⟩
      rw [hindex, heq.2]
    · rcases h.settled i' d' hhere with ⟨c, hdr, hc, hi'⟩ | hstored
      · have hne : c ≠ b := by
          intro hcb
          rw [hcb, hnone] at hc
          cases hc
        exact Or.inl ⟨c, hdr, by rw [Function.update_of_ne hne, hc], hi'⟩
      · exact Or.inr hstored

theorem written {bs : Bytes} {hdr : FragHdr} (hd : Late src k hdr.fragIndex.toNat d)
    (hbegins : d <+: t.fragBuf b) (hhdr : hdr = parseFragHdr d)
    (hle : bs.length ≤ hdr.fragLen.toNat) (hfull : bs.length < hdr.fragLen.toNat → False)
    (hbs : FRAG_HDR_SIZE + bs.length ≤ (t.fragBuf b).length →
      bs = slice (t.fragBuf b) FRAG_HDR_SIZE bs.length) : bs = payload d := by
  obtain ⟨-, -, hne, hlen, -⟩ := hd.facts
  have hpayload : (payload d).length = d.length - FRAG_HDR_SIZE := List.length_drop
  have hpos := List.length_pos_of_ne_nil hne
  have hbslen : bs.length = (payload d).length := by
    rw [← hlen, ← hhdr]
    exact Nat.le_antisymm hle (Nat.not_lt.mp hfull)
  have hroom := hbegins.length_le
  have hslice := hbs (by omega)
  obtain ⟨rest, hrest⟩ := hbegins
  rw [hslice, hbslen, slice, ← hrest, List.drop_append_of_le_length (by omega)]
  exact List.take_left

theorem stored {f bs : Bytes} {hdr : FragHdr} (h : Landing src fd offset base k s x held t)
    (hheld : held b = some hdr) (hf : t.os.files x.state.fileFd = some f)
    (hle : bs.length ≤ hdr.fragLen.toNat) (hfull : bs.length < hdr.fragLen.toNat → False)
    (hbs : FRAG_HDR_SIZE + bs.length ≤ (t.fragBuf b).length →
      bs = slice (t.fragBuf b) FRAG_HDR_SIZE bs.length) {w r : ℕ} :
    Landing src fd offset base k s ⟨x.state, w, r⟩ (Function.update held b none)
      ((t.write x.state.fileFd (DataPlane.overwrite f
        (x.state.chunkOffset + hdr.fragIndex.toNat * UDP_PAYLOAD_SIZE) bs)).ring q m) := by
  obtain ⟨d, hfirst, hbegins, hhdr⟩ := h.buffered b hdr hheld
  have hd := h.late _ d hfirst
  obtain ⟨-, -, hne, -, hwithin⟩ := hd.facts
  have hpayload := written hd hbegins hhdr hle hfull hbs
  rw [hpayload, h.fileFd, h.chunkOffset, DataPlane.overwrite, if_neg hne]
  have hfile : ∀ g, file ((t.write fd g).ring q m) fd = g := by
    intro g
    change (Function.update t.os.files fd (some g) fd).getD [] = g
    rw [Function.update_self, Option.getD_some]
  have hold : file t fd = f := by
    rw [file, ← h.fileFd, hf, Option.getD_some]
  refine ⟨h.fileFd, h.chunkOffset, h.fragCount, h.out, h.older, h.known, h.late, h.marked,
    ?_, ?_, ?_⟩
  · intro c hdr' hc
    by_cases heq : c = b
    · rw [heq, Function.update_self] at hc
      cases hc
    · rw [Function.update_of_ne heq] at hc
      exact h.buffered c hdr' hc
  · intro i' d' hd'
    rw [hfile, ← hold]
    by_cases hi : i' = hdr.fragIndex.toNat
    · rw [hi] at hd' ⊢
      have hsame := hfirst.symm.trans hd'
      cases hsame
      exact Or.inr (holds_writeAt _ _ _)
    rcases h.settled i' d' hd' with ⟨c, hdr', hc, hi'⟩ | hstored
    · have hne' : c ≠ b := by
        intro hcb
        rw [hcb, hheld] at hc
        cases hc
        exact hi hi'.symm
      exact Or.inl ⟨c, hdr', by rw [Function.update_of_ne hne', hc], hi'⟩
    · refine Or.inr (hstored.writeAt ?_)
      have hthere := (h.late i' d' hd').payload_le
      have hhere := hd.payload_le
      rw [place]
      rcases Nat.lt_or_gt_of_ne hi with hlt | hlt
      · have hmul := Nat.mul_le_mul_right UDP_PAYLOAD_SIZE (Nat.succ_le_of_lt hlt)
        rw [Nat.succ_mul] at hmul
        omega
      · have hmul := Nat.mul_le_mul_right UDP_PAYLOAD_SIZE (Nat.succ_le_of_lt hlt)
        rw [Nat.succ_mul] at hmul
        omega
  · rw [hfile, ← hold]
    exact h.apart.writeAt (Nat.le_add_right _ _) (by omega)

theorem turn (h : Landing src fd offset base k s x held t)
    (hturn : Turn (delivers src base) False x held t y held' u) :
    Landing src fd offset base k s y held' u := by
  cases hturn with
  | again hnone hd hindex hdup =>
    obtain ⟨i, hlate⟩ := delivers_late hd h.out
    rw [heard_hdr hlate] at hdup
    have hi : (parseFragHdr _).fragIndex.toNat = i := hlate.facts.2.1
    rw [hi] at hdup
    exact h.again hnone hlate hdup
  | landed hnone hd hhdr _ hindex hnew =>
    obtain ⟨i, hlate⟩ := delivers_late hd h.out
    rw [heard_hdr hlate] at hhdr
    subst hhdr
    have hi : (parseFragHdr _).fragIndex.toNat = i := hlate.facts.2.1
    rw [hi] at hnew ⊢
    exact h.landed hnone hlate hnew
  | stored hheld hf hle hfull hbs => exact h.stored hheld hf hle hfull hbs

end Landing

end turns

/-! ## Chunk after chunk -/

structure Received (src : Bytes) (fd : Path) (offset base : ℕ) (f : Bytes) (k : ℕ) (t : Store) :
    Prop where
  waiting : Waiting t
  out : t.os.out.length = base + 1 + 4 * k
  log : ∀ e ∈ t.arrived, e.1 < base + 1 + 4 * k
  stored : ∀ j < k, ∀ i < fragCount (chunkLenAt src.length j), ∃ d,
    firstAt t.arrived (base + 1 + 4 * j) i = some d ∧ Late src j i d ∧
      Holds (file t fd) (place offset j i) (payload d)
  rest : ∀ y, offset + k * chunkSize ≤ y → (file t fd)[y]? = f[y]?

section chunks
variable {fd : Path} {offset base : ℕ} {f : Bytes} {s t u : Store} {x : Progress}
  {feed : World → Bytes}

theorem Received.landing (h : Received src fd offset base f k s) :
    Landing src fd offset base k s ⟨recvState fd offset src.length k, 0, UDP_FRAG_BUFS⟩
      (fun _ => none) s := by
  have hnone : ∀ i, firstAt s.arrived (base + 1 + 4 * k) i = none :=
    fun i => firstAt_none fun e he => Nat.ne_of_lt (h.log e he)
  refine ⟨rfl, rfl, rfl, h.out, fun _ _ _ => rfl, fun e he => Or.inl he, ?_, ?_, ?_, ?_,
    fun _ _ => rfl⟩
  · intro i d hd
    rw [hnone] at hd
    cases hd
  · intro i
    rw [hnone]
    rfl
  · intro b hdr hb
    cases hb
  · intro i d hd
    rw [hnone] at hd
    cases hd

theorem Received.next (h : Received src fd offset base f k s)
    (hu : Landing src fd offset base k s x (fun _ => none) u) (hwaiting : Waiting u)
    (hall : ∀ i < fragCount (chunkLenAt src.length k), x.state.received i = true) {w : World}
    (hfiles : w.files = u.os.files) (hout : w.out.length = base + 1 + 4 * (k + 1)) :
    Received src fd offset base f (k + 1) { u with os := w } := by
  have hfile : file { u with os := w } fd = file u fd := by
    rw [file, file, hfiles]
  refine ⟨hwaiting, hout, ?_, ?_, ?_⟩
  · intro e he
    rcases hu.known e he with hold | hnew
    · have hlt := h.log e hold
      omega
    · omega
  · intro j hj i hi
    rw [hfile]
    rcases Nat.lt_or_eq_of_le (Nat.le_of_lt_succ hj) with hlt | rfl
    · obtain ⟨d, hfirst, hlate, hholds⟩ := h.stored j hlt i hi
      refine ⟨d, (hu.older _ (by omega) i).trans hfirst, hlate, fun z hz => ?_⟩
      have hthere := hholds z hz
      have hin : place offset j i + z < (file s fd).length := by
        rw [List.getElem?_eq_getElem hz] at hthere
        exact (List.getElem?_eq_some_iff.mp hthere).1
      have hwithin := hlate.facts.2.2.2.2
      have hmul := Nat.mul_le_mul_right chunkSize (Nat.succ_le_of_lt hlt)
      rw [Nat.succ_mul] at hmul
      have hbefore : place offset j i + z < offset + k * chunkSize := by
        rw [place]
        omega
      exact (hu.apart _ (Or.inl ⟨hbefore, hin⟩)).trans hthere
    · obtain ⟨d, hd⟩ := Option.isSome_iff_exists.mp ((hu.marked i).symm.trans (hall i hi))
      rcases hu.settled i d hd with ⟨b, hdr, hb, -⟩ | hholds
      · cases hb
      · exact ⟨d, hd, hu.late i d hd, hholds⟩
  · intro y hy
    rw [hfile]
    rw [Nat.succ_mul, ← Nat.add_assoc] at hy
    exact (hu.apart y (Or.inr hy)).trans (h.rest y (by omega))

theorem recvFile_sat (hsq : s.sq = []) (hinflight : s.inflight = []) (hlog : s.arrived = []) :
    Sat (kernel (socket feed) (delivers src s.os.out.length) False) (fun _ _ => True)
      (fun _ _ => True) (recvFile fd offset src.length)
      (fun _ u => Received src fd offset s.os.out.length (file s fd) (chunkCount src.length) u) s := by
  rw [recvFile]
  refine Sat.andThen (submitRecvs_sat _) fun _ t ht => ?_
  refine Sat.andThen (submit_sat fun _ _ => trivial) fun _ u hu => ?_
  obtain ⟨q, m, rfl, hperm⟩ := ht.trans hu
  have hwaiting := Adds.waiting ⟨q, m, rfl, hperm⟩ hsq hinflight
  refine Sat.andThen (control_sat (DataPlane.sendExact_sat [1] _) fun _ _ _ => trivial) fun _ v hv => ?_
  obtain ⟨w, hput, rfl⟩ := hv
  apply Sat.round fun x t => x.1 ≤ chunkCount src.length ∧ x.2 = UDP_FRAG_BUFS ∧
    Received src fd offset s.os.out.length (file s fd) x.1 t
  · refine ⟨Nat.zero_le _, rfl, hwaiting, ?_, ?_, ?_, ?_⟩
    · change w.out.length = _
      rw [hput.out]
      exact List.length_append
    · intro e he
      change e ∈ s.arrived at he
      rw [hlog] at he
      cases he
    · intro j hj
      exact absurd hj (Nat.not_lt_zero j)
    · intro y _
      change ((w.files fd).getD [])[y]? = _
      rw [hput.files]
      rfl
  intro x t hx
  obtain ⟨k, n⟩ := x
  obtain ⟨hle, rfl, hk⟩ := hx
  refine ⟨trivial, ?_⟩
  dsimp only at hle hk
  rw [recvNext]
  split_ifs with hlt
  · refine Sat.andThen (recvChunk_sat (Landing src fd offset s.os.out.length k t)
      (hk.waiting.armed fd offset src.length k) hk.landing
      fun _ _ _ _ _ _ _ h hturn => h.turn hturn) fun n u hu => ?_
    obtain ⟨y, held, harmed, hu, hremaining, hwrites, rfl⟩ := hu
    obtain ⟨hwaiting', hn⟩ := harmed.waiting hwrites
    rw [harmed.idle hwrites] at hu
    have hall : ∀ i < fragCount (chunkLenAt src.length k), y.state.received i = true := by
      intro i hi
      rw [← hu.fragCount] at hi
      exact harmed.complete hremaining hi
    refine Sat.andThen (control_sat (DataPlane.sendExact_sat (be 4 k) _) fun _ _ _ => trivial)
      fun _ v hv => ?_
    obtain ⟨w, hput, rfl⟩ := hv
    have hout : w.out.length = s.os.out.length + 1 + 4 * (k + 1) := by
      have hhere := hu.out
      rw [hput.out, List.length_append, be_length]
      omega
    exact sat_pure.mpr ⟨trivial, hlt, hn, hk.next hu hwaiting' hall hput.files hout⟩
  · have hend : k = chunkCount src.length := Nat.le_antisymm hle (Nat.not_lt.mp hlt)
    rw [hend] at hk
    exact sat_pure.mpr ⟨trivial, trivial, hk⟩

end chunks

/-! ## The whole file -/

/-- In each chunk what comes in first of a fragment has the bytes of that fragment. -/
def InPlace (src : Bytes) (base : ℕ) (log : List (ℕ × Bytes)) : Prop :=
  ∀ k i, Piece src k i → ∃ d, firstAt log (base + 1 + 4 * k) i = some d ∧
    (payload d).take (fragment src k i).length = fragment src k i

/-- What the chunks leave out, where there are too many of them for their count, is there. -/
def RestThere (src f : Bytes) (offset : ℕ) : Prop :=
  Holds f (offset + chunkCount src.length * chunkSize) (src.drop (chunkCount src.length * chunkSize))

section whole
variable {fd : Path} {offset base : ℕ} {f : Bytes} {u : Store}

theorem Received.holds_iff (h : Received src fd offset base f (chunkCount src.length) u) :
    Holds (file u fd) offset src ↔ InPlace src base u.arrived ∧ RestThere src f offset := by
  constructor
  · intro hall
    refine ⟨fun k i hpiece => ?_, fun z hz => ?_⟩
    · obtain ⟨d, hfirst, ⟨j, hjk, hj, rfl⟩, hholds⟩ := h.stored k hpiece.chunk i hpiece.frag
      have hlonger := hpiece.longer hj hjk
      rw [Piece.payload_datagram] at hholds
      refine ⟨_, hfirst, List.ext_getElem? fun z => ?_⟩
      rw [Piece.payload_datagram, List.getElem?_take]
      split_ifs with hz
      · have hwithin := hpiece.within
        rw [← hpiece.length] at hwithin
        have hbyte := hall (k * chunkSize + i * UDP_PAYLOAD_SIZE + z) (by omega)
        have hplace : offset + (k * chunkSize + i * UDP_PAYLOAD_SIZE + z) = place offset k i + z := by
          rw [place]
          omega
        rw [getElem?_fragment hpiece hz, ← hbyte, hplace]
        exact (hholds z (by omega)).symm
      · exact (List.getElem?_eq_none (by omega)).symm
    · rw [List.length_drop] at hz
      rw [List.getElem?_drop, ← h.rest _ (by omega), Nat.add_assoc]
      exact hall _ (by omega)
  · intro hparts
    obtain ⟨hplaced, hrest⟩ := hparts
    intro y hy
    by_cases hchunk : y < chunkCount src.length * chunkSize
    · obtain ⟨k, i, z, hpiece, hz, hyz⟩ := exists_piece hy hchunk
      obtain ⟨d, hfirst, ⟨j, hjk, hj, rfl⟩, hholds⟩ := h.stored k hpiece.chunk i hpiece.frag
      obtain ⟨d', hfirst', htake⟩ := hplaced k i hpiece
      rw [hfirst] at hfirst'
      cases hfirst'
      have hlonger := hpiece.longer hj hjk
      rw [Piece.payload_datagram] at hholds htake
      have hplace : offset + y = place offset k i + z := by
        rw [place]
        omega
      have hbyte : (fragment src j i)[z]? = (fragment src k i)[z]? := by
        have hat := List.getElem?_take_of_lt (l := fragment src j i) hz
        rw [htake] at hat
        exact hat.symm
      rw [hplace, hholds z (by omega), hbyte, getElem?_fragment hpiece hz, ← hyz]
    · have hbyte := hrest (y - chunkCount src.length * chunkSize) (by
        rw [List.length_drop]
        omega)
      rw [List.getElem?_drop, ← h.rest _ (by omega)] at hbyte
      have hsum : chunkCount src.length * chunkSize + (y - chunkCount src.length * chunkSize) = y := by
        omega
      rw [Nat.add_assoc, hsum] at hbyte
      exact hbyte

end whole

theorem received_iff {src : Bytes} {fd : Path} {offset : ℕ} {feed : World → Bytes} {s u : Store}
    (hsq : s.sq = []) (hinflight : s.inflight = []) (hlog : s.arrived = [])
    (hrun : Reaches (kernel (socket feed) (delivers src s.os.out.length) False)
      (recvFile fd offset src.length, s) (.ret (), u)) :
    slice (file u fd) offset src.length = src ↔
      InPlace src s.os.out.length u.arrived ∧ RestThere src (file s fd) offset := by
  rw [← Octets.holds_iff]
  exact ((recvFile_sat hsq hinflight hlog).returned hrun).holds_iff

/-- `recv_file` leaves the bytes of the source exactly if no late datagram came in ahead of one
with other bytes. -/
theorem recv_file_iff (src : Bytes) (fd : Path) (offset : ℕ) (os : World) (registered : Bool)
    (feed : World → Bytes) (u : Store)
    (hrun : Reaches (kernel (socket feed) (delivers src os.out.length) False)
      (recvFile fd offset src.length, Store.init os registered) (.ret (), u)) :
    slice (file u fd) offset src.length = src ↔
      InPlace src os.out.length u.arrived ∧
        RestThere src (file (Store.init os registered) fd) offset :=
  received_iff (s := .init os registered) rfl rfl rfl hrun

/-! ## Two deliveries -/

theorem deliverable {base : ℕ} {w : World} (h : Piece src j i)
    (hout : base + 1 + 4 * j ≤ w.out.length) :
    Deliverable (delivers src base) w i (datagram src j i) := by
  have hlate : Late src j i (datagram src j i) := ⟨j, le_rfl, h, rfl⟩
  refine ⟨fun t ht => ⟨j, i, h, ?_, rfl⟩, fun t b => ?_, ?_⟩
  · rw [ht]
    exact hout
  · rw [heard_hdr hlate]
    exact h.index_datagram
  · rw [hlate.facts.1, Piece.datagram_length]
    exact Nat.le_add_right _ _

theorem firstAt_last {log : List (ℕ × Bytes)} {n : ℕ} (h : ∀ e ∈ log, e.1 ≠ n) (hd : index d = i) :
    firstAt (log ++ [(n, d)]) n i = some d := by
  rw [firstAt_append, firstAt_none h, Option.none_or, if_pos ⟨rfl, hd⟩]

section runs
variable {fd : Path} {offset base : ℕ} {t : Store} {feed : World → Bytes} {Q : Unit → Store → Prop}

structure Between (fd : Path) (base k : ℕ) (log : List (ℕ × Bytes)) (t : Store) : Prop where
  sq : t.sq = []
  waiting : Waiting t
  file : ∃ f, t.os.files fd = some f
  out : t.os.out.length = base + 1 + 4 * k
  arrived : t.arrived = log

def chunkLog (src : Bytes) (base k : ℕ) : List (ℕ × Bytes) :=
  (List.range (fragCount (chunkLenAt src.length k))).map
    fun i => (base + 1 + 4 * k, datagram src k i)

theorem Between.next {log log' : List (ℕ × Bytes)} (ht : Between fd base k log t)
    (hk : k < chunkCount src.length)
    (hchunk : Returns (eager (socket feed) (delivers src base))
      (UdpTransport.recvChunk (recvState fd offset src.length k) UDP_FRAG_BUFS)
      (fun _ u => u.sq = [] ∧ (∃ f, u.os.files fd = some f) ∧ u.os.out = t.os.out ∧
        u.arrived = log') t)
    (hnext : ∀ u, Between fd base (k + 1) log' u →
      Returns (eager (socket feed) (delivers src base))
        (.repeatUntil (recvNext fd offset src.length) (k + 1, UDP_FRAG_BUFS)) Q u) :
    Returns (eager (socket feed) (delivers src base))
      (.repeatUntil (recvNext fd offset src.length) (k, UDP_FRAG_BUFS)) Q t := by
  refine recvNext_returns hk ht.waiting hchunk fun u hwaiting hu => hnext _ ?_
  obtain ⟨hsq, hf, hout, hlog⟩ := hu
  refine ⟨hsq, hwaiting, hf, ?_, hlog⟩
  have hbefore := ht.out
  change (u.os.out ++ be 4 k).length = _
  rw [List.length_append, be_length, hout]
  omega

theorem Between.in_order {log : List (ℕ × Bytes)} (ht : Between fd base k log t)
    (hk : k < chunkCount src.length)
    (hnext : ∀ u, Between fd base (k + 1) (log ++ chunkLog src base k) u →
      Returns (eager (socket feed) (delivers src base))
        (.repeatUntil (recvNext fd offset src.length) (k + 1, UDP_FRAG_BUFS)) Q u) :
    Returns (eager (socket feed) (delivers src base))
      (.repeatUntil (recvNext fd offset src.length) (k, UDP_FRAG_BUFS)) Q t := by
  obtain ⟨f, hf⟩ := ht.file
  have hds : ∀ i < fragCount (chunkLenAt src.length k),
      Deliverable (delivers src base) t.os i (datagram src k i) :=
    fun i hi => deliverable ⟨hk, hi⟩ (le_of_eq ht.out.symm)
  refine ht.next hk ?_ hnext
  refine (chunk_returns (fragCount_pos hk) ht.sq ht.waiting hf hds).mono fun _ u hu => ?_
  refine ⟨hu.sq, hu.file, hu.out, ?_⟩
  rw [hu.arrived, ht.arrived, ht.out]
  rfl

theorem Between.start (src : Bytes) {w : World} {registered : Bool} {f : Bytes}
    (hf : w.files fd = some f) (hbase : w.out.length = base)
    (hnext : ∀ u, Between fd base 0 [] u →
      Returns (eager (socket feed) (delivers src base))
        (.repeatUntil (recvNext fd offset src.length) (0, UDP_FRAG_BUFS)) Q u) :
    Returns (eager (socket feed) (delivers src base))
      (recvFile fd offset src.length) Q (.init w registered) := by
  refine recvFile_returns fun t hsq hwaiting hos hlog => hnext t ⟨hsq, hwaiting, ⟨f, ?_⟩, ?_, hlog⟩
  · rw [hos]
    exact hf
  · rw [hos, ← hbase]
    exact List.length_append

theorem Between.late {log : List (ℕ × Bytes)} (ht : Between fd base k log t)
    (hk : k < chunkCount src.length) (hone : fragCount (chunkLenAt src.length k) = 1) (hjk : j ≤ k)
    (hj : Piece src j 0)
    (hnext : ∀ u, Between fd base (k + 1) (log ++ [(base + 1 + 4 * k, datagram src j 0)] ++
        [(base + 1 + 4 * k, datagram src k 0)]) u →
      Returns (eager (socket feed) (delivers src base))
        (.repeatUntil (recvNext fd offset src.length) (k + 1, UDP_FRAG_BUFS)) Q u) :
    Returns (eager (socket feed) (delivers src base))
      (.repeatUntil (recvNext fd offset src.length) (k, UDP_FRAG_BUFS)) Q t := by
  obtain ⟨f, hf⟩ := ht.file
  have hpiece : Piece src k 0 := ⟨hk, by omega⟩
  have hout := ht.out
  have hds : ∀ i < 1, Deliverable (delivers src base) t.os i (datagram src j 0) := by
    intro i hi
    rw [Nat.lt_one_iff.mp hi]
    exact deliverable hj (by omega)
  refine ht.next hk ?_ hnext
  rw [UdpTransport.recvChunk]
  nth_rewrite 1 [recvState_inOrder]
  rw [hone]
  refine Leads.returns (arrivals_lead hone (by decide) hds Nat.one_pos (ht.waiting.arrived ht.sq)
    fun u hsq hu => ?_)
  -- its own datagram is taken for one seen before
  have hown : Deliverable (delivers src base) u.os 0 (datagram src k 0) := by
    refine deliverable hpiece ?_
    rw [hu.os, hout]
  obtain ⟨l, r, hin⟩ := List.append_of_mem (hu.waits 31 (by decide) (by decide))
  have hindex := hown.index u 31
  refine again_leads (Or.inr Nat.one_pos) (by decide) hin (hown.arrives _ rfl) hown.whole
    (by rw [hindex]; exact Nat.lt_of_lt_of_eq Nat.one_pos hone.symm) (by rw [hindex]; decide)
    (by rw [hindex]; rfl) (by rw [hsq]; decide) ?_
  have hwriting : Writing (recvState fd offset src.length k) t.os.out
      (log ++ [(base + 1 + 4 * k, datagram src j 0)] ++ [(base + 1 + 4 * k, datagram src k 0)]) 1 0
      ((((u.heard 31 (datagram src k 0)).ring u.sq (l ++ r)).prepare (recvSqe 31)).flushed
        (UDP_FRAG_BUFS / 2 ≤ UDP_FRAG_BUFS - 1 - 1 + 1)) := by
    refine ⟨flushed_sq (by decide), fun b _ hb => ?_, ⟨f, ?_⟩, ?_, ?_⟩
    · obtain ⟨hdr, hmem⟩ := hu.writes b hb
      rw [hsq, List.nil_append, hin] at hmem
      rw [flushed_registered]
      exact ⟨hdr, mem_flushed (mem_rest hmem writeSqe_ne_recv)⟩
    · rw [flushed_os]
      change u.os.files fd = some f
      rw [hu.os, hf]
    · rw [flushed_os]
      exact congrArg World.out hu.os
    · rw [flushed_arrived]
      change u.arrived ++ [(u.os.out.length, datagram src k 0)] = _
      rw [hu.arrived, hu.os, hout, ht.arrived]
      rfl
  exact all_writes_return (by decide) hwriting
    fun v hv => ⟨hv.sq, hv.file, hv.out, hv.arrived⟩

end runs

/-- An empty output. -/
def empty : World := .init fun _ => some []

/-- A chunk of zeroes and one byte more. -/
def oneMore (b : UInt8) : Bytes := List.replicate chunkSize 0 ++ [b]

section oneMore
variable {b : UInt8}

theorem oneMore_length : (oneMore b).length = chunkSize + 1 := by
  rw [oneMore, List.length_append, List.length_replicate, List.length_singleton]

theorem oneMore_chunks : chunkCount (oneMore b).length = 2 := by
  rw [oneMore_length]
  decide

theorem oneMore_frags : fragCount (chunkLenAt (oneMore b).length 1) = 1 := by
  rw [oneMore_length]
  decide

theorem oneMore_pieces : Piece (oneMore b) 0 0 ∧ Piece (oneMore b) 1 0 := by
  have hcount := oneMore_chunks (b := b)
  exact ⟨⟨by omega, fragCount_pos (by omega)⟩, ⟨by omega, fragCount_pos (by omega)⟩⟩

/-- The first fragment of chunk 0 comes again, ahead of the one byte of chunk 1. -/
def oneMoreLog (b : UInt8) : List (ℕ × Bytes) :=
  chunkLog (oneMore b) 0 0 ++ [(0 + 1 + 4 * 1, datagram (oneMore b) 0 0)] ++
    [(0 + 1 + 4 * 1, datagram (oneMore b) 1 0)]

theorem oneMore_received (b : UInt8) : ∃ u,
    Reaches (kernel (socket fun _ => []) (delivers (oneMore b) 0) False)
      (recvFile [97] 0 (oneMore b).length, .init empty false) (.ret (), u) ∧
      u.arrived = oneMoreLog b := by
  have hcount := oneMore_chunks (b := b)
  have hreturns : Returns (eager (socket fun _ => []) (delivers (oneMore b) 0))
      (recvFile [97] 0 (oneMore b).length) (fun _ u => u.arrived = oneMoreLog b)
      (.init empty false) := by
    refine Between.start (oneMore b) (w := empty) (f := []) rfl rfl fun t ht => ?_
    refine ht.in_order (by omega) fun u hu => ?_
    refine hu.late (by omega) oneMore_frags (Nat.zero_le 1) oneMore_pieces.1 fun v hv => ?_
    refine recvNext_ends (le_of_eq hcount) ?_
    rw [hv.arrived, List.nil_append, oneMoreLog]
  obtain ⟨_, u, hrun, hlog⟩ := hreturns.env fun _ _ _ _ h => h.1
  exact ⟨u, hrun, hlog⟩

theorem oneMore_late : firstAt (oneMoreLog b) (0 + 1 + 4 * 1) 0 = some (datagram (oneMore b) 0 0) := by
  have hearlier : ∀ e ∈ chunkLog (oneMore b) 0 0, e.1 ≠ 0 + 1 + 4 * 1 := by
    intro e he
    obtain ⟨i, -, rfl⟩ := List.mem_map.mp he
    exact (by decide : 0 + 1 + 4 * 0 ≠ 0 + 1 + 4 * 1)
  rw [oneMoreLog, firstAt_append, firstAt_last hearlier oneMore_pieces.1.index_datagram,
    Option.some_or]

theorem oneMore_bytes :
    (fragment (oneMore b) 1 0)[0]? = some b ∧ (fragment (oneMore b) 0 0)[0]? = some 0 := by
  obtain ⟨hfirst, hlast⟩ := oneMore_pieces (b := b)
  constructor
  · rw [getElem?_fragment hlast (by rw [hlast.length, oneMore_length]; decide), oneMore,
      List.getElem?_append_right]
    · rw [List.length_replicate]
      rfl
    · rw [List.length_replicate]
      decide
  · rw [getElem?_fragment hfirst (by rw [hfirst.length, oneMore_length]; decide), oneMore,
      List.getElem?_append_left]
    · exact List.getElem?_replicate_of_lt (by decide)
    · rw [List.length_replicate]
      decide

theorem oneMore_own {i : ℕ} (hi : i < fragCount (chunkLenAt (oneMore b).length 0)) :
    firstAt (oneMoreLog b) (0 + 1 + 4 * 0) i = some (datagram (oneMore b) 0 i) := by
  have hmem : (0 + 1 + 4 * 0, datagram (oneMore b) 0 i) ∈ chunkLog (oneMore b) 0 0 :=
    List.mem_map.mpr ⟨i, List.mem_range.mpr hi, rfl⟩
  have hindex : ∀ i' < fragCount (chunkLenAt (oneMore b).length 0),
      index (datagram (oneMore b) 0 i') = i' := fun i' hi' =>
    Piece.index_datagram ⟨oneMore_pieces.1.chunk, hi'⟩
  cases hfirst : firstAt (chunkLog (oneMore b) 0 0) (0 + 1 + 4 * 0) i with
  | none =>
    rw [firstAt, Option.map_eq_none_iff, List.find?_eq_none] at hfirst
    exact absurd (hfirst _ hmem) (by simp [hindex i hi])
  | some d =>
    obtain ⟨hd, hat⟩ := mem_of_firstAt hfirst
    obtain ⟨i', hi', heq⟩ := List.mem_map.mp hd
    obtain rfl : datagram (oneMore b) 0 i' = d := congrArg Prod.snd heq
    rw [hindex i' (List.mem_range.mp hi')] at hat
    subst hat
    rw [oneMoreLog, firstAt_append, firstAt_append, hfirst, Option.some_or, Option.some_or]

end oneMore

/-- Of zeroes only, the late fragment has the bytes of the one it is taken for. -/
theorem late_duplicate_in_place : ∃ u, u.arrived = oneMoreLog 0 ∧
    Reaches (kernel (socket fun _ => []) (delivers (oneMore 0) 0) False)
      (recvFile [97] 0 (oneMore 0).length, .init empty false) (.ret (), u) ∧
    slice (file u [97]) 0 (oneMore 0).length = oneMore 0 := by
  obtain ⟨u, hrun, hlog⟩ := oneMore_received 0
  refine ⟨u, hlog, hrun, (recv_file_iff (oneMore 0) [97] 0 empty false (fun _ => []) u hrun).mpr
    ⟨?_, ?_⟩⟩
  · intro k i hpiece
    have hk := hpiece.chunk
    have hi := hpiece.frag
    rw [oneMore_chunks] at hk
    obtain rfl | rfl : k = 0 ∨ k = 1 := by omega
    · refine ⟨_, hlog ▸ oneMore_own hi, ?_⟩
      rw [Piece.payload_datagram, List.take_length]
    · rw [oneMore_frags, Nat.lt_one_iff] at hi
      subst hi
      refine ⟨_, hlog ▸ oneMore_late, ?_⟩
      have hlength : (fragment (oneMore 0) 1 0).length = 1 := by
        rw [hpiece.length, oneMore_length]
        decide
      rw [Piece.payload_datagram, hlength]
      refine List.ext_getElem? fun z => ?_
      rcases z with _ | z
      · rw [List.getElem?_take_of_lt Nat.one_pos, oneMore_bytes.1, oneMore_bytes.2]
      · rw [List.getElem?_take, if_neg (by omega), List.getElem?_eq_none (by omega)]
  · intro z hz
    have hnil : (oneMore 0).drop (chunkCount (oneMore 0).length * chunkSize) = [] := by
      rw [List.drop_eq_nil_iff, oneMore_chunks, oneMore_length]
      decide
    change z < ((oneMore 0).drop (chunkCount (oneMore 0).length * chunkSize)).length at hz
    rw [hnil] at hz
    cases hz

/-- Each datagram came in at least once before its chunk was acknowledged. -/
def AllDelivered (src : Bytes) (base : ℕ) (log : List (ℕ × Bytes)) : Prop :=
  ∀ k i, Piece src k i → (base + 1 + 4 * k, datagram src k i) ∈ log

theorem oneMore_delivered : AllDelivered (oneMore 1) 0 (oneMoreLog 1) := by
  intro k i hpiece
  have hk := hpiece.chunk
  have hi := hpiece.frag
  rw [oneMore_chunks] at hk
  obtain rfl | rfl : k = 0 ∨ k = 1 := by omega
  · refine List.mem_append_left _ (List.mem_append_left _ ?_)
    exact List.mem_map.mpr ⟨i, List.mem_range.mpr hi, rfl⟩
  · rw [oneMore_frags, Nat.lt_one_iff] at hi
    subst hi
    exact List.mem_append_right _ (List.mem_singleton_self _)

theorem late_duplicate_corrupts :
    ¬ ∀ (src : Bytes) (fd : Path) (offset : ℕ) (os : World) (registered : Bool)
      (feed : World → Bytes) (u : Store),
      Reaches (kernel (socket feed) (delivers src os.out.length) False)
        (recvFile fd offset src.length, Store.init os registered) (.ret (), u) →
      AllDelivered src os.out.length u.arrived → slice (file u fd) offset src.length = src := by
  intro hall
  obtain ⟨u, hrun, hlog⟩ := oneMore_received 1
  have hdelivered : AllDelivered (oneMore 1) 0 u.arrived := by
    rw [hlog]
    exact oneMore_delivered
  have hsame := hall (oneMore 1) [97] 0 empty false (fun _ => []) u hrun hdelivered
  have hlast : Piece (oneMore 1) 1 0 := oneMore_pieces.2
  have hplaced := ((received_iff (s := .init empty false) rfl rfl rfl hrun).mp hsame).1 1 0 hlast
  obtain ⟨d, hd, htake⟩ := hplaced
  rw [hlog] at hd
  have hdatagram : d = datagram (oneMore 1) 0 0 := Option.some.inj (hd.symm.trans oneMore_late)
  subst hdatagram
  have hlength : 0 < (fragment (oneMore 1) 1 0).length := by
    rw [hlast.length, oneMore_length]
    decide
  have hbyte := List.getElem?_take_of_lt (l := fragment (oneMore 1) 0 0) hlength
  rw [Piece.payload_datagram] at htake
  rw [htake, oneMore_bytes.1, oneMore_bytes.2] at hbyte
  exact absurd hbyte (by decide)

end Embr.LateDuplicates
