import Embr.Fragments
import Embr.Lib.Slots
import Embr.Lib.Workers

/-!
# The ring of a receiver

Every buffer waits for a datagram or for the write of the fragment it holds.
`Turn` says what one completion can do to the loop of a chunk, and `Armed` is
what every turn keeps.
-/

open Octets Interact Slots
open Embr.System (World)
open Workers (tally tally_move tally_lt tally_const le_tally)
namespace Embr.UdpTransport

/-- The fragments in the buffers, those that wait for a datagram aside. -/
abbrev Held := ℕ → Option FragHdr

def recvSqe (fragBufIdx : ℕ) : Sqe :=
  ⟨.recv fragBufIdx UDP_MTU, makeUserData .recv fragBufIdx⟩

def work (state : RecvState) (fixed : Bool) (fragBufIdx : ℕ) : Option FragHdr → Sqe
  | none => recvSqe fragBufIdx
  | some hdr => writeSqe state fragBufIdx hdr fixed

def writing : Option FragHdr → ℕ
  | none => 0
  | some _ => 1

def missing : Bool → ℕ
  | true => 0
  | false => 1

structure Armed (x : Progress) (held : Held) (t : Store) : Prop where
  inside : ∀ b, held b ≠ none → b < UDP_FRAG_BUFS
  ops : Covers UDP_FRAG_BUFS (fun b => work x.state t.registered b (held b)) (t.sq ++ t.inflight)
  writes : x.pendingWrites = tally UDP_FRAG_BUFS writing held
  recvs : x.pendingRecvs + x.pendingWrites = UDP_FRAG_BUFS
  remaining : x.state.fragRemaining = tally x.state.fragCount missing x.state.received

namespace Store

/-- The same but for the requests in the ring. -/
def ring (s : Store) (sq inflight : List Sqe) : Store := { s with sq := sq, inflight := inflight }

def heard (s : Store) (fragBufIdx : ℕ) (d : Bytes) : Store :=
  { s.fillFrag fragBufIdx (d.take UDP_MTU) with arrived := s.arrived ++ [(s.os.out.length, d)] }

end Store

abbrev hdrIn (t : Store) (fragBufIdx : ℕ) : FragHdr := parseFragHdr (t.fragBuf fragBufIdx)

/-- One turn of the loop of a chunk: a fragment seen before, a new one, or one that is stored. -/
inductive Turn (arrives : Store → Bytes → Prop) (short : Prop) (x : Progress) (held : Held)
    (t : Store) : Progress → Held → Store → Prop
  | again {b : ℕ} {d : Bytes} {l q m : List Sqe} : held b = none →
      arrives (t.ring t.sq l) d →
      (hdrIn (t.heard b d) b).fragIndex.toNat < x.state.fragCount →
      x.state.received (hdrIn (t.heard b d) b).fragIndex.toNat = true →
      Turn arrives short x held t x held ((t.heard b d).ring q m)
  | landed {b : ℕ} {d : Bytes} {hdr : FragHdr} {l q m : List Sqe} : held b = none →
      arrives (t.ring t.sq l) d → hdr = hdrIn (t.heard b d) b →
      FRAG_HDR_SIZE ≤ (d.take UDP_MTU).length →
      hdr.fragIndex.toNat < x.state.fragCount → x.state.received hdr.fragIndex.toNat = false →
      Turn arrives short x held t
        ⟨x.state.mark hdr.fragIndex.toNat, x.pendingWrites + 1, x.pendingRecvs - 1⟩
        (Function.update held b (some hdr)) ((t.heard b d).ring q m)
  | stored {b : ℕ} {hdr : FragHdr} {f bs : Bytes} {q m : List Sqe} : held b = some hdr →
      t.os.files x.state.fileFd = some f → bs.length ≤ hdr.fragLen.toNat →
      (bs.length < hdr.fragLen.toNat → short) →
      (FRAG_HDR_SIZE + bs.length ≤ (t.fragBuf b).length →
        bs = slice (t.fragBuf b) FRAG_HDR_SIZE bs.length) →
      Turn arrives short x held t ⟨x.state, x.pendingWrites - 1, x.pendingRecvs + 1⟩
        (Function.update held b none)
        ((t.write x.state.fileFd (DataPlane.overwrite f
          (x.state.chunkOffset + hdr.fragIndex.toNat * UDP_PAYLOAD_SIZE) bs)).ring q m)

variable {os : Env System.Os} {arrives : Store → Bytes → Prop} {short : Prop} {x y : Progress}
  {held held' : Held} {s t u : Store} {b : ℕ}

def Adds (sqes : List Sqe) (t u : Store) : Prop :=
  ∃ q m, u = t.ring q m ∧ (q ++ m).Perm (sqes ++ (t.sq ++ t.inflight))

theorem Adds.trans {a c : List Sqe} (h : Adds a s t) (h' : Adds c t u) : Adds (c ++ a) s u := by
  obtain ⟨q, m, rfl, hperm⟩ := h
  obtain ⟨q', m', rfl, hperm'⟩ := h'
  refine ⟨q', m', rfl, hperm'.trans ?_⟩
  rw [List.append_assoc]
  exact hperm.append_left c

theorem submit_sat {P : Store → Prop} (h : ∀ u, Adds [] t u → P u) :
    Sat (kernel os arrives short) (fun _ => P) (fun _ => P) ioUringSubmit
      (fun _ u => Adds [] t u) t := by
  have hnone : Adds [] t t := ⟨t.sq, t.inflight, rfl, .refl _⟩
  refine sat_ask_bind.mpr ⟨h t hnone, fun r v hv => ?_⟩
  rcases hv with ⟨-, rfl⟩ | ⟨k, -, -, rfl⟩
  · exact sat_pure.mpr ⟨h v hnone, hnone⟩
  · have htaken : ((t.sq.drop k ++ t.inflight) ++ t.sq.take k).Perm
        (t.sq.take k ++ (t.sq.drop k ++ t.inflight)) := List.perm_append_comm
    rw [List.append_assoc, ← List.append_assoc (t.sq.take k), List.take_append_drop] at htaken
    have hadds : Adds [] t (t.submitted k) := ⟨_, _, rfl, htaken⟩
    exact sat_pure.mpr ⟨h _ hadds, hadds⟩

theorem flush_sat {c : Prop} [Decidable c] :
    Sat (kernel os arrives short) (fun _ _ => True) (fun _ _ => True) (.when c ioUringSubmit)
      (fun _ u => Adds [] t u) t := by
  apply Sat.when
  · exact fun _ => submit_sat fun _ _ => trivial
  · exact fun _ => ⟨trivial, t.sq, t.inflight, rfl, .refl _⟩

def takesAll (E : Env Udp) : Env Udp := fun o s r s' => E o s r s' ∧ (o = .submit → s'.sq = [])

abbrev taking (os : Env System.Os) (arrives : Store → Bytes → Prop) (short : Prop) : Env Udp :=
  takesAll (kernel os arrives short)

theorem prepare_adds (s : Store) (sqe : Sqe) : Adds [sqe] s (s.prepare sqe) := by
  refine ⟨s.sq ++ [sqe], s.inflight, rfl, ?_⟩
  rw [List.append_assoc]
  exact List.perm_middle

theorem submitRecv_sat {E : Env Udp} {I : Option Op → Store → Prop} {X : Exc → Store → Prop}
    (h : I none t) (hnext : I none (t.prepare (recvSqe b))) (hX : ∀ e, X e t) :
    Sat E I X (submitRecv b) (fun _ u => u = t.prepare (recvSqe b)) t := by
  refine Sat.andThen (inRange_sat h hX) fun _ v hv => ?_
  obtain ⟨-, rfl⟩ := hv
  exact (prepare_sat h hnext hX).weaken fun _ w hw => hw.2

theorem reclaim_sat {n : ℕ} :
    Sat (kernel os arrives short) (fun _ _ => True) (fun _ _ => True) (reclaim b n)
      (fun r u => r = n + 1 ∧ Adds [recvSqe b] t u) t := by
  refine Sat.andThen (submitRecv_sat trivial trivial fun _ => trivial) fun _ v hv => ?_
  subst hv
  refine Sat.andThen flush_sat fun _ w hw => ?_
  exact sat_pure.mpr ⟨trivial, rfl, (prepare_adds t _).trans hw⟩

theorem Armed.pending (h : Armed x held t) (hb : b < UDP_FRAG_BUFS) (hnone : held b = none) :
    0 < x.pendingRecvs := by
  have hlt : tally UDP_FRAG_BUFS writing held < UDP_FRAG_BUFS * 1 :=
    tally_lt (n := 1) (fun o => by cases o <;> simp [writing]) hb (by simp [writing, hnone])
  have hwrites := h.writes
  have hrecvs := h.recvs
  omega

theorem Armed.inside_update (h : Armed x held t) (hb : b < UDP_FRAG_BUFS) {o : Option FragHdr}
    (c : ℕ) (hc : Function.update held b o c ≠ none) : c < UDP_FRAG_BUFS := by
  by_cases hcb : c = b
  · rw [hcb]
    exact hb
  · rw [Function.update_of_ne hcb] at hc
    exact h.inside c hc

theorem Armed.remains (h : Armed x held t) {i : ℕ} (hi : i < x.state.fragCount)
    (hnew : x.state.received i = false) : 0 < x.state.fragRemaining := by
  have hle : missing (x.state.received i) ≤ tally x.state.fragCount missing x.state.received :=
    le_tally hi
  rw [hnew] at hle
  rw [h.remaining]
  exact hle

theorem Armed.rearmed (h : Armed x held t) {sqe : Sqe} {a c : List Sqe}
    (hin : t.inflight = a ++ sqe :: c) :
    ∃ b < UDP_FRAG_BUFS, sqe = work x.state t.registered b (held b) ∧
      ∀ o ops, ops.Perm (work x.state t.registered b o :: (t.sq ++ (a ++ c))) →
        Covers UDP_FRAG_BUFS
          (fun b' => work x.state t.registered b' (Function.update held b o b')) ops := by
  have hops := h.ops
  have hfront : (sqe :: (t.sq ++ (a ++ c))).Perm (t.sq ++ t.inflight) := by
    rw [hin, ← List.append_assoc, ← List.append_assoc]
    exact List.perm_middle.symm
  obtain ⟨b, hb, heq, hreplace⟩ := (hops.perm hfront).replace
  refine ⟨b, hb, heq, fun o ops hperm => Covers.perm ?_ hperm⟩
  have hnew := hreplace (fun b' => work x.state t.registered b' (Function.update held b o b'))
    fun c hc => by rw [Function.update_of_ne hc]
  rwa [Function.update_self] at hnew

theorem reapRecv_sat {d : Bytes} {l : List Sqe} (h : Armed x held t) (hb : b < UDP_FRAG_BUFS)
    (hnone : held b = none) (hd : arrives (t.ring t.sq l) d)
    (hslot : ∀ o ops, ops.Perm (work x.state t.registered b o :: (t.sq ++ l)) →
      Covers UDP_FRAG_BUFS
        (fun b' => work x.state t.registered b' (Function.update held b o b')) ops) :
    Sat (kernel os arrives short) (fun _ _ => True) (fun _ _ => True)
      (reapRecv b (d.take UDP_MTU).length x)
      (fun y u => ∃ held', Armed y held' u ∧ Turn arrives short x held t y held' u)
      ((t.heard b d).ring t.sq l) := by
  have hpending := h.pending hb hnone
  have hwrites := h.writes
  have hrecvs := h.recvs
  rw [reapRecv]
  split_ifs with hres
  · exact sat_raise.mpr ⟨trivial, trivial⟩
  refine Sat.andThen (processFragment_sat trivial (fun _ => trivial) fun _ => trivial) fun r v hv => ?_
  rcases hv with ⟨rfl, rfl, -, hindex, hdup⟩ | ⟨hdr, hfresh, rfl, rfl⟩
  · simp only [Bool.false_eq_true, if_false]
    refine Sat.andThen reclaim_sat fun r v hv => sat_pure.mpr ⟨trivial, held, ?_⟩
    obtain ⟨rfl, q, m, rfl, hperm⟩ := hv
    have hsame : Function.update held b none = held := by
      rw [← hnone, Function.update_eq_self]
    have hops := hslot none _ hperm
    rw [hsame] at hops
    have hback : x.pendingRecvs - 1 + 1 = x.pendingRecvs := Nat.sub_add_cancel hpending
    rw [hback]
    exact ⟨⟨h.inside, hops, hwrites, hrecvs, h.remaining⟩, .again hnone hd hindex hdup⟩
  · simp only [if_true]
    refine Sat.andThen flush_sat fun r v hv =>
      sat_pure.mpr ⟨trivial, Function.update held b (some hdr), ?_⟩
    have hremains := h.remains hfresh.index hfresh.new
    obtain ⟨q, m, rfl, hperm⟩ := (prepare_adds _ _).trans hv
    have hops := hslot (some hdr) _ hperm
    have hwriting := tally_move writing held hb (some hdr)
    have hmissing := tally_move missing x.state.received hfresh.index true
    simp only [hnone, writing, hfresh.new, missing] at hwriting hmissing
    have hremaining := h.remaining
    refine ⟨⟨h.inside_update hb, hops, ?_, ?_, ?_⟩,
      .landed hnone hd hfresh.header ?_ hfresh.index hfresh.new⟩
    · change x.pendingWrites + 1 = _
      omega
    · change x.pendingRecvs - 1 + (x.pendingWrites + 1) = _
      omega
    · change x.state.fragRemaining - 1 = tally x.state.fragCount missing _
      simp only [RecvState.mark]
      omega
    · have hwhole := hfresh.whole
      exact_mod_cast hwhole

theorem reapWrite_sat {hdr : FragHdr} {f bs : Bytes} {l : List Sqe} (h : Armed x held t)
    (hb : b < UDP_FRAG_BUFS) (hhdr : held b = some hdr) (hf : t.os.files x.state.fileFd = some f)
    (hle : bs.length ≤ hdr.fragLen.toNat) (hshort : bs.length < hdr.fragLen.toNat → short)
    (hbs : FRAG_HDR_SIZE + bs.length ≤ (t.fragBuf b).length →
      bs = slice (t.fragBuf b) FRAG_HDR_SIZE bs.length)
    (hslot : ∀ o ops, ops.Perm (work x.state t.registered b o :: (t.sq ++ l)) →
      Covers UDP_FRAG_BUFS
        (fun b' => work x.state t.registered b' (Function.update held b o b')) ops) :
    Sat (kernel os arrives short) (fun _ _ => True) (fun _ _ => True)
      (reapWrite b bs.length x)
      (fun y u => ∃ held', Armed y held' u ∧ Turn arrives short x held t y held' u)
      ((t.write x.state.fileFd (DataPlane.overwrite f
        (x.state.chunkOffset + hdr.fragIndex.toNat * UDP_PAYLOAD_SIZE) bs)).ring t.sq l) := by
  have hwrites := h.writes
  have hrecvs := h.recvs
  have hwriting := tally_move writing held hb none
  simp only [hhdr, writing] at hwriting
  rw [reapWrite]
  split_ifs with hres
  · exact sat_raise.mpr ⟨trivial, trivial⟩
  refine Sat.andThen reclaim_sat fun r v hv =>
    sat_pure.mpr ⟨trivial, Function.update held b none, ?_⟩
  obtain ⟨rfl, q, m, rfl, hperm⟩ := hv
  refine ⟨⟨h.inside_update hb, hslot none _ hperm, ?_, ?_, h.remaining⟩, .stored hhdr hf hle hshort hbs⟩
  · change x.pendingWrites - 1 = _
    omega
  · change x.pendingRecvs + 1 + (x.pendingWrites - 1) = _
    omega

theorem index_small (hb : b < UDP_FRAG_BUFS) : b < 2 ^ 56 := by
  have hbufs : UDP_FRAG_BUFS = 32 := rfl
  omega

theorem recvRound_sat (h : Armed x held t) :
    Sat (kernel os arrives short) (fun _ _ => True) (fun _ _ => True) (recvRound x)
      (fun r u => r.elim
        (fun y => ∃ held', Armed y held' u ∧ Turn arrives short x held t y held' u)
        (fun n => x.state.fragRemaining = 0 ∧ x.pendingWrites = 0 ∧ n = x.pendingRecvs ∧ u = t)) t := by
  rw [recvRound]
  split_ifs with hmore
  · refine sat_ask_bind.mpr ⟨trivial, fun r v hv => ?_⟩
    rcases hv with ⟨rfl, rfl⟩ | ⟨a, sqe, c, res, hin, rfl, hdone⟩
    · exact sat_raise.mpr ⟨trivial, trivial⟩
    obtain ⟨b, hb, rfl, hslot⟩ := h.rearmed hin
    cases hheld : held b with
    | none =>
      rw [hheld] at hdone
      simp only [work, recvSqe, getTag_makeUserData _ (index_small hb),
        getIndex_makeUserData _ (index_small hb), if_true]
      rcases hdone with ⟨hres, rfl⟩ | ⟨d, hd, rfl, rfl⟩
      · rw [reapRecv, if_pos (by omega)]
        exact sat_raise.mpr ⟨trivial, trivial⟩
      · exact Sat.andThen (reapRecv_sat h hb hheld hd hslot) fun y u hu =>
          sat_pure.mpr ⟨trivial, hu⟩
    | some hdr =>
      rw [hheld] at hdone
      have htag : SqeTag.write.toByte ≠ SqeTag.recv.toByte := by decide
      simp only [work, writeSqe, getTag_makeUserData _ (index_small hb),
        getIndex_makeUserData _ (index_small hb), if_neg htag, if_true]
      rcases hdone with ⟨hres, rfl⟩ | ⟨f, bs, hf, hle, hshort, hbs, rfl, rfl⟩
      · rw [reapWrite, if_pos hres]
        exact sat_raise.mpr ⟨trivial, trivial⟩
      · exact Sat.andThen (reapWrite_sat (t := t) h hb hheld hf hle hshort hbs hslot) fun y u hu =>
          sat_pure.mpr ⟨trivial, hu⟩
  · refine sat_pure.mpr ⟨trivial, ?_, ?_, rfl, rfl⟩
    · omega
    · omega

theorem recvChunk_sat (J : Progress → Held → Store → Prop) {state : RecvState} {n : ℕ}
    (harmed : Armed ⟨state, 0, n⟩ held s) (hJ : J ⟨state, 0, n⟩ held s)
    (hturn : ∀ x held t y held' u, Armed x held t → J x held t →
      Turn arrives short x held t y held' u → J y held' u) :
    Sat (kernel os arrives short) (fun _ _ => True) (fun _ _ => True) (recvChunk state n)
      (fun r u => ∃ y held', Armed y held' u ∧ J y held' u ∧ y.state.fragRemaining = 0 ∧
        y.pendingWrites = 0 ∧ r = y.pendingRecvs) s := by
  apply Sat.round fun x t => ∃ held', Armed x held' t ∧ J x held' t
  · exact ⟨held, harmed, hJ⟩
  intro x t hx
  obtain ⟨held', harmed', hx⟩ := hx
  refine ⟨trivial, (recvRound_sat harmed').weaken fun r u hu => ?_⟩
  cases r with
  | inl y =>
    obtain ⟨held'', harmed'', hu⟩ := hu
    exact ⟨held'', harmed'', hturn _ _ _ _ _ _ harmed' hx hu⟩
  | inr n =>
    obtain ⟨hremaining, hwrites, hn, rfl⟩ := hu
    exact ⟨trivial, x, held', harmed', hx, hremaining, hwrites, hn⟩

def Waiting (t : Store) : Prop := Covers UDP_FRAG_BUFS recvSqe (t.sq ++ t.inflight)

theorem Waiting.armed (h : Waiting t) (fd : Path) (offset len k : ℕ) :
    Armed ⟨recvState fd offset len k, 0, UDP_FRAG_BUFS⟩ (fun _ => none) t := by
  refine ⟨fun b hb => absurd rfl hb, h, ?_, rfl, ?_⟩
  · exact (tally_const 0 fun _ _ => rfl).symm
  · have hall : tally (fragCount (chunkLenAt len k)) missing (fun _ => false) =
        fragCount (chunkLenAt len k) * 1 := tally_const 1 fun _ _ => rfl
    rw [Nat.mul_one] at hall
    exact hall.symm

theorem Armed.idle (h : Armed x held t) (hwrites : x.pendingWrites = 0) : held = fun _ => none := by
  funext b
  by_contra hb
  have hle : writing (held b) ≤ tally UDP_FRAG_BUFS writing held := le_tally (h.inside b hb)
  rw [← h.writes, hwrites] at hle
  cases hheld : held b with
  | none => exact hb hheld
  | some hdr =>
    rw [hheld, writing] at hle
    omega

theorem Armed.waiting (h : Armed x held t) (hwrites : x.pendingWrites = 0) :
    Waiting t ∧ x.pendingRecvs = UDP_FRAG_BUFS := by
  have hops := h.ops
  rw [h.idle hwrites] at hops
  have hrecvs := h.recvs
  rw [hwrites] at hrecvs
  exact ⟨hops, hrecvs⟩

theorem Armed.complete (h : Armed x held t) (hremaining : x.state.fragRemaining = 0) {i : ℕ}
    (hi : i < x.state.fragCount) : x.state.received i = true := by
  by_contra hnew
  have hpos := h.remains hi (Bool.eq_false_of_not_eq_true hnew)
  omega

theorem submitRecvs_sat {E : Env Udp} (is : List ℕ) :
    Sat E (fun _ _ => True) (fun _ _ => True) (submitRecvs is)
      (fun _ u => Adds (is.map recvSqe) t u) t := by
  induction is generalizing t with
  | nil => exact sat_pure.mpr ⟨trivial, t.sq, t.inflight, rfl, .refl _⟩
  | cons i is ih =>
    refine Sat.andThen (submitRecv_sat trivial trivial fun _ => trivial) fun _ v hv =>
      ih.weaken fun _ u hu => ?_
    subst hv
    obtain ⟨q, m, rfl, hperm⟩ := (prepare_adds t _).trans hu
    refine ⟨q, m, rfl, hperm.trans ?_⟩
    exact List.Perm.append_right _ (List.perm_append_singleton _ _)

theorem Adds.waiting (h : Adds ((List.range UDP_FRAG_BUFS).map recvSqe) t u)
    (hsq : t.sq = []) (hinflight : t.inflight = []) : Waiting u := by
  obtain ⟨q, m, rfl, hperm⟩ := h
  rw [hsq, hinflight, List.append_nil, List.append_nil] at hperm
  exact hperm

theorem control_sat {α : Type} {I : Option System.Op → World → Prop} {X : Exc → World → Prop}
    {p : Prog System.Os α} {Q : α → World → Prop} {P : Store → Prop} (h : Sat os I X p Q s.os)
    (hP : ∀ o w, I o w → P { s with os := w }) :
    Sat (kernel os arrives short) (fun _ => P) (fun _ => P) (p.embed control)
      (fun a t => ∃ w, Q a w ∧ t = { s with os := w }) s := by
  have hanswers : control.Answers os (kernel os arrives short) := fun _ _ _ _ h => h
  refine (Sat.embed control hanswers h.ends).mono (fun _ _ _ _ hr => hr) ?_ ?_ ?_
  · intro o t ht
    obtain ⟨⟨o', -, ho'⟩, hframe⟩ := ht
    have ht' : t = { s with os := t.os } := hframe
    rw [ht']
    exact hP o' t.os ho'
  · intro e t ht
    obtain ⟨⟨e', -, hpoint, -⟩, hframe⟩ := ht
    have ht' : t = { s with os := t.os } := hframe
    rw [ht']
    exact hP none t.os hpoint
  · intro a t ht
    exact ⟨t.os, ht.1.2, ht.2⟩

def recvCold : Prog Udp Unit := do
  submitRecvs (List.range UDP_FRAG_BUFS)
  ioUringSubmit
  (sendExact tcp [1]).embed control

theorem recvFile_eq (fd : Path) (offset len : ℕ) : recvFile fd offset len = (do
    recvCold
    .repeatUntil (recvNext fd offset len) (0, UDP_FRAG_BUFS)) := by
  simp only [recvFile, recvCold, bind_assoc]

end Embr.UdpTransport
