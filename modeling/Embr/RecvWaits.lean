import Embr.LateDuplicates

/-!
# Where a receiver waits

On a kernel that takes all it is given, `recv_file` waits only with work in the
kernel. Requests are submitted at two thresholds; `Batched` is what these leave in
the ring, and with `Armed` it says what every wait finds.
-/

open Octets Interact Slots
open Embr.System (World)
open Workers (tally exists_of_tally)
namespace Embr.UdpTransport

/-- The fragment buffer that a request is for. -/
def Request.uses : Request → Option ℕ
  | .recv fragBuf _ => some fragBuf
  | .write _ fragBuf _ _ _ _ => some fragBuf
  | _ => none

def Request.receives : Request → Bool
  | .recv _ _ => true
  | _ => false

def Request.writes : Request → Bool
  | .write _ _ _ _ _ _ => true
  | _ => false

/-- The fragment buffers of the requests outstanding. -/
def Store.uses (t : Store) : List ℕ := (t.sq ++ t.inflight).filterMap fun sqe => sqe.request.uses

structure Batched (x : Progress) (t : Store) : Prop where
  recvs : UDP_FRAG_BUFS / 2 ≤ x.pendingRecvs → ∀ sqe ∈ t.sq, sqe.request.receives = false
  writes : x.state.fragRemaining = 0 → ∀ sqe ∈ t.sq, sqe.request.writes = false

structure Counted (x : Progress) : Prop where
  pending : x.pendingWrites + x.state.fragRemaining ≤ x.state.fragCount
  most : x.state.fragCount ≤ MAX_FRAGS_PER_CHUNK

structure AtWait (x : Progress) (t : Store) : Prop where
  each : t.uses.Perm (List.range UDP_FRAG_BUFS)
  only : ∀ sqe ∈ t.sq ++ t.inflight, sqe.request.receives = true ∨ sqe.request.writes = true
  counters : x.pendingRecvs + x.pendingWrites = UDP_FRAG_BUFS
  recvs : UDP_FRAG_BUFS / 2 ≤ x.pendingRecvs → ∀ sqe ∈ t.sq, sqe.request.receives = false
  early : 0 < x.state.fragRemaining → UDP_FRAG_BUFS / 2 ≤ x.pendingRecvs
  busy : t.inflight ≠ []
  writes : x.state.fragRemaining = 0 → ∀ sqe ∈ t.sq, sqe.request.writes = false

structure Free (b : ℕ) (t : Store) : Prop where
  nodup : t.uses.Nodup
  unused : b ∉ t.uses

variable {os : Env System.Os} {arrives : Store → Bytes → Prop} {short : Prop} {x y : Progress}
  {held held' : Held} {s t u v : Store} {b n : ℕ}

theorem Adds.uses {sqes : List Sqe} (h : Adds sqes t u) :
    u.uses.Perm (sqes.filterMap (fun sqe => sqe.request.uses) ++ t.uses) := by
  obtain ⟨q, m, rfl, hperm⟩ := h
  rw [Store.uses, Store.uses, ← List.filterMap_append]
  exact hperm.filterMap _

theorem uses_cons {sqe : Sqe} (h : sqe.request.uses = some b) (l : List Sqe) :
    (sqe :: l).filterMap (fun sqe => sqe.request.uses) =
      b :: l.filterMap fun sqe => sqe.request.uses := by
  simp [h]

theorem uses_prepare {sqe : Sqe} (h : sqe.request.uses = some b) :
    (t.prepare sqe).uses.Perm (b :: t.uses) := by
  have hmoved : ((t.sq ++ [sqe]) ++ t.inflight).Perm (sqe :: (t.sq ++ t.inflight)) := by
    rw [List.append_assoc]
    exact List.perm_middle
  have hall := hmoved.filterMap fun sqe => sqe.request.uses
  rwa [uses_cons h] at hall

theorem Free.prepare {sqe : Sqe} (h : Free b t) (hsqe : sqe.request.uses = some b) :
    (t.prepare sqe).uses.Nodup :=
  (uses_prepare hsqe).nodup_iff.mpr (List.nodup_cons.mpr ⟨h.unused, h.nodup⟩)

theorem work_uses (state : RecvState) (fixed : Bool) (b : ℕ) (o : Option FragHdr) :
    (work state fixed b o).request.uses = some b := by
  cases o <;> rfl

theorem Armed.uses (h : Armed x held t) : t.uses.Perm (List.range UDP_FRAG_BUFS) := by
  have hall := h.ops.filterMap fun sqe => sqe.request.uses
  have hmap : ((List.range UDP_FRAG_BUFS).map fun b => work x.state t.registered b (held b)).filterMap
      (fun sqe => sqe.request.uses) = List.range UDP_FRAG_BUFS := by
    simp [List.filterMap_map, work_uses]
  rwa [hmap] at hall

theorem Armed.nodup (h : Armed x held t) : t.uses.Nodup :=
  h.uses.nodup_iff.mpr List.nodup_range

theorem Armed.free {a c : List Sqe} {sqe : Sqe} (h : Armed x held t)
    (hin : t.inflight = a ++ sqe :: c) (hsqe : sqe.request.uses = some b) (hsq : v.sq = t.sq)
    (hinflight : v.inflight = a ++ c) : Free b v := by
  have hfront : (sqe :: (v.sq ++ v.inflight)).Perm (t.sq ++ t.inflight) := by
    rw [hin, hsq, hinflight, ← List.append_assoc, ← List.append_assoc]
    exact List.perm_middle.symm
  have hall := hfront.filterMap fun sqe => sqe.request.uses
  rw [uses_cons hsqe] at hall
  obtain ⟨hunused, hnodup⟩ := List.nodup_cons.mp (hall.nodup_iff.mpr h.nodup)
  exact ⟨hnodup, hunused⟩

def Calm (o : Option Op) (t : Store) : Prop := t.uses.Nodup ∧ o ≠ some .waitCqe

theorem calm_none (h : t.uses.Nodup) : Calm none t := ⟨h, nofun⟩

theorem batched_nil (h : t.sq = []) : Batched x t := by
  constructor <;> simp [h]

theorem Batched.recv (h : Batched x t) (hfew : ¬ UDP_FRAG_BUFS / 2 ≤ n) :
    Batched ⟨x.state, x.pendingWrites, n⟩ (t.prepare (recvSqe b)) := by
  refine ⟨fun hmany => absurd hmany hfew, fun hdone sqe hsqe => ?_⟩
  rcases List.mem_append.mp hsqe with hold | hnew
  · exact h.writes hdone sqe hold
  · rw [List.mem_singleton.mp hnew]
    rfl

theorem submitAll_sat (h : t.uses.Nodup) :
    Sat (taking os arrives short) Calm (fun _ _ => True) ioUringSubmit
      (fun _ u => u.sq = [] ∧ Adds [] t u) t := by
  refine sat_ask_bind.mpr ⟨⟨h, nofun⟩, fun r v hv => ?_⟩
  obtain ⟨hsubmit, hall⟩ := hv
  have hadds : Adds [] t v := by
    have hkernel : Sat (kernel os arrives short) (fun _ _ => True) (fun _ _ => True) ioUringSubmit
        (fun _ u => Adds [] t u) t := submit_sat fun _ _ => trivial
    exact ((sat_ask_bind.mp hkernel).2 r v hsubmit).2
  exact sat_pure.mpr ⟨calm_none (hadds.uses.nodup_iff.mpr h), hall rfl, hadds⟩

theorem threshold_sat {c : Prop} [Decidable c] (h : t.uses.Nodup) :
    Sat (taking os arrives short) Calm (fun _ _ => True) (.when c ioUringSubmit)
      (fun _ u => u.uses.Nodup ∧ (u.sq = [] ∨ ¬ c ∧ u = t)) t := by
  apply Sat.when
  · exact fun _ => (submitAll_sat h).weaken fun _ u hu =>
      ⟨hu.2.uses.nodup_iff.mpr h, Or.inl hu.1⟩
  · exact fun hc => ⟨calm_none h, h, Or.inr ⟨hc, rfl⟩⟩

theorem reclaim_calm (h : Free b t) :
    Sat (taking os arrives short) Calm (fun _ _ => True) (reclaim b n)
      (fun r u => r = n + 1 ∧ u.uses.Nodup ∧
        (u.sq = [] ∨ ¬ UDP_FRAG_BUFS / 2 ≤ n + 1 ∧ u = t.prepare (recvSqe b))) t := by
  have hnext : (t.prepare (recvSqe b)).uses.Nodup := h.prepare rfl
  refine Sat.andThen (submitRecv_sat (calm_none h.nodup) (calm_none hnext) fun _ => trivial)
    fun _ v hv => ?_
  subst hv
  refine Sat.andThen (threshold_sat hnext) fun _ w hw => ?_
  exact sat_pure.mpr ⟨calm_none hw.1, rfl, hw.1, hw.2⟩

theorem reapRecv_calm {res : ℤ} (hfree : Free b t) (h : Batched x t) :
    Sat (taking os arrives short) Calm (fun _ _ => True) (reapRecv b res x)
      (fun y u => u.uses.Nodup ∧ Batched y u) t := by
  have hcalm := calm_none hfree.nodup
  rw [reapRecv]
  split_ifs
  · exact sat_raise.mpr ⟨hcalm, trivial⟩
  refine Sat.andThen (processFragment_sat hcalm (fun hdr => calm_none (hfree.prepare rfl))
    fun _ => trivial) fun r v hv => ?_
  rcases hv with ⟨rfl, rfl, -⟩ | ⟨hdr, -, rfl, rfl⟩
  · simp only [Bool.false_eq_true, if_false]
    refine Sat.andThen (reclaim_calm hfree) fun r u hu => ?_
    obtain ⟨rfl, hnodup, hu⟩ := hu
    refine sat_pure.mpr ⟨calm_none hnodup, hnodup, ?_⟩
    rcases hu with hall | ⟨hfew, rfl⟩
    · exact batched_nil hall
    · exact h.recv hfew
  · simp only [if_true]
    have hnext : (t.prepare (writeSqe x.state b hdr t.registered)).uses.Nodup := hfree.prepare rfl
    refine Sat.andThen (threshold_sat hnext) fun _ u hu => ?_
    obtain ⟨hnodup, hu⟩ := hu
    refine sat_pure.mpr ⟨calm_none hnodup, hnodup, ?_⟩
    rcases hu with hall | ⟨hfew, rfl⟩
    · exact batched_nil hall
    · refine ⟨fun hmany sqe hsqe => ?_, fun hdone => absurd (Or.inr hdone) hfew⟩
      rcases List.mem_append.mp hsqe with hold | hnew
      · exact h.recvs (Nat.le_trans hmany (Nat.sub_le _ _)) sqe hold
      · rw [List.mem_singleton.mp hnew]
        rfl

theorem reapWrite_calm {res : ℤ} (hfree : Free b t) (h : Batched x t) :
    Sat (taking os arrives short) Calm (fun _ _ => True) (reapWrite b res x)
      (fun y u => u.uses.Nodup ∧ Batched y u) t := by
  rw [reapWrite]
  split_ifs
  · exact sat_raise.mpr ⟨calm_none hfree.nodup, trivial⟩
  refine Sat.andThen (reclaim_calm hfree) fun r u hu => ?_
  obtain ⟨rfl, hnodup, hu⟩ := hu
  refine sat_pure.mpr ⟨calm_none hnodup, hnodup, ?_⟩
  rcases hu with hall | ⟨hfew, rfl⟩
  · exact batched_nil hall
  · have hkept := h.recv (b := b) hfew
    exact ⟨hkept.recvs, hkept.writes⟩

theorem completes_ring {request : Request} {res : ℤ} (h : completes arrives short request res s t) :
    t.sq = s.sq ∧ t.inflight = s.inflight := by
  cases request with
  | read fd chunkBuf len offset fixed =>
    rcases h with ⟨-, rfl⟩ | ⟨f, k, -, -, -, -, -, rfl⟩ <;> exact ⟨rfl, rfl⟩
  | sendmsg slot => rcases h with ⟨-, rfl⟩ | ⟨-, rfl⟩ <;> exact ⟨rfl, rfl⟩
  | recv fragBuf len => rcases h with ⟨-, rfl⟩ | ⟨d, -, -, rfl⟩ <;> exact ⟨rfl, rfl⟩
  | write fd fragBuf pos len offset fixed =>
    rcases h with ⟨-, rfl⟩ | ⟨f, bs, -, -, -, -, -, rfl⟩ <;> exact ⟨rfl, rfl⟩

theorem recvRound_calm (harmed : Armed x held t) (h : Batched x t) :
    Sat (taking os arrives short)
      (fun o u => u.uses.Nodup ∧
        (o = some .waitCqe → u = t ∧ (0 < x.state.fragRemaining ∨ 0 < x.pendingWrites)))
      (fun _ _ => True) (recvRound x)
      (fun r u => r.elim (fun y => Batched y u) fun _ => True) t := by
  have hnodup := harmed.nodup
  have hafter : ∀ (o : Option Op) (u : Store), Calm o u → u.uses.Nodup ∧
      (o = some .waitCqe → u = t ∧ (0 < x.state.fragRemaining ∨ 0 < x.pendingWrites)) :=
    fun o u hu => ⟨hu.1, fun ho => absurd ho hu.2⟩
  rw [recvRound]
  split_ifs with hmore
  · refine sat_ask_bind.mpr ⟨⟨hnodup, fun _ => ⟨rfl, hmore⟩⟩, fun r v hv => ?_⟩
    rcases hv.1 with ⟨rfl, rfl⟩ | ⟨a, sqe, c, res, hin, rfl, hdone⟩
    · exact sat_raise.mpr ⟨hafter none v (calm_none hnodup), trivial⟩
    obtain ⟨b, hb, rfl, -⟩ := harmed.rearmed hin
    obtain ⟨hsq, hinflight⟩ := completes_ring hdone
    have hfree := harmed.free hin (work_uses _ _ _ _) hsq hinflight
    have hbatched : Batched x v := by
      constructor
      · rw [hsq]
        exact h.recvs
      · rw [hsq]
        exact h.writes
    cases hheld : held b with
    | none =>
      simp only [work, recvSqe, getTag_makeUserData _ (index_small hb),
        getIndex_makeUserData _ (index_small hb), if_true]
      refine Sat.seq (reapRecv_calm hfree hbatched) hafter fun y u hu => ?_
      exact sat_pure.mpr ⟨hafter none u (calm_none hu.1), hu.2⟩
    | some hdr =>
      have htag : SqeTag.write.toByte ≠ SqeTag.recv.toByte := by decide
      simp only [work, writeSqe, getTag_makeUserData _ (index_small hb),
        getIndex_makeUserData _ (index_small hb), if_neg htag, if_true]
      refine Sat.seq (reapWrite_calm hfree hbatched) hafter fun y u hu => ?_
      exact sat_pure.mpr ⟨hafter none u (calm_none hu.1), hu.2⟩
  · exact sat_pure.mpr ⟨hafter none t (calm_none hnodup), trivial⟩

theorem Counted.start (fd : Path) (offset len k n : ℕ) : Counted ⟨recvState fd offset len k, 0, n⟩ :=
  ⟨le_of_eq (Nat.zero_add _), (fragCount_eq (chunkLenAt_le len k)).2⟩

theorem Turn.counted (harmed : Armed x held t) (h : Counted x)
    (hturn : Turn arrives short x held t y held' u) : Counted y := by
  have hpending := h.pending
  cases hturn with
  | again => exact h
  | landed _ _ _ _ hindex hnew =>
    have hremains := harmed.remains hindex hnew
    refine ⟨?_, h.most⟩
    simp only [RecvState.mark]
    omega
  | stored =>
    refine ⟨?_, h.most⟩
    change x.pendingWrites - 1 + x.state.fragRemaining ≤ x.state.fragCount
    omega

structure Steady (x : Progress) (t : Store) : Prop where
  armed : ∃ held, Armed x held t
  batched : Batched x t
  counted : Counted x

structure Settled (n : ℕ) (t : Store) : Prop where
  all : n = UDP_FRAG_BUFS
  sq : t.sq = []
  waiting : Waiting t

theorem Settled.steady (h : Settled n t) (fd : Path) (offset len k : ℕ) :
    Steady ⟨recvState fd offset len k, 0, n⟩ t := by
  rw [h.all]
  exact ⟨⟨_, h.waiting.armed fd offset len k⟩, batched_nil h.sq, .start fd offset len k _⟩

theorem Steady.settled (h : Steady x t) (hwrites : x.pendingWrites = 0) :
    Settled x.pendingRecvs t := by
  obtain ⟨held, harmed⟩ := h.armed
  obtain ⟨hwaiting, hall⟩ := harmed.waiting hwrites
  refine ⟨hall, List.eq_nil_iff_forall_not_mem.mpr fun sqe hsqe => ?_, hwaiting⟩
  have hnone : sqe.request.receives = false := h.batched.recvs (by rw [hall]; decide) sqe hsqe
  have hmem : sqe ∈ (List.range UDP_FRAG_BUFS).map recvSqe :=
    (List.Perm.mem_iff hwaiting).mp (List.mem_append_left _ hsqe)
  obtain ⟨b, -, rfl⟩ := List.mem_map.mp hmem
  cases hnone

theorem Steady.round_sat (h : Steady x t) :
    Sat (taking os arrives short)
      (fun o u => u.uses.Nodup ∧
        (o = some .waitCqe → u = t ∧ (0 < x.state.fragRemaining ∨ 0 < x.pendingWrites)))
      (fun _ _ => True) (recvRound x)
      (fun r u => r.elim (fun y => Steady y u) fun n => Settled n u) t := by
  obtain ⟨held, harmed⟩ := h.armed
  have hturn : Sat (taking os arrives short) _ _ (recvRound x) _ t :=
    (recvRound_sat harmed).env fun _ _ _ _ hr => hr.1
  refine (hturn.and (recvRound_calm harmed h.batched)).mono (fun _ _ _ _ hr => hr)
    (fun _ _ hI => hI.2) (fun _ _ _ => trivial) fun r u hu => ?_
  cases r with
  | inl y =>
    obtain ⟨⟨held', harmed', hturn⟩, hbatched⟩ := hu
    exact ⟨⟨held', harmed'⟩, hbatched, hturn.counted harmed h.counted⟩
  | inr n =>
    obtain ⟨⟨-, hwrites, rfl, rfl⟩, -⟩ := hu
    exact h.settled hwrites

theorem Armed.some_write (h : Armed x held t) (hsome : 0 < x.pendingWrites) :
    ∃ b hdr, writeSqe x.state b hdr t.registered ∈ t.sq ++ t.inflight := by
  have hwrites := h.writes
  have hnot : tally UDP_FRAG_BUFS writing held ≠ UDP_FRAG_BUFS * 0 := by omega
  obtain ⟨b, hb, hheld⟩ := exists_of_tally hnot
  have hmem := h.ops.mem hb
  cases hcase : held b with
  | none =>
    rw [hcase] at hheld
    exact absurd rfl hheld
  | some hdr =>
    rw [hcase] at hmem
    exact ⟨b, hdr, hmem⟩

theorem Armed.some_recv (h : Armed x held t) (hsome : 0 < x.pendingRecvs) :
    ∃ b, recvSqe b ∈ t.sq ++ t.inflight := by
  have hwrites := h.writes
  have hrecvs := h.recvs
  have hnot : tally UDP_FRAG_BUFS writing held ≠ UDP_FRAG_BUFS * 1 := by omega
  obtain ⟨b, hb, hheld⟩ := exists_of_tally hnot
  have hmem := h.ops.mem hb
  cases hcase : held b with
  | none =>
    rw [hcase] at hmem
    exact ⟨b, hmem⟩
  | some hdr =>
    rw [hcase] at hheld
    exact absurd rfl hheld

theorem Steady.waits (h : Steady x t) : AtWait x t := by
  obtain ⟨held, harmed⟩ := h.armed
  have hbufs : UDP_FRAG_BUFS = 32 := rfl
  have hmax : MAX_FRAGS_PER_CHUNK = 17 := by decide
  have hrecvs := harmed.recvs
  have hpending := h.counted.pending
  have hmost := h.counted.most
  refine ⟨harmed.uses, fun sqe hsqe => ?_, hrecvs, h.batched.recvs, fun hrest => by omega, ?_,
    h.batched.writes⟩
  · obtain ⟨b, -, rfl⟩ := List.mem_map.mp ((List.Perm.mem_iff harmed.ops).mp hsqe)
    cases held b with
    | none => exact Or.inl rfl
    | some hdr => exact Or.inr rfl
  · intro hidle
    by_cases hmany : UDP_FRAG_BUFS / 2 ≤ x.pendingRecvs
    · obtain ⟨b, hmem⟩ := harmed.some_recv (by omega)
      rw [hidle, List.append_nil] at hmem
      cases h.batched.recvs hmany _ hmem
    · obtain ⟨b, hdr, hmem⟩ := harmed.some_write (by omega)
      rw [hidle, List.append_nil] at hmem
      cases h.batched.writes (by omega) _ hmem

section starts
variable (E : Env Udp) (fd : Path) (offset len : ℕ) (s : Store)

def ChunkStarts (k n : ℕ) (t : Store) : Prop :=
  k < chunkCount len ∧ ∃ u, Reaches E (recvCold, s) (.ret (), u) ∧
    Rounds E (recvNext fd offset len) (0, UDP_FRAG_BUFS) u (k, n) t

/-- As it waits in that loop. -/
def WaitsIn (k : ℕ) (x : Progress) (t : Store) : Prop :=
  ∃ n u, ChunkStarts E fd offset len s k n u ∧
    Rounds E recvRound ⟨recvState fd offset len k, 0, n⟩ u x t ∧
    (0 < x.state.fragRemaining ∨ 0 < x.pendingWrites)

end starts

section run
variable {E : Env Udp} {fd : Path} {offset len k : ℕ}

theorem WaitsIn.reaches (h : WaitsIn E fd offset len s k x t) :
    ∃ rest : Progress ⊕ ℕ → Prog Udp Unit, Reaches E (recvFile fd offset len, s)
      ((recvRound x).bind rest, t) ∧ ((recvRound x).bind rest).head = some .waitCqe := by
  obtain ⟨n, u, ⟨hk, v, hcold, hchunks⟩, hrounds, hmore⟩ := h
  have hnext : recvNext fd offset len (k, n) =
      (Prog.loop recvRound ⟨recvState fd offset len k, 0, n⟩ .ret).bind fun n =>
        (sendAck k).bind fun _ => .ret (.inl (k + 1, n)) := by
    rw [recvNext, if_pos hk]
    rfl
  have henter := (hcold.andThen fun _ => .repeatUntil (recvNext fd offset len) (0, UDP_FRAG_BUFS)).trans
    (hchunks.enters .ret)
  rw [hnext, Prog.bind_assoc, Prog.bind] at henter
  have hinside := henter.trans (hrounds.enters _)
  have hwaits : ∀ rest : Progress ⊕ ℕ → Prog Udp Unit,
      ((recvRound x).bind rest).head = some .waitCqe := by
    intro rest
    rw [recvRound, if_pos hmore]
    rfl
  rw [recvFile_eq]
  exact ⟨_, hinside, hwaits _⟩

def Spot (E : Env Udp) (fd : Path) (offset len : ℕ) (s : Store) (o : Option Op) (u : Store) : Prop :=
  u.uses.Nodup ∧ (o = some .waitCqe → ∃ k x, WaitsIn E fd offset len s k x u)

theorem Calm.spot {o : Option Op} (h : Calm o u) : Spot E fd offset len s o u :=
  ⟨h.1, fun ho => absurd ho h.2⟩

end run

section sats
variable {fd : Path} {offset len k : ℕ} {feed : World → Bytes}

theorem submitRecvs_calm (is : List ℕ) (h : (is ++ t.uses).Nodup) :
    Sat (taking os arrives short) Calm (fun _ _ => True) (submitRecvs is)
      (fun _ u => Adds (is.map recvSqe) t u) t := by
  have hcalm : Sat (taking os arrives short) Calm (fun _ _ => True) (submitRecvs is)
      (fun _ _ => True) t := by
    induction is generalizing t with
    | nil => exact sat_pure.mpr ⟨calm_none h, trivial⟩
    | cons i is ih =>
      rw [List.cons_append] at h
      obtain ⟨hnew, hrest⟩ := List.nodup_cons.mp h
      have hfree : Free i t := ⟨hrest.of_append_right, fun hmem => hnew (List.mem_append_right _ hmem)⟩
      have hnext : (t.prepare (recvSqe i)).uses.Nodup := hfree.prepare rfl
      refine Sat.andThen (submitRecv_sat (calm_none hfree.nodup) (calm_none hnext)
        fun _ => trivial) fun _ v hv => ?_
      subst hv
      have hused : (t.prepare (recvSqe i)).uses.Perm (i :: t.uses) := uses_prepare rfl
      have hmoved : (is ++ (t.prepare (recvSqe i)).uses).Perm (i :: (is ++ t.uses)) :=
        (hused.append_left is).trans List.perm_middle
      exact ih (hmoved.nodup_iff.mpr h)
  exact (hcalm.and (submitRecvs_sat is)).mono (fun _ _ _ _ hr => hr) (fun _ _ hI => hI.1)
    (fun _ _ _ => trivial) fun _ _ hu => hu.2

theorem control_calm {α : Type} {p : Prog System.Os α} (h : t.uses.Nodup) :
    Sat (taking os arrives short) Calm (fun _ _ => True) (p.embed control)
      (fun _ u => ∃ w, u = { t with os := w }) t := by
  have hanswers : control.Answers os (taking os arrives short) := fun _ _ _ _ h => h.1
  refine (Sat.embed control hanswers (Sat.top p t.os)).mono (fun _ _ _ _ hr => hr) ?_
    (fun _ _ _ => trivial) fun _ u hu => ⟨u.os, hu.2⟩
  intro o u hu
  obtain ⟨⟨o', rfl, -⟩, hframe⟩ := hu
  have hsame : u = { t with os := u.os } := hframe
  rw [hsame]
  refine ⟨h, ?_⟩
  cases o' <;> simp [control]

theorem recvCold_calm (hsq : s.sq = []) (hinflight : s.inflight = []) :
    Sat (taking os arrives short) Calm (fun _ _ => True) recvCold
      (fun _ u => Settled UDP_FRAG_BUFS u) s := by
  have hunused : s.uses = [] := by
    rw [Store.uses, hsq, hinflight]
    rfl
  have hall : (List.range UDP_FRAG_BUFS ++ s.uses).Nodup := by
    rw [hunused, List.append_nil]
    exact List.nodup_range
  refine Sat.andThen (submitRecvs_calm _ hall) fun _ t ht => ?_
  have hcovers : Waiting t := ht.waiting hsq hinflight
  have hnodup : t.uses.Nodup := (hcovers.armed [] 0 0 0).nodup
  refine Sat.andThen (submitAll_sat hnodup) fun _ u hu => ?_
  obtain ⟨hnone, hadds⟩ := hu
  refine (control_calm (hadds.uses.nodup_iff.mpr hnodup)).weaken fun _ v hv => ?_
  obtain ⟨w, rfl⟩ := hv
  obtain ⟨q, m, rfl, hperm⟩ := hadds
  exact ⟨rfl, hnone, hcovers.perm hperm⟩

theorem Settled.nodup (h : Settled n t) : t.uses.Nodup :=
  (h.waiting.armed [] 0 0 0).nodup

theorem Settled.control (h : Settled n t) (w : World) : Settled n { t with os := w } :=
  ⟨h.all, h.sq, h.waiting⟩

theorem recvChunk_spots
    (hstart : ChunkStarts (taking os arrives short) fd offset len s k n t)
    (h : Settled n t) :
    Sat (taking os arrives short)
      (Spot (taking os arrives short) fd offset len s) (fun _ _ => True)
      (recvChunk (recvState fd offset len k) n) (fun n' u => Settled n' u) t := by
  apply Sat.rounds fun x u => Steady x u
  · exact h.steady fd offset len k
  intro x u hrounds hx
  obtain ⟨held, harmed⟩ := hx.armed
  refine ⟨⟨harmed.nodup, nofun⟩, hx.round_sat.mono (fun _ _ _ _ hr => hr) ?_
    (fun _ _ _ => trivial) fun r v hv => ?_⟩
  · intro o v hv
    refine ⟨hv.1, fun ho => ?_⟩
    obtain ⟨rfl, hmore⟩ := hv.2 ho
    exact ⟨k, x, n, t, hstart, hrounds, hmore⟩
  · cases r with
    | inl y => exact hv
    | inr n' => exact ⟨⟨hv.nodup, nofun⟩, hv⟩

theorem recvNext_spots (hcold : Reaches (taking os arrives short) (recvCold, s) (.ret (), u))
    (hrounds : Rounds (taking os arrives short) (recvNext fd offset len)
      (0, UDP_FRAG_BUFS) u (k, n) t) (h : Settled n t) :
    Sat (taking os arrives short)
      (Spot (taking os arrives short) fd offset len s) (fun _ _ => True)
      (recvNext fd offset len (k, n))
      (fun r u => r.elim (fun p => Settled p.2 u) fun _ => u.uses.Nodup) t := by
  rw [recvNext]
  split_ifs with hk
  · refine Sat.andThen (recvChunk_spots ⟨hk, u, hcold, hrounds⟩ h) fun n' v hv => ?_
    refine Sat.seq (control_calm hv.nodup) (fun _ _ => Calm.spot) fun _ w hw => ?_
    obtain ⟨world, rfl⟩ := hw
    exact sat_pure.mpr ⟨⟨hv.nodup, by rintro ⟨⟩⟩, hv.control world⟩
  · exact sat_pure.mpr ⟨⟨h.nodup, by rintro ⟨⟩⟩, h.nodup⟩

theorem recvFile_spots (hsq : s.sq = []) (hinflight : s.inflight = []) :
    Sat (taking os arrives short)
      (Spot (taking os arrives short) fd offset len s) (fun _ _ => True)
      (recvFile fd offset len) (fun _ _ => True) s := by
  rw [recvFile_eq]
  refine Sat.seq (recvCold_calm hsq hinflight).reached (fun _ _ => Calm.spot) fun _ u hu => ?_
  obtain ⟨hsettled, hcold⟩ := hu
  apply Sat.rounds fun p t => Settled p.2 t
  · exact hsettled
  intro p t hrounds hp
  refine ⟨⟨hp.nodup, nofun⟩, (recvNext_spots hcold hrounds hp).weaken fun r v hv => ?_⟩
  cases r with
  | inl p' => exact hv
  | inr _ => exact ⟨⟨hv, nofun⟩, trivial⟩

theorem ChunkStarts.settled (hsq : s.sq = []) (hinflight : s.inflight = [])
    (h : ChunkStarts (taking os arrives short) fd offset len s k n t) : Settled n t := by
  obtain ⟨-, u, hcold, hrounds⟩ := h
  have hall : ∀ p t, Rounds (taking os arrives short) (recvNext fd offset len)
      (0, UDP_FRAG_BUFS) u p t → Settled p.2 t := by
    intro p t hrounds
    induction hrounds with
    | enter => exact (recvCold_calm hsq hinflight).returned hcold
    | next hbefore hround ih => exact (recvNext_spots hcold hbefore ih).returned hround
  exact hall (k, n) t hrounds

theorem WaitsIn.steady (hsq : s.sq = []) (hinflight : s.inflight = [])
    (h : WaitsIn (taking os arrives short) fd offset len s k x t) : Steady x t := by
  obtain ⟨n, u, hstart, hrounds, -⟩ := h
  refine hrounds.inv ((hstart.settled hsq hinflight).steady fd offset len k) ?_
  exact fun y v z w _ hy hround => hy.round_sat.returned hround

/-- Of a run of `recv_file` on a kernel that takes all that is submitted: what every wait finds, and
at every point that no buffer is in two requests, and that it waits nowhere else. -/
theorem recv_waits (hsq : s.sq = []) (hinflight : s.inflight = []) :
    (∀ k x t, WaitsIn (taking os arrives short) fd offset len s k x t → AtWait x t) ∧
    ∀ q t, Reaches (taking os arrives short) (recvFile fd offset len, s) (q, t) →
      t.uses.Nodup ∧ (q.head = some .waitCqe →
        ∃ k x, WaitsIn (taking os arrives short) fd offset len s k x t) :=
  ⟨fun _ _ _ hwait => (hwait.steady hsq hinflight).waits,
    fun _ _ hr => (recvFile_spots hsq hinflight).visited hr⟩

end sats

section duplicate
open LateDuplicates

theorem oneMore_first : fragCount (chunkLenAt (oneMore 1).length 0) = 17 := by
  rw [oneMore_length]
  decide

theorem duplicate_leads {t : Store} (hsq : t.sq = []) (hwaiting : Waiting t)
    (hout : t.os.out.length = 1) :
    Leads (eager (DataPlane.socket fun _ => []) (delivers (oneMore 1) 0)) recvRound
      ⟨recvState [97] 0 (oneMore 1).length 0, 0, UDP_FRAG_BUFS⟩
      (fun x u => recvSqe 31 ∈ u.sq ∧ (0 < x.state.fragRemaining ∨ 0 < x.pendingWrites)) t := by
  have hchunks : 0 < chunkCount (oneMore 1).length := by
    rw [oneMore_chunks]
    decide
  have hcount := oneMore_first
  have hds : ∀ w : World, w.out.length = 1 → ∀ i < 17,
      Deliverable (delivers (oneMore 1) 0) w i (datagram (oneMore 1) 0 i) := by
    intro w hw i hi
    exact deliverable ⟨hchunks, by omega⟩ (le_of_eq hw.symm)
  nth_rewrite 1 [recvState_inOrder]
  rw [hcount]
  refine arrivals_lead hcount (by decide) (hds t.os hout) (by decide) (hwaiting.arrived hsq)
    fun u hsq hu => ?_
  have hagain := hds u.os (by rw [hu.os, hout]) 0 (by decide)
  obtain ⟨l, r, hin⟩ := List.append_of_mem (hu.waits 31 (by decide) (by decide))
  have hindex := hagain.index u 31
  refine again_leads (Or.inr (by decide)) (by decide) hin (hagain.arrives _ rfl) hagain.whole
    (by rw [hindex]; exact Nat.lt_of_lt_of_eq (by decide) hcount.symm) (by rw [hindex]; decide)
    (by rw [hindex]; rfl) (by rw [hsq]; decide) (.here ⟨?_, Or.inr (by decide)⟩)
  rw [Store.flushed, if_neg (by decide)]
  exact List.mem_append_right _ (List.mem_singleton_self _)

theorem duplicate_waits : ∃ x t, WaitsIn (eager (DataPlane.socket fun _ => []) (delivers (oneMore 1) 0))
    [97] 0 (oneMore 1).length (.init empty false) 0 x t ∧ recvSqe 31 ∈ t.sq := by
  have hcold : Returns (eager (DataPlane.socket fun _ => []) (delivers (oneMore 1) 0)) recvCold _
      (.init empty false) := recvCold_returns rfl
  obtain ⟨_, t, hcold, ht⟩ := hcold
  have hready : t.sq = [] ∧ Waiting t ∧ t.os.out.length = 1 := by
    rw [ht]
    exact ⟨rfl, List.Perm.refl _, rfl⟩
  obtain ⟨x, u, hrounds, hmem, hmore⟩ := duplicate_leads hready.1 hready.2.1 hready.2.2
  have hchunks : 0 < chunkCount (oneMore 1).length := by
    rw [oneMore_chunks]
    decide
  exact ⟨x, u, ⟨_, _, ⟨hchunks, _, hcold, .enter⟩, hrounds, hmore⟩, hmem⟩

theorem recv_waits_duplicate : ∃ x t,
    WaitsIn (eager (DataPlane.socket fun _ => []) (delivers (oneMore 1) 0)) [97] 0 (oneMore 1).length
      (.init empty false) 0 x t ∧ AtWait x t := by
  obtain ⟨x, t, hwait, -⟩ := duplicate_waits
  exact ⟨x, t, hwait, (recv_waits rfl rfl).1 0 x t hwait⟩

theorem recv_left_unsubmitted :
    ¬ ∀ (os : Env System.Os) (arrives : Store → Bytes → Prop) (short : Prop) (fd : Path)
      (offset len k : ℕ) (s t : Store) (x : Progress), s.sq = [] → s.inflight = [] →
      WaitsIn (taking os arrives short) fd offset len s k x t →
      ∀ sqe ∈ t.sq, sqe.request.receives = false := by
  intro hall
  obtain ⟨x, t, hwait, hmem⟩ := duplicate_waits
  cases hall _ _ _ _ _ _ _ _ _ _ rfl rfl hwait _ hmem

end duplicate

end Embr.UdpTransport
