import Embr.LatchedEgress
import Embr.StreamBytes
import Embr.Lib.Trace

/-!
# The two egress modes

The same datagrams with the same outcomes, once as the copies of a ring whose
SEND_ZC are all refused, once over the socket.
-/

open Octets Interact
namespace Embr.ZcEgress

def Copying (outcome : ℕ → Option ℕ) : (o : Op) → State → o.Reply → State → Prop
  | .submit, _, r, _ => ¬ (r < 0 ∧ r ≠ -EINTR ∧ r ≠ -EAGAIN)
  | .send slot _, s, r, t =>
    match outcome (s.ring.owner slot) with
    | none => r.isSome
    | some e => r = none ∧ t.errno = e
  | _, _, _, _ => True

def Refusals (s : State) : Prop := ∀ c ∈ s.ring.cq, c.notif = false → refused c.res

def copying (entries : ℕ) (outcome : ℕ → Option ℕ) : Env Zc := fun o s r t =>
  kernel entries o s r t ∧ Refusals t ∧ Copying outcome o s r t

def Phase.Refusal (errno : ℕ) : Phase → Prop
  | .held c => c.notif = false → refused c.res
  | .lost _ => errno ≠ 0
  | _ => True

def Phase.Fatal (errno : ℕ) : Phase → Prop
  | .lost _ => fatal errno
  | _ => False

structure Judged (slots entries : ℕ) (outcome : ℕ → Option ℕ) (slot : Option ℕ) (ph : Phase)
    (s : State) : Prop where
  accounted : Accounted slots entries slot ph s
  refusals : Refusals s
  hand : ph.Refusal s.errno
  told : ∀ k < s.ring.queued.length, outcome k ∈ s.ring.copies ∨ k ∈ (s.owed ph).map s.ring.owner
  only : ∀ x ∈ s.ring.copies, ∃ k < s.ring.queued.length, x = outcome k
  err : s.err ≠ 0 ∨ ph.Fatal s.errno ↔ ∃ e, some e ∈ s.ring.copies ∧ fatal e

section judged
variable {entries slotSize slots n : ℕ} {outcome : ℕ → Option ℕ} {slot : Option ℕ} {ph ph' : Phase}
  {s t : State} {c : Cqe} {E F : Env Zc} {K : Option ℕ → Phase → State → Prop}

theorem Invariant.mono (h : Invariant E slotSize slots K) (hF : ∀ o s r t, F o s r t → E o s r t) :
    Invariant F slotSize slots K where
  reserved := h.reserved
  errno := h.errno
  fill := h.fill
  ring ho hr := h.ring ho (hF _ _ _ _ hr)
  head hr := h.head (hF _ _ _ _ hr)
  waited hr := h.waited (hF _ _ _ _ hr)
  submitFailed hr := h.submitFailed (hF _ _ _ _ hr)
  full hr := h.full (hF _ _ _ _ hr)
  seen := h.seen
  notified := h.notified
  unsupported := h.unsupported
  fellBack := h.fellBack
  copied hr := h.copied (hF _ _ _ _ hr)
  lost hr := h.lost (hF _ _ _ _ hr)
  copyLost := h.copyLost
  failed := h.failed
  sent := h.sent
  clear := h.clear
  more := h.more
  reserve := h.reserve
  enqueue := h.enqueue
  setup ho hr := h.setup ho (hF _ _ _ _ hr)
  built := h.built

theorem owed_eq (ph : Phase) (s : State) : s.owed ph = s.owed .idle ++ ph.uncopied := by
  simp [State.owed, Phase.uncopied]

theorem Sent.owner_lt {i : ℕ} (h : Sent ph s) (hi : i ∈ s.owed ph) :
    s.ring.owner i < s.ring.queued.length := by
  have hwire := h.wire (s.entry i)
  have hcount : 0 < ((s.owed ph).map s.entry).count (s.entry i) :=
    List.count_pos_iff.mpr (List.mem_map_of_mem hi)
  have hmem : s.entry i ∈ s.ring.queued := List.count_pos_iff.mp (by omega)
  have hfst : s.ring.owner i ∈ s.ring.queued.map Prod.fst := List.mem_map.mpr ⟨_, hmem, rfl⟩
  rw [h.numbered] at hfst
  exact List.mem_range.mp hfst

namespace Judged

theorem carry {slot' : Option ℕ} (h : Judged slots entries outcome slot ph s)
    (ha : Accounted slots entries slot' ph' t) (hring : t.ring = s.ring) (hhand : ph'.Refusal t.errno)
    (howed : ph.uncopied ⊆ ph'.uncopied)
    (herr : t.err ≠ 0 ∨ ph'.Fatal t.errno ↔ s.err ≠ 0 ∨ ph.Fatal s.errno) :
    Judged slots entries outcome slot' ph' t := by
  refine ⟨ha, ?_, hhand, ?_, ?_, ?_⟩
  · rw [Refusals, hring]
    exact h.refusals
  · rw [hring]
    intro k hk
    refine (h.told k hk).imp_right fun hmem => ?_
    have hsub : s.owed ph ⊆ t.owed ph' := by
      rw [State.owed, State.owed, hring]
      exact List.append_subset.mpr ⟨List.subset_append_left _ _,
        fun _ hi => List.mem_append_right _ (howed hi)⟩
    exact List.map_subset _ hsub hmem
  · rw [hring]
    exact h.only
  · rw [herr, hring]
    exact h.err

theorem refused_of_head (h : Judged slots entries outcome slot .idle s)
    (hc : s.ring.cq.head? = some c) : c.notif = false → refused c.res :=
  h.refusals c (List.mem_of_head? hc)

theorem seen (h : Judged slots entries outcome slot .idle s) (hc : s.ring.cq.head? = some c)
    (ha : Accounted slots entries slot (.held c) s.seen) :
    Judged slots entries outcome slot (.held c) s.seen := by
  obtain ⟨rest, hcq⟩ := List.head?_eq_some_iff.mp hc
  refine ⟨ha, ?_, h.refused_of_head hc, ?_, h.only, h.err⟩
  · intro d hd
    exact h.refusals d (List.mem_of_mem_tail hd)
  · intro k hk
    refine (h.told k hk).imp_right fun hmem => ?_
    obtain ⟨i, hi, rfl⟩ := List.mem_map.mp hmem
    refine List.mem_map.mpr ⟨i, ?_, rfl⟩
    simp only [State.owed, State.seen, hcq, List.tail_cons, Phase.uncopied, List.filter_cons,
      List.append_nil, List.mem_append] at hi ⊢
    split_ifs at hi ⊢
    · simp only [List.map_cons, List.mem_cons] at hi ⊢
      tauto
    · tauto

theorem copied {o : Option ℕ} (h : Judged slots entries outcome slot (.copying c) s)
    (ha : Accounted slots entries slot ph t) (hcopies : t.ring.copies = s.ring.copies ++ [o])
    (ho : o = outcome (s.ring.owner c.slot)) (hcq : t.ring.cq = s.ring.cq)
    (hqueued : t.ring.queued = s.ring.queued) (howner : t.ring.owner = s.ring.owner)
    (howed : t.owed .idle = s.owed .idle) (hhand : ph.Refusal t.errno)
    (herr : t.err ≠ 0 ∨ ph.Fatal t.errno ↔ ∃ e, some e ∈ t.ring.copies ∧ fatal e) :
    Judged slots entries outcome slot ph t := by
  have hlt : s.ring.owner c.slot < s.ring.queued.length := by
    apply h.accounted.sent.owner_lt
    rw [owed_eq]
    exact List.mem_append_right _ (List.mem_singleton_self _)
  refine ⟨ha, ?_, hhand, ?_, ?_, herr⟩
  · rw [Refusals, hcq]
    exact h.refusals
  · rw [hqueued, hcopies, howner, owed_eq, howed]
    intro k hk
    rcases h.told k hk with hmem | hmem
    · exact .inl (List.mem_append_left _ hmem)
    · rw [owed_eq, List.map_append] at hmem
      rcases List.mem_append.mp hmem with hmem | hmem
      · rw [List.map_append]
        exact .inr (List.mem_append_left _ hmem)
      · rw [Phase.uncopied, List.map_singleton, List.mem_singleton] at hmem
        subst hmem
        rw [← ho]
        exact .inl (List.mem_append_right _ (List.mem_singleton_self _))
  · rw [hcopies, hqueued]
    intro x hx
    rcases List.mem_append.mp hx with hx | hx
    · exact h.only x hx
    · rw [List.mem_singleton.mp hx]
      exact ⟨_, hlt, ho⟩

theorem moves (h : Judged slots entries outcome slot .idle s) (hm : Moves s t)
    (ht : Refusals t) (ha : Accounted slots entries slot .idle t) :
    Judged slots entries outcome slot .idle t := by
  cases hm with
  | @complete a b q res more sent hq hsent =>
    have hres : refused res := ht ⟨q.slot, res, more, false⟩ (by simp) rfl
    refine ⟨ha, ht, trivial, ?_, h.only, h.err⟩
    intro k hk
    refine (h.told k hk).imp_right fun hmem => ?_
    obtain ⟨i, hi, rfl⟩ := List.mem_map.mp hmem
    refine List.mem_map.mpr ⟨i, ?_, rfl⟩
    simp only [State.owed, hq, List.mem_append, List.map_append, List.map_cons, List.mem_cons,
      List.filter_append, Cqe.isRefused, List.filter_cons, List.filter_nil, Bool.not_false,
      Bool.true_and, hres, decide_true, if_true, List.map_nil] at hi ⊢
    tauto
  | @notify a b i res hi =>
    refine ⟨ha, ht, trivial, ?_, h.only, h.err⟩
    intro k hk
    simpa [State.owed, Cqe.isRefused] using h.told k hk

end Judged

theorem Moves.refusals (hm : Moves s t) (ht : Refusals t) : Refusals s := by
  intro c hc
  apply ht
  cases hm with
  | complete _ _ _ _ _ => exact List.mem_append_left _ hc
  | notify _ _ => exact List.mem_append_left _ hc

theorem Accounted.idles (h : Accounted slots entries slot .idle s) (hm : Idles s t) :
    Accounted slots entries slot .idle t :=
  h.onRing (o := .waitCqeTimeout) (r := ()) trivial hm

theorem Judged.idles (h : Judged slots entries outcome slot .idle s) (hm : Idles s t)
    (ht : Refusals t) : Judged slots entries outcome slot .idle t := by
  induction hm with
  | refl => exact h
  | @tail u v hu hs ih =>
    have hj := ih (hs.refusals ht)
    exact hj.moves hs ht (hj.accounted.idles (.single hs))

theorem Judged.onRing (h : Judged slots entries outcome slot .idle s) {o : Op} {r : o.Reply}
    (ho : o.onRing) (hr : copying entries outcome o s r t) :
    Judged slots entries outcome slot .idle t := by
  obtain ⟨hk, ht, -⟩ := hr
  cases o with
  | getSqe => exact h.idles hk.1 ht
  | waitCqe => exact h.idles hk.1 ht
  | peekCqe => exact h.idles hk.1 ht
  | waitCqeTimeout => exact h.idles hk ht
  | now =>
    have heq : t = s := hk
    rw [heq]
    exact h
  | submit =>
    have ha := h.accounted.onRing ho hk
    obtain ⟨v, hidle, hcases⟩ := hk
    rcases hcases with ⟨-, rfl⟩ | ⟨k, -, -, -, rfl⟩
    · exact h.idles hidle ht
    · have hv := h.idles hidle ht
      refine ⟨ha, ht, trivial, ?_, hv.only, hv.err⟩
      intro j hj
      refine (hv.told j hj).imp_right fun hmem => ?_
      have hsplit := List.take_append_drop k v.ring.sq
      obtain ⟨i, hi, rfl⟩ := List.mem_map.mp hmem
      refine List.mem_map.mpr ⟨i, ?_, rfl⟩
      rw [State.owed, ← hsplit] at hi
      simp only [State.owed, List.map_append, List.mem_append] at hi ⊢
      tauto
  | queueInit n => exact ho.elim
  | registerBuffers => exact ho.elim
  | send slot buf => exact ho.elim

theorem Judged.enqueue {i : ℕ} (h : Judged slots entries outcome (some i) .idle s)
    (ha : Accounted slots entries none .idle (s.enqueue i n)) :
    Judged slots entries outcome none .idle (s.enqueue i n) := by
  have hidle : i ∉ s.ring.pending := h.accounted.tracked.idle_of_reserved h.accounted.ordered
  refine ⟨ha, h.refusals, trivial, ?_, ?_, ?_⟩
  · intro k hk
    have hlen : (s.enqueue i n).ring.queued.length = s.ring.queued.length + 1 := by
      simp [State.enqueue]
    have howed : ∀ j, j ∈ s.owed .idle ∨ j = i → j ∈ (s.enqueue i n).owed .idle := by
      intro j hj
      simp only [State.owed, State.enqueue, List.map_append, List.map_cons, List.map_nil,
        List.mem_append, List.mem_singleton] at hj ⊢
      tauto
    rcases Nat.lt_succ_iff_lt_or_eq.mp (hlen ▸ hk) with hk | rfl
    · refine (h.told k hk).imp_right fun hmem => ?_
      obtain ⟨j, hj, rfl⟩ := List.mem_map.mp hmem
      have hne : j ≠ i := by
        intro hji
        subst hji
        exact hidle (mem_pending_of_owed rfl hj)
      exact List.mem_map.mpr ⟨j, howed j (.inl hj), Function.update_of_ne hne _ _⟩
    · exact .inr (List.mem_map.mpr ⟨i, howed i (.inr rfl), Function.update_self _ _ _⟩)
  · intro x hx
    obtain ⟨k, hk, hxk⟩ := h.only x hx
    refine ⟨k, ?_, hxk⟩
    simp only [State.enqueue, List.length_append, List.length_singleton]
    omega
  · have herr := h.err
    simpa [State.enqueue, Phase.Fatal] using herr

theorem judged_rules (slotSize slots entries : ℕ) (hentries : slots ≤ entries)
    (outcome : ℕ → Option ℕ) :
    Invariant (copying entries outcome) slotSize slots (Judged slots entries outcome) := by
  have hrules := (accounted_rules slotSize slots entries).mono
    (F := copying entries outcome) fun _ _ _ _ hr => hr.1
  exact {
    built := by
      refine ⟨hrules.built, by rintro _ ⟨⟩, trivial, by rintro _ ⟨⟩, by rintro _ ⟨⟩, ?_⟩
      simp [ZcEgress.built, members, Phase.Fatal]
    setup := hrules.setup
    reserved := fun h => h.accounted.tracked.reserved
    errno := fun h e => h.carry (hrules.errno h.accounted e) rfl trivial (List.Subset.refl _) Iff.rfl
    fill := fun h bs =>
      h.carry (hrules.fill h.accounted bs) rfl trivial (List.Subset.refl _) Iff.rfl
    ring := fun ho hr h => h.onRing ho hr
    head := hrules.head
    waited := hrules.waited
    submitFailed := fun hr hneg hi ha _ => (hr.2.2 ⟨hneg, hi, ha⟩).elim
    full := by
      intro s t i hr h
      have hlt := h.accounted.tracked.queued_lt
      have hfull := hr.1.2 rfl
      omega
    seen := fun hc h => h.seen hc (hrules.seen hc h.accounted)
    notified := by
      intro s slot c hn h
      refine h.carry (hrules.notified hn h.accounted) (clear_ring _ _) trivial ?_ ?_
      · simp [Phase.uncopied, Cqe.isRefused, hn]
      · simp [State.notified, Phase.Fatal]
    unsupported := fun hn h =>
      h.carry (hrules.unsupported hn h.accounted) rfl h.hand (List.Subset.refl _) Iff.rfl
    fellBack := by
      intro s slot c hn hr h
      refine h.carry (hrules.fellBack hn hr h.accounted) rfl trivial ?_ Iff.rfl
      rw [Phase.uncopied]
      split_ifs <;> simp [Phase.uncopied]
    copied := by
      intro s t slot c n hr h
      have ha := hrules.copied hr h.accounted
      obtain ⟨hk, -, ho⟩ := hr
      rcases hk with ⟨-, rfl⟩ | ⟨hnone, -⟩
      · have houtcome : none = outcome (s.ring.owner c.slot) := by
          simp only [Copying] at ho
          split at ho
          · exact Eq.symm ‹_›
          · cases ho.1
        refine h.copied ha rfl houtcome rfl rfl rfl rfl trivial ?_
        have herr := h.err
        simpa [Phase.Fatal] using herr
      · cases hnone
    lost := by
      intro s t slot c hr h
      have ha := hrules.lost hr h.accounted
      obtain ⟨hk, -, ho⟩ := hr
      rcases hk with ⟨hsome, -⟩ | ⟨-, e, he, rfl⟩
      · cases hsome
      · have houtcome : some e = outcome (s.ring.owner c.slot) := by
          simp only [Copying] at ho
          split at ho
          · cases ho
          · rw [ho.2]
            exact Eq.symm ‹_›
        refine h.copied ha rfl houtcome rfl rfl rfl rfl he ?_
        have herr := h.err
        simp only [Phase.Fatal, or_false] at herr
        change s.err ≠ 0 ∨ fatal e ↔ _
        rw [herr]
        simp [or_and_right, exists_or]
    copyLost := by
      intro s slot c h
      refine h.carry (hrules.copyLost h.accounted) (copyLost_kept s).1 trivial
        (List.Subset.refl _) ?_
      have hne : s.errno ≠ 0 := h.hand
      change s.copyLost.err ≠ 0 ∨ False ↔ s.err ≠ 0 ∨ fatal s.errno
      rw [State.copyLost, or_false]
      split_ifs with hfatal
      · rw [State.latch]
        split_ifs <;> simp [*]
      · simp [hfatal]
    failed := fun hn hr _ h => (hr (h.hand hn)).elim
    sent := fun hn hr _ h => (hr (h.hand hn)).elim
    clear := by
      intro s slot c hn hmore h
      refine h.carry (hrules.clear hn hmore h.accounted) (clear_ring _ _) trivial
        (List.Subset.refl _) ?_
      simp [Phase.Fatal]
    more := fun hn hmore h =>
      h.carry (hrules.more hn hmore h.accounted) rfl trivial (List.Subset.refl _) Iff.rfl
    reserve := fun hf h =>
      h.carry (hrules.reserve hf h.accounted) rfl trivial (List.Subset.refl _) Iff.rfl
    enqueue := fun hpos hle h => h.enqueue (hrules.enqueue hpos hle h.accounted) }

end judged

theorem Judged.err_iff {slots entries : ℕ} {outcome : ℕ → Option ℕ} {slot : Option ℕ} {s : State}
    (h : Judged slots entries outcome slot .idle s) (hreaped : s.ring.pending = []) :
    s.err ≠ 0 ↔ ∃ k < s.ring.queued.length, ∃ e, outcome k = some e ∧ fatal e := by
  have herr := h.err
  simp only [Phase.Fatal, or_false] at herr
  rw [herr]
  constructor
  · intro hcopy
    obtain ⟨e, he, hfatal⟩ := hcopy
    obtain ⟨k, hk, houtcome⟩ := h.only _ he
    exact ⟨k, hk, e, houtcome.symm, hfatal⟩
  · intro hcopy
    obtain ⟨k, hk, e, houtcome, hfatal⟩ := hcopy
    refine ⟨e, ?_, hfatal⟩
    rcases h.told k hk with hmem | hmem
    · rw [← houtcome]
      exact hmem
    · obtain ⟨i, hi, -⟩ := List.mem_map.mp hmem
      have hpending : i ∈ s.ring.pending := mem_pending_of_owed (rfl : Phase.idle.uncopied = []) hi
      rw [hreaped] at hpending
      cases hpending

end Embr.ZcEgress

namespace Embr.QuicTransport
open ZcEgress (State copying fatal)

/-- The datagrams one after another, each assembled in `packet_buf_`. -/
def sendEach : List Bytes → Prog Quic (List SendResult)
  | [] => pure []
  | d :: ds => do
    .modify fun s => { s with packetBuf := d }
    let r ← sendPacket d.length
    let rs ← sendEach ds
    pure (r :: rs)

/-- What the kernel made of a datagram. -/
def outcomeOf : Label Quic → Option ℕ
  | ⟨.sendmsg _, none, t⟩ => some t.errno
  | _ => none

def SendResult.of : Option ℕ → SendResult
  | none => .ok
  | some e => if e = EAGAIN ∨ e = EWOULDBLOCK then .blocked else .failed

section modes
variable {entries : ℕ} {s t : Store} {l : List (Label Quic)}

theorem sendPacket_socket {n : ℕ} {r : SendResult} (hzc : s.zc = false)
    (h : Trace (world entries) (sendPacket n) s l (.ret r) t) :
    t.zc = false ∧ ∃ a, l = [a] ∧ r = .of (outcomeOf a) := by
  have h := h.of_get
  rw [if_neg (by simp [hzc])] at h
  obtain ⟨reply, u, l', rfl, hsent, h⟩ := h.of_ask
  rcases hsent with ⟨rfl, rfl⟩ | ⟨rfl, e, rfl⟩
  · obtain ⟨rfl, rfl, rfl⟩ := h.of_pure
    exact ⟨hzc, _, rfl, rfl⟩
  · have h := h.of_get
    by_cases hblocked : e = EAGAIN ∨ e = EWOULDBLOCK
    · rw [if_pos hblocked] at h
      obtain ⟨rfl, rfl, rfl⟩ := h.of_pure
      exact ⟨hzc, _, rfl, (if_pos hblocked).symm⟩
    · rw [if_neg hblocked] at h
      obtain ⟨rfl, rfl, rfl⟩ := h.of_pure
      exact ⟨hzc, _, rfl, (if_neg hblocked).symm⟩

theorem sendEach_socket {ds : List Bytes} {rs : List SendResult} (hzc : s.zc = false)
    (h : Trace (world entries) (sendEach ds) s l (.ret rs) t) :
    rs = (l.map outcomeOf).map .of := by
  induction ds generalizing s l rs with
  | nil =>
    obtain ⟨rfl, rfl, rfl⟩ := h.of_pure
    rfl
  | cons d ds ih =>
    obtain ⟨r, u, l₁, l₂, rfl, hsend, h⟩ := h.of_modify.of_bind
    obtain ⟨hzc, a, rfl, rfl⟩ := sendPacket_socket (s := { s with packetBuf := d }) hzc hsend
    obtain ⟨rs', v, l₃, l₄, rfl, hrest, h⟩ := h.of_bind
    obtain ⟨rfl, rfl, rfl⟩ := h.of_pure
    rw [ih hzc hrest, List.append_nil]
    rfl

/-- The socket fails the connection on more outcomes than the ring does: on a send
that found no buffers or no memory. -/
theorem egress_modes_agree {slotSize slots ringEntries : ℕ} (hentries : slots ≤ ringEntries)
    {outcome : ℕ → Option ℕ} {z : State} {rs : List SendResult}
    (hz : ZcEgress.Used (copying ringEntries outcome) slotSize slots z)
    (hreaped : z.ring.pending = []) (hzc : s.zc = false)
    (hrun : Trace (world entries) (sendEach (z.ring.queued.map Prod.snd)) s l (.ret rs) t)
    (hsame : l.map outcomeOf = (List.range z.ring.queued.length).map outcome) :
    (z.err ≠ 0 ↔ .failed ∈ rs) ↔
      (∀ k < z.ring.queued.length, outcome k ≠ some ENOBUFS ∧ outcome k ≠ some ENOMEM) ∨
      ∃ k < z.ring.queued.length, ∃ e, outcome k = some e ∧ fatal e := by
  obtain ⟨slot, hjudged⟩ := (ZcEgress.judged_rules slotSize slots ringEntries hentries outcome).used hz
  have hfailed : .failed ∈ rs ↔
      ∃ k < z.ring.queued.length, ∃ e, outcome k = some e ∧ e ≠ EAGAIN := by
    rw [sendEach_socket hzc hrun, hsame]
    simp only [List.mem_map, List.mem_range]
    constructor
    · intro hmem
      obtain ⟨_, ⟨k, hk, rfl⟩, ho⟩ := hmem
      cases houtcome : outcome k with
      | none =>
        rw [houtcome] at ho
        cases ho
      | some e =>
        refine ⟨k, hk, e, houtcome, ?_⟩
        intro heq
        rw [houtcome, SendResult.of, if_pos (.inl heq)] at ho
        cases ho
    · intro hmem
      obtain ⟨k, hk, e, houtcome, hne⟩ := hmem
      refine ⟨_, ⟨k, hk, rfl⟩, ?_⟩
      have hsoft : ¬ (e = EAGAIN ∨ e = EWOULDBLOCK) := fun hor => hne (or_self_iff.mp hor)
      rw [houtcome, SendResult.of, if_neg hsoft]
  rw [hjudged.err_iff hreaped, hfailed]
  constructor
  · intro hagree
    by_cases hfatal : ∃ k < z.ring.queued.length, ∃ e, outcome k = some e ∧ fatal e
    · exact .inr hfatal
    · refine .inl fun k hk => ⟨fun ho => ?_, fun ho => ?_⟩
      · exact hfatal (hagree.mpr ⟨k, hk, ENOBUFS, ho, by decide⟩)
      · exact hfatal (hagree.mpr ⟨k, hk, ENOMEM, ho, by decide⟩)
  · intro hmeets
    constructor
    · intro hfatal
      obtain ⟨k, hk, e, ho, hfatal⟩ := hfatal
      exact ⟨k, hk, e, ho, hfatal.1⟩
    · intro hfailed
      rcases hmeets with hmeets | hfatal
      · obtain ⟨k, hk, e, ho, hne⟩ := hfailed
        refine ⟨k, hk, e, ho, hne, ?_, ?_⟩
        · intro heq
          subst heq
          exact (hmeets k hk).1 ho
        · intro heq
          subst heq
          exact (hmeets k hk).2 ho
      · exact hfatal

end modes

def letterRing : State := ZcEgress.built 0 1 true

def letterFilled : State :=
  { letterRing with reserved := some 0, free := [] }.fill 0 [104]

def letterQueued : State := letterFilled.enqueue 0 1

def letterRefused : State := { letterQueued with
  ring := { letterQueued.ring with
    sq := []
    reaped := [⟨0, -(ENOBUFS : ℤ), false, false⟩] } }

def letterCopied (e : ℕ) : State :=
  { letterRefused.fellBack with
    errno := e
    ring := { letterRefused.ring with copies := [some e] } }

theorem letter_queued {entries : ℕ} {outcome : ℕ → Option ℕ} :
    ZcEgress.Used (copying entries outcome) 1 1 letterQueued := by
  have hbuilt : Trace (copying entries outcome) (ZcEgress.construct 1 1) (ZcEgress.members 0 1)
      [⟨.queueInit 2, (0 : ℤ), ZcEgress.members 0 1⟩, ⟨.registerBuffers, (0 : ℤ), ZcEgress.members 0 1⟩]
      (.ret ()) letterRing :=
    .act (.call ⟨rfl, nofun, trivial⟩ (.call ⟨rfl, nofun, trivial⟩ (.act .done)))
  have hreserve : Trace (copying entries outcome) (ZcEgress.Call.run 1 1 .reserve) letterRing []
      (.ret (.slot (some 0))) { letterRing with reserved := some 0, free := [] } :=
    .loop (.act (.act .done))
  have hfill : Trace (copying entries outcome) (ZcEgress.Call.run 1 1 (.fill [104]))
      { letterRing with reserved := some 0, free := [] } [] (.ret .done) letterFilled := .act .done
  have hcommit : Trace (copying entries outcome) (ZcEgress.Call.run 1 1 (.commit 1)) letterFilled
      [⟨.getSqe, true, letterFilled⟩] (.ret (.committed true)) letterQueued :=
    .act (.call ⟨⟨.refl, nofun⟩, nofun, trivial⟩ (.act .done))
  have hstart : ZcEgress.Used (copying entries outcome) 1 1 letterRing := .start ⟨_, hbuilt.reaches⟩
  have hreserved := hstart.next ⟨_, rfl⟩ hreserve.reaches trivial
  have hfilled := hreserved.next ⟨_, rfl⟩ hfill.reaches trivial
  exact hfilled.next ⟨_, rfl⟩ hcommit.reaches trivial

def letterReaped (e : ℕ) : State := (letterCopied e).copyLost.clear 0

theorem letterReaped_ring (e : ℕ) : (letterReaped e).ring = (letterCopied e).ring := by
  rw [letterReaped, ZcEgress.clear_ring, (ZcEgress.copyLost_kept _).1]

theorem letter_reaped {e : ℕ} (he : e ≠ 0) :
    ZcEgress.Used (copying 2 fun _ => some e) 1 1 (letterReaped e) := by
  have hsubmitted : copying 2 (fun _ => some e) .submit letterQueued (1 : ℤ)
      { letterQueued with ring := { letterQueued.ring with
        sq := [], submitted := letterQueued.ring.sq } } :=
    ⟨⟨_, .refl, .inr ⟨1, by decide, by decide, rfl, rfl⟩⟩, nofun, fun hneg => absurd hneg.1 (by decide)⟩
  have hcompleted : copying 2 (fun _ => some e) .peekCqe
      { letterQueued with ring := { letterQueued.ring with
        sq := [], submitted := letterQueued.ring.sq } } (some ⟨0, -(ENOBUFS : ℤ), false, false⟩)
      { letterQueued with ring := { letterQueued.ring with
        sq := [], cq := [⟨0, -(ENOBUFS : ℤ), false, false⟩] } } := by
    refine ⟨⟨.single ?_, rfl⟩, ?_, trivial⟩
    · exact .complete (a := []) (b := []) (q := ⟨0, 1, true, 0⟩) (-(ENOBUFS : ℤ)) false [] rfl (.inl rfl)
    · intro c hc _
      rw [List.mem_singleton.mp hc]
      decide
  have hcopied : copying 2 (fun _ => some e) (.send 0 [104]) letterRefused.fellBack none
      (letterCopied e) := ⟨.inr ⟨rfl, e, he, rfl⟩, nofun, rfl, rfl⟩
  have hring := letterReaped_ring e
  have hnone : copying 2 (fun _ => some e) .peekCqe (letterReaped e) none (letterReaped e) := by
    refine ⟨⟨.refl, ?_⟩, ?_, trivial⟩
    · rw [hring]
      rfl
    · rw [ZcEgress.Refusals, hring]
      exact nofun
  have hflush : Trace (copying 2 fun _ => some e) (ZcEgress.Call.run 1 1 .flush) letterQueued _
      (.ret .done) (letterReaped e) :=
    .loop (.act (.call hsubmitted (.loop (.act (.call hcompleted (.loop (.act (.act (.act
      (.call hcopied (.act (.act (.call hnone (.loop .done))))))))))))))
  exact letter_queued.next ⟨_, rfl⟩ hflush.reaches trivial

def letterOffered (e : ℕ) : Store := { opened with packetBuf := [104], errno := e }

theorem letter_unsent {e : ℕ} : world 128 (.sendmsg [104]) { opened with packetBuf := [104] } none
    (letterOffered e) := .inr ⟨rfl, e, rfl⟩

/-- No buffers: the ring lets the letter go, the socket fails the connection. -/
theorem egress_modes_differ : ∃ z rs l t,
    ZcEgress.Used (copying 2 fun _ => some ENOBUFS) 1 1 z ∧ z.ring.pending = [] ∧
    Trace (world 128) (sendEach (z.ring.queued.map Prod.snd)) opened l (.ret rs) t ∧
    l.map outcomeOf = (List.range z.ring.queued.length).map (fun _ => some ENOBUFS) ∧
    z.err = 0 ∧ .failed ∈ rs := by
  have hsent : Trace (world 128) (sendEach [[104]]) opened
      [⟨Op.sendmsg [104], none, letterOffered ENOBUFS⟩] (.ret [.failed]) (letterOffered ENOBUFS) :=
    .act (.act (.call letter_unsent (.act .done)))
  exact ⟨letterReaped ENOBUFS, [.failed], _, _, letter_reaped (by decide), rfl, hsent, rfl, rfl,
    List.mem_singleton_self _⟩

/-- A refused connection fails both. -/
theorem egress_modes_agree_refused : ∃ z rs l t,
    ZcEgress.Used (copying 2 fun _ => some ECONNREFUSED) 1 1 z ∧
    Trace (world 128) (sendEach (z.ring.queued.map Prod.snd)) opened l (.ret rs) t ∧
    (z.err ≠ 0 ↔ .failed ∈ rs) ∧ .failed ∈ rs := by
  have hsent : Trace (world 128) (sendEach [[104]]) opened
      [⟨Op.sendmsg [104], none, letterOffered ECONNREFUSED⟩] (.ret [.failed])
      (letterOffered ECONNREFUSED) :=
    .act (.act (.call letter_unsent (.act .done)))
  have hagree := egress_modes_agree (by decide : 1 ≤ 2)
    (letter_reaped (e := ECONNREFUSED) (by decide)) rfl rfl hsent rfl
  exact ⟨letterReaped ECONNREFUSED, [.failed], _, _, letter_reaped (by decide), hsent,
    hagree.mpr (.inr ⟨0, by decide, ECONNREFUSED, rfl, by decide⟩), List.mem_singleton_self _⟩

end Embr.QuicTransport
