import Embr.SlotOwnership
import Mathlib.Data.List.Perm.Subperm

/-!
# What becomes of a datagram

The datagrams are numbered as they are committed. `Ordered` is what the ring
promises about a NOTIF, `Sent` follows each datagram from the submission queue
to the socket or to the copying send, and `Balanced` is the book `Stats` keeps.
-/

open Octets Interact
namespace Embr.ZcEgress

def Cqe.isSend (c : Cqe) : Bool := !c.notif

def Cqe.sendMore (c : Cqe) : Bool := !c.notif && c.more

def Cqe.isRefused (c : Cqe) : Bool := !c.notif && decide (refused c.res)

def Cqe.isFailed (c : Cqe) : Bool := !c.notif && !decide (refused c.res) && decide (c.res < 0)

/-- A send that went out. -/
def Cqe.isSent (c : Cqe) : Bool := !c.notif && !decide (refused c.res) && decide (0 ≤ c.res)

def fatalCopy : Option ℕ → Bool
  | some e => decide (fatal e)
  | none => false

/-- A copy that was lost on the way out. -/
def lostCopy : Option ℕ → Bool
  | some e => !decide (fatal e)
  | none => false

/-- The slots of the requests whose send completion has not been reaped. -/
def Ring.pending (r : Ring) : List ℕ :=
  r.sq.map Sqe.slot ++ r.submitted.map Sqe.slot ++ (r.cq.filter Cqe.isSend).map Cqe.slot

structure Ordered (s : State) : Prop where
  due : ∀ i, ((s.ring.cq.filter Cqe.sendMore).map Cqe.slot).count i ≤
    s.ring.notifDue.count i + ((s.ring.cq.filter Cqe.notif).map Cqe.slot).count i
  order : s.ring.cq.Pairwise fun c d => c.notif = true → d.notif = false → d.slot ≠ c.slot

def State.entry (s : State) (i : ℕ) : ℕ × Bytes := (s.ring.owner i, s.content i)

def Phase.uncopied : Phase → List ℕ
  | .held c => if c.isRefused then [c.slot] else []
  | .copying c => [c.slot]
  | _ => []

/-- The slots whose datagrams may still be put on the wire. -/
def State.owed (ph : Phase) (s : State) : List ℕ :=
  s.ring.sq.map Sqe.slot ++ s.ring.submitted.map Sqe.slot ++
    (s.ring.cq.filter Cqe.isRefused).map Cqe.slot ++ ph.uncopied

structure Sent (ph : Phase) (s : State) : Prop where
  sized : ∀ q ∈ s.ring.sq ++ s.ring.submitted,
    s.inflight.getD q.slot none = some q.size ∧ q.seq = s.ring.owner q.slot
  wire : ∀ x, s.ring.wire.count x + ((s.owed ph).map s.entry).count x ≤ s.ring.queued.count x
  numbered : s.ring.queued.map Prod.fst = List.range s.ring.queued.length

/-- The NOTIF, the copy and the error at hand that `Stats` does not show yet. -/
def Phase.notifs : Phase → ℕ
  | .held c => if c.notif then 1 else 0
  | _ => 0

def Phase.copies : Phase → ℕ
  | .held c => if c.isRefused then 1 else 0
  | .copying _ => 1
  | _ => 0

def Phase.errors (errno : ℕ) : Phase → ℕ
  | .held c => if c.isFailed then 1 else 0
  | .lost _ => if fatal errno then 1 else 0
  | _ => 0

structure Balanced (ph : Phase) (s : State) : Prop where
  sends : s.stats.sends = s.ring.reaped.countP Cqe.isSend + s.ring.cq.countP Cqe.isSend +
    s.ring.sq.length + s.ring.submitted.length
  queued : s.ring.queued.length = s.stats.sends
  notifs : s.stats.notifs + ph.notifs = s.ring.reaped.countP Cqe.notif
  due : s.ring.reaped.countP Cqe.notif + s.ring.cq.countP Cqe.notif + s.ring.notifDue.length =
    s.ring.reaped.countP Cqe.sendMore + s.ring.cq.countP Cqe.sendMore
  copied : s.stats.copied ≤ s.stats.notifs
  copies : s.ring.copies.length + ph.copies = s.ring.reaped.countP Cqe.isRefused
  errors : s.stats.errors + ph.errors s.errno =
    s.ring.reaped.countP Cqe.isFailed + s.ring.copies.countP fatalCopy

structure Accounted (slots entries : ℕ) (slot : Option ℕ) (ph : Phase) (s : State) : Prop where
  tracked : Tracked slots entries slot ph.unreleased s
  ordered : Ordered s
  sent : Sent ph s
  balanced : Balanced ph s

section ring
variable {slots entries : ℕ} {slot : Option ℕ} {held : List ℕ} {s t : State} {i n : ℕ}

@[simp] theorem clear_ring (s : State) (i : ℕ) : (s.clear i).ring = s.ring := by
  rw [State.clear]
  split <;> rfl

@[simp] theorem clear_stats (s : State) (i : ℕ) : (s.clear i).stats = s.stats := by
  rw [State.clear]
  split <;> rfl

@[simp] theorem clear_errno (s : State) (i : ℕ) : (s.clear i).errno = s.errno := by
  rw [State.clear]
  split <;> rfl

@[simp] theorem clear_slab (s : State) (i : ℕ) : (s.clear i).slab = s.slab := by
  rw [State.clear]
  split <;> rfl

theorem clear_inflight (s : State) {i j : ℕ} (h : j ≠ i) :
    (s.clear i).inflight.getD j none = s.inflight.getD j none := by
  rw [State.clear]
  split
  · simp [List.getD_eq_getElem?_getD, List.getElem?_set_ne (Ne.symm h)]
  · rfl

@[simp] theorem latch_ring (s : State) (e : ℕ) : (s.latch e).ring = s.ring := by
  rw [State.latch]
  split <;> rfl

@[simp] theorem latch_stats (s : State) (e : ℕ) : (s.latch e).stats = s.stats := by
  rw [State.latch]
  split <;> rfl

@[simp] theorem latch_slab (s : State) (e : ℕ) : (s.latch e).slab = s.slab := by
  rw [State.latch]
  split <;> rfl

@[simp] theorem latch_inflight (s : State) (e : ℕ) : (s.latch e).inflight = s.inflight := by
  rw [State.latch]
  split <;> rfl

theorem Ordered.pending_le (h : Ordered s) (i : ℕ) :
    s.ring.pending.count i ≤ s.ring.unreaped.count i := by
  have hdue := h.due i
  have hsplit : ∀ cq : List Cqe, ((cq.filter Cqe.isSend).map Cqe.slot).count i +
      ((cq.filter Cqe.notif).map Cqe.slot).count i =
      ((cq.filter Cqe.sendMore).map Cqe.slot).count i +
        ((cq.filter Cqe.final).map Cqe.slot).count i := by
    intro cq
    induction cq with
    | nil => rfl
    | cons c cq ih =>
      cases hn : c.notif <;> cases hm : c.more <;>
        simp only [Cqe.isSend, Cqe.sendMore, Cqe.final, hn, hm, List.filter_cons, List.map_cons,
          List.count_cons, Bool.not_true, Bool.not_false, Bool.and_true, Bool.and_false,
          Bool.or_true, Bool.or_false, Bool.false_eq_true, if_true, if_false] <;>
        omega
  have hcq := hsplit s.ring.cq
  simp only [Ring.pending, Ring.unreaped, List.count_append]
  omega

theorem Tracked.idle_of_held (h : Tracked slots entries slot [i] s) (ho : Ordered s) :
    i ∉ s.ring.pending := by
  intro hmem
  have hnodup : (s.ring.unreaped ++ [i]).Nodup := h.requests.nodup_iff.mpr (nodup_busy s)
  have hle := ho.pending_le i
  have hpos := List.count_pos_iff.mpr hmem
  have hone := List.nodup_iff_count_le_one.mp hnodup i
  simp only [List.count_append, List.count_singleton_self] at hone
  omega

theorem Tracked.idle_of_reserved (h : Tracked slots entries (some i) held s) (ho : Ordered s) :
    i ∉ s.ring.pending := by
  intro hmem
  have hle := ho.pending_le i
  have hpos := List.count_pos_iff.mpr hmem
  have hbusy : i ∈ s.busy := by
    rw [← h.requests.mem_iff, List.mem_append]
    exact .inl (List.count_pos_iff.mp (by omega))
  exact h.owned.reserved_idle h.reserved hbusy

theorem Ordered.moves (h : Ordered s) (ht : Tracked slots entries slot held s) (hm : Moves s t) :
    Ordered t := by
  cases hm with
  | @complete a b q res more sent hq hsent =>
    have hbusy : (s.ring.unreaped ++ held).Nodup := ht.requests.nodup_iff.mpr (nodup_busy s)
    constructor
    · intro i
      have hdue := h.due i
      cases more <;>
        simp only [Cqe.sendMore, List.filter_append, List.map_append, List.count_append,
          List.filter_cons, List.filter_nil, List.map_cons, List.map_nil, List.count_cons,
          List.count_nil, Bool.not_false, Bool.and_true, Bool.and_false, Bool.false_eq_true,
          if_true, if_false] at hdue ⊢ <;> omega
    · rw [List.pairwise_append]
      refine ⟨h.order, List.pairwise_singleton _ _, ?_⟩
      intro c hc d hd hnotif _ heq
      rw [List.mem_singleton.mp hd] at heq
      have hone := List.nodup_iff_count_le_one.mp hbusy q.slot
      have hcq : 0 < ((s.ring.cq.filter Cqe.final).map Cqe.slot).count q.slot := by
        apply List.count_pos_iff.mpr
        refine List.mem_map.mpr ⟨c, List.mem_filter.mpr ⟨hc, ?_⟩, heq.symm⟩
        simp [Cqe.final, hnotif]
      simp only [Ring.unreaped, hq, List.map_append, List.map_cons, List.count_append,
        List.count_cons_self] at hone
      omega
  | @notify a b i res hi =>
    constructor
    · intro j
      have hdue := h.due j
      simp only [hi, Cqe.sendMore, List.filter_append, List.map_append, List.count_append,
        List.filter_cons, List.filter_nil, List.map_cons, List.map_nil, List.count_cons,
        List.count_nil, Bool.not_true, Bool.false_and, Bool.false_eq_true, if_true,
        if_false] at hdue ⊢
      omega
    · rw [List.pairwise_append]
      refine ⟨h.order, List.pairwise_singleton _ _, ?_⟩
      intro c _ d hd _ hnotif
      rw [List.mem_singleton.mp hd] at hnotif
      cases hnotif

theorem Ordered.seen (h : Ordered s) {c : Cqe} (hc : s.ring.cq.head? = some c) :
    Ordered s.seen := by
  obtain ⟨rest, hcq⟩ := List.head?_eq_some_iff.mp hc
  have horder := h.order
  rw [hcq, List.pairwise_cons] at horder
  constructor
  · intro i
    have hdue := h.due i
    simp only [State.seen, hcq, List.tail_cons] at hdue ⊢
    cases hn : c.notif with
    | false =>
      simp only [List.filter_cons, hn, Bool.false_eq_true, if_false] at hdue
      split_ifs at hdue
      · simp only [List.map_cons, List.count_cons] at hdue
        omega
      · exact hdue
    | true =>
      by_cases hi : c.slot = i
      · -- no send of the slot is left behind its NOTIF
        have hzero : ((rest.filter Cqe.sendMore).map Cqe.slot).count i = 0 := by
          apply List.count_eq_zero.mpr
          intro hmem
          obtain ⟨d, hd, rfl⟩ := List.mem_map.mp hmem
          obtain ⟨hd, hmore⟩ := List.mem_filter.mp hd
          have hsend : d.notif = false := by
            simp only [Cqe.sendMore, Bool.and_eq_true, Bool.not_eq_true'] at hmore
            exact hmore.1
          exact horder.1 d hd hn hsend hi.symm
        omega
      · simp only [List.filter_cons, Cqe.sendMore, hn, Bool.not_true, Bool.false_and,
          Bool.false_eq_true, if_true, if_false, List.map_cons, List.count_cons,
          beq_iff_eq, hi, Nat.add_zero] at hdue ⊢
        exact hdue
  · change s.ring.cq.tail.Pairwise _
    rw [hcq]
    exact horder.2

end ring

section sent
variable {slots entries : ℕ} {slot : Option ℕ} {held : List ℕ} {s t : State} {ph ph' : Phase}
  {i n : ℕ} {c : Cqe}

theorem mem_pending_of_owed (hu : ph.uncopied = []) (hi : i ∈ s.owed ph) : i ∈ s.ring.pending := by
  rw [State.owed, hu, List.append_nil] at hi
  rw [Ring.pending]
  rcases List.mem_append.mp hi with hi | hi
  · exact List.mem_append.mpr (.inl hi)
  · obtain ⟨c, hc, rfl⟩ := List.mem_map.mp hi
    obtain ⟨hc, hrefused⟩ := List.mem_filter.mp hc
    have hsend : c.isSend = true := by
      simp only [Cqe.isRefused, Bool.and_eq_true] at hrefused
      exact hrefused.1
    exact List.mem_append.mpr (.inr (List.mem_map.mpr ⟨c, List.mem_filter.mpr ⟨hc, hsend⟩, rfl⟩))

namespace Sent

theorem congr (h : Sent ph s) (hring : t.ring = s.ring) (hslab : t.slab = s.slab)
    (hin : t.inflight = s.inflight) (hph : ph'.uncopied.Sublist ph.uncopied) : Sent ph' t := by
  have hentry : t.entry = s.entry := by
    funext i
    rw [State.entry, State.entry, State.content, State.content, hring, hslab, hin]
  refine ⟨?_, ?_, ?_⟩
  · rw [hring, hin]
    exact h.sized
  · intro x
    have hwire := h.wire x
    have hsub : (t.owed ph').Sublist (s.owed ph) := by
      rw [State.owed, State.owed, hring]
      exact (List.Sublist.refl _).append hph
    have hle := (hsub.map s.entry).count_le x
    rw [hentry, hring]
    omega
  · rw [hring]
    exact h.numbered

theorem elsewhere (h : Sent ph s) (hu : ph.uncopied = []) (hu' : ph'.uncopied = [])
    (hi : i ∉ s.ring.pending) (hring : t.ring = s.ring) (hslab : ∀ j, j ≠ i → t.slab j = s.slab j)
    (hin : ∀ j, j ≠ i → t.inflight.getD j none = s.inflight.getD j none) : Sent ph' t := by
  have howed : t.owed ph' = s.owed ph := by
    rw [State.owed, State.owed, hring, hu, hu']
  have hentry : (s.owed ph).map t.entry = (s.owed ph).map s.entry := by
    apply List.map_congr_left
    intro j hj
    have hne : j ≠ i := by
      intro hji
      subst hji
      exact hi (mem_pending_of_owed hu hj)
    rw [State.entry, State.entry, State.content, State.content, hring, hslab j hne, hin j hne]
  refine ⟨?_, ?_, ?_⟩
  · rw [hring]
    intro q hq
    have hne : q.slot ≠ i := by
      intro hqi
      subst hqi
      apply hi
      rw [Ring.pending, ← List.map_append]
      exact List.mem_append.mpr (.inl (List.mem_map_of_mem hq))
    rw [hin _ hne]
    exact h.sized q hq
  · intro x
    rw [howed, hentry, hring]
    exact h.wire x
  · rw [hring]
    exact h.numbered

theorem moves (h : Sent .idle s) (hm : Moves s t) : Sent .idle t := by
  cases hm with
  | @complete a b q res more sent hq hsent =>
    have hq' : s.inflight.getD q.slot none = some q.size ∧ q.seq = s.ring.owner q.slot := by
      apply h.sized
      simp [hq]
    have hsent : sent = [] ∨ (sent = [s.entry q.slot] ∧ ¬ refused res) := by
      rcases hsent with rfl | ⟨rfl, hres⟩
      · exact .inl rfl
      · refine .inr ⟨?_, hres⟩
        rw [State.entry, State.content, hq'.1, hq'.2]
        rfl
    refine ⟨?_, ?_, h.numbered⟩
    · intro r hr
      apply h.sized
      simp only [List.mem_append, hq, List.mem_cons] at hr ⊢
      tauto
    · intro x
      have hwire := h.wire x
      change (s.ring.wire ++ sent).count x + (List.map s.entry _).count x ≤ s.ring.queued.count x
      simp only [State.owed, Phase.uncopied, hq, Cqe.isRefused, List.append_nil, List.map_append,
        List.count_append, List.map_cons, List.count_cons, List.filter_append, List.filter_cons,
        List.filter_nil, Bool.not_false, Bool.true_and, decide_eq_true_eq] at hwire ⊢
      rcases hsent with rfl | ⟨rfl, hres⟩
      · split_ifs <;> simp only [List.map_cons, List.map_nil, List.count_cons, List.count_nil] <;>
          split_ifs at hwire ⊢ <;> omega
      · rw [if_neg hres]
        simp only [List.map_nil, List.count_nil, List.count_cons]
        omega
  | @notify a b i res hi =>
    refine ⟨h.sized, ?_, h.numbered⟩
    intro x
    have hwire := h.wire x
    change s.ring.wire.count x + (List.map s.entry _).count x ≤ s.ring.queued.count x
    simpa only [State.owed, Phase.uncopied, Cqe.isRefused, List.append_nil, List.filter_append,
      List.filter_cons, List.filter_nil, Bool.not_true, Bool.false_and, Bool.false_eq_true,
      if_false] using hwire

theorem idles (h : Sent .idle s) (hm : Idles s t) : Sent .idle t := by
  induction hm with
  | refl => exact h
  | tail _ hs ih => exact ih.moves hs

theorem submit (h : Sent .idle s) (k : ℕ) : Sent .idle { s with ring := { s.ring with
    sq := s.ring.sq.drop k
    submitted := s.ring.submitted ++ s.ring.sq.take k } } := by
  refine ⟨?_, ?_, h.numbered⟩
  · intro q hq
    apply h.sized
    simp only [List.mem_append] at hq ⊢
    rcases hq with hq | hq | hq
    · exact .inl (List.mem_of_mem_drop hq)
    · exact .inr hq
    · exact .inl (List.mem_of_mem_take hq)
  · intro x
    have hwire := h.wire x
    have hsplit := congrArg (fun q => ((q.map Sqe.slot).map s.entry).count x)
      (List.take_append_drop k s.ring.sq)
    change s.ring.wire.count x + (List.map s.entry _).count x ≤ s.ring.queued.count x
    simp only [State.owed, List.map_append, List.count_append] at hwire hsplit ⊢
    omega

theorem onRing (h : Sent .idle s) {entries : ℕ} {o : Op} {r : o.Reply} (ho : o.onRing)
    (hr : kernel entries o s r t) : Sent .idle t := by
  cases o with
  | getSqe => exact h.idles hr.1
  | waitCqe => exact h.idles hr.1
  | peekCqe => exact h.idles hr.1
  | waitCqeTimeout => exact h.idles hr
  | now =>
    have ht : t = s := hr
    rw [ht]
    exact h
  | submit =>
    obtain ⟨v, hidle, ht⟩ := hr
    have hv := h.idles hidle
    rcases ht with ⟨-, rfl⟩ | ⟨k, -, -, -, rfl⟩
    · exact hv
    · exact hv.submit k
  | queueInit n => exact ho.elim
  | registerBuffers => exact ho.elim
  | send slot buf => exact ho.elim

theorem seen (h : Sent .idle s) (hc : s.ring.cq.head? = some c) : Sent (.held c) s.seen := by
  obtain ⟨rest, hcq⟩ := List.head?_eq_some_iff.mp hc
  refine ⟨h.sized, ?_, h.numbered⟩
  intro x
  have hwire := h.wire x
  change s.ring.wire.count x + (List.map s.entry _).count x ≤ s.ring.queued.count x
  simp only [State.owed, State.seen, hcq, List.tail_cons, Phase.uncopied, List.filter_cons,
    List.append_nil, List.map_append, List.count_append] at hwire ⊢
  split_ifs at hwire ⊢
  · simp only [List.map_cons, List.map_nil, List.count_cons, List.count_nil] at hwire ⊢
    omega
  · simp only [List.map_nil, List.count_nil]
    omega

theorem copied (h : Sent (.copying c) s) (copies : List (Option ℕ)) :
    Sent (.settled c) { s with ring := { s.ring with
      copies := copies
      wire := s.ring.wire ++ [s.entry c.slot] } } := by
  refine ⟨h.sized, ?_, h.numbered⟩
  intro x
  have hwire := h.wire x
  change (s.ring.wire ++ [s.entry c.slot]).count x + (List.map s.entry _).count x ≤
    s.ring.queued.count x
  simp only [State.owed, Phase.uncopied, List.map_append, List.count_append, List.map_cons,
    List.map_nil, List.count_nil] at hwire ⊢
  omega

theorem enqueue (h : Sent .idle s) (hlen : i < s.inflight.length) (hidle : i ∉ s.busy)
    (hi : i ∉ s.ring.pending) : Sent .idle (s.enqueue i n) := by
  have hclear : s.clear i = s := clear_of_idle hidle
  have hin : (s.enqueue i n).inflight = s.inflight.set i (some n) := by
    rw [State.enqueue, hclear]
  have hslab : (s.enqueue i n).slab = s.slab := by
    rw [State.enqueue, hclear]
  have hother : ∀ j, j ≠ i → (s.enqueue i n).inflight.getD j none = s.inflight.getD j none ∧
      (s.enqueue i n).ring.owner j = s.ring.owner j := by
    intro j hj
    refine ⟨?_, Function.update_of_ne hj _ _⟩
    rw [hin]
    simp [List.getD_eq_getElem?_getD, List.getElem?_set_ne (Ne.symm hj)]
  have hnew : (s.enqueue i n).inflight.getD i none = some n := by
    rw [hin]
    simp [List.getD_eq_getElem?_getD, hlen]
  have hentry : (s.owed .idle).map (s.enqueue i n).entry = (s.owed .idle).map s.entry := by
    apply List.map_congr_left
    intro j hj
    have hne : j ≠ i := by
      intro hji
      subst hji
      exact hi (mem_pending_of_owed rfl hj)
    rw [State.entry, State.entry, State.content, State.content, hslab, (hother j hne).1,
      (hother j hne).2]
  have howner : (s.enqueue i n).ring.owner i = s.ring.queued.length := Function.update_self ..
  have hfresh : (s.enqueue i n).entry i = (s.ring.queued.length, (s.slab i).take n) := by
    rw [State.entry, State.content, hnew, howner, hslab]
    rfl
  refine ⟨?_, ?_, ?_⟩
  · intro q hq
    have hold : q = ⟨i, n, s.registered, s.ring.queued.length⟩ ∨
        q ∈ s.ring.sq ++ s.ring.submitted := by
      simp only [State.enqueue, List.mem_append, List.mem_singleton] at hq ⊢
      tauto
    rcases hold with rfl | hold
    · exact ⟨hnew, howner.symm⟩
    · have hne : q.slot ≠ i := by
        intro hqi
        subst hqi
        apply hi
        rw [Ring.pending, ← List.map_append]
        exact List.mem_append.mpr (.inl (List.mem_map_of_mem hold))
      rw [(hother _ hne).1, (hother _ hne).2]
      exact h.sized q hold
  · intro x
    have hwire := h.wire x
    rw [← hentry] at hwire
    change s.ring.wire.count x + (List.map (s.enqueue i n).entry _).count x ≤
      (s.ring.queued ++ [(s.ring.queued.length, (s.slab i).take n)]).count x
    have howed : (s.enqueue i n).owed .idle = s.ring.sq.map Sqe.slot ++ [i] ++
        s.ring.submitted.map Sqe.slot ++ (s.ring.cq.filter Cqe.isRefused).map Cqe.slot := by
      simp [State.owed, State.enqueue, Phase.uncopied]
    rw [howed]
    generalize (s.enqueue i n).entry = f at hwire hfresh ⊢
    simp only [State.owed, Phase.uncopied, List.append_nil, List.map_append, List.map_cons,
      List.map_nil, List.count_append, hfresh] at hwire ⊢
    omega
  · change (s.ring.queued ++ [(s.ring.queued.length, (s.slab i).take n)]).map Prod.fst = _
    rw [List.map_append, h.numbered]
    simp [State.enqueue, List.range_succ]

end Sent

end sent

section balanced
variable {s t : State} {ph : Phase} {c : Cqe} {i n : ℕ}

namespace Balanced

theorem congr {ph' : Phase} (h : Balanced ph s) (hring : t.ring = s.ring)
    (hstats : t.stats = s.stats) (hnotifs : ph'.notifs = ph.notifs) (hcopies : ph'.copies = ph.copies)
    (herrors : ph'.errors t.errno = ph.errors s.errno) : Balanced ph' t := by
  constructor
  all_goals simp only [hring, hstats, hnotifs, hcopies, herrors]
  · exact h.sends
  · exact h.queued
  · exact h.notifs
  · exact h.due
  · exact h.copied
  · exact h.copies
  · exact h.errors

theorem moves (h : Balanced .idle s) (hm : Moves s t) : Balanced .idle t := by
  obtain ⟨hsends, hqueued, hnotifs, hdue, hcopied, hcopies, herrors⟩ := h
  cases hm with
  | @complete a b q res more sent hq hsent =>
    refine ⟨?_, hqueued, hnotifs, ?_, hcopied, hcopies, herrors⟩
    · simp only [hq, List.countP_append, List.countP_cons, List.countP_nil, List.length_append,
        List.length_cons, Cqe.isSend, Bool.not_false, if_true] at hsends ⊢
      omega
    · cases more <;>
        simp only [List.countP_append, List.countP_cons, List.countP_nil, List.length_append,
          List.length_cons, List.length_nil, Cqe.sendMore, Bool.not_false, Bool.and_true,
          Bool.and_false, Bool.false_eq_true, if_true, if_false] at hdue ⊢ <;> omega
  | @notify a b i res hi =>
    refine ⟨?_, hqueued, hnotifs, ?_, hcopied, hcopies, herrors⟩
    · simpa [List.countP_append, List.countP_cons, Cqe.isSend] using hsends
    · simp only [hi, List.countP_append, List.countP_cons, List.countP_nil, List.length_append,
        List.length_cons, Cqe.sendMore, Bool.not_true, Bool.false_and, Bool.false_eq_true,
        if_true, if_false] at hdue ⊢
      omega

theorem idles (h : Balanced .idle s) (hm : Idles s t) : Balanced .idle t := by
  induction hm with
  | refl => exact h
  | tail _ hs ih => exact ih.moves hs

theorem onRing (h : Balanced .idle s) {entries : ℕ} {o : Op} {r : o.Reply} (ho : o.onRing)
    (hr : kernel entries o s r t) : Balanced .idle t := by
  cases o with
  | getSqe => exact h.idles hr.1
  | waitCqe => exact h.idles hr.1
  | peekCqe => exact h.idles hr.1
  | waitCqeTimeout => exact h.idles hr
  | now =>
    have ht : t = s := hr
    rw [ht]
    exact h
  | submit =>
    obtain ⟨v, hidle, ht⟩ := hr
    have hv := h.idles hidle
    rcases ht with ⟨-, rfl⟩ | ⟨k, -, -, -, rfl⟩
    · exact hv
    · obtain ⟨hsends, hqueued, hnotifs, hdue, hcopied, hcopies, herrors⟩ := hv
      refine ⟨?_, hqueued, hnotifs, hdue, hcopied, hcopies, herrors⟩
      have hsplit := congrArg List.length (List.take_append_drop k v.ring.sq)
      simp only [List.length_append] at hsplit ⊢
      omega
  | queueInit n => exact ho.elim
  | registerBuffers => exact ho.elim
  | send slot buf => exact ho.elim

theorem seen (h : Balanced .idle s) (hc : s.ring.cq.head? = some c) :
    Balanced (.held c) s.seen := by
  obtain ⟨rest, hcq⟩ := List.head?_eq_some_iff.mp hc
  obtain ⟨hsends, hqueued, hnotifs, hdue, hcopied, hcopies, herrors⟩ := h
  have hreaped : s.seen.ring.reaped = s.ring.reaped ++ [c] := by simp [State.seen, hcq]
  have hrest : s.seen.ring.cq = rest := by simp [State.seen, hcq]
  simp only [Phase.notifs, Phase.copies, Phase.errors, Nat.add_zero] at hnotifs hcopies herrors
  refine ⟨?_, hqueued, ?_, ?_, hcopied, ?_, ?_⟩
  · rw [hreaped, hrest]
    rw [hcq] at hsends
    simp only [List.countP_append, List.countP_cons, List.countP_nil] at hsends ⊢
    change s.stats.sends = _ + _ + s.ring.sq.length + s.ring.submitted.length
    omega
  · rw [hreaped]
    simp only [List.countP_append, List.countP_cons, List.countP_nil, Phase.notifs]
    change s.stats.notifs + _ = _
    omega
  · rw [hreaped, hrest]
    rw [hcq] at hdue
    simp only [List.countP_append, List.countP_cons, List.countP_nil] at hdue ⊢
    change _ + s.ring.notifDue.length = _
    omega
  · rw [hreaped]
    simp only [List.countP_append, List.countP_cons, List.countP_nil, Phase.copies]
    change s.ring.copies.length + _ = _
    omega
  · rw [hreaped]
    simp only [List.countP_append, List.countP_cons, List.countP_nil, Phase.errors]
    change s.stats.errors + _ = _ + s.ring.copies.countP fatalCopy
    omega

theorem notified (h : Balanced (.held c) s) (hn : c.notif = true) :
    Balanced .idle (s.notified c.slot c.res) := by
  obtain ⟨hsends, hqueued, hnotifs, hdue, hcopied, hcopies, herrors⟩ := h
  have hring : (s.notified c.slot c.res).ring = s.ring := clear_ring s c.slot
  simp only [Phase.notifs, Phase.copies, Phase.errors, Cqe.isRefused, Cqe.isFailed, hn,
    Bool.not_true, Bool.false_and, Bool.false_eq_true, if_true, if_false, Nat.add_zero]
    at hnotifs hcopies herrors
  refine ⟨?_, ?_, ?_, ?_, ?_, ?_, ?_⟩
  · rw [hring]
    exact hsends
  · rw [hring]
    exact hqueued
  · rw [hring]
    exact hnotifs
  · rw [hring]
    exact hdue
  · change s.stats.copied + _ ≤ s.stats.notifs + 1
    split_ifs <;> omega
  · rw [hring]
    exact hcopies
  · rw [hring]
    exact herrors

theorem copySent (h : Balanced (.copying c) s) (wire : List (ℕ × Bytes)) :
    Balanced (.settled c) { s with ring := { s.ring with
      copies := s.ring.copies ++ [none]
      wire := wire } } := by
  obtain ⟨hsends, hqueued, hnotifs, hdue, hcopied, hcopies, herrors⟩ := h
  refine ⟨hsends, hqueued, hnotifs, hdue, hcopied, ?_, ?_⟩
  · rw [List.length_append]
    exact hcopies
  · rw [List.countP_append]
    exact herrors

theorem lost (h : Balanced (.copying c) s) (e : ℕ) :
    Balanced (.lost c) { s with
      errno := e
      ring := { s.ring with copies := s.ring.copies ++ [some e] } } := by
  obtain ⟨hsends, hqueued, hnotifs, hdue, hcopied, hcopies, herrors⟩ := h
  refine ⟨hsends, hqueued, hnotifs, hdue, hcopied, ?_, ?_⟩
  · rw [List.length_append]
    exact hcopies
  · simp only [List.countP_append, List.countP_cons, List.countP_nil, Phase.errors, fatalCopy,
      decide_eq_true_eq, Nat.add_zero] at herrors ⊢
    omega

theorem copyLost (h : Balanced (.lost c) s) : Balanced (.settled c) s.copyLost := by
  obtain ⟨hsends, hqueued, hnotifs, hdue, hcopied, hcopies, herrors⟩ := h
  have hring : s.copyLost.ring = s.ring := by
    rw [State.copyLost]
    split_ifs
    · exact latch_ring _ _
    · rfl
  have hstats : s.copyLost.stats = { s.stats with
      errors := s.stats.errors + if fatal s.errno then 1 else 0 } := by
    rw [State.copyLost]
    by_cases hf : fatal s.errno
    · rw [if_pos hf, if_pos hf]
    · rw [if_neg hf, if_neg hf]
      rfl
  refine ⟨?_, ?_, ?_, ?_, ?_, ?_, ?_⟩
  · rw [hring, hstats]
    exact hsends
  · rw [hring, hstats]
    exact hqueued
  · rw [hring, hstats]
    exact hnotifs
  · rw [hring]
    exact hdue
  · rw [hstats]
    exact hcopied
  · rw [hring]
    exact hcopies
  · rw [hring, hstats]
    exact herrors

theorem failed (h : Balanced (.held c) s) (hn : c.notif = false) (hr : ¬ refused c.res)
    (hneg : c.res < 0) : Balanced (.settled c) (s.failed c.res) := by
  obtain ⟨hsends, hqueued, hnotifs, hdue, hcopied, hcopies, herrors⟩ := h
  have hring : (s.failed c.res).ring = s.ring := latch_ring _ _
  simp only [Phase.notifs, Phase.copies, Phase.errors, Cqe.isRefused, Cqe.isFailed, hn, hr, hneg,
    decide_false, decide_true, Bool.not_false, Bool.and_true, Bool.and_false, Bool.false_eq_true,
    if_true, if_false] at hnotifs hcopies herrors
  refine ⟨?_, ?_, ?_, ?_, hcopied, ?_, ?_⟩
  · rw [hring]
    exact hsends
  · rw [hring]
    exact hqueued
  · rw [hring]
    exact hnotifs
  · rw [hring]
    exact hdue
  · rw [hring]
    exact hcopies
  · rw [hring]
    exact herrors

theorem sent (h : Balanced (.held c) s) (hn : c.notif = false) (hr : ¬ refused c.res)
    (hpos : 0 ≤ c.res) : Balanced (.settled c) s := by
  obtain ⟨hsends, hqueued, hnotifs, hdue, hcopied, hcopies, herrors⟩ := h
  have hneg : ¬ c.res < 0 := by omega
  simp only [Phase.notifs, Phase.copies, Phase.errors, Cqe.isRefused, Cqe.isFailed, hn, hr, hneg,
    decide_false, Bool.not_false, Bool.and_false, Bool.false_eq_true, if_false]
    at hnotifs hcopies herrors
  exact ⟨hsends, hqueued, hnotifs, hdue, hcopied, hcopies, herrors⟩

theorem fellBack (h : Balanced (.held c) s) (hn : c.notif = false) (hr : refused c.res) :
    Balanced (.copying c) s.fellBack := by
  obtain ⟨hsends, hqueued, hnotifs, hdue, hcopied, hcopies, herrors⟩ := h
  simp only [Phase.notifs, Phase.copies, Phase.errors, Cqe.isRefused, Cqe.isFailed, hn, hr,
    decide_true, Bool.not_false, Bool.not_true, Bool.and_true, Bool.and_false, Bool.false_and,
    Bool.false_eq_true, if_true, if_false] at hnotifs hcopies herrors
  exact ⟨hsends, hqueued, hnotifs, hdue, hcopied, hcopies, herrors⟩

theorem clear (h : Balanced (.settled c) s) (i : ℕ) : Balanced .idle (s.clear i) :=
  h.congr (clear_ring _ _) (clear_stats _ _) rfl rfl rfl

theorem latch (h : Balanced .idle s) (e : ℕ) : Balanced .idle (s.latch e) :=
  h.congr (latch_ring _ _) (latch_stats _ _) rfl rfl rfl

theorem enqueue (h : Balanced .idle s) : Balanced .idle (s.enqueue i n) := by
  obtain ⟨hsends, hqueued, hnotifs, hdue, hcopied, hcopies, herrors⟩ := h
  refine ⟨?_, ?_, hnotifs, hdue, hcopied, hcopies, herrors⟩
  · change s.stats.sends + 1 = _ + _ + (s.ring.sq ++ _).length + _
    rw [List.length_append]
    change s.stats.sends + 1 = s.ring.reaped.countP Cqe.isSend + s.ring.cq.countP Cqe.isSend +
      (s.ring.sq.length + 1) + s.ring.submitted.length
    omega
  · change (s.ring.queued ++ _).length = s.stats.sends + 1
    rw [List.length_append, hqueued]
    rfl

end Balanced

end balanced

section rules
variable {slotSize slots entries : ℕ} {s t : State} {c : Call} {q : Prog Zc Outcome}

theorem accounted_built (errno : ℕ) (registered : Bool) :
    Accounted slots entries none .idle (built errno slots registered) := by
  refine ⟨tracked_built _ _, ⟨?_, List.Pairwise.nil⟩, ⟨?_, ?_, rfl⟩, ?_⟩
  · intro i
    exact le_refl 0
  · intro q hq
    cases hq
  · intro x
    exact le_refl 0
  · exact ⟨rfl, rfl, rfl, rfl, le_refl 0, rfl, rfl⟩

theorem Accounted.onRing {slot : Option ℕ} (h : Accounted slots entries slot .idle s) {o : Op}
    {r : o.Reply} (ho : o.onRing) (hr : kernel entries o s r t) :
    Accounted slots entries slot .idle t := by
  have hidles : ∀ {u : State}, Idles s u → Ordered u := by
    intro u hu
    have hboth : Tracked slots entries slot [] u ∧ Ordered u := by
      induction hu with
      | refl => exact ⟨h.tracked, h.ordered⟩
      | tail _ hs ih => exact ⟨ih.1.moves hs, ih.2.moves ih.1 hs⟩
    exact hboth.2
  refine ⟨h.tracked.onRing ho hr, ?_, h.sent.onRing ho hr, h.balanced.onRing ho hr⟩
  cases o with
  | getSqe => exact hidles hr.1
  | waitCqe => exact hidles hr.1
  | peekCqe => exact hidles hr.1
  | waitCqeTimeout => exact hidles hr
  | now =>
    have ht : t = s := hr
    rw [ht]
    exact h.ordered
  | submit =>
    obtain ⟨v, hidle, ht⟩ := hr
    have hv := hidles hidle
    rcases ht with ⟨-, rfl⟩ | ⟨k, -, -, -, rfl⟩
    · exact hv
    · exact ⟨hv.due, hv.order⟩
  | queueInit n => exact ho.elim
  | registerBuffers => exact ho.elim
  | send slot buf => exact ho.elim

theorem Ordered.congr (h : Ordered s) (hring : t.ring = s.ring) : Ordered t := by
  refine ⟨?_, ?_⟩
  · rw [hring]
    exact h.due
  · rw [hring]
    exact h.order

theorem copyLost_kept (s : State) :
    s.copyLost.ring = s.ring ∧ s.copyLost.slab = s.slab ∧ s.copyLost.inflight = s.inflight := by
  rw [State.copyLost]
  split_ifs
  · exact ⟨latch_ring _ _, latch_slab _ _, latch_inflight _ _⟩
  · exact ⟨rfl, rfl, rfl⟩

theorem accounted_rules (slotSize slots entries : ℕ) :
    Invariant (kernel entries) slotSize slots (Accounted slots entries) where
  built := accounted_built _ _
  setup := (tracked_rules slotSize slots entries).setup
  reserved h := h.tracked.reserved
  errno := by
    intro slot s h e
    refine ⟨(tracked_rules slotSize slots entries).errno h.tracked e, h.ordered.congr rfl,
      h.sent.congr rfl rfl rfl (List.Sublist.refl _), ?_⟩
    exact h.balanced.congr rfl rfl rfl rfl rfl
  fill := by
    intro i s h bs
    refine ⟨(tracked_rules slotSize slots entries).fill h.tracked bs, h.ordered.congr rfl, ?_, ?_⟩
    · refine h.sent.elsewhere rfl rfl (h.tracked.idle_of_reserved h.ordered) rfl ?_ ?_
      · intro j hj
        exact Function.update_of_ne hj _ _
      · intro j _
        rfl
    · exact h.balanced.congr rfl rfl rfl rfl rfl
  ring ho hr h := h.onRing ho hr
  head hr := hr.2
  waited hr := hr.2
  submitFailed hr hneg hi ha h :=
    ⟨(tracked_rules slotSize slots entries).submitFailed hr hneg hi ha h.tracked,
      h.ordered.congr (latch_ring _ _),
      h.sent.congr (latch_ring _ _) (latch_slab _ _) (latch_inflight _ _) (List.Sublist.refl _),
      h.balanced.latch _⟩
  full := by
    intro s t i hr h
    refine ⟨(tracked_rules slotSize slots entries).full hr h.tracked, h.ordered.congr rfl,
      h.sent.congr rfl rfl rfl (List.Sublist.refl _), ?_⟩
    exact h.balanced.congr rfl rfl rfl rfl rfl
  seen hc h := ⟨(tracked_rules slotSize slots entries).seen hc h.tracked, h.ordered.seen hc,
    h.sent.seen hc, h.balanced.seen hc⟩
  notified := by
    intro s slot c hn h
    have hfinal : c.final = true := by simp [Cqe.final, hn]
    have hheld : Tracked slots entries slot [c.slot] s := by
      have ht := h.tracked
      rw [Phase.unreleased, hfinal] at ht
      exact ht
    have hun : (Phase.held c).uncopied = [] := by simp [Phase.uncopied, Cqe.isRefused, hn]
    refine ⟨(tracked_rules slotSize slots entries).notified hn h.tracked,
      h.ordered.congr (clear_ring _ _), ?_, h.balanced.notified hn⟩
    refine h.sent.elsewhere hun rfl (hheld.idle_of_held h.ordered) (clear_ring _ _) ?_ ?_
    · intro j _
      exact congrFun (clear_slab s c.slot) j
    · intro j hj
      exact clear_inflight s hj
  unsupported := by
    intro s slot c hn h
    refine ⟨(tracked_rules slotSize slots entries).unsupported hn h.tracked, h.ordered.congr rfl,
      h.sent.congr rfl rfl rfl (List.Sublist.refl _), ?_⟩
    exact h.balanced.congr rfl rfl rfl rfl rfl
  fellBack := by
    intro s slot c hn hr h
    have hrefused : c.isRefused = true := by simp [Cqe.isRefused, hn, hr]
    refine ⟨(tracked_rules slotSize slots entries).fellBack hn hr h.tracked, h.ordered.congr rfl,
      h.sent.congr rfl rfl rfl ?_, h.balanced.fellBack hn hr⟩
    rw [Phase.uncopied, Phase.uncopied, hrefused]
    exact List.Sublist.refl _
  copied := by
    intro s t slot c n hr h
    have htracked := (tracked_rules slotSize slots entries).copied hr h.tracked
    rcases hr with ⟨-, rfl⟩ | ⟨hnone, -⟩
    · exact ⟨htracked, ⟨h.ordered.due, h.ordered.order⟩, h.sent.copied _, h.balanced.copySent _⟩
    · cases hnone
  lost := by
    intro s t slot c hr h
    have htracked := (tracked_rules slotSize slots entries).lost hr h.tracked
    rcases hr with ⟨hsome, -⟩ | ⟨-, e, -, rfl⟩
    · cases hsome
    · have hsent : Sent (.lost c) s := h.sent.congr rfl rfl rfl (List.nil_sublist _)
      exact ⟨htracked, ⟨h.ordered.due, h.ordered.order⟩,
        ⟨hsent.sized, hsent.wire, hsent.numbered⟩, h.balanced.lost e⟩
  copyLost := by
    intro s slot c h
    obtain ⟨hring, hslab, hin⟩ := copyLost_kept s
    exact ⟨(tracked_rules slotSize slots entries).copyLost h.tracked, h.ordered.congr hring,
      h.sent.congr hring hslab hin (List.Sublist.refl _), h.balanced.copyLost⟩
  failed := by
    intro s slot c hn hr hneg h
    exact ⟨(tracked_rules slotSize slots entries).failed hn hr hneg h.tracked,
      h.ordered.congr (latch_ring _ _),
      h.sent.congr (latch_ring _ _) (latch_slab _ _) (latch_inflight _ _) (List.nil_sublist _),
      h.balanced.failed hn hr hneg⟩
  sent := by
    intro s slot c hn hr hpos h
    exact ⟨h.tracked, h.ordered, h.sent.congr rfl rfl rfl (List.nil_sublist _),
      h.balanced.sent hn hr hpos⟩
  clear := by
    intro s slot c hn hmore h
    have hfinal : c.final = true := by simp [Cqe.final, hmore]
    have hheld : Tracked slots entries slot [c.slot] s := by
      have ht := h.tracked
      rw [Phase.unreleased, hfinal] at ht
      exact ht
    refine ⟨(tracked_rules slotSize slots entries).clear hn hmore h.tracked,
      h.ordered.congr (clear_ring _ _), ?_, h.balanced.clear _⟩
    refine h.sent.elsewhere rfl rfl (hheld.idle_of_held h.ordered) (clear_ring _ _) ?_ ?_
    · intro j _
      exact congrFun (clear_slab s c.slot) j
    · intro j hj
      exact clear_inflight s hj
  more := by
    intro s slot c hn hmore h
    refine ⟨(tracked_rules slotSize slots entries).more hn hmore h.tracked, h.ordered,
      h.sent.congr rfl rfl rfl (List.Sublist.refl _), ?_⟩
    exact h.balanced.congr rfl rfl rfl rfl rfl
  reserve := by
    intro s i hf h
    refine ⟨(tracked_rules slotSize slots entries).reserve hf h.tracked, h.ordered.congr rfl,
      h.sent.congr rfl rfl rfl (List.Sublist.refl _), ?_⟩
    exact h.balanced.congr rfl rfl rfl rfl rfl
  enqueue := by
    intro s i n hpos hle h
    have hr := h.tracked.reserved
    have hlen : i < s.inflight.length :=
      h.tracked.owned.length.symm ▸ h.tracked.owned.reserved_lt hr
    exact ⟨(tracked_rules slotSize slots entries).enqueue hpos hle h.tracked,
      ⟨h.ordered.due, h.ordered.order⟩,
      h.sent.enqueue hlen (h.tracked.owned.reserved_idle hr) (h.tracked.idle_of_reserved h.ordered),
      h.balanced.enqueue⟩

theorem countP_split (cs : List Cqe) : cs.countP Cqe.isSend =
    cs.countP Cqe.isSent + cs.countP Cqe.isRefused + cs.countP Cqe.isFailed := by
  induction cs with
  | nil => rfl
  | cons c cs ih =>
    have hone : (if c.isSend then 1 else 0) =
        (if c.isSent then 1 else 0) + (if c.isRefused then 1 else 0) +
          (if c.isFailed then 1 else 0) := by
      cases hn : c.notif with
      | true => simp [Cqe.isSend, Cqe.isSent, Cqe.isRefused, Cqe.isFailed, hn]
      | false =>
        by_cases hr : refused c.res
        · simp [Cqe.isSend, Cqe.isSent, Cqe.isRefused, Cqe.isFailed, hn, hr]
        · by_cases hneg : c.res < 0
          · simp [Cqe.isSend, Cqe.isSent, Cqe.isRefused, Cqe.isFailed, hn, hr, hneg]
          · simp [Cqe.isSend, Cqe.isSent, Cqe.isRefused, Cqe.isFailed, hn, hr, hneg,
              not_lt.mp hneg]
    simp only [List.countP_cons]
    omega

theorem copies_split (copies : List (Option ℕ)) : copies.length =
    copies.countP Option.isNone + copies.countP lostCopy + copies.countP fatalCopy := by
  induction copies with
  | nil => rfl
  | cons o copies ih =>
    have hone : 1 = (if o.isNone then 1 else 0) + (if lostCopy o then 1 else 0) +
        (if fatalCopy o then 1 else 0) := by
      cases o with
      | none => simp [lostCopy, fatalCopy]
      | some e => by_cases hf : fatal e <;> simp [lostCopy, fatalCopy, hf]
    simp only [List.length_cons, List.countP_cons]
    omega

theorem Accounted.quiet {slot : Option ℕ} (h : Accounted slots entries slot .idle s)
    (hbusy : s.busy = []) : s.ring.sq = [] ∧ s.ring.submitted = [] ∧ s.ring.notifDue = [] ∧
      s.ring.cq = [] := by
  have hreq := h.tracked.requests
  rw [hbusy] at hreq
  have hnone : s.ring.unreaped = [] := by
    have hnil := hreq.eq_nil
    exact (List.append_eq_nil_iff.mp hnil).1
  simp only [Ring.unreaped, List.append_eq_nil_iff, List.map_eq_nil_iff] at hnone
  obtain ⟨⟨⟨hsq, hsubmitted⟩, hdue⟩, hfinal⟩ := hnone
  refine ⟨hsq, hsubmitted, hdue, ?_⟩
  have hpending : s.ring.pending = [] := by
    apply List.eq_nil_iff_forall_not_mem.mpr
    intro i hi
    have hle := h.ordered.pending_le i
    have hpos := List.count_pos_iff.mpr hi
    simp only [Ring.unreaped, hsq, hsubmitted, hdue, hfinal, List.map_nil, List.append_nil,
      List.count_nil] at hle
    omega
  simp only [Ring.pending, List.append_eq_nil_iff, List.map_eq_nil_iff] at hpending
  apply List.eq_nil_iff_forall_not_mem.mpr
  intro c hc
  cases hn : c.notif with
  | true =>
    have hmem : c ∈ s.ring.cq.filter Cqe.final := by simp [hc, Cqe.final, hn]
    rw [hfinal] at hmem
    cases hmem
  | false =>
    have hmem : c ∈ s.ring.cq.filter Cqe.isSend := by simp [hc, Cqe.isSend, hn]
    rw [hpending.2] at hmem
    cases hmem

theorem Balanced.notifs_le {ph : Phase} (h : Balanced ph s) : s.stats.notifs ≤ s.stats.sends := by
  have hmore : ∀ cs : List Cqe, cs.countP Cqe.sendMore ≤ cs.countP Cqe.isSend := by
    intro cs
    apply List.countP_mono_left
    intro c _ hc
    simp only [Cqe.sendMore, Bool.and_eq_true] at hc
    exact hc.1
  have hreaped := hmore s.ring.reaped
  have hcq := hmore s.ring.cq
  have hsends := h.sends
  have hnotifs := h.notifs
  have hdue := h.due
  omega

/-- Each datagram is put on the wire at most once, as it was committed; after a
drain that says so, the books account for every one of them. -/
theorem datagram_accounting (hslots : slots < 2 ^ 32)
    (hs : Used (kernel entries) slotSize slots s)
    (hr : Reaches (kernel entries) (c.run slotSize slots, s) (q, t)) :
    t.ring.wire.Subperm t.ring.queued ∧
      t.ring.queued.map Prod.fst = List.range t.ring.queued.length ∧
      t.stats.copied ≤ t.stats.notifs ∧ t.stats.notifs ≤ t.stats.sends ∧
      (q = .ret (.drained true) →
        t.stats.sends = t.ring.queued.length ∧
        t.stats.sends = t.ring.reaped.countP Cqe.isSend ∧
        t.stats.sends = t.ring.reaped.countP Cqe.isSent + t.ring.copies.countP Option.isNone +
          t.ring.copies.countP lostCopy + t.stats.errors) := by
  have hrules := accounted_rules slotSize slots entries
  have hsat := (hrules.toRules.call_sat c (hrules.used hs)).reaches hr
  obtain ⟨slot, ph, ht⟩ := hsat.here
  refine ⟨?_, ht.sent.numbered, ht.balanced.copied, ht.balanced.notifs_le, ?_⟩
  · apply List.subperm_ext_iff.mpr
    intro x _
    have hwire := ht.sent.wire x
    omega
  · intro hq
    subst hq
    obtain ⟨-, slot, ht, -, hdrained⟩ := hsat
    have hcount := (ht.tracked.owned.inflightCount hslots).1
    rw [hdrained rfl] at hcount
    have hbusy : t.busy = [] := List.length_eq_zero_iff.mp hcount.symm
    obtain ⟨hsq, hsubmitted, -, hcq⟩ := ht.quiet hbusy
    have hsends := ht.balanced.sends
    have hcopies := ht.balanced.copies
    have herrors := ht.balanced.errors
    have hsplit := countP_split t.ring.reaped
    have hlengths := copies_split t.ring.copies
    simp only [hsq, hsubmitted, hcq, List.countP_nil, List.length_nil, Nat.add_zero] at hsends
    simp only [Phase.copies, Phase.errors, Nat.add_zero] at hcopies herrors
    refine ⟨ht.balanced.queued.symm, hsends, ?_⟩
    omega

end rules

/-! ## One datagram over one slot -/

theorem construct_returns {entries : ℕ} :
    Returns (kernel entries) (construct 1 1) (fun _ u => u = built 0 1 false) (members 0 1) := by
  apply Returns.bind
  apply Returns.modify
  rw [if_neg (by decide)]
  apply Returns.bind
  apply zc_returns (o := .queueInit (1 * 2)) (r := (0 : ℤ)) rfl
  rw [if_neg (by decide)]
  apply Returns.bind
  apply zc_returns (o := .registerBuffers) (r := (1 : ℤ)) rfl
  apply Returns.modify
  rfl

def oneQueued : State := { built 0 1 false with
  free := []
  slab := Function.update (fun _ => []) 0 [97]
  inflight := [some 1]
  stats := ⟨1, 0, 0, 0, 0⟩
  ring := ⟨[⟨0, 1, false, 0⟩], [], [], [], [(0, [97])], Function.update (fun _ => 0) 0 0, [], [], []⟩ }

theorem reserve_returns : Returns (kernel 2) (Call.run 1 1 .reserve)
    (fun _ u => u = { built 0 1 false with reserved := some 0, free := [] }) (built 0 1 false) := by
  apply Returns.bind
  apply Returns.round
  apply Returns.bind
  apply Returns.get
  apply Returns.bind
  apply Returns.modify
  exact Returns.ret (Returns.ret rfl)

theorem fill_returns : Returns (kernel 2) (Call.run 1 1 (.fill [97]))
    (fun _ u => u = { built 0 1 false with
      reserved := some 0, free := [], slab := Function.update (fun _ => []) 0 [97] })
    { built 0 1 false with reserved := some 0, free := [] } := by
  apply Returns.bind
  apply Returns.modify
  exact Returns.ret rfl

theorem commit_returns : Returns (kernel 2) (Call.run 1 1 (.commit 1)) (fun _ u => u = oneQueued)
    { built 0 1 false with
      reserved := some 0, free := [], slab := Function.update (fun _ => []) 0 [97] } := by
  apply Returns.bind
  apply Returns.bind
  apply Returns.get
  dsimp only
  rw [if_neg (by decide), if_neg (by decide)]
  apply Returns.bind
  apply Returns.bind
  apply zc_returns (o := .getSqe) (r := true) ⟨.refl, nofun⟩
  apply Returns.ret
  rw [if_pos rfl]
  apply Returns.bind
  apply Returns.modify
  exact Returns.ret (Returns.ret rfl)

def oneSubmitted : State := { oneQueued with
  ring := { oneQueued.ring with sq := [], submitted := [⟨0, 1, false, 0⟩] } }

def oneCompleted : State := { oneSubmitted with
  ring := { oneSubmitted.ring with
    submitted := []
    cq := [⟨0, 1, false, false⟩]
    wire := [(0, [97])] } }

theorem submit_returns : Returns (kernel 2) submitAll (fun _ u => u = oneSubmitted) oneQueued := by
  apply Returns.round
  apply Returns.bind
  apply Returns.get
  rw [if_pos (by decide)]
  apply Returns.bind
  apply zc_returns (o := .submit) (r := (1 : ℤ))
    ⟨oneQueued, .refl, .inr ⟨1, by decide, by decide, rfl, rfl⟩⟩
  rw [if_pos (by decide)]
  apply Returns.ret
  apply Returns.round
  apply Returns.bind
  apply Returns.get
  rw [if_neg (by decide)]
  exact Returns.ret rfl

theorem completes : Moves oneSubmitted oneCompleted :=
  Moves.complete (a := []) (b := []) (q := ⟨0, 1, false, 0⟩) 1 false [(0, [97])] rfl
    (.inr ⟨rfl, by decide⟩)

theorem reap_returns : Returns (kernel 2) reapReady
    (fun _ u => u.stats.sends = 1 ∧ u.inflightCount 1 = 0) oneSubmitted := by
  apply Returns.bind
  apply zc_returns (o := .peekCqe) (r := some ⟨0, 1, false, false⟩) ⟨.single completes, rfl⟩
  apply Returns.round
  dsimp only
  apply Returns.bind
  apply Returns.modify
  apply Returns.bind
  rw [reapOne, if_neg (by decide)]
  apply Returns.bind
  rw [markUnsupported, Prog.when, if_neg (by decide)]
  apply Returns.ret
  apply Returns.bind
  rw [sendError, if_neg (by decide), Prog.when, if_neg (by decide)]
  apply Returns.ret
  rw [Prog.when, if_pos rfl]
  apply Returns.modify
  apply Returns.bind
  apply zc_returns (o := .peekCqe) (r := none) ⟨.refl, rfl⟩
  apply Returns.ret
  apply Returns.round
  exact Returns.ret ⟨rfl, by decide⟩

theorem drain_returns : Returns (kernel 2) (Call.run 1 1 (.drain 0))
    (fun r u => r = .drained true ∧ u.stats.sends = 1) oneQueued := by
  apply Returns.bind
  apply Returns.bind
  apply Returns.bind
  refine submit_returns.mono ?_
  intro _ u hu
  subst hu
  refine reap_returns.mono ?_
  intro _ v hv
  apply Returns.round
  apply Returns.bind
  apply Returns.get
  rw [if_neg (by omega)]
  refine Returns.ret (Returns.ret ⟨?_, hv.1⟩)
  simp [hv.2]

/-- The letter is committed, sent and accounted for. -/
theorem datagram_accounting_letter : ∃ s t, Used (kernel 2) 1 1 s ∧
    Reaches (kernel 2) (Call.run 1 1 (.drain 0), s) (.ret (.drained true), t) ∧
    t.stats.sends = 1 ∧ t.stats.sends = t.ring.queued.length := by
  obtain ⟨_, s₀, hs₀, rfl⟩ : Returns (kernel 2) (construct 1 1) _ (members 0 1) := construct_returns
  obtain ⟨_, s₁, -, hs₁, rfl⟩ := Used.call (.start ⟨_, hs₀⟩) reserve_returns
  obtain ⟨_, s₂, -, hs₂, rfl⟩ := Used.call hs₁ fill_returns
  obtain ⟨_, s₃, -, hs₃, rfl⟩ := Used.call hs₂ commit_returns
  obtain ⟨r, t, hr, -, rfl, hone⟩ := Used.call hs₃ drain_returns
  have haccount := datagram_accounting (by decide) hs₃ hr
  exact ⟨oneQueued, t, hs₃, hr, hone, (haccount.2.2.2.2 rfl).1⟩

end Embr.ZcEgress
