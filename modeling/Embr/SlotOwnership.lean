import Embr.EgressRules
import Mathlib.Data.List.Nodup

/-!
# Who owns a slot

Each slot is free, reserved or held by a non-empty `inflight_` entry, and each
entry stands for one request whose final completion has not been reaped. While a
completion is being processed its slot may already have left the ring; `held`
is that slot.
-/

open Octets Interact
namespace Embr.ZcEgress

/-- The slots of the non-empty `inflight_` entries. -/
def State.busy (s : State) : List ℕ :=
  (List.range s.inflight.length).filter fun i => (s.inflight.getD i none).isSome

def Cqe.final (c : Cqe) : Bool := c.notif || !c.more

/-- The slots of the requests whose final completion has not been reaped. -/
def Ring.unreaped (r : Ring) : List ℕ :=
  r.sq.map Sqe.slot ++ r.submitted.map Sqe.slot ++ r.notifDue ++
    (r.cq.filter Cqe.final).map Cqe.slot

structure Owned (slots : ℕ) (s : State) : Prop where
  length : s.inflight.length = slots
  slots : (s.free ++ s.reserved.toList ++ s.busy).Perm (List.range slots)

structure Tracked (slots entries : ℕ) (slot : Option ℕ) (held : List ℕ) (s : State) :
    Prop where
  owned : Owned slots s
  reserved : s.reserved = slot
  requests : (s.ring.unreaped ++ held).Perm s.busy
  err : slots ≤ entries → s.err ≠ EAGAIN

def Phase.unreleased : Phase → List ℕ
  | .idle => []
  | .held c => if c.final then [c.slot] else []
  | .copying c => if c.final then [c.slot] else []
  | .lost c => if c.final then [c.slot] else []
  | .settled c => if c.final then [c.slot] else []

section lists
variable {s t : State} {i : ℕ}

theorem mem_busy : i ∈ s.busy ↔ ∃ n, s.inflight[i]? = some (some n) := by
  rw [State.busy, List.mem_filter, List.mem_range, List.getD_eq_getElem?_getD]
  by_cases hi : i < s.inflight.length
  · simp [hi, Option.isSome_iff_exists]
  · simp [hi]

theorem nodup_busy (s : State) : s.busy.Nodup := List.nodup_range.filter _

theorem busy_congr (h : t.inflight = s.inflight) : t.busy = s.busy := by
  rw [State.busy, State.busy, h]

theorem clear_of_idle (h : i ∉ s.busy) : s.clear i = s := by
  rw [State.clear]
  split
  · rename_i n hn
    exact (h (mem_busy.mpr ⟨n, hn⟩)).elim
  · rfl

theorem clear_of_busy (h : i ∈ s.busy) :
    s.clear i = { s with inflight := s.inflight.set i none, free := s.free ++ [i] } := by
  obtain ⟨n, hn⟩ := mem_busy.mp h
  rw [State.clear, hn]

theorem busy_set_none (h : i ∈ s.busy) (ht : t.inflight = s.inflight.set i none) :
    s.busy.Perm (i :: t.busy) := by
  obtain ⟨n, hn⟩ := mem_busy.mp h
  have hi : i < s.inflight.length := (List.getElem?_eq_some_iff.mp hn).1
  have hmem : ∀ j, j ∈ t.busy ↔ j ≠ i ∧ j ∈ s.busy := by
    intro j
    rw [mem_busy, mem_busy, ht]
    by_cases hj : i = j
    · subst hj
      simp [hi]
    · simp [List.getElem?_set_ne hj, Ne.symm hj]
  apply (List.perm_ext_iff_of_nodup (nodup_busy s) _).mpr
  · intro j
    rw [List.mem_cons, hmem]
    by_cases hj : j = i
    · simp [hj, h]
    · simp [hj]
  · apply List.nodup_cons.mpr
    refine ⟨fun hi' => ?_, nodup_busy t⟩
    exact ((hmem i).mp hi').1 rfl

theorem busy_set_some {n : ℕ} (h : i ∉ s.busy) (hi : i < s.inflight.length)
    (ht : t.inflight = s.inflight.set i (some n)) : t.busy.Perm (i :: s.busy) := by
  have hmem : ∀ j, j ∈ t.busy ↔ j = i ∨ j ∈ s.busy := by
    intro j
    rw [mem_busy, mem_busy, ht]
    by_cases hj : i = j
    · subst hj
      simp [hi]
    · simp [List.getElem?_set_ne hj, Ne.symm hj]
  apply (List.perm_ext_iff_of_nodup (nodup_busy t) _).mpr
  · intro j
    rw [List.mem_cons, hmem]
  · exact List.nodup_cons.mpr ⟨h, nodup_busy s⟩

end lists

section invariant
variable {slots entries : ℕ} {slot : Option ℕ} {held : List ℕ} {s t : State} {i n : ℕ}

namespace Owned

theorem congr (h : Owned slots s) (hf : t.free = s.free) (hi : t.inflight = s.inflight)
    (hr : t.reserved = s.reserved) : Owned slots t := by
  refine ⟨hi ▸ h.length, ?_⟩
  rw [busy_congr hi, hf, hr]
  exact h.slots

theorem count (h : Owned slots s) (i : ℕ) :
    s.free.count i + s.reserved.toList.count i + s.busy.count i = (List.range slots).count i := by
  rw [← h.slots.count_eq, List.count_append, List.count_append]

theorem nodup (h : Owned slots s) : (s.free ++ s.reserved.toList ++ s.busy).Nodup :=
  h.slots.nodup_iff.mpr List.nodup_range

theorem total (h : Owned slots s) :
    s.free.length + s.reserved.toList.length + s.busy.length = slots := by
  have hlen := h.slots.length_eq
  simp only [List.length_append, List.length_range] at hlen
  exact hlen

theorem reserved_lt (h : Owned slots s) (hr : s.reserved = some i) : i < slots := by
  have hmem : i ∈ s.free ++ s.reserved.toList ++ s.busy := by simp [hr]
  simpa using h.slots.mem_iff.mp hmem

theorem reserved_idle (h : Owned slots s) (hr : s.reserved = some i) : i ∉ s.busy := by
  have hdis := (List.nodup_append.mp h.nodup).2.2
  intro hbusy
  exact hdis i (by simp [hr]) i hbusy rfl

theorem inflightCount (h : Owned slots s) (hslots : slots < 2 ^ 32) :
    s.inflightCount slots = s.busy.length ∧
      s.free.length + (if s.reserved.isSome then 1 else 0) ≤ slots := by
  have htotal := h.total
  have hres : s.reserved.toList.length = if s.reserved.isSome then 1 else 0 := by
    cases s.reserved <;> rfl
  rw [hres] at htotal
  constructor
  · rw [State.inflightCount]
    split_ifs at htotal ⊢
    · omega
    · omega
  · omega

theorem clear (h : Owned slots s) (i : ℕ) : Owned slots (s.clear i) := by
  by_cases hi : i ∈ s.busy
  · rw [clear_of_busy hi]
    refine ⟨?_, ?_⟩
    · rw [List.length_set]
      exact h.length
    · have hperm := (busy_set_none hi (t := { s with
        inflight := s.inflight.set i none, free := s.free ++ [i] }) rfl).count_eq
      apply List.perm_iff_count.mpr
      intro j
      have hcount := h.count j
      have hj := hperm j
      simp only [List.count_append, List.count_cons, List.count_nil] at hj ⊢
      omega
  · rw [clear_of_idle hi]
    exact h

end Owned

namespace Tracked

theorem congr (h : Tracked slots entries slot held s) (hf : t.free = s.free)
    (hi : t.inflight = s.inflight) (hr : t.reserved = s.reserved)
    (hring : t.ring.unreaped.Perm s.ring.unreaped)
    (herr : t.err ≠ EAGAIN ∨ t.err = s.err) : Tracked slots entries slot held t := by
  refine ⟨h.owned.congr hf hi hr, hr.trans h.reserved, ?_, fun hle => ?_⟩
  · rw [busy_congr hi]
    exact (hring.append_right held).trans h.requests
  · rcases herr with herr | herr
    · exact herr
    · rw [herr]
      exact h.err hle

theorem latch (h : Tracked slots entries slot held s) {e : ℕ} (he : e ≠ EAGAIN) :
    Tracked slots entries slot held (s.latch e) := by
  rw [State.latch]
  split_ifs
  · exact h.congr rfl rfl rfl (List.Perm.refl _) (.inl he)
  · exact h

theorem clear (h : Tracked slots entries slot [i] s) : Tracked slots entries slot [] (s.clear i) := by
  have hi : i ∈ s.busy := by
    rw [← h.requests.mem_iff]
    simp
  have howned := h.owned.clear i
  refine ⟨howned, ?_, ?_, ?_⟩
  · rw [clear_of_busy hi]
    exact h.reserved
  · rw [clear_of_busy hi]
    have hperm := (busy_set_none hi (t := { s with
      inflight := s.inflight.set i none, free := s.free ++ [i] }) rfl).count_eq
    apply List.perm_iff_count.mpr
    intro j
    have hj := hperm j
    have hreq := h.requests.count_eq j
    simp only [List.count_append, List.count_cons, List.count_nil] at hj hreq ⊢
    omega
  · rw [clear_of_busy hi]
    exact h.err

theorem queued_lt (h : Tracked slots entries (some i) [] s) : s.ring.sq.length < slots := by
  have htotal := h.owned.total
  have hreq := h.requests.length_eq
  simp only [Ring.unreaped, List.length_append, List.length_map] at hreq
  have hone : s.reserved.toList.length = 1 := by
    rw [h.reserved]
    rfl
  omega

theorem enqueue (h : Tracked slots entries (some i) [] s) :
    Tracked slots entries none [] (s.enqueue i n) := by
  have hr := h.reserved
  have hidle := h.owned.reserved_idle hr
  have hlt : i < s.inflight.length := h.owned.length.symm ▸ h.owned.reserved_lt hr
  have hbusy : (s.enqueue i n).busy.Perm (i :: s.busy) := by
    apply busy_set_some hidle hlt
    rw [State.enqueue, clear_of_idle hidle]
  have hfree : (s.enqueue i n).free = s.free := by
    rw [State.enqueue, clear_of_idle hidle]
  have herr : (s.enqueue i n).err = s.err := by
    rw [State.enqueue, clear_of_idle hidle]
  refine ⟨⟨?_, ?_⟩, rfl, ?_, ?_⟩
  · rw [State.enqueue, clear_of_idle hidle]
    simpa using h.owned.length
  · apply List.perm_iff_count.mpr
    intro j
    have hcount := h.owned.count j
    have hj := hbusy.count_eq j
    have hnone : (s.enqueue i n).reserved = none := rfl
    rw [hr] at hcount
    rw [hfree, hnone]
    simp only [List.count_append, List.count_cons, List.count_nil, Option.toList_some,
      Option.toList_none] at hcount hj ⊢
    omega
  · apply List.perm_iff_count.mpr
    intro j
    have hreq := h.requests.count_eq j
    have hj := hbusy.count_eq j
    have hring : (s.enqueue i n).ring.unreaped.count j =
        s.ring.unreaped.count j + [i].count j := by
      simp only [State.enqueue, Ring.unreaped, List.map_append, List.map_cons, List.map_nil,
        List.count_append]
      omega
    simp only [List.count_append, List.count_cons, List.count_nil] at hreq hj hring ⊢
    omega
  · rw [herr]
    exact h.err

theorem reserve (h : Tracked slots entries none [] s) (hf : s.free.getLast? = some i) :
    Tracked slots entries (some i) [] { s with reserved := some i, free := s.free.dropLast } := by
  have hsplit : s.free = s.free.dropLast ++ [i] := (List.dropLast_append_getLast? i hf).symm
  refine ⟨⟨h.owned.length, ?_⟩, rfl, h.requests, h.err⟩
  have hslots := h.owned.slots
  rw [h.reserved, hsplit] at hslots
  simpa [State.busy] using hslots

theorem reserved_reaped (h : Tracked slots entries (some i) [] s) : i ∉ s.ring.unreaped := by
  intro hmem
  apply h.owned.reserved_idle h.reserved
  rw [← h.requests.mem_iff]
  simpa using hmem

end Tracked

end invariant

section specs
variable {slots entries slotSize n deadline : ℕ} {slot : Option ℕ} {held : List ℕ} {s t : State}
  {i : ℕ}

theorem Tracked.moves (h : Tracked slots entries slot held s) (hm : Moves s t) :
    Tracked slots entries slot held t := by
  cases hm with
  | complete res more sent hq hsent =>
    refine h.congr rfl rfl rfl (List.perm_iff_count.mpr ?_) (.inr rfl)
    intro j
    cases more <;>
      simp only [Ring.unreaped, hq, Cqe.final, List.map_append, List.map_cons, List.map_nil,
        List.filter_append, List.filter_cons, List.filter_nil, List.count_append, List.count_cons,
        List.count_nil, Bool.false_or, Bool.not_true, Bool.not_false, Bool.false_eq_true,
        if_true, if_false] <;> omega
  | notify res hi =>
    refine h.congr rfl rfl rfl (List.perm_iff_count.mpr ?_) (.inr rfl)
    intro j
    simp only [Ring.unreaped, hi, Cqe.final, List.map_append, List.map_cons, List.map_nil,
      List.filter_append, List.filter_cons, List.filter_nil, List.count_append, List.count_cons,
      List.count_nil, Bool.true_or, if_true]
    omega

theorem Tracked.idles (h : Tracked slots entries slot held s) (hm : Idles s t) :
    Tracked slots entries slot held t := by
  induction hm with
  | refl => exact h
  | tail _ hs ih => exact ih.moves hs

theorem Tracked.seen (h : Tracked slots entries slot [] s) {c : Cqe} (hc : s.ring.cq.head? = some c) :
    Tracked slots entries slot (if c.final then [c.slot] else []) s.seen := by
  obtain ⟨rest, hcq⟩ := List.head?_eq_some_iff.mp hc
  refine ⟨h.owned.congr rfl rfl rfl, h.reserved, List.perm_iff_count.mpr ?_, h.err⟩
  intro j
  have hreq := h.requests.count_eq j
  have hbusy : s.seen.busy = s.busy := rfl
  rw [hbusy, ← hreq]
  cases hfinal : c.final with
  | false =>
    simp only [State.seen, Ring.unreaped, hcq, hfinal, List.tail_cons, List.filter_cons,
      List.count_append, List.count_nil, if_false, Bool.false_eq_true]
  | true =>
    simp only [State.seen, Ring.unreaped, hcq, hfinal, List.tail_cons, List.filter_cons,
      List.map_cons, List.count_append, List.count_cons, List.count_nil, if_true]
    omega

theorem Tracked.counted (h : Tracked slots entries slot held s) (stats : Stats) :
    Tracked slots entries slot held { s with stats := stats } :=
  h.congr rfl rfl rfl (List.Perm.refl _) (.inr rfl)

theorem undone_busy (errno : ℕ) : (members errno slots).busy = [] := by
  apply List.filter_eq_nil_iff.mpr
  intro i hi
  have hlt : i < slots := by simpa [members] using hi
  simp [members, hlt]

theorem tracked_built (errno : ℕ) (registered : Bool) :
    Tracked slots entries none [] (built errno slots registered) := by
  have hbusy : (built errno slots registered).busy = [] := undone_busy errno
  refine ⟨⟨?_, ?_⟩, rfl, ?_, ?_⟩
  · exact List.length_replicate
  · rw [hbusy]
    change ((List.range slots).reverse ++ [] ++ []).Perm (List.range slots)
    simp [List.reverse_perm]
  · rw [hbusy]
    rfl
  · intro _
    change 0 ≠ EAGAIN
    decide

theorem Tracked.onRing (h : Tracked slots entries slot [] s) {o : Op} {r : o.Reply}
    (ho : o.onRing) (hr : kernel entries o s r t) : Tracked slots entries slot [] t := by
  cases o with
  | getSqe => exact h.idles hr.1
  | waitCqe => exact h.idles hr.1
  | peekCqe => exact h.idles hr.1
  | waitCqeTimeout => exact h.idles hr
  | now =>
    have ht : t = s := hr
    rw [ht]
    exact h
  | submit =>
    obtain ⟨v, hidle, ht⟩ := hr
    have hv := h.idles hidle
    rcases ht with ⟨-, rfl⟩ | ⟨k, -, -, -, rfl⟩
    · exact hv
    · refine hv.congr rfl rfl rfl (List.perm_iff_count.mpr ?_) (.inr rfl)
      intro j
      have hsplit := congrArg (fun q => (q.map Sqe.slot).count j)
        (List.take_append_drop k v.ring.sq)
      simp only [Ring.unreaped, List.map_append, List.count_append] at hsplit ⊢
      omega
  | queueInit n => exact ho.elim
  | registerBuffers => exact ho.elim
  | send slot buf => exact ho.elim

theorem Tracked.copyLost (h : Tracked slots entries slot held s) :
    Tracked slots entries slot held s.copyLost := by
  rw [State.copyLost]
  split_ifs with hfatal
  · exact (h.latch hfatal.1).counted _
  · exact h

theorem Tracked.failed (h : Tracked slots entries slot held s) {res : ℤ} (hr : ¬ refused res)
    (hneg : res < 0) : Tracked slots entries slot held (s.failed res) := by
  have he : (-res).toNat ≠ EAGAIN := by
    intro he
    apply hr
    have hagain : ((-res).toNat : ℤ) = EAGAIN := congrArg Nat.cast he
    right; right; left
    omega
  exact (h.latch he).counted _

theorem tracked_rules (slotSize slots entries : ℕ) :
    Invariant (kernel entries) slotSize slots
      (fun slot ph s => Tracked slots entries slot ph.unreleased s) where
  built := tracked_built _ _
  setup := by
    intro o s r t ho hr
    rcases ho with rfl | ⟨n, rfl⟩
    · exact hr
    · exact hr
  reserved h := h.reserved
  errno h e := h.congr rfl rfl rfl (List.Perm.refl _) (.inr rfl)
  fill h bs := h.congr rfl rfl rfl (List.Perm.refl _) (.inr rfl)
  ring ho hr h := h.onRing ho hr
  head hr := hr.2
  waited hr := hr.2
  submitFailed := by
    intro s t slot r _ hneg _ hagain h
    apply h.latch
    intro he
    apply hagain
    have hcast : ((-r).toNat : ℤ) = EAGAIN := congrArg Nat.cast he
    omega
  full := by
    intro s t i hr h
    have hshort := h.queued_lt
    have hlong := hr.2 rfl
    refine ⟨h.owned.congr rfl rfl rfl, h.reserved, h.requests, fun hle => ?_⟩
    omega
  seen hc h := h.seen hc
  notified := by
    intro s slot c hn h
    have hfinal : c.final = true := by simp [Cqe.final, hn]
    rw [Phase.unreleased, hfinal] at h
    exact h.clear.counted _
  unsupported _ h := h.congr rfl rfl rfl (List.Perm.refl _) (.inr rfl)
  fellBack _ _ h := h.counted _
  copied := by
    intro s t slot c n hr h
    rcases hr with ⟨-, rfl⟩ | ⟨hnone, -⟩
    · exact h.congr rfl rfl rfl (List.Perm.refl _) (.inr rfl)
    · cases hnone
  lost := by
    intro s t slot c hr h
    rcases hr with ⟨hsome, -⟩ | ⟨-, e, -, rfl⟩
    · cases hsome
    · exact h.congr rfl rfl rfl (List.Perm.refl _) (.inr rfl)
  copyLost h := h.copyLost
  failed _ hr hneg h := h.failed hr hneg
  sent _ _ _ h := h
  clear := by
    intro s slot c hn hmore h
    have hfinal : c.final = true := by simp [Cqe.final, hmore]
    rw [Phase.unreleased, hfinal] at h
    exact h.clear
  more := by
    intro s slot c hn hmore h
    have hfinal : c.final = false := by simp [Cqe.final, hn, hmore]
    rw [Phase.unreleased, hfinal] at h
    exact h
  reserve hf h := h.reserve hf
  enqueue _ _ h := h.enqueue

end specs

section calls
variable {slotSize slots entries : ℕ} {s t : State} {c : Call} {q : Prog Zc Outcome}

/-- At every point of every run each slot has one owner, `inflight()` counts the
non-empty entries, and a slot that `reserve` returns has no completion outstanding. -/
theorem slot_ownership (hslots : slots < 2 ^ 32) (hs : Used (kernel entries) slotSize slots s)
    (hr : Reaches (kernel entries) (c.run slotSize slots, s) (q, t)) :
    (t.free ++ t.reserved.toList ++ t.busy).Perm (List.range slots) ∧
      t.inflightCount slots = t.busy.length ∧
      t.free.length + (if t.reserved.isSome then 1 else 0) ≤ slots ∧
      ∀ i, q = .ret (.slot (some i)) → t.reserved = some i ∧ i ∉ t.ring.unreaped := by
  have hrules := tracked_rules slotSize slots entries
  have hsat := (hrules.toRules.call_sat c (hrules.used hs)).reaches hr
  obtain ⟨slot, held, ht⟩ := hsat.here
  obtain ⟨hcount, hle⟩ := ht.owned.inflightCount hslots
  refine ⟨ht.owned.slots, hcount, hle, ?_⟩
  intro i hi
  subst hi
  obtain ⟨-, slot, ht, hslot, -⟩ := hsat
  have hsome := hslot i rfl
  subst hsome
  exact ⟨ht.reserved, ht.reserved_reaped⟩

end calls

theorem zc_returns {entries : ℕ} {o : Op} {r : o.Reply} {Q : o.Reply → State → Prop}
    {s t : State} (he : kernel entries o s r t) (h : Q r t) :
    Returns (kernel entries) (zc o) Q s := Returns.ask he h

theorem Used.call {slotSize slots : ℕ} {E : Env Zc} {s : State} {c : Call}
    {Q : Outcome → State → Prop} (hs : Used E slotSize slots s)
    (h : Returns E (c.run slotSize slots) Q s) :
    ∃ r t, Reaches E (c.run slotSize slots, s) (.ret r, t) ∧ Used E slotSize slots t ∧ Q r t := by
  obtain ⟨r, t, hr, hq⟩ := h
  exact ⟨r, t, hr, .next hs ⟨c, rfl⟩ hr trivial, hq⟩

def twoReserved : State := { built 0 2 false with reserved := some 0, free := [1] }

def twoQueued : State := twoReserved.enqueue 0 1

def twoSubmitted : State := { twoQueued with
  ring := { twoQueued.ring with sq := [], submitted := twoQueued.ring.sq } }

theorem two_construct : Returns (kernel 4) (construct 1 2) (fun _ u => u = built 0 2 false)
    (members 0 2) := by
  apply Returns.bind
  apply Returns.modify
  rw [if_neg (by decide)]
  apply Returns.bind
  apply zc_returns (o := .queueInit (2 * 2)) (r := (0 : ℤ)) rfl
  rw [if_neg (by decide)]
  apply Returns.bind
  apply zc_returns (o := .registerBuffers) (r := (1 : ℤ)) rfl
  apply Returns.modify
  rfl

theorem two_reserve {s : State} {i : ℕ} (hreserved : s.reserved = none)
    (hfree : s.free.getLast? = some i) : Returns (kernel 4) (Call.run 1 2 .reserve)
      (fun r u => r = .slot (some i) ∧
        u = { s with reserved := some i, free := s.free.dropLast }) s := by
  apply Returns.bind
  apply Returns.round
  apply Returns.bind
  apply Returns.get
  rw [hreserved]
  dsimp only
  rw [hfree]
  apply Returns.bind
  apply Returns.modify
  exact Returns.ret (Returns.ret ⟨rfl, rfl⟩)

theorem two_commit : Returns (kernel 4) (Call.run 1 2 (.commit 1)) (fun _ u => u = twoQueued)
    twoReserved := by
  apply Returns.bind
  apply Returns.bind
  apply Returns.get
  dsimp only [twoReserved]
  rw [if_neg (by decide), if_neg (by decide)]
  apply Returns.bind
  apply Returns.bind
  apply zc_returns (o := .getSqe) (r := true) ⟨.refl, nofun⟩
  apply Returns.ret
  rw [if_pos rfl]
  apply Returns.bind
  apply Returns.modify
  exact Returns.ret (Returns.ret rfl)

theorem two_flush : Returns (kernel 4) (Call.run 1 2 .flush) (fun _ u => u = twoSubmitted)
    twoQueued := by
  apply Returns.bind
  apply Returns.bind
  apply Returns.round
  apply Returns.bind
  apply Returns.get
  rw [if_pos (by decide)]
  apply Returns.bind
  apply zc_returns (o := .submit) (r := (1 : ℤ))
    ⟨twoQueued, .refl, .inr ⟨1, by decide, by decide, rfl, rfl⟩⟩
  rw [if_pos (by decide)]
  apply Returns.ret
  apply Returns.round
  apply Returns.bind
  apply Returns.get
  rw [if_neg (by decide)]
  apply Returns.ret
  apply Returns.bind
  apply zc_returns (o := .peekCqe) (r := none) ⟨.refl, rfl⟩
  apply Returns.round
  exact Returns.ret (Returns.ret rfl)

/-- The second slot is handed out while the kernel sends from the first. -/
theorem slot_ownership_two : ∃ s t, Used (kernel 4) 1 2 s ∧
    Reaches (kernel 4) (Call.run 1 2 .reserve, s) (.ret (.slot (some 1)), t) ∧
    t.busy = [0] ∧ 0 ∈ t.ring.unreaped ∧ 1 ∉ t.ring.unreaped := by
  obtain ⟨_, s₀, hs₀, rfl⟩ : Returns (kernel 4) (construct 1 2) _ (members 0 2) := two_construct
  obtain ⟨_, s₁, -, hs₁, -, rfl⟩ := Used.call (.start ⟨_, hs₀⟩) (two_reserve (i := 0) rfl rfl)
  obtain ⟨_, s₂, -, hs₂, rfl⟩ := Used.call hs₁ two_commit
  obtain ⟨_, s₃, -, hs₃, rfl⟩ := Used.call hs₂ two_flush
  obtain ⟨_, t, ht, -, rfl, rfl⟩ := Used.call hs₃ (two_reserve (i := 1) rfl rfl)
  refine ⟨twoSubmitted, _, hs₃, ht, by decide, by decide, ?_⟩
  obtain ⟨-, -, -, hfresh⟩ := slot_ownership (by decide) hs₃ ht
  exact (hfresh 1 rfl).2

end Embr.ZcEgress
