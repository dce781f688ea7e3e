import Embr.StreamBytes
import Embr.Framing
import Embr.Lib.Trace

/-!
# Receiving on a connection that has ended

`recv` gives up without setting `errno`, and `recv_exact` reads it. `recv_file`
gives up where `pump_once` does, whatever the pump delivered.
-/

open Octets Interact
open Embr.Protocol (HEADER_SIZE)
namespace Embr.QuicTransport

structure Ended (s : Store) : Prop where
  closed : s.closed = true
  empty : s.recvBuf = []
  open_ : s.finReceived = false

section ended
variable {E : Env Quic} {s : Store}

theorem Ended.recv (h : Ended s) (len : ℕ) :
    Trace E (QuicTransport.recv len) s [] (.ret none) s := by
  have hawait : Shows E awaitData [] (fun _ t => t = s) s := by
    apply Shows.last
    apply Shows.get_bind
    rw [if_neg (by simp [h.closed])]
    exact Shows.ret ⟨(), rfl, rfl⟩
  have hrecv : Shows E (QuicTransport.recv len) [] (fun r t => r = none ∧ t = s) s := by
    apply Shows.bind_nil
    refine hawait.mono ?_
    intro _ t ht
    subst ht
    apply Shows.get_bind
    rw [if_neg (by simp [h.empty]), if_neg (by simp [h.open_])]
    exact Shows.ret ⟨rfl, rfl⟩
  obtain ⟨_, _, hrun, rfl, rfl⟩ := hrecv
  exact hrun

theorem Ended.recvExact_spins (h : Ended s) {len : ℕ} (hlen : 0 < len) (herrno : s.errno = EAGAIN) :
    Spins E (recvExact quicTransport len) s := by
  apply Spins.round
  rw [if_pos (by simpa using hlen)]
  apply Trace.reaches (l := [])
  apply (h.recv _).andThen
  apply Trace.get_bind
  rw [if_pos (.inl herrno)]
  exact .done

theorem Ended.recvExact_raises (h : Ended s) {len : ℕ} (hlen : 0 < len)
    (herrno : s.errno ≠ EAGAIN) : Trace E (recvExact quicTransport len) s []
      (.raise (.systemError "recv exact: recv failed: " s.errno)) s := by
  have hstop : ¬ (quicTransport.errno s = EAGAIN ∨ quicTransport.errno s = EWOULDBLOCK) :=
    fun hagain => herrno (or_self_iff.mp hagain)
  apply Trace.round
  rw [if_pos (by simpa using hlen)]
  apply (h.recv _).andThen
  apply Trace.get_bind
  rw [if_neg hstop]
  exact .done

theorem Ended.recvExact_throws (h : Ended s) {len : ℕ} (hlen : 0 < len) {α : Type}
    (g : Bytes → Prog Quic α) :
    Throws E (recvExact quicTransport len >>= g) s ↔ s.errno ≠ EAGAIN := by
  constructor
  · intro hthrows herrno
    exact Throws.not_of_spins ((h.recvExact_spins hlen herrno).bind g) hthrows
  · intro herrno
    exact Throws.of_silent (h.recvExact_raises hlen herrno).raise_bind (Throws.raise _)

end ended

/-- On a connection that has ended `recv_exact`, and `recv_msg` with it, throws
if the `errno` left behind is not that of a call that would block, and goes round
for ever if it is. -/
theorem recv_on_closed (E : Env Quic) {s : Store} (h : Ended s) :
    (∀ len, Throws E (recvExact quicTransport len) s ↔
      0 < len ∧ s.errno ≠ EAGAIN ∧ s.errno ≠ EWOULDBLOCK) ∧
    (Throws E (recvMsg quicTransport) s ↔ s.errno ≠ EAGAIN ∧ s.errno ≠ EWOULDBLOCK) := by
  have hboth : s.errno ≠ EAGAIN ∧ s.errno ≠ EWOULDBLOCK ↔ s.errno ≠ EAGAIN := and_self_iff
  rw [hboth]
  constructor
  · intro len
    rcases Nat.eq_zero_or_pos len with rfl | hlen
    · refine iff_of_false (Throws.not_of_returns (a := []) (t := s) ?_) (fun h => nomatch h.1)
      exact .single (.loop _ _ _ _)
    · have hthrows := h.recvExact_throws (E := E) hlen pure
      rw [bind_pure] at hthrows
      rw [hthrows, and_iff_right hlen]
  · exact h.recvExact_throws (by decide) _

def timedOut (e : ℕ) : Store := { opened with errno := e, closed := true }

theorem timedOut_history (entries : ℕ) {e : ℕ} (he : softErrno e) :
    ∃ h, History (world entries) Call.run Fresh h (timedOut e) := by
  have hawait : Returns (world entries) awaitData (fun _ t => t = timedOut e) opened := by
    apply Returns.round
    apply Returns.bind
    apply Returns.get
    rw [if_pos ⟨rfl, rfl, rfl⟩]
    apply Returns.bind
    apply pumpOnce_returns rfl
    apply Returns.bind
    refine quic_returns (o := .recvmsg) (t := { opened with errno := e }) none (.inr ⟨rfl, e, rfl⟩) ?_
    apply Returns.bind
    apply Returns.get
    apply Returns.ret
    rw [if_pos (by simpa using he)]
    refine idleTimer_returns.mono ?_
    intro ok t ht
    obtain ⟨rfl, rfl⟩ := ht
    rw [if_neg Bool.false_ne_true]
    exact Returns.ret rfl
  have hrecv : Returns (world entries) (Call.recv 1).run (fun _ t => t = timedOut e) opened := by
    apply Returns.bind
    apply Returns.bind
    refine hawait.mono ?_
    intro _ t ht
    subst ht
    apply Returns.bind
    apply Returns.get
    exact Returns.ret (Returns.ret rfl)
  obtain ⟨_, _, hr, rfl⟩ := hrecv
  exact ⟨_, opened_history.returned (Call.recv 1) hr⟩

/-- A read that would block leaves the `errno` on which `recv_exact` spins. -/
theorem recv_on_closed_spins : ∃ h s, History (world 128) Call.run Fresh h s ∧
    s.closed = true ∧ s.recvBuf = [] ∧ s.finReceived = false ∧
    ¬ Throws (world 128) (recvExact quicTransport HEADER_SIZE) s ∧
    ¬ Throws (world 128) (recvMsg quicTransport) s := by
  obtain ⟨h, hh⟩ := timedOut_history 128 (.inl rfl : softErrno EAGAIN)
  have hended : Ended (timedOut EAGAIN) := ⟨rfl, rfl, rfl⟩
  have hspins : Spins (world 128) (recvExact quicTransport HEADER_SIZE) (timedOut EAGAIN) :=
    hended.recvExact_spins (by decide) rfl
  exact ⟨h, _, hh, rfl, rfl, rfl, Throws.not_of_spins hspins, Throws.not_of_spins (hspins.bind _)⟩

/-- A refused read leaves one on which it throws. -/
theorem recv_on_closed_refused : ∃ h s, History (world 128) Call.run Fresh h s ∧
    s.closed = true ∧ s.errno = ECONNREFUSED ∧
    Throws (world 128) (recvExact quicTransport HEADER_SIZE) s ∧
    Throws (world 128) (recvMsg quicTransport) s := by
  obtain ⟨h, hh⟩ := timedOut_history 128 (.inr (.inr (.inl rfl)) : softErrno ECONNREFUSED)
  have hboth := recv_on_closed (world 128) (⟨rfl, rfl, rfl⟩ : Ended (timedOut ECONNREFUSED))
  exact ⟨h, _, hh, rfl, rfl, (hboth.1 _).mpr ⟨by decide, by decide, by decide⟩,
    hboth.2.mpr ⟨by decide, by decide⟩⟩

/-- Of `len` bytes some have neither been buffered at `i₀` nor been delivered since. -/
def Missing (i₀ : Incoming) (len : ℕ) (i : Incoming) : Prop :=
  i₀.recvBuf.length + (i.delivered.length - i₀.delivered.length) < len

structure Counted (i₀ : Incoming) (len : ℕ) (i : Incoming) : Prop where
  dest : ∃ dest, i.recvDest = some dest
  size : i.recvDestLen = len
  le : i.recvDestGot ≤ len
  short : i.recvDestGot < len → i.recvBuf = []
  grown : i₀.delivered.length ≤ i.delivered.length
  count : i.recvDestGot + i.recvBuf.length =
    i₀.recvBuf.length + (i.delivered.length - i₀.delivered.length)

section counted
variable {i₀ i : Incoming} {len : ℕ}

theorem Counted.missing (h : Counted i₀ len i) : i.recvDestGot < len ↔ Missing i₀ len i := by
  have hcount := h.count
  rw [Missing, ← hcount]
  constructor
  · intro hlt
    rw [h.short hlt]
    exact hlt
  · intro hlt
    omega

theorem copyTo_files (i : Incoming) (dest : ℕ × ℕ) (pos : ℕ) (bs : Bytes) :
    ∃ f, i.copyTo dest pos bs = { i with files := f } := by
  rw [Incoming.copyTo]
  split
  · exact ⟨_, rfl⟩
  · exact ⟨i.files, rfl⟩

theorem counted_stable (i₀ : Incoming) (len : ℕ) : Incoming.Stable (Counted i₀ len) where
  recv := by
    intro i fin data h
    obtain ⟨dest, hdest⟩ := h.dest
    have hsize := h.size
    have hle := h.le
    have hgrown := h.grown
    have hcount := h.count
    rw [Incoming.onRecvStreamData, hdest]
    dsimp only
    split_ifs with hbuf
    · obtain ⟨f, hf⟩ := copyTo_files i dest i.recvDestGot
        (data.take (min data.length (i.recvDestLen - i.recvDestGot)))
      rw [Incoming.land, hf]
      rw [hbuf, List.length_nil] at hcount
      refine ⟨⟨dest, hdest⟩, hsize, ?_, ?_, ?_, ?_⟩
      · simp only [Incoming.queue]
        omega
      · simp only [Incoming.queue]
        intro hlt
        rw [hbuf, List.nil_append, List.drop_eq_nil_iff]
        omega
      · simp only [Incoming.queue, List.length_append]
        omega
      · simp only [Incoming.queue, hbuf, List.nil_append, List.length_append, List.length_drop]
        omega
    · have hfull : ¬ i.recvDestGot < len := fun hlt => hbuf (h.short hlt)
      refine ⟨⟨dest, hdest⟩, hsize, hle, fun hlt => (hfull hlt).elim, ?_, ?_⟩
      · simp only [Incoming.queue, List.length_append]
        omega
      · simp only [Incoming.queue, List.length_append]
        omega
  opened := by
    intro i streamId h
    exact ⟨h.dest, h.size, h.le, h.short, h.grown, h.count⟩

theorem counted_mapFile (i₀ : Incoming) (m : Mapping) (delta len : ℕ) :
    Counted i₀ len (i₀.mapFile m delta len) := by
  rw [Incoming.mapFile, Incoming.expect]
  obtain ⟨f, hf⟩ := copyTo_files { i₀ with maps := i₀.maps ++ [some m] } (i₀.maps.length, delta) 0
    (i₀.recvBuf.take len)
  rw [hf]
  refine ⟨⟨_, rfl⟩, rfl, Nat.min_le_left _ _, ?_, le_refl _, ?_⟩
  · intro hlt
    have hlt : min len i₀.recvBuf.length < len := hlt
    change i₀.recvBuf.drop len = []
    rw [List.drop_eq_nil_iff]
    omega
  · change min len i₀.recvBuf.length + (i₀.recvBuf.drop len).length =
      i₀.recvBuf.length + (i₀.delivered.length - i₀.delivered.length)
    rw [List.length_drop]
    omega

end counted

def fileMapping (fd : Path) (offset len page : ℕ) : Mapping :=
  ⟨fd, pageBase offset page, len + (offset - pageBase offset page)⟩

def mapRange (fd : Path) (offset len page : ℕ) (s : Store) : Store :=
  { s with toIncoming :=
      s.toIncoming.mapFile (fileMapping fd offset len page) (offset - pageBase offset page) len }

/-- `mmap` is asked for the range and answers `ok`. -/
def Maps (E : Env Quic) (fd : Path) (offset len : ℕ) (s : Store) (ok : Bool) (page : ℕ) (t : Store) :
    Prop := ∃ u, E .pagesize s page u ∧
  E (.mmapShared fd (pageBase offset page) (len + (offset - pageBase offset page))) u ok t

/-- The wait goes on. -/
def Lacking (len : ℕ) (s : Store) : Prop :=
  s.recvDestGot < len ∧ ¬ (s.finReceived = true ∨ s.closed = true)

/-- Where a `recv_file` waits, before each of its pumps. -/
inductive Waits (E : Env Quic) (fd : Path) (offset len : ℕ) (s : Store) : Store → Prop where
  | mapped {page : ℕ} {t : Store} : Maps E fd offset len s true page t →
      Waits E fd offset len s (mapRange fd offset len page t)
  | pumped {u v : Store} : Waits E fd offset len s u → Lacking len u →
      Reaches E (pumpOnce never, u) (.ret true, v) → Waits E fd offset len s v

section waits
variable {entries : ℕ} {E : Env Quic} {fd : Path} {offset len : ℕ} {s t u v : Store}

theorem awaitFile_again (hlack : Lacking len u) (hpump : Reaches E (pumpOnce never, u) (.ret true, v)) :
    Reaches E (awaitFile len, u) (awaitFile len, v) := by
  obtain ⟨l, hl⟩ := Trace.of_reaches hpump
  apply Trace.reaches (l := l)
  apply Trace.again
  apply Trace.get_bind
  rw [if_pos hlack.1, if_neg hlack.2]
  exact hl.into

theorem awaitFile_fails (hlack : Lacking len u) (hpump : Reaches E (pumpOnce never, u) (.ret false, v)) :
    Reaches E (awaitFile len, u)
      (.raise (.runtimeError "QuicTransport::recv_file: pump failed"), v) := by
  obtain ⟨l, hl⟩ := Trace.of_reaches hpump
  apply Trace.reaches (l := l)
  apply Trace.round
  apply Trace.get_bind
  rw [if_pos hlack.1, if_neg hlack.2]
  exact hl.into

def whenMapped (len map : ℕ) : Prog Quic Unit := do
  let r ← (awaitFile len).attempt
  .modify fun s => { s with toIncoming := s.toIncoming.unmap map }
  System.lift r

theorem recvFile_mapped {page : ℕ} (hlen : 0 < len) (hmap : Maps E fd offset len s true page t) :
    Reaches E (recvFile fd offset len, s)
      (whenMapped len t.maps.length, mapRange fd offset len page t) := by
  obtain ⟨u, hpage, hmap⟩ := hmap
  rw [recvFile, if_neg (by omega)]
  exact .head (.call hpage) (.head (.call hmap) (.single (.act _ _ _)))

theorem recvFile_refused {page : ℕ} (hlen : 0 < len) (hmap : Maps E fd offset len s false page t) :
    ∃ e, Reaches E (recvFile fd offset len, s) (.raise e, t) := by
  obtain ⟨u, hpage, hmap⟩ := hmap
  rw [recvFile, if_neg (by omega)]
  exact ⟨_, .head (.call hpage) (.head (.call hmap) (.single (.act _ _ _)))⟩

theorem Waits.reaches (h : Waits E fd offset len s u) (hlen : 0 < len) :
    ∃ map, Reaches E (recvFile fd offset len, s) (whenMapped len map, u) := by
  induction h with
  | mapped hmap => exact ⟨_, recvFile_mapped hlen hmap⟩
  | pumped _ hlack hpump ih =>
    obtain ⟨map, hr⟩ := ih
    exact ⟨map, hr.trans ((awaitFile_again hlack hpump).attempt.bind _)⟩

theorem Waits.fails (h : Waits E fd offset len s u) (hlen : 0 < len) (hlack : Lacking len u)
    (hpump : Reaches E (pumpOnce never, u) (.ret false, v)) :
    ∃ e map, Reaches E (recvFile fd offset len, s)
      (.raise e, { v with toIncoming := v.toIncoming.unmap map }) := by
  obtain ⟨map, hr⟩ := h.reaches hlen
  have hfails := ((awaitFile_fails hlack hpump).attempt.bind fun r => do
    .modify fun s => { s with toIncoming := s.toIncoming.unmap map }
    System.lift r)
  exact ⟨_, map, (hr.trans hfails).tail (.act _ _ _)⟩

theorem awaitFile_missing (hE : ∀ o s r t, E o s r t → world entries o s r t)
    (hpumps : ∀ u v, Waits E fd offset len s u → Lacking len u →
      Reaches E (pumpOnce never, u) (.ret false, v) → Missing s.toIncoming len v.toIncoming)
    (hu : Sound entries (fun _ => True) (Counted s.toIncoming len) u)
    (hwaits : Waits E fd offset len s u) :
    Sat E (fun _ _ => True) (fun _ v => Missing s.toIncoming len v.toIncoming) (awaitFile len)
      (fun _ _ => True) u := by
  apply Sat.round (fun _ v => Sound entries (fun _ => True) (Counted s.toIncoming len) v ∧
    Waits E fd offset len s v)
  · exact ⟨hu, hwaits⟩
  intro _ v hv
  obtain ⟨hv, hwaits⟩ := hv
  refine ⟨trivial, sat_get_bind.mpr ⟨trivial, ?_⟩⟩
  split_ifs with hshort hended
  · exact sat_raise.mpr ⟨trivial, hv.inc.missing.mp hshort⟩
  · have hpump : Sat E (Points (fun _ => True) (Counted s.toIncoming len)) _ (pumpOnce never) _ v :=
      pumpOnce_sat (X := fun _ (w : Store) => Missing s.toIncoming len w.toIncoming) hE
        (fun _ _ _ _ => trivial) (counted_stable _ len) never hv
    refine Sat.seq hpump.reached (fun _ _ _ => trivial) ?_
    intro ok w hw
    obtain ⟨hw, hran⟩ := hw
    cases ok with
    | true => exact sat_pure.mpr ⟨trivial, hw, hwaits.pumped ⟨hshort, hended⟩ hran⟩
    | false => exact sat_raise.mpr ⟨trivial, hpumps v w hwaits ⟨hshort, hended⟩ hran⟩
  · exact sat_pure.mpr ⟨trivial, trivial, trivial⟩

theorem recvFile_missing (hE : ∀ o s r t, E o s r t → world entries o s r t)
    (hmap : ∀ page t, Maps E fd offset len s false page t → s.recvBuf.length < len)
    (hpumps : ∀ u v, Waits E fd offset len s u → Lacking len u →
      Reaches E (pumpOnce never, u) (.ret false, v) → Missing s.toIncoming len v.toIncoming)
    (hs : Sound entries (fun _ => True) (fun _ => True) s) :
    Sat E (fun _ _ => True) (fun _ v => Missing s.toIncoming len v.toIncoming)
      (recvFile fd offset len) (fun _ _ => True) s := by
  rw [recvFile]
  split_ifs
  · exact sat_pure.mpr ⟨trivial, trivial⟩
  refine sat_ask_bind.mpr ⟨trivial, ?_⟩
  intro page t hpage
  have ht := hE _ _ _ _ hpage
  subst ht
  refine sat_ask_bind.mpr ⟨trivial, ?_⟩
  intro ok u hok
  rcases hE _ _ _ _ hok with ⟨rfl, rfl⟩ | ⟨rfl, e, rfl⟩
  · have hcounted := hs.inc_of (counted_mapFile u.toIncoming (fileMapping fd offset len page)
      (offset - pageBase offset page) len)
    have hwaits := Waits.mapped ⟨_, hpage, hok⟩
    refine ⟨trivial, ?_⟩
    change Sat E _ _ ((awaitFile len).attempt >>= _) _ _
    refine Sat.andThen (awaitFile_missing hE hpumps hcounted hwaits).attempt ?_
    intro r v hv
    refine sat_modify_bind.mpr ⟨trivial, ?_⟩
    cases r with
    | ok _ => exact sat_pure.mpr ⟨trivial, trivial⟩
    | error e => exact sat_raise.mpr ⟨trivial, hv.2⟩
  · have hshort := hmap page _ ⟨_, hpage, hok⟩
    exact throwErrno_sat _ trivial fun _ => by simpa [Missing] using hshort

end waits

/-- `recv_file` throws only for want of bytes, unless `mmap` is refused with all of
them buffered or a pump fails in the cycle in which it delivered the last. -/
theorem recvFile_throws_short {entries : ℕ} {h : List Past} {s : Store} {E : Env Quic}
    (hh : History (world entries) Call.run Fresh h s)
    (hE : ∀ o s r t, E o s r t → world entries o s r t) (fd : Path) (offset len : ℕ) :
    (∀ e t, Reaches E (recvFile fd offset len, s) (.raise e, t) →
      Missing s.toIncoming len t.toIncoming) ↔
    (0 < len → (∀ page t, Maps E fd offset len s false page t → s.recvBuf.length < len) ∧
      ∀ u v, Waits E fd offset len s u → Lacking len u →
        Reaches E (pumpOnce never, u) (.ret false, v) → Missing s.toIncoming len v.toIncoming) := by
  have hsound := (history_kept hh).sound
  have hs : Sound entries (fun _ => True) (fun _ => True) s :=
    ⟨trivial, trivial, hsound.ring, hsound.init⟩
  constructor
  · intro hthrows hlen
    constructor
    · intro page t hmap
      obtain ⟨e, hr⟩ := recvFile_refused hlen hmap
      have hmissing := hthrows e t hr
      obtain ⟨u, hpage, hmap⟩ := hmap
      have hu := hE _ _ _ _ hpage
      subst hu
      rcases hE _ _ _ _ hmap with ⟨hok, -⟩ | ⟨-, e, rfl⟩
      · cases hok
      · exact lt_of_le_of_lt (Nat.le_add_right _ _) hmissing
    · intro u v hwaits hlack hpump
      obtain ⟨e, map, hr⟩ := hwaits.fails hlen hlack hpump
      have hmissing := hthrows e _ hr
      exact hmissing
  · intro hmeets e t hr
    rcases Nat.eq_zero_or_pos len with rfl | hlen
    · have hnone : Sat E (fun _ _ => True) (fun _ _ => False) (recvFile fd offset 0)
          (fun _ _ => True) s := sat_pure.mpr ⟨trivial, trivial⟩
      exact (hnone.raised hr).elim
    · obtain ⟨hmap, hpumps⟩ := hmeets hlen
      exact (recvFile_missing hE hmap hpumps hs).raised hr

def letterAwaited : Store := mapRange [] 0 1 4096 opened

def letterLanded : Store := (Event.recvStreamData false 0 [104]).handle letterAwaited

theorem letter_mapped : Maps (world 128) [] 0 1 opened true 4096 opened :=
  ⟨opened, rfl, .inl ⟨rfl, rfl⟩⟩

theorem letter_lost : Returns (world 128) (pumpOnce never)
    (fun ok t => ok = false ∧ t = { letterLanded with closed := true }) letterAwaited := by
  apply pumpOnce_returns rfl
  apply Returns.bind
  refine quic_returns (o := .recvmsg) (some ([104], false)) (.inl ⟨[104], by decide, rfl⟩) ?_
  dsimp only
  rw [if_neg (by decide)]
  apply Returns.bind
  apply Returns.bind
  have hallows : Store.Allows letterAwaited (.recvStreamData false 0 [104]) := rfl
  refine (callback_returns hallows).mono ?_
  intro _ t ht
  subst ht
  refine quic_returns (o := .ng (.readPkt [104])) none rfl ?_
  apply Returns.ret
  rw [if_pos rfl]
  exact idleTimer_returns

/-- The whole file has been delivered, and `recv_file` throws. -/
theorem recvFile_throws_complete : ∃ h s e t, History (world 128) Call.run Fresh h s ∧
    Reaches (world 128) (recvFile [] 0 1, s) (.raise e, t) ∧
    ¬ Missing s.toIncoming 1 t.toIncoming ∧ t.files [] 0 = 104 := by
  obtain ⟨_, _, hpump, rfl, rfl⟩ := letter_lost
  have hlack : Lacking 1 letterAwaited := ⟨by decide, by decide⟩
  obtain ⟨e, map, hr⟩ := (Waits.mapped letter_mapped).fails one_pos hlack hpump
  exact ⟨_, opened, e, _, opened_history, hr, lt_irrefl 1, rfl⟩

/-- On a connection that has ended the byte is missing. -/
theorem recvFile_throws_short_ended : ∃ h s e t, History (world 128) Call.run Fresh h s ∧
    Reaches (world 128) (recvFile [] 0 1, s) (.raise e, t) ∧ Missing s.toIncoming 1 t.toIncoming := by
  obtain ⟨h, hh⟩ := timedOut_history 128 (.inr (.inr (.inl rfl)) : softErrno ECONNREFUSED)
  have hclosed : ∀ u, Waits (world 128) [] 0 1 (timedOut ECONNREFUSED) u → u.closed = true := by
    intro u hu
    induction hu with
    | mapped hmap =>
      obtain ⟨v, hpage, hmap⟩ := hmap
      cases hpage
      rcases hmap with ⟨-, rfl⟩ | ⟨hok, -⟩
      · rfl
      · cases hok
    | pumped _ hlack _ ih => exact (hlack.2 (.inr ih)).elim
  have hrefused : Maps (world 128) [] 0 1 (timedOut ECONNREFUSED) false 4096 (timedOut ECONNREFUSED) :=
    ⟨_, rfl, .inr ⟨rfl, ECONNREFUSED, rfl⟩⟩
  obtain ⟨e, hr⟩ := recvFile_refused one_pos hrefused
  have hmissing := (recvFile_throws_short hh (fun _ _ _ _ hr => hr) [] 0 1).mpr fun _ =>
    ⟨fun _ _ _ => one_pos, fun u _ hu hlack _ => (hlack.2 (.inr (hclosed u hu))).elim⟩
  exact ⟨h, _, e, _, hh, hr, hmissing e _ hr⟩

end Embr.QuicTransport
