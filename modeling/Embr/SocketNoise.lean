import Embr.QuicNoise
import Embr.StreamBytes

/-!
# Noise on the socket

Datagrams that ngtcp2 drops and the errors of ICMP messages, put at any points
of a run: what the calls of a connection come to is what they come to without.
Both laws have their limits. A datagram that does not fit the receive buffer
ends the pump, and an error that a send is told of is more than noise.
-/

open Octets Interact
namespace Embr.QuicTransport

/-- One call after another, whatever becomes of them. -/
def runAll : List Call → Prog Quic (List (Except Exc Outcome))
  | [] => pure []
  | c :: cs => do
    let r ← c.run.attempt
    let rs ← runAll cs
    pure (r :: rs)

theorem deaf_runAll (cs : List Call) : Deaf (runAll cs) none := by
  induction cs with
  | nil => exact .pure _
  | cons c cs ih =>
    refine Deaf.bind (Prog.Ignores.attempt stray_lenient (deaf_call c)) fun r => ?_
    exact Deaf.bind ih fun rs => .pure _

section noise
variable {entries : ℕ} {α : Type} {l l' : List (Label Quic)}

theorem world_noise {o : Op} {s u u' : Store} {r r' : o.Reply} {js : List (Label Quic)}
    (h : Noise o r u js r' u') (hr : world entries o s r u) : world entries o s r' u' := by
  rcases h with h | h
  · cases h with
    | icmp _ _ hfails =>
      obtain ⟨e, rfl⟩ := hr
      obtain ⟨e', rfl⟩ := hfails
      exact ⟨e', rfl⟩
  · cases h with
    | dropped _ => exact hr

theorem run_erased {p q : Prog Quic α} {s t : Store} (hp : Deaf p none)
    (h : Trace (world entries) p s l q t) (hq : q.Done) (he : Erases Noise l l') :
    Trace (world entries) p s l' q t :=
  h.erase (fun _ _ _ _ _ _ _ => world_noise) stray_lenient hq hp he

end noise

/-- Datagrams of up to 1500 bytes that ngtcp2 drops change no outcome, no byte
received and nothing in the store. -/
theorem junk_unnoticed {entries : ℕ} {cs : List Call} {rs : List (Except Exc Outcome)} {s t : Store}
    {l l' : List (Label Quic)} (h : Trace (world entries) (runAll cs) s l (.ret rs) t)
    (he : Erases Junk l l') : Trace (world entries) (runAll cs) s l' (.ret rs) t :=
  run_erased (deaf_runAll cs) h trivial (he.mono fun _ _ _ _ _ _ hjunk => Or.inr hjunk)

/-- The replies of a pump up to `select`, in a store that stays as it is. -/
def polled (sel : ℕ) (s : Store) : List (Label Quic) :=
  [⟨Op.getExpiry, never, s⟩, ⟨Op.now, 0, s⟩,
    ⟨Op.select (waitTime (min never never) 0).1 (waitTime (min never never) 0).2, some sel, s⟩]

theorem pump_shows {entries sel : ℕ} {s : Store} {l : List (Label Quic)} {Q : Bool → Store → Prop}
    (hclosed : s.closed = false) (h : Shows (world entries) (afterSelect (some sel)) l Q s) :
    Shows (world entries) (pumpOnce never) (polled sel s ++ l) Q s := by
  have hself : s.Fails s := ⟨s.errno, rfl⟩
  rw [pumpOnce_eq]
  apply Shows.get_bind
  rw [if_neg (by simp [hclosed])]
  exact Shows.ask_bind rfl (Shows.ask_bind rfl (Shows.ask_bind hself h))

theorem recv_shows {entries sel : ℕ} {l l' : List (Label Quic)} {b : Bool}
    (hpump : Shows (world entries) (afterSelect (some sel)) l
      (fun ok t => ok = true ∧ t = { opened with egressInit := b }) opened)
    (hrest : Shows (world entries) awaitData l' (fun _ t => t = letterArrived)
      { opened with egressInit := b }) :
    Shows (world entries) (recv 1) (polled sel opened ++ (l ++ l')) (fun r _ => r = some [104])
      opened := by
  have htake : Shows (world entries) (do
      let s : Store ← @Prog.get Quic
      if s.recvBuf ≠ [] then do
        let bs ← takeBuffered 1
        pure (some bs)
      else if s.finReceived then pure (some [])
      else pure none) [] (fun r _ => r = some [104]) letterArrived := by
    apply Shows.get_bind
    rw [if_pos nofun]
    exact Shows.act_bind (Shows.ret rfl)
  have hawait : Shows (world entries) awaitData (polled sel opened ++ l ++ l')
      (fun _ t => t = letterArrived) opened := by
    apply Shows.again
    apply Shows.get_bind
    rw [if_pos ⟨rfl, rfl, rfl⟩]
    apply Shows.bind_nil
    refine (pump_shows rfl hpump).mono ?_
    intro ok t ht
    obtain ⟨rfl, rfl⟩ := ht
    rw [if_pos rfl]
    exact Shows.ret ⟨(), rfl, hrest⟩
  rw [← List.append_assoc]
  apply Shows.bind_nil
  refine hawait.mono ?_
  intro _ t ht
  subst ht
  exact htake

theorem timers_shows {entries : ℕ} {b : Bool} : ∃ l, Shows (world entries) runTimers l
    (fun ok t => ok = true ∧ t = { opened with egressInit := true }) { opened with egressInit := b } :=
  (runTimers_returns rfl rfl).shows

/-- A datagram of 1501 bytes is not noise: `recv` fails, and without it the
letter is received. -/
theorem junk_too_long : ∃ (junk : Bytes) (l : List (Label Quic)), junk.length = 1501 ∧
    Shows (world 128) (recv 1)
      (polled 1 opened ++ [⟨Op.recvmsg, some (junk.take maxRecvPktlen, true), opened⟩])
      (fun r _ => r = none) opened ∧
    Shows (world 128) (recv 1) (polled 0 opened ++ l) (fun r _ => r = some [104]) opened := by
  obtain ⟨l, hl⟩ : ∃ l, Shows (world 128) runTimers l _ opened := timers_shows
  obtain ⟨l', hl'⟩ := (await_letter 128 true).shows
  have hnothing : afterSelect (some 0) = runTimers := by
    rw [afterSelect, if_neg (lt_irrefl 0)]
  refine ⟨List.replicate 1501 0, l ++ l', List.length_replicate, ?_, ?_⟩
  · apply Shows.bind_nil
    apply Shows.last
    apply Shows.get_bind
    rw [if_pos ⟨rfl, rfl, rfl⟩]
    apply Shows.bind_nil
    apply pump_shows rfl
    rw [afterSelect, if_pos (by decide)]
    have hlong : decide (maxRecvPktlen < (List.replicate 1501 (0 : UInt8)).length) = true := by
      rw [List.length_replicate]
      decide
    have hread : world 128 .recvmsg opened
        (some ((List.replicate 1501 0).take maxRecvPktlen, true)) opened :=
      .inl ⟨List.replicate 1501 0, by rw [hlong], rfl⟩
    apply Shows.bind_nil
    refine Shows.ask_bind hread ?_
    refine Shows.ret (Shows.ret (Shows.ret ⟨(), rfl, ?_⟩))
    apply Shows.get_bind
    rw [if_neg (by simp [opened, newborn, members]), if_neg (by decide)]
    exact Shows.ret rfl
  · refine recv_shows ?_ hl'
    rw [hnothing]
    exact hl

theorem runAll_shows {l : List (Label Quic)}
    (h : Shows (world 128) (recv 1) l (fun r _ => r = some [104]) opened) :
    Shows (world 128) (runAll [.recv 1]) l (fun rs _ => rs = [.ok (.received [104])]) opened := by
  have hcall : Shows (world 128) (Call.recv 1).run l (fun r _ => r = .received [104]) opened := by
    apply Shows.bind_nil
    refine h.mono ?_
    intro r t hr
    subst hr
    exact Shows.ret rfl
  apply Shows.bind_nil
  refine hcall.attempt.mono ?_
  intro r t hr
  obtain ⟨_, rfl, rfl⟩ := hr
  exact Shows.bind_nil (Shows.ret (Shows.ret rfl))

theorem junk_erases {sec usec sel : ℕ} {u : Store} {data : Bytes} (hsel : 0 < sel)
    (l : List (Label Quic)) : Erases Junk
      (⟨Op.select sec usec, some sel, u⟩ :: ⟨Op.recvmsg, some (data, false), u⟩ ::
        ⟨Op.callback (.readPkt data), none, u⟩ :: ⟨Op.ng (.readPkt data), none, u⟩ :: l)
      (⟨Op.select sec usec, some 0, u⟩ :: l) := by
  have hcut : Junk (.select sec usec) (some sel) u [⟨Op.recvmsg, some (data, false), u⟩,
      ⟨Op.callback (.readPkt data), none, u⟩, ⟨Op.ng (.readPkt data), none, u⟩] (some 0) u :=
    .dropped hsel
  exact @Erases.cut Quic Junk _ _ _ _ _ _ _ _ hcut (.refl _ l)

/-- With a datagram of one byte before it the letter is received, and without. -/
theorem junk_unnoticed_letter : ∃ l l' : List (Label Quic), ∃ t,
    Erases Junk l l' ∧ l.length = l'.length + 3 ∧
    Trace (world 128) (runAll [.recv 1]) opened l (.ret [.ok (.received [104])]) t ∧
    Trace (world 128) (runAll [.recv 1]) opened l' (.ret [.ok (.received [104])]) t := by
  obtain ⟨l, hl⟩ : ∃ l, Shows (world 128) runTimers l _ opened := timers_shows
  obtain ⟨l', hl'⟩ := (await_letter 128 true).shows
  have hread : world 128 .recvmsg opened (some ([7], false)) opened := .inl ⟨[7], by decide, rfl⟩
  have hjunk : Shows (world 128) (afterSelect (some 1))
      (⟨Op.recvmsg, some ([7], false), opened⟩ :: ⟨Op.callback (.readPkt [7]), none, opened⟩ ::
        ⟨Op.ng (.readPkt [7]), none, opened⟩ :: l)
      (fun ok t => ok = true ∧ t = { opened with egressInit := true }) opened := by
    obtain ⟨a, t, hr, hq⟩ := hl
    rw [afterSelect, if_pos (by decide)]
    exact ⟨a, t, .call hread (.loop (.call ⟨rfl, by rintro _ ⟨⟩⟩ (.call rfl hr))), hq⟩
  obtain ⟨_, t, hrun, rfl⟩ := runAll_shows (recv_shows hjunk hl')
  have herase : Erases Junk (polled 1 opened ++
      (⟨Op.recvmsg, some ([7], false), opened⟩ :: ⟨Op.callback (.readPkt [7]), none, opened⟩ ::
        ⟨Op.ng (.readPkt [7]), none, opened⟩ :: l ++ l')) (polled 0 opened ++ (l ++ l')) :=
    .keep _ (.keep _ (junk_erases Nat.one_pos (l ++ l')))
  refine ⟨_, _, t, herase, ?_, hrun, junk_unnoticed hrun herase⟩
  simp only [polled, List.length_append, List.length_cons]
  omega

/-- An ICMP error reported by whichever call asks next. -/
def SocketIcmp : Label Quic → Prop
  | ⟨.recvmsg, none, v⟩ => icmpErrno v.errno
  | ⟨.sendmsg _, none, v⟩ => icmpErrno v.errno
  | ⟨.egress (.send _ _), none, v⟩ => icmpErrno v.errno
  | ⟨.egress .peekCqe, some c, _⟩ => c.notif = false ∧ icmpErrno (-c.res).toNat
  | ⟨.egress .waitCqe, some c, _⟩ => c.notif = false ∧ icmpErrno (-c.res).toNat
  | _ => False

inductive Operation
  | pumpOnce (deadline : ℕ)
  | drainPackets
  | writeStream (block : ℕ) (buf : Bytes)
  | sendFin

def Operation.run : Operation → Prog Quic Bool
  | .pumpOnce deadline => QuicTransport.pumpOnce deadline
  | .drainPackets => QuicTransport.drainPackets
  | .writeStream block buf => do
    let r ← QuicTransport.writeStream block buf
    pure r.isSome
  | .sendFin => QuicTransport.sendFin

theorem deaf_operation (o : Operation) : Deaf o.run none := by
  cases o with
  | pumpOnce deadline => exact deaf_pumpOnce deadline
  | drainPackets => exact deaf_drainPackets
  | writeStream block buf => exact Deaf.bind (deaf_writeStream block buf) fun _ => .pure _
  | sendFin => exact deaf_sendFin

theorem icmp_of_recvmsg {a : Label Quic} (h : SocketIcmp a) (ho : a.op = .recvmsg) : Icmp a := by
  obtain ⟨o, r, v⟩ := a
  cases ho
  cases r with
  | none => exact ⟨v, rfl, h⟩
  | some _ => exact h.elim

theorem heralded_erase {entries : ℕ} {l : List (Label Quic)}
    (h : Heralded (world entries) Stray none l) :
    ∃ l', Erases Pending l l' ∧ ∀ a ∈ l', ¬ Icmp a := by
  have hnone : ∀ {a}, Icmp a → Stray none a := by
    intro a ha
    refine ⟨ha, ?_⟩
    intro hlast
    obtain ⟨_, hlast, -⟩ := hlast
    cases hlast
  have herase : ∃ l', Erases Pending l l' ∧ ∀ a ∈ l', ¬ Stray none a := h.erase ?_ ?_
  · obtain ⟨l', he, hl'⟩ := herase
    exact ⟨l', he, fun a ha hicmp => hl' a ha (hnone hicmp)⟩
  · intro a b hstray hheralds hreply
    have hreadable : ∃ b', some a = some b' ∧ Readable b' := by
      by_contra hnot
      exact hheralds ⟨hstray.1, hnot⟩
    obtain ⟨_, hsome, sec, usec, sel, u, rfl, hsel⟩ := hreadable
    cases hsome
    obtain ⟨⟨v, rfl, hicmp⟩, -⟩ := hstray
    have hfails : u.Fails v := by
      rcases hreply with ⟨_, hsome, -⟩ | ⟨-, hfails⟩
      · cases hsome
      · exact hfails
    refine ⟨some 0, v, .icmp hsel hicmp hfails, ?_⟩
    intro hselect
    obtain ⟨⟨_, heq, -⟩, -⟩ := hselect
    cases heq
  · intro a b ha hb
    refine ⟨hb.1, ?_⟩
    intro hlast
    obtain ⟨_, hsome, sec, usec, sel, u, heq, -⟩ := hlast
    obtain ⟨⟨v, rfl, -⟩, -⟩ := ha
    cases hsome
    cases heq

/-- ICMP errors that `recvmsg` reports make no pump, drain, write or FIN fail: the
run without them ends in the same way. -/
theorem icmp_errors_ignored {entries : ℕ} {o : Operation} {s t : Store} {l : List (Label Quic)}
    {ok : Bool} (h : Trace (world entries) o.run s l (.ret ok) t)
    (hrecv : ∀ a ∈ l, SocketIcmp a → a.op = .recvmsg) :
    ∃ l', Erases Pending l l' ∧ (∀ a ∈ l', ¬ SocketIcmp a) ∧
      Trace (world entries) o.run s l' (.ret ok) t := by
  have hheralded : Heralded (world entries) Stray none l := by
    apply h.heralded stray_lenient (deaf_operation o)
    intro a ha
    cases ha
  obtain ⟨l', he, hl'⟩ := heralded_erase hheralded
  have hnoise : Erases Noise l l' := he.mono fun _ _ _ _ _ _ hpending => Or.inl hpending
  refine ⟨l', he, ?_, run_erased (deaf_operation o) h trivial hnoise⟩
  intro a ha hicmp
  rcases he.mem ha with hmem | ⟨_, _, _, _, _, _, hpending, rfl⟩
  · exact hl' a ha (icmp_of_recvmsg hicmp (hrecv a hmem hicmp))
  · cases hpending
    exact hicmp

def quiet (s : Store) : List (Label Quic) :=
  [⟨Op.getExpiry, 1, s⟩, ⟨Op.now, 0, s⟩,
    ⟨Op.getenv "EMBR_QUIC_EGRESS", some "sendmsg", { s with egressInit := true }⟩,
    ⟨Op.callback (.writevStream none .control), none, { s with egressInit := true }⟩,
    ⟨Op.ng (.writevStream none .control), (.ok 0, 0), { s with egressInit := true }⟩]

/-- A pump that is told of a refused connection goes on. -/
theorem icmp_errors_ignored_once : ∃ (l l' : List (Label Quic)) (t : Store),
    (∃ a ∈ l, SocketIcmp a) ∧ (∀ a ∈ l', ¬ SocketIcmp a) ∧
    Trace (world 128) (Operation.run (.pumpOnce never)) opened l (.ret true) t ∧
    Trace (world 128) (Operation.run (.pumpOnce never)) opened l' (.ret true) t := by
  have hself : opened.Fails opened := ⟨0, rfl⟩
  have hreported : world 128 .recvmsg opened none { opened with errno := ECONNREFUSED } :=
    .inr ⟨rfl, _, rfl⟩
  have hnothing : world 128 (.ng (.writevStream none .control))
      { opened with errno := ECONNREFUSED, egressInit := true } (.ok 0, 0)
      { opened with errno := ECONNREFUSED, egressInit := true } :=
    ⟨[], 0, le_refl _, rfl, by decide, fun _ => rfl, nofun⟩
  have hpump : Trace (world 128) (Operation.run (.pumpOnce never)) opened
      (polled 1 opened ++ ⟨Op.recvmsg, none, { opened with errno := ECONNREFUSED }⟩ ::
        quiet { opened with errno := ECONNREFUSED })
      (.ret true) { opened with errno := ECONNREFUSED, egressInit := true } :=
    .act (.call rfl (.call rfl (.call hself (.call hreported (.act (.call rfl (.call rfl
      (.act (.loop (.act (.act (.call rfl (.act (.loop (.call ⟨rfl, nofun⟩
        (.call hnothing (.act .done)))))))))))))))))
  obtain ⟨l', -, hclean, hrun⟩ := icmp_errors_ignored hpump (by simp [polled, quiet, SocketIcmp])
  exact ⟨_, l', _, ⟨⟨Op.recvmsg, none, { opened with errno := ECONNREFUSED }⟩,
    by simp, .inl rfl⟩, hclean, hpump, hrun⟩

def controlReady : Store := { opened with egressInit := true, packetBuf := [1] }

def controlPacket : List (Label Quic) :=
  [⟨Op.getenv "EMBR_QUIC_EGRESS", some "sendmsg", { opened with egressInit := true }⟩,
    ⟨Op.callback (.writevStream none .control), none, { opened with egressInit := true }⟩,
    ⟨Op.ng (.writevStream none .control), (.ok 1, 0), controlReady⟩]

theorem control_written :
    NgCall.answers (.writevStream none .control) { opened with egressInit := true } (.ok 1, 0)
      controlReady :=
  ⟨[1], 0, le_refl _, rfl, by decide, nofun, fun _ => ⟨rfl, .inl rfl⟩⟩

/-- The same error reported by `sendmsg` makes `drain_packets` fail; had the packet
gone out, it would not have. -/
theorem icmp_error_fails_send : ∃ (h : List Past) (l l' : List (Label Quic)) (u v : Store),
    History (world 128) Call.run Fresh h opened ∧
    v.errno = ECONNREFUSED ∧ (∀ a ∈ l ++ l', ¬ SocketIcmp a) ∧
    Shows (world 128) (Operation.run .drainPackets) (l ++ [⟨Op.sendmsg [1], none, v⟩])
      (fun ok _ => ok = false) opened ∧
    Shows (world 128) (Operation.run .drainPackets) (l ++ ⟨Op.sendmsg [1], some 1, u⟩ :: l')
      (fun ok _ => ok = true) opened := by
  have hwritten : world 128 (.ng (.writevStream none .control)) { opened with egressInit := true }
      (.ok 1, 0) controlReady := control_written
  have hreported : world 128 (.sendmsg [1]) controlReady none
      { controlReady with errno := ECONNREFUSED } := .inr ⟨rfl, _, rfl⟩
  have hsent : world 128 (.sendmsg [1]) controlReady (some 1) controlReady := .inl ⟨rfl, rfl⟩
  have hnothing : world 128 (.ng (.writevStream none .control)) controlReady (.ok 0, 0)
      controlReady := ⟨[1], 0, le_refl _, rfl, by decide, fun _ => rfl, nofun⟩
  refine ⟨_, controlPacket, [⟨Op.callback (.writevStream none .control), none, controlReady⟩,
    ⟨Op.ng (.writevStream none .control), (.ok 0, 0), controlReady⟩], controlReady,
    { controlReady with errno := ECONNREFUSED }, opened_history, rfl, ?_, ?_, ?_⟩
  · simp [controlPacket, SocketIcmp]
  · exact ⟨false, _, .act (.loop (.act (.act (.call rfl (.act (.loop (.call ⟨rfl, nofun⟩
      (.call hwritten (.act (.call hreported (.act .done))))))))))), rfl⟩
  · exact ⟨true, _, .act (.loop (.act (.act (.call rfl (.act (.loop (.call ⟨rfl, nofun⟩
      (.call hwritten (.act (.call hsent (.loop (.act (.act (.loop (.call ⟨rfl, nofun⟩
        (.call hnothing (.act .done))))))))))))))))), rfl⟩

end Embr.QuicTransport
