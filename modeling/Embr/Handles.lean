import Embr.Factories
import Embr.Lib.Owns
import Mathlib.Algebra.Order.Group.Multiset
import Mathlib.Tactic.Abel

/-!
# What must be released

A factory that throws has released all that it made, and what it was given to keep; one
that returns hands on what its transport holds, which the destructor releases. No call is
made with something that is released already.
-/

open Octets Interact Text
open Interact.Books
namespace Embr.Cli

def Conn.holds : Conn → Multiset Handle
  | .tcp fd none => {(.fd, fd)}
  | .tcp fd (some (rd, wr)) => (.fd, rd) ::ₘ (.fd, wr) ::ₘ {(.fd, fd)}
  | .udp fd ring chunkMem fragMem registeredBuffers =>
      (if registeredBuffers then {(.buffers, ring)} else 0) +
        ((.ring, ring) ::ₘ (.mem, fragMem) ::ₘ (.mem, chunkMem) ::ₘ {(.fd, fd)})
  | .quic fd ssl sslCtx none own =>
      (.ssl, ssl) ::ₘ (.sslCtx, sslCtx) ::ₘ (.fd, fd) ::ₘ own.holds
  | .quic fd ssl sslCtx (some conn) own =>
      (.conn, conn) ::ₘ (.ssl, ssl) ::ₘ (.sslCtx, sslCtx) ::ₘ (.fd, fd) ::ₘ own.holds

/-! ## What a call is made with -/

def Check.uses : Check → Multiset Handle
  | .bind fd _ => {(.fd, fd)}
  | .listen fd => {(.fd, fd)}
  | .connect fd _ _ => {(.fd, fd)}
  | .connectPeer fd => {(.fd, fd)}
  | .setNonblock fd => {(.fd, fd)}
  | .sendProbe fd => {(.fd, fd)}
  | .recvProbe fd => {(.fd, fd)}
  | .getsockname fd => {(.fd, fd)}
  | .configureContext sslCtx => {(.sslCtx, sslCtx)}
  | .useCertificateChain sslCtx _ => {(.sslCtx, sslCtx)}
  | .usePrivateKey sslCtx _ => {(.sslCtx, sslCtx)}
  | .useAlpn ssl => {(.ssl, ssl)}
  | .feedData conn _ => {(.conn, conn)}

def Ngtcp2.uses : Ngtcp2 → Multiset Handle
  | .openBidiStream conn => {(.conn, conn)}
  | _ => 0

/-- A `close` may be made with anything; it is counted. -/
def Op.uses : Op → Multiset Handle
  | .accept fd => {(.fd, fd)}
  | .sslNew sslCtx => {(.sslCtx, sslCtx)}
  | .connNew _ ssl => {(.ssl, ssl)}
  | .registerBuffers ring => {(.ring, ring)}
  | .check c => c.uses
  | .ngtcp2 c => c.uses
  | .recvInitial fd => {(.fd, fd)}
  | .free k n => {(k, n)}
  | .runHandshake conn own => (.conn, conn) ::ₘ own.holds
  | .closeConnection conn own => (.conn, conn) ::ₘ own.holds
  | .runPush c fileFd _ => (.fd, fileFd) ::ₘ c.holds
  | .runPull c _ => c.holds
  | _ => 0

/-- A port on which somebody can be met. -/
def Process.Listens (s : Process) (port : UInt16) : Prop :=
  ∃ fd, (Kind.fd, fd) ∈ s.live ∧ (s.status fd = .bound port ∨ s.status fd = .listening port)

/-- A call is made with what is live, and a port is open when it is registered. -/
structure Sound (o : Option Op) (s : Process) : Prop where
  uses : ∀ op, o = some op → op.uses ⊆ s.live
  listens : ∀ url token port, o = some (.trackerRegister url token port) → s.Listens port

def Event.isAwaited : Event → Bool
  | .awaited _ => true
  | _ => false

def Event.isAct : Event → Bool
  | .register _ _ _ => true
  | .resolve _ _ _ => true
  | .unregister _ _ => true
  | .push _ _ => true
  | .pull _ _ => true
  | _ => false

/-- First packets that were awaited, less the calls of `close` that went astray. -/
def Process.owed (s : Process) : ℤ := (s.log.countP Event.isAwaited : ℤ) - s.stray

def Process.acts (s : Process) : List Event := s.log.filter Event.isAct

abbrev Tally := ℤ × (List Event → Prop)

def Tally.awaits (d : Tally) : Tally := (d.1 + 1, d.2)

structure Process.Has (a : Multiset Handle × Tally) (s : Process) : Prop where
  live : s.live = a.1
  nodup : a.1.Nodup
  owed : s.owed = a.2.1
  acts : a.2.2 s.acts

theorem sound_none (s : Process) : Sound none s := ⟨by rintro op ⟨⟩, by rintro url token port ⟨⟩⟩

abbrev books (vars : String → Option Bytes) (fails : Prop) : Books Shell (Multiset Handle × Tally) where
  env := world vars fails
  point := Sound
  has := Process.Has
  quiet := sound_none

section steps
variable {vars : String → Option Bytes} {fails : Prop} {M R T : Multiset Handle} {d : Tally}
  {k : Kind} {n fd : ℕ} {c : Multiset Handle × Tally} {s t : Process}

theorem sound_uses {op : Op} (h : op.uses ⊆ s.live)
    (hop : ∀ url token port, op ≠ .trackerRegister url token port) : Sound (some op) s := by
  constructor
  · rintro _ ⟨⟩
    exact h
  · rintro url token port ⟨⟩
    exact (hop url token port rfl).elim

theorem Process.Has.stays (h : s.Has (M, d)) (hs : s.Stays t) : t.Has (M, d) := by
  obtain ⟨e, rfl⟩ := hs
  exact ⟨h.live, h.nodup, h.owed, h.acts⟩

theorem Process.Has.works (h : s.Has (M, d)) (hs : s.Works t) : t.Has (M, d) := by
  obtain ⟨e, f, rfl⟩ := hs
  exact ⟨h.live, h.nodup, h.owed, h.acts⟩

theorem Process.Has.pumps {own own' : Own} (h : s.Has (own.holds + M, d))
    (hs : s.Pumps own own' t) : t.Has (own'.holds + M, d) := by
  obtain ⟨hnodup, e, rfl⟩ := hs
  have hlive : s.live = own.holds + M := h.live
  rw [hlive, add_tsub_cancel_left] at hnodup ⊢
  exact ⟨rfl, hnodup, h.owed, h.acts⟩

theorem Process.Has.weaken {L : List Event → Prop} (h : s.Has (M, d)) (hL : ∀ l, d.2 l → L l) :
    s.Has (M, d.1, L) := ⟨h.live, h.nodup, h.owed, hL _ h.acts⟩

theorem Process.owed_note {e : Event} (he : e.isAwaited = false) : (s.note e).owed = s.owed := by
  change ((s.log ++ [e]).countP Event.isAwaited : ℤ) - s.stray = _
  rw [List.countP_append, List.countP_singleton, he]
  rfl

theorem Process.acts_note {e : Event} : (s.note e).acts = s.acts ++ [e].filter Event.isAct :=
  List.filter_append ..

theorem Process.Has.note (h : s.Has (M, d)) {e : Event} (he : e.isAwaited = false)
    (hact : e.isAct = false) : (s.note e).Has (M, d) := by
  refine ⟨h.live, h.nodup, (s.owed_note he).trans h.owed, ?_⟩
  rw [s.acts_note, List.filter_cons_of_neg (by rw [hact]; exact Bool.false_ne_true), List.filter_nil,
    List.append_nil]
  exact h.acts

theorem Process.Has.act (h : s.Has (M, d)) {e : Event} (he : e.isAwaited = false)
    (hact : e.isAct = true) : (s.note e).Has (M, d.1, fun l => ∃ l', d.2 l' ∧ l = l' ++ [e]) := by
  refine ⟨h.live, h.nodup, (s.owed_note he).trans h.owed, s.acts, h.acts, ?_⟩
  rw [s.acts_note, List.filter_cons_of_pos hact, List.filter_nil]

theorem Process.Has.awaits (h : s.Has (M, d)) (fd : ℕ) :
    (s.note (.awaited fd)).Has (M, d.awaits) := by
  refine ⟨h.live, h.nodup, ?_, ?_⟩
  · have howed : (s.log.countP Event.isAwaited : ℤ) - s.stray = d.1 := h.owed
    change ((s.log ++ [Event.awaited fd]).countP Event.isAwaited : ℤ) - s.stray = d.1 + 1
    rw [List.countP_append, List.countP_singleton,
      if_pos (show (Event.awaited fd).isAwaited = true from rfl), Nat.cast_add, Nat.cast_one,
      add_sub_right_comm, howed]
  · rw [s.acts_note, show [Event.awaited fd].filter Event.isAct = [] from rfl, List.append_nil]
    exact h.acts

theorem Process.Has.grab (h : s.Has (M, d)) (hnew : (k, n) ∉ s.live) :
    (s.grab k n).Has ((k, n) ::ₘ M, d) := by
  refine ⟨?_, ?_, h.owed, h.acts⟩
  · change (k, n) ::ₘ s.live = (k, n) ::ₘ M
    rw [h.live]
  · rw [h.live] at hnew
    exact Multiset.nodup_cons.mpr ⟨hnew, h.nodup⟩

def gained (k : Kind) (r : Option ℕ) (M : Multiset Handle) : Multiset Handle :=
  r.elim M fun n => (k, n) ::ₘ M

@[simp] theorem gained_some : gained k (some n) M = (k, n) ::ₘ M := rfl

theorem Process.Has.makes {r : Option ℕ} (h : s.Has (M, d)) (hm : s.Makes k r t) :
    t.Has (gained k r M, d) := by
  rcases hm with ⟨n, rfl, hnew, rfl⟩ | ⟨rfl, hstays⟩
  · exact h.grab hnew
  · exact h.stays hstays

theorem Process.Has.drop (h : s.Has ((k, n) ::ₘ R, d)) :
    Process.Has (R, d) { s with live := s.live.erase (k, n) } := by
  refine ⟨?_, (Multiset.nodup_cons.mp h.nodup).2, h.owed, h.acts⟩
  change s.live.erase (k, n) = R
  rw [h.live, Multiset.erase_cons_head]

theorem Process.Has.passed (h : s.Has (M, d)) (c : Check) : (s.passed c).Has (M, d) := by
  cases c <;> exact ⟨h.live, h.nodup, h.owed, h.acts⟩

theorem Process.Has.tried (h : s.Has (M, d)) (c : Check) : (s.tried c).Has (M, d) := by
  cases c with
  | connect fd host port => exact h.note rfl rfl
  | _ => exact h

end steps

/-! ## Single calls -/

section ends
variable {vars : String → Option Bytes} {fails : Prop} {α : Type} {X : Exc → Process → Prop}
  {Q : α → Process → Prop} {s : Process}

theorem sat_done {x : α} (h : Q x s) :
    Sat (world vars fails) Sound X (pure x : Prog Shell α) Q s :=
  sat_pure.mpr ⟨sound_none s, h⟩

theorem sat_thrown {e : Exc} (h : X e s) :
    Sat (world vars fails) Sound X (.raise e : Prog Shell α) Q s :=
  sat_raise.mpr ⟨sound_none s, h⟩

theorem sat_say_bind {e : Event} {g : Unit → Prog Shell α}
    (h : Sat (world vars fails) Sound X (g ()) Q (s.note e)) :
    Sat (world vars fails) Sound X (say e >>= g) Q s :=
  sat_modify_bind.mpr ⟨sound_none s, h⟩

theorem sat_call {o : Op} {g : o.Reply → Prog Shell α} (huse : o.uses = 0)
    (h : ∀ r t, world vars fails o s r t → Sat (world vars fails) Sound X (g r) Q t)
    (hop : ∀ url token port, o ≠ .trackerRegister url token port := by rintro _ _ _ ⟨⟩) :
    Sat (world vars fails) Sound X (shell o >>= g) Q s :=
  sat_ask_bind.mpr ⟨sound_uses (huse ▸ Multiset.zero_subset _) hop, h⟩

end ends

section calls
variable {vars : String → Option Bytes} {fails : Prop} {M R : Multiset Handle} {d : Tally} {k : Kind}
  {n fd : ℕ} {α : Type} {c : Multiset Handle × Tally} {post : α → Multiset Handle × Tally}

theorem owns_makes {o : Op} (r : o.Reply → Option ℕ)
    (hworld : ∀ s x t, world vars fails o s x t → s.Makes k (r x) t) (huse : o.uses ⊆ M)
    (hop : ∀ url token port, o ≠ .trackerRegister url token port := by rintro _ _ _ ⟨⟩) :
    (books vars fails).Owns (M, d) (shell o) c fun x => (gained k (r x) M, d) := by
  refine owns_ask (fun s hs => sound_uses ?_ hop) fun s x t hs hx => hs.makes (hworld s x t hx)
  rw [hs.live]
  exact huse

theorem owns_works {o : Op} (hworld : ∀ s, s.Has (M, d) → ∀ x t, world vars fails o s x t →
      t.Has (M, d)) (huse : o.uses ⊆ M)
    (hop : ∀ url token port, o ≠ .trackerRegister url token port := by rintro _ _ _ ⟨⟩) :
    (books vars fails).Owns (M, d) (shell o) c fun _ => (M, d) := by
  refine owns_ask (fun s hs => sound_uses ?_ hop) fun s x t hs hx => hworld s hs x t hx
  rw [hs.live]
  exact huse

theorem owns_free :
    (books vars fails).Owns ((k, n) ::ₘ R, d) (shell (.free k n)) c fun _ => (R, d) := by
  refine owns_ask (fun s hs => sound_uses ?_ (by rintro _ _ _ ⟨⟩)) fun s x t hs hx => ?_
  · rw [hs.live]
    exact Multiset.singleton_subset.mpr (Multiset.mem_cons_self _ _)
  · cases hx
    exact hs.drop

theorem owns_closeFd :
    (books vars fails).Owns ((.fd, fd) ::ₘ R, d) (closeFd fd) c fun _ => (R, d) := by
  have hclose : (books vars fails).Owns ((.fd, fd) ::ₘ R, d) (shell (.close fd)) c
      fun _ => (R, d) := by
    refine owns_ask (fun s hs => sound_uses (Multiset.zero_subset _) (by rintro _ _ _ ⟨⟩))
      fun s x t hs hx => ?_
    rcases hx with ⟨-, -, rfl⟩ | ⟨-, hno, -⟩
    · exact hs.drop
    · rw [hs.live] at hno
      exact (hno (Multiset.mem_cons_self _ _)).elim
  exact hclose.bind fun _ => owns_pure rfl

theorem owns_check {q : Check} (huse : q.uses ⊆ M) :
    (books vars fails).Owns (M, d) (shell (.check q)) c fun _ => (M, d) := by
  refine owns_works (fun s hs x t hx => ?_) huse
  rcases hx with ⟨-, rfl⟩ | ⟨-, hstays⟩
  · exact (hs.tried q).passed q
  · exact (hs.tried q).stays hstays

theorem owns_throwErrno {what : String} : (books vars fails).Owns c (throwErrno what) c post :=
  owns_get_bind fun _ => owns_raise

theorem owns_require {q : Check} {release raise : Prog Shell Unit} (huse : q.uses ⊆ M)
    (hrelease : (books vars fails).Owns (M, d) release c fun _ => c)
    (hraise : (books vars fails).Owns c raise c fun _ => (M, d)) :
    (books vars fails).Owns (M, d) (require q release raise) c fun _ => (M, d) := by
  refine Owns.bind (owns_check huse) fun ok => ?_
  cases ok with
  | true => exact owns_pure rfl
  | false => exact hrelease.bind fun _ => hraise

theorem owns_requireNgtcp2 {q : Ngtcp2} {release : Prog Shell Unit} {what : String}
    (huse : q.uses ⊆ M)
    (hrelease : (books vars fails).Owns (M, d) release c fun _ => c) :
    (books vars fails).Owns (M, d) (requireNgtcp2 q release what) c fun _ => (M, d) := by
  have hask : (books vars fails).Owns (M, d) (shell (.ngtcp2 q)) c fun _ => (M, d) :=
    owns_works (fun s hs x t hx => hs.stays hx) huse
  refine hask.bind fun x => ?_
  cases x with
  | none => exact owns_pure rfl
  | some error => exact hrelease.bind fun _ => owns_raise

theorem owns_say {e : Event} (he : e.isAwaited = false) (hact : e.isAct = false) :
    (books vars fails).Owns (M, d) (say e) c fun _ => (M, d) :=
  owns_modify fun _ hs => hs.note he hact

end calls

/-! ## The factories -/

section factories
variable {vars : String → Option Bytes} {fails : Prop} {R : Multiset Handle} {d : Tally} {fd : ℕ}

theorem uses_head {q : Check} {h : Handle} (hq : q.uses = {h}) : q.uses ⊆ h ::ₘ R := by
  rw [hq]
  exact Multiset.singleton_subset.mpr (Multiset.mem_cons_self _ _)

theorem owns_socket {c : Multiset Handle × Tally} (datagram : Bool) : (books vars fails).Owns (R, d)
    (shell (.socket datagram)) c fun r => (gained .fd r R, d) :=
  owns_makes (o := .socket datagram) (fun r => r) (fun _ _ _ h => h) (Multiset.zero_subset _)

theorem owns_tcpListen (port : UInt16) :
    (books vars fails).Owns (R, d) (tcpListen port) (R, d) fun fd => ((.fd, fd) ::ₘ R, d) := by
  refine Owns.bind (owns_socket false) fun r => ?_
  cases r with
  | none => exact owns_throwErrno
  | some fd =>
    refine Owns.bind (owns_require (uses_head rfl) owns_closeFd owns_throwErrno) fun _ => ?_
    refine Owns.bind (owns_require (uses_head rfl) owns_closeFd owns_throwErrno) fun _ => ?_
    exact owns_pure rfl

theorem owns_tcpAccept (hfd : (.fd, fd) ∈ R) : (books vars fails).Owns (R, d) (tcpAccept fd) (R, d)
    fun c => (c.holds + R, d) := by
  refine Owns.bind (owns_makes (o := .accept fd) (fun r => r) (fun _ _ _ h => h)
    (Multiset.singleton_subset.mpr hfd)) fun r => ?_
  cases r with
  | none => exact owns_throwErrno
  | some fd => exact owns_pure rfl

theorem owns_tcpConnect (host : Bytes) (port : UInt16) :
    (books vars fails).Owns (R, d) (tcpConnect host port) (R, d) fun c => (c.holds + R, d) := by
  refine Owns.bind (owns_socket false) fun r => ?_
  cases r with
  | none => exact owns_throwErrno
  | some fd =>
    refine Owns.bind (owns_when fun _ => owns_closeFd.bind fun _ => owns_raise) fun _ => ?_
    refine Owns.bind (owns_require (uses_head rfl) owns_closeFd owns_throwErrno) fun _ => ?_
    exact owns_pure rfl

theorem owns_registerBuffers {M : Multiset Handle} {ring : ℕ} {c : Multiset Handle × Tally}
    (hring : (.ring, ring) ∈ M) : (books vars fails).Owns (M, d) (shell (.registerBuffers ring)) c
      fun r => (r.elim ((.buffers, ring) ::ₘ M) fun _ => M, d) := by
  refine owns_ask (fun s hs => sound_uses ?_ (by rintro _ _ _ ⟨⟩)) fun s r t hs hr => ?_
  · rw [hs.live]
    exact Multiset.singleton_subset.mpr hring
  · rcases hr with ⟨rfl, hnew, rfl⟩ | ⟨hr, hstays⟩
    · exact hs.grab hnew
    · obtain ⟨e, rfl⟩ := Option.ne_none_iff_exists'.mp hr
      exact hs.stays hstays

theorem owns_newIoUringCtx (chunkBufCount chunkBufSize fragBufCount fragBufSize : ℕ) :
    (books vars fails).Owns (R, d)
      (newIoUringCtx chunkBufCount chunkBufSize fragBufCount fragBufSize) (R, d)
      fun x => ((if x.2.2.2 then {(Kind.buffers, x.1)} else 0) +
        ((.mem, x.2.2.1) ::ₘ (.mem, x.2.1) ::ₘ (.ring, x.1) ::ₘ R), d) := by
  refine Owns.bind (owns_makes (o := .queueInit) (k := .ring) Except.toOption (fun _ _ _ h => h)
    (Multiset.zero_subset _)) fun r => ?_
  cases r with
  | error e => exact owns_raise
  | ok ring =>
    refine Owns.bind (owns_makes (o := .mmap _) (k := .mem) (fun r => r) (fun _ _ _ h => h)
      (Multiset.zero_subset _)) fun r => ?_
    cases r with
    | none => exact owns_free.bind fun _ => owns_throwErrno
    | some chunkMem =>
      refine Owns.bind (owns_makes (o := .mmap _) (k := .mem) (fun r => r) (fun _ _ _ h => h)
        (Multiset.zero_subset _)) fun r => ?_
      cases r with
      | none => exact owns_free.bind fun _ => owns_free.bind fun _ => owns_throwErrno
      | some fragMem =>
        refine Owns.bind (owns_registerBuffers (by simp [Except.toOption])) fun r => ?_
        cases r with
        | none => exact owns_pure rfl
        | some e =>
          dsimp only [Option.elim]
          split_ifs with he
          · exact (owns_say rfl rfl).bind fun _ => owns_pure (by simp [Except.toOption])
          · exact owns_free.bind fun _ => owns_free.bind fun _ => owns_free.bind fun _ => owns_raise

theorem owns_newUdpTransport : (books vars fails).Owns ((.fd, fd) ::ₘ R, d) (newUdpTransport fd)
    ((.fd, fd) ::ₘ R, d) fun c => (c.holds + R, d) := by
  refine Owns.bind (owns_newIoUringCtx _ _ _ _) fun x => owns_pure ?_
  obtain ⟨ring, chunkMem, fragMem, registeredBuffers⟩ := x
  refine Prod.ext ?_ rfl
  simp only [Conn.holds, ← Multiset.singleton_add]
  abel

theorem owns_udpDataServerBind (port : UInt16) : (books vars fails).Owns (R, d)
    (udpDataServerBind port) (R, d) fun fd => ((.fd, fd) ::ₘ R, d) := by
  refine Owns.bind (owns_socket true) fun r => ?_
  cases r with
  | none => exact owns_throwErrno
  | some fd =>
    refine Owns.bind (Owns.onThrow (owns_require (uses_head rfl) (owns_pure rfl) owns_throwErrno)
      owns_closeFd) fun _ => owns_pure rfl

theorem owns_udpDataServerConnect : (books vars fails).Owns ((.fd, fd) ::ₘ R, d)
    (udpDataServerConnect fd) (R, d) fun c => (c.holds + R, d) := by
  refine Owns.onThrow ?_ owns_closeFd
  refine Owns.bind (owns_require (uses_head rfl) (owns_pure rfl) owns_throwErrno) fun _ => ?_
  refine Owns.bind (owns_require (uses_head rfl) (owns_pure rfl) owns_throwErrno) fun _ => ?_
  exact owns_newUdpTransport

theorem owns_udpDataClientConnect (host : Bytes) (port : UInt16) : (books vars fails).Owns (R, d)
    (udpDataClientConnect host port) (R, d) fun c => (c.holds + R, d) := by
  refine Owns.bind (owns_socket true) fun r => ?_
  cases r with
  | none => exact owns_throwErrno
  | some fd =>
    refine Owns.onThrow ?_ owns_closeFd
    refine Owns.bind (owns_when fun _ => owns_raise) fun _ => ?_
    refine Owns.bind (owns_require (uses_head rfl) (owns_pure rfl) owns_throwErrno) fun _ => ?_
    refine Owns.bind (owns_require (uses_head rfl) (owns_pure rfl) owns_throwErrno) fun _ => ?_
    exact owns_newUdpTransport

theorem owns_quicListen (port : UInt16) :
    (books vars fails).Owns (R, d) (quicListen port) (R, d) fun fd => ((.fd, fd) ::ₘ R, d) := by
  refine Owns.bind (owns_socket true) fun r => ?_
  cases r with
  | none => exact owns_throwErrno
  | some fd =>
    refine Owns.bind (owns_require (uses_head rfl) owns_closeFd owns_throwErrno) fun _ => ?_
    exact owns_pure rfl

theorem owns_pumps {M : Multiset Handle} {conn : ℕ} {own : Own} {o : Op} (f : o.Reply → Own)
    {c : Multiset Handle × Tally} (huse : o.uses = (.conn, conn) ::ₘ own.holds)
    (hworld : ∀ s x t, world vars fails o s x t → s.Pumps own (f x) t)
    (hop : ∀ url token port, o ≠ .trackerRegister url token port := by rintro _ _ _ ⟨⟩) :
    (books vars fails).Owns ((.conn, conn) ::ₘ (own.holds + M), d) (shell o) c
      fun x => ((.conn, conn) ::ₘ ((f x).holds + M), d) := by
  refine owns_ask (fun s hs => sound_uses ?_ hop) fun s x t hs hx => ?_
  · rw [hs.live, huse]
    exact Multiset.cons_subset_cons (Multiset.subset_of_le (Multiset.le_add_right _ _))
  · rw [← Multiset.add_cons] at hs ⊢
    exact hs.pumps (hworld s x t hx)

theorem owns_resetZc {M : Multiset Handle} {zc : Option ℕ} {c : Multiset Handle × Tally} :
    (books vars fails).Owns (ringHolds zc + M, d) (resetZc zc) c fun _ => (M, d) := by
  cases zc with
  | none => exact owns_pure (Prod.ext (zero_add M) rfl)
  | some ring =>
    simp only [ringHolds, Multiset.cons_add, Multiset.singleton_add]
    exact owns_free.bind fun _ => owns_free

theorem owns_releaseUnacked {M : Multiset Handle} {unacked : List ℕ}
    {c : Multiset Handle × Tally} :
    (books vars fails).Owns (blocksHold unacked + M, d) (releaseUnacked unacked) c
      fun _ => (M, d) := by
  induction unacked with
  | nil => exact owns_pure (Prod.ext (zero_add M) rfl)
  | cons mapped unacked ih =>
    rw [blocksHold, List.map_cons, ← Multiset.cons_coe, Multiset.cons_add]
    exact owns_free.bind fun _ => ih

theorem owns_freeBuffers {M : Multiset Handle} {ring : ℕ} {registeredBuffers : Bool}
    {c : Multiset Handle × Tally} :
    (books vars fails).Owns ((if registeredBuffers then {(.buffers, ring)} else 0) + M, d)
      (.when (registeredBuffers = true) (shell (.free .buffers ring))) c fun _ => (M, d) := by
  cases registeredBuffers with
  | true => exact owns_free
  | false =>
    rw [if_neg Bool.false_ne_true, zero_add]
    exact owns_when fun h => absurd h Bool.false_ne_true

theorem owns_destroy {c : Multiset Handle × Tally} (conn : Conn) :
    (books vars fails).Owns (conn.holds + R, d) (destroy conn) c fun _ => (R, d) := by
  cases conn with
  | tcp fd pipe =>
    cases pipe with
    | none => exact owns_closeFd
    | some ends =>
      simp only [Conn.holds, Multiset.cons_add, Multiset.singleton_add]
      exact (owns_closeFd.bind fun _ => owns_closeFd).bind fun _ => owns_closeFd
  | udp fd ring chunkMem fragMem registeredBuffers =>
    simp only [Conn.holds, Multiset.cons_add, Multiset.singleton_add, add_assoc]
    refine Owns.bind owns_freeBuffers fun _ => owns_free.bind fun _ => owns_free.bind fun _ => ?_
    exact owns_free.bind fun _ => owns_closeFd
  | quic fd ssl sslCtx conn own =>
    have hrest : ∀ own : Own, (books vars fails).Owns
        ((.ssl, ssl) ::ₘ (.sslCtx, sslCtx) ::ₘ (.fd, fd) ::ₘ (own.holds + R), d)
        (do
          shell (.free .ssl ssl)
          shell (.free .sslCtx sslCtx)
          resetZc own.zc
          closeFd fd
          releaseUnacked own.unacked) c fun _ => (R, d) := by
      intro own
      refine owns_free.bind fun _ => owns_free.bind fun _ => ?_
      rw [Own.holds, add_assoc, ← Multiset.add_cons]
      exact owns_resetZc.bind fun _ => owns_closeFd.bind fun _ => owns_releaseUnacked
    cases conn with
    | none =>
      simp only [Conn.holds, Multiset.cons_add]
      exact hrest own
    | some conn =>
      simp only [Conn.holds, Multiset.cons_add]
      have hclose : (books vars fails).Owns ((.conn, conn) ::ₘ (own.holds + (.ssl, ssl) ::ₘ
          (.sslCtx, sslCtx) ::ₘ (.fd, fd) ::ₘ R), d) (shell (.closeConnection conn own)) c
          fun own' => ((.conn, conn) ::ₘ (own'.holds + (.ssl, ssl) ::ₘ (.sslCtx, sslCtx) ::ₘ
            (.fd, fd) ::ₘ R), d) :=
        owns_pumps (o := .closeConnection conn own) (fun r => r) rfl fun _ _ _ h => h
      simp only [Multiset.add_cons] at hclose
      exact (hclose.bind fun own' => owns_free.bind fun _ => owns_pure rfl).bind hrest

theorem owns_secure {what side : String} {server : Bool}
    {load : ℕ → Prog Shell Unit → Prog Shell Unit} (hload : ∀ sslCtx release,
      (books vars fails).Owns ((.sslCtx, sslCtx) ::ₘ (.fd, fd) ::ₘ R, d) release (R, d)
        (fun _ => (R, d)) →
      (books vars fails).Owns ((.sslCtx, sslCtx) ::ₘ (.fd, fd) ::ₘ R, d) (load sslCtx release) (R, d)
        fun _ => ((.sslCtx, sslCtx) ::ₘ (.fd, fd) ::ₘ R, d)) :
    (books vars fails).Owns ((.fd, fd) ::ₘ R, d) (secure what side server fd load) (R, d)
      fun x => ((.ssl, x.1) ::ₘ (.sslCtx, x.2) ::ₘ (.fd, fd) ::ₘ R, d) := by
  refine Owns.bind (owns_makes (o := .sslCtxNew server) (k := .sslCtx) (fun r => r)
    (fun _ _ _ h => h) (Multiset.zero_subset _)) fun r => ?_
  cases r with
  | none => exact owns_closeFd.bind fun _ => owns_raise
  | some sslCtx =>
    have hfree : (books vars fails).Owns ((.sslCtx, sslCtx) ::ₘ (.fd, fd) ::ₘ R, d)
        (do
          shell (.free .sslCtx sslCtx)
          closeFd fd) (R, d) fun _ => (R, d) := owns_free.bind fun _ => owns_closeFd
    refine Owns.bind (owns_require (uses_head rfl) hfree owns_raise) fun _ => ?_
    refine Owns.bind (hload _ _ hfree) fun _ => ?_
    refine Owns.bind (owns_makes (o := .sslNew sslCtx) (k := .ssl) (fun r => r) (fun _ _ _ h => h)
      (Multiset.singleton_subset.mpr (Multiset.mem_cons_self _ _))) fun r => ?_
    cases r with
    | none => exact hfree.bind fun _ => owns_raise
    | some ssl =>
      have hfreeSsl := Owns.bind (owns_free (k := .ssl) (n := ssl)) fun _ : Unit => hfree
      refine Owns.bind (owns_require (uses_head rfl) hfreeSsl owns_raise) fun _ => ?_
      refine Owns.bind (Owns.onThrow (owns_require ?_ (owns_pure rfl) owns_throwErrno) hfreeSsl)
        fun _ => ?_
      · exact Multiset.singleton_subset.mpr (by simp)
      · exact owns_pure rfl

theorem owns_attach {what side : String} {server : Bool} {ssl sslCtx : ℕ}
    {start finish : ℕ → Prog Shell Unit}
    (hstart : ∀ conn M, (books vars fails).Owns ((.conn, conn) ::ₘ M, d) (start conn)
      ((.conn, conn) ::ₘ M, d) fun _ => ((.conn, conn) ::ₘ M, d))
    (hfinish : ∀ conn M, (books vars fails).Owns ((.conn, conn) ::ₘ M, d) (finish conn)
      ((.conn, conn) ::ₘ M, d) fun _ => ((.conn, conn) ::ₘ M, d)) :
    (books vars fails).Owns ((.ssl, ssl) ::ₘ (.sslCtx, sslCtx) ::ₘ (.fd, fd) ::ₘ R, d)
      (attach what side server fd ssl sslCtx start finish) (R, d) fun c => (c.holds + R, d) := by
  have hdestroy : ∀ (conn : Option ℕ) (own : Own),
      (books vars fails).Owns ((Conn.quic fd ssl sslCtx conn own).holds + R, d)
        (destroy (.quic fd ssl sslCtx conn own)) (R, d) fun _ => (R, d) := fun conn own => owns_destroy _
  have hnothing : nothing.holds = 0 := rfl
  refine Owns.bind (owns_makes (o := .connNew server ssl) (k := .conn) Except.toOption
    (fun _ _ _ h => h) (Multiset.singleton_subset.mpr (Multiset.mem_cons_self _ _))) fun r => ?_
  cases r with
  | error error =>
    have hnone := hdestroy none nothing
    simp only [Conn.holds, Multiset.cons_add, hnothing, zero_add] at hnone
    exact hnone.bind fun _ => owns_raise
  | ok conn =>
    have hsome := hdestroy (some conn)
    simp only [Conn.holds, Multiset.cons_add] at hsome
    have hstarted := hsome nothing
    rw [hnothing, zero_add] at hstarted
    refine Owns.bind ((hstart conn _).onThrow hstarted) fun _ => ?_
    have hshake : (books vars fails).Owns ((.conn, conn) ::ₘ (nothing.holds + (.ssl, ssl) ::ₘ
        (.sslCtx, sslCtx) ::ₘ (.fd, fd) ::ₘ R), d) (shell (.runHandshake conn nothing)) (R, d)
        fun x => ((.conn, conn) ::ₘ (x.2.holds + (.ssl, ssl) ::ₘ (.sslCtx, sslCtx) ::ₘ
          (.fd, fd) ::ₘ R), d) :=
      owns_pumps (o := .runHandshake conn nothing) Prod.snd rfl fun _ _ _ h => h
    simp only [Multiset.add_cons, hnothing, zero_add] at hshake
    refine hshake.bind fun x => ?_
    refine Owns.bind (Owns.onThrow (Owns.bind (owns_when fun _ => owns_raise) fun _ =>
      hfinish conn _) (hsome x.2)) fun _ => owns_pure ?_
    simp only [Conn.holds, Multiset.cons_add]

theorem owns_quicConnect (host : Bytes) (port : UInt16) :
    (books vars fails).Owns (R, d) (quicConnect host port) (R, d) fun c => (c.holds + R, d) := by
  refine Owns.bind (owns_socket true) fun r => ?_
  cases r with
  | none => exact owns_throwErrno
  | some fd =>
    refine Owns.bind (owns_when fun _ => owns_closeFd.bind fun _ => owns_raise) fun _ => ?_
    refine Owns.bind (owns_require (uses_head rfl) owns_closeFd owns_throwErrno) fun _ => ?_
    refine Owns.bind (owns_require (uses_head rfl) owns_closeFd owns_throwErrno) fun _ => ?_
    refine Owns.bind (owns_secure fun _ _ _ => owns_pure rfl) fun x => ?_
    refine owns_attach (fun _ _ => owns_pure rfl) fun conn M => ?_
    exact owns_requireNgtcp2 (Multiset.singleton_subset.mpr (Multiset.mem_cons_self _ _))
      (owns_pure rfl)

theorem owns_quicAccept (certPath keyPath : Path) : (books vars fails).Owns ((.fd, fd) ::ₘ R, d)
    (quicAccept fd certPath keyPath) (R, d.awaits) fun c => (c.holds + R, d.awaits) := by
  have hask : (books vars fails).Owns ((.fd, fd) ::ₘ R, d) (shell (.recvInitial fd)) (R, d.awaits)
      fun _ => ((.fd, fd) ::ₘ R, d.awaits) := by
    refine owns_ask (fun s hs => sound_uses ?_ (by rintro _ _ _ ⟨⟩))
      fun s x t hs hx => (hs.awaits fd).stays hx
    rw [hs.live]
    exact Multiset.singleton_subset.mpr (Multiset.mem_cons_self _ _)
  refine hask.bind fun r => ?_
  cases r with
  | none => exact owns_closeFd.bind fun _ => owns_throwErrno
  | some first =>
    obtain ⟨firstPkt, truncated⟩ := first
    refine Owns.bind (owns_when fun _ => owns_closeFd.bind fun _ => owns_raise) fun _ => ?_
    refine Owns.bind (owns_requireNgtcp2 (Multiset.zero_subset _) owns_closeFd) fun _ => ?_
    refine Owns.bind (owns_requireNgtcp2 (Multiset.zero_subset _) owns_closeFd) fun _ => ?_
    refine Owns.bind (owns_require (uses_head rfl) owns_closeFd owns_throwErrno) fun _ => ?_
    refine Owns.bind (owns_require (uses_head rfl) owns_closeFd owns_throwErrno) fun _ => ?_
    refine Owns.bind (owns_secure fun sslCtx release hrelease => ?_) fun x => ?_
    · refine Owns.bind (owns_require (uses_head rfl) hrelease owns_raise) fun _ => ?_
      exact owns_require (uses_head rfl) hrelease owns_raise
    · refine owns_attach (fun conn M => ?_) fun _ _ => owns_pure rfl
      exact owns_require (uses_head rfl) (owns_pure rfl) owns_raise

/-- Where a transport may come from, but for the listening ones of the commands. -/
inductive Factory
  | tcp (host : Bytes) (port : UInt16)
  | quic (host : Bytes) (port : UInt16)
  | udpDataClient (host : Bytes) (port : UInt16)
  | udpDataServer (port : UInt16)

def Factory.make : Factory → Prog Shell Conn
  | .tcp host port => tcpConnect host port
  | .quic host port => quicConnect host port
  | .udpDataClient host port => udpDataClientConnect host port
  | .udpDataServer port => do
    let fd ← udpDataServerBind port
    udpDataServerConnect fd

theorem owns_make (f : Factory) :
    (books vars fails).Owns (R, d) f.make (R, d) fun conn => (conn.holds + R, d) := by
  cases f with
  | tcp host port => exact owns_tcpConnect host port
  | quic host port => exact owns_quicConnect host port
  | udpDataClient host port => exact owns_udpDataClientConnect host port
  | udpDataServer port => exact (owns_udpDataServerBind port).bind fun fd => owns_udpDataServerConnect

end factories

/-- A transport that is made and destroyed, in any environment and whatever fails. -/
theorem factory_releases (vars : String → Option Bytes) (fails : Prop) (f : Factory)
    {s t u : Process} {p : Prog Shell Conn} {q : Prog Shell Unit} (hs : s.live.Nodup)
    (hmake : Reaches (world vars fails) (f.make, s) (p, t))
    (hrun : Reaches (world vars fails) (f.make >>= destroy, s) (q, u)) :
    (∀ conn, p = .ret conn → t.live = conn.holds + s.live) ∧
    (∀ e, p = .raise e → t.live = s.live) ∧
    (∀ op, q.head = some op → op.uses ⊆ u.live) ∧
    (q.Done → u.live = s.live ∧ u.owed = s.owed) := by
  have hhas : s.Has (s.live, s.owed, fun _ => True) := ⟨rfl, hs, rfl, trivial⟩
  have howns : (books vars fails).Owns (s.live, s.owed, fun _ => True) f.make _ _ := owns_make f
  have hmade := howns s hhas
  have hsat := howns.bind (fun conn => owns_destroy conn) s hhas
  refine ⟨?_, ?_, (hsat.visited hrun).uses, fun hdone => ?_⟩
  · rintro conn rfl
    exact (hmade.returned hmake).live
  · rintro e rfl
    exact (hmade.raised hmake).live
  · cases q with
    | ret _ => exact ⟨(hsat.returned hrun).live, (hsat.returned hrun).owed⟩
    | raise e => exact ⟨(hsat.raised hrun).live, (hsat.raised hrun).owed⟩
    | act g k => exact hdone.elim
    | call o k => exact hdone.elim
    | loop body x k => exact hdone.elim

theorem client_unmapped : ∃ l, ∃ t : Process, ∃ e, Trace (world (fun _ => none) False)
    (udpDataClientConnect (ascii "1.1.1.1") 1) blank l (.raise e) t := by
  let u := blank.grab .fd 3
  let v := u.note (.connect (ascii "1.1.1.1") 1)
  let w := (v.grab .ring 0).grab .mem 0
  have hsocket : world (fun _ => none) False (.socket true) blank (some 3) u :=
    .inl ⟨3, rfl, Multiset.notMem_zero _, rfl⟩
  have hconnect : world (fun _ => none) False (.check (.connect 3 (ascii "1.1.1.1") 1)) u true v :=
    .inl ⟨rfl, rfl⟩
  have hprobe : world (fun _ => none) False (.check (.sendProbe 3)) v true v := .inl ⟨rfl, rfl⟩
  have hring : world (fun _ => none) False .queueInit v (.ok 0) (v.grab .ring 0) :=
    .inl ⟨0, rfl, by decide, rfl⟩
  have hchunk : ∀ len, world (fun _ => none) False (.mmap len) (v.grab .ring 0) (some 0) w :=
    fun _ => .inl ⟨0, rfl, by decide, rfl⟩
  have hfrag : ∀ len, world (fun _ => none) False (.mmap len) w none { w with errno := ENOMEM } :=
    fun _ => .inr ⟨rfl, ENOMEM, rfl⟩
  have hfree : ∀ k n s, world (fun _ => none) False (.free k n) s ()
      { s with live := s.live.erase (k, n) } := fun _ _ _ => rfl
  have hclose : world (fun _ => none) False (.close 3)
      { w with errno := ENOMEM, live := {(.fd, 3)} } true { w with errno := ENOMEM, live := 0 } :=
    .inl ⟨rfl, Multiset.mem_singleton_self _, rfl⟩
  exact ⟨_, { w with errno := ENOMEM, live := 0 }, _, .call hsocket <| .call hconnect <|
    .call hprobe <| .call hring <| .call (hchunk _) <| .call (hfrag _) <| .call (hfree _ _ _) <|
    .call (hfree _ _ _) <| .act <| .call hclose .done⟩

theorem factory_releases_unmapped : ∃ t : Process, ∃ e, Reaches (world (fun _ => none) False)
    ((Factory.udpDataClient (ascii "1.1.1.1") 1).make >>= destroy, blank) (.raise e, t) ∧
    t.live = 0 ∧ t.owed = 0 := by
  obtain ⟨l, t, e, hrun⟩ := client_unmapped
  have hboth := (hrun.raise_bind (g := destroy)).reaches
  have hall := factory_releases _ _ (.udpDataClient (ascii "1.1.1.1") 1) Multiset.nodup_zero
    hrun.reaches hboth
  exact ⟨t, e, hboth, hall.2.2.2 trivial⟩

end Embr.Cli
