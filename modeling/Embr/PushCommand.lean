import Embr.Ownership

/-!
# What others see of a push

A push listens, registers its token, serves one transfer and takes the token back, in this
order; it stops where something fails and then does not take the token back. The token is
registered only while its port is open.
-/

open Octets Interact Text
open Interact.Books
open Embr.System (lift)
open Embr.Protocol (Hash FileMeta)
open Embr.Tracker (deriveToken)
namespace Embr.Cli

def registered (url token : Bytes) (port : UInt16) : List Event :=
  if url = [] then [] else [.register url token port]

def unregistered (url token : Bytes) : List Event :=
  if url = [] then [] else [.unregister url token]

/-- Up to the end of the transfer. -/
def served (sha256 : Bytes → Hash) (url : Bytes) (o : PushOpts) (fileMeta : FileMeta)
    (ended : Except Exc Unit) : List Event :=
  registered url (deriveToken sha256 fileMeta.chunkHashes) o.port ++ [.push fileMeta ended]

/-- The acts of a push with these arguments that answers a code. -/
inductive Pushed (sha256 : Bytes → Hash) : List Bytes → ℕ → List Event → Prop
  | usage : Pushed sha256 [] 1 []
  | help {filePath : Path} {args : List Bytes} :
      parseFlags pushFlags {} args = .ok .help → Pushed sha256 (filePath :: args) 0 []
  | refused {filePath : Path} {args : List Bytes} : Pushed sha256 (filePath :: args) 1 []
  | stopped {filePath : Path} {args : List Bytes} {o : PushOpts} {l : List Event} (url : Bytes)
      (fileMeta : FileMeta) (e : Exc) : parseFlags pushFlags {} args = .ok (.options o) →
      l <+: served sha256 url o fileMeta (.error e) → Pushed sha256 (filePath :: args) 1 l
  | done {filePath : Path} {args : List Bytes} {o : PushOpts} (url : Bytes) (fileMeta : FileMeta) :
      parseFlags pushFlags {} args = .ok (.options o) → Pushed sha256 (filePath :: args) 0
        (served sha256 url o fileMeta (.ok ()) ++
          unregistered url (deriveToken sha256 fileMeta.chunkHashes))

abbrev after (n : ℤ) (l k : List Event) : Tally := (n, (· = l ++ k))

section listening
variable {vars : String → Option Bytes} {fails : Prop} {R : Multiset Handle} {d : Tally}
  {fd : ℕ} {s : Process}

theorem require_passes {q : Check} {release raise : Prog Shell Unit}
    (hraise : ∀ t, Sat (world vars fails) (fun _ _ => True) (fun _ _ => True) raise
      (fun _ _ => False) t) :
    Sat (world vars fails) (fun _ _ => True) (fun _ _ => True) (require q release raise)
      (fun _ t => t = (s.tried q).passed q) s := by
  refine sat_ask_bind.mpr ⟨trivial, fun r t ht => ?_⟩
  rcases ht with ⟨rfl, rfl⟩ | ⟨rfl, -⟩
  · exact sat_pure.mpr ⟨trivial, rfl⟩
  · exact Sat.andThen (Sat.top release t) fun _ u _ => (hraise u).weaken fun _ _ hno => hno.elim

theorem throwErrno_never {what : String} (t : Process) :
    Sat (world vars fails) (fun _ _ => True) (fun _ _ => True) (throwErrno what : Prog Shell Unit)
      (fun _ _ => False) t :=
  sat_get_bind.mpr ⟨trivial, sat_raise.mpr ⟨trivial, trivial⟩⟩

theorem listenOn_status (o : PushOpts) (s : Process) :
    Sat (world vars fails) (fun _ _ => True) (fun _ _ => True) (listenOn o)
      (fun fd (t : Process) => t.status fd = .bound o.port ∨ t.status fd = .listening o.port) s := by
  rw [listenOn]
  split_ifs
  · refine sat_ask_bind.mpr ⟨trivial, fun r t _ => ?_⟩
    cases r with
    | none => exact sat_get_bind.mpr ⟨trivial, trivial, trivial⟩
    | some fd =>
      refine Sat.andThen (require_passes throwErrno_never) fun _ u hu => sat_pure.mpr ⟨trivial, ?_⟩
      rw [hu]
      exact Or.inl (Function.update_self ..)
  · refine sat_ask_bind.mpr ⟨trivial, fun r t _ => ?_⟩
    cases r with
    | none => exact sat_get_bind.mpr ⟨trivial, trivial, trivial⟩
    | some fd =>
      refine Sat.andThen (require_passes throwErrno_never) fun _ u hu => ?_
      have hbound : u.status fd = .bound o.port := by
        rw [hu]
        exact Function.update_self ..
      refine Sat.andThen (require_passes throwErrno_never) fun _ v hv => sat_pure.mpr ⟨trivial, ?_⟩
      rw [hv]
      refine Or.inr ((Function.update_self ..).trans ?_)
      change (u.status fd).listen = _
      rw [hbound]
      rfl

theorem listenOn_listens (o : PushOpts) (hs : s.Has (R, d)) :
    Sat (world vars fails) Sound (fun _ => Process.Has (R, d)) (listenOn o)
      (fun fd (t : Process) => t.Has ((.fd, fd) ::ₘ R, d) ∧ t.Listens o.port) s := by
  have howns : (books vars fails).Owns (R, d) (listenOn o) (R, d) fun fd => ((.fd, fd) ::ₘ R, d) := by
    rw [listenOn]
    split_ifs
    · exact owns_quicListen _
    · exact owns_tcpListen _
  refine (Sat.and (howns s hs) (listenOn_status o s)).mono (fun _ _ _ _ h => h) (fun _ _ h => h.1)
    (fun _ _ h => h.1) fun fd t ht => ⟨ht.1, fd, ?_, ht.2⟩
  rw [ht.1.live]
  exact Multiset.mem_cons_self _ _

end listening

section parts
variable {vars : String → Option Bytes} {fails : Prop} {M R : Multiset Handle} {n : ℤ}
  {l k : List Event} {c : Multiset Handle × Tally} {s t : Process}

theorem Process.Has.acted (h : s.Has (M, after n l k)) {e : Event} (he : e.isAwaited = false)
    (hact : e.isAct = true) : (s.note e).Has (M, after n l (k ++ [e])) := by
  refine (h.act he hact).weaken ?_
  rintro _ ⟨_, rfl, rfl⟩
  exact List.append_assoc ..

theorem announce_sat (url token : Bytes) (o : PushOpts) (hs : s.Has (M, after n l []))
    (hlistens : s.Listens o.port) :
    Sat (world vars fails) Sound (fun _ => Process.Has (M, after n l (registered url token o.port)))
      (announce url token o) (fun _ => Process.Has (M, after n l (registered url token o.port))) s := by
  refine sat_say_bind (Sat.when (fun hurl => ?_) fun hurl => ⟨sound_none _, ?_⟩)
  · rw [registered, if_neg hurl]
    refine sat_ask_bind.mpr ⟨⟨?_, ?_⟩, fun r t ht => ?_⟩
    · rintro _ ⟨⟩
      exact Multiset.zero_subset _
    · rintro _ _ _ ⟨⟩
      exact hlistens
    · have hdone := ((hs.note rfl rfl).acted rfl rfl).stays ht
      refine Sat.andThen (owns_lift t hdone) fun _ u hu => ?_
      exact ((owns_say rfl rfl).bind fun _ => owns_when fun _ => owns_say rfl rfl) u hu
  · rw [registered, if_pos (not_not.mp hurl)]
    exact hs.note rfl rfl

theorem Process.Has.carries {d : Tally} {conn conn' : Conn} (h : s.Has (conn.holds + M, d))
    (hc : s.Carries conn conn' t) : t.Has (conn'.holds + M, d) := by
  rcases hc with ⟨rfl, rfl⟩ | ⟨fd, ssl, sslCtx, conn, own, own', rfl, rfl, hpumps⟩
  · exact h
  · cases conn with
    | none =>
      simp only [Conn.holds, Multiset.cons_add, ← Multiset.add_cons] at h ⊢
      exact h.pumps hpumps
    | some conn =>
      simp only [Conn.holds, Multiset.cons_add, ← Multiset.add_cons] at h ⊢
      exact h.pumps hpumps

theorem owns_runPush (fileFd : ℕ) (fileMeta : FileMeta) (conn : Conn) :
    (books vars fails).Owns ((.fd, fileFd) ::ₘ (conn.holds + M), after n l k)
      (shell (.runPush conn fileFd fileMeta)) c
      fun x => ((.fd, fileFd) ::ₘ (x.1.holds + M), after n l (k ++ [.push fileMeta x.2])) := by
  refine owns_ask (fun s hs => sound_uses ?_ (by rintro _ _ _ ⟨⟩)) fun s x t hs hx => ?_
  · rw [hs.live]
    exact Multiset.cons_subset_cons (Multiset.subset_of_le (Multiset.le_add_right _ _))
  · obtain ⟨u, hcarries, hworks⟩ := hx
    have hacted := hs.acted (e := .push fileMeta x.2) rfl rfl
    rw [← Multiset.add_cons] at hacted ⊢
    exact (hacted.carries hcarries).works hworks

def failing (n : ℤ) (l k : List Event) (fileMeta : FileMeta) : Tally :=
  (n, fun l' => ∃ e, l' = l ++ (k ++ [.push fileMeta (.error e)]))

theorem owns_takeBack (url token : Bytes) (fileMeta : FileMeta) (ended : Except Exc Unit) :
    (books vars fails).Owns (M, after n l (k ++ [.push fileMeta ended])) (do
      lift ended
      .when (url ≠ []) (shell (.trackerUnregister url token))) (M, failing n l k fileMeta)
      fun _ => (M, after n l (k ++ [.push fileMeta (.ok ())] ++ unregistered url token)) := by
  intro s hs
  cases ended with
  | error e => exact sat_thrown (hs.weaken fun _ hl => ⟨e, hl⟩)
  | ok _ =>
    refine Sat.bind (sat_done (Sat.when (fun hurl => ?_) fun hurl => ?_))
    · rw [unregistered, if_neg hurl]
      refine sat_ask.mpr ⟨sound_uses (Multiset.zero_subset _) (by rintro _ _ _ ⟨⟩), fun _ t ht => ?_⟩
      exact ⟨sound_none _, (hs.acted rfl rfl).stays ht⟩
    · rw [unregistered, if_pos (not_not.mp hurl), List.append_nil]
      exact ⟨sound_none _, hs⟩

theorem owns_serve (url token : Bytes) (fileFd : ℕ) (fileMeta : FileMeta) (conn : Conn) :
    (books vars fails).Owns ((.fd, fileFd) ::ₘ (conn.holds + M), after n l k)
      (serve url token fileFd fileMeta conn) (M, failing n l k fileMeta)
      fun _ => (M, after n l (k ++ [.push fileMeta (.ok ())] ++ unregistered url token)) := by
  refine Owns.bind (owns_say rfl rfl) fun _ => (owns_runPush fileFd fileMeta conn).bind fun x => ?_
  obtain ⟨conn', ended⟩ := x
  refine owns_closeFd.bind fun _ => ?_
  exact (owns_takeBack url token fileMeta ended).always (owns_destroy conn') fun _ =>
    owns_destroy conn'

def settled (n : ℤ) (l k : List Event) (fileMeta : FileMeta) (back : List Event) :
    Except Exc Unit → Tally
  | .ok _ => after n l (k ++ [.push fileMeta (.ok ())] ++ back)
  | .error _ => failing n l k fileMeta

theorem owns_served (url token : Bytes) (fileFd : ℕ) (fileMeta : FileMeta) (conn : Conn) :
    (books vars fails).Owns ((.fd, fileFd) ::ₘ (conn.holds + M), after n l k)
      (serve url token fileFd fileMeta conn).attempt c
      fun r => (M, settled n l k fileMeta (unregistered url token) r) :=
  (owns_serve url token fileFd fileMeta conn).attempt (fun _ => rfl) fun _ => rfl

def Process.Lent (s : Process) (listenFd : ℕ) (M : Multiset Handle) (d : Tally) : Prop :=
  s.Has ((.fd, listenFd) ::ₘ M, d) ∨ (s.Has (M, d.awaits) ∧ (Kind.fd, listenFd) ∉ M)

theorem Process.Has.strays {d : Tally} (h : s.Has (M, d.awaits)) :
    Process.Has (M, d) { s with errno := EBADF, stray := s.stray + 1 } := by
  refine ⟨h.live, h.nodup, ?_, h.acts⟩
  have howed : (s.log.countP Event.isAwaited : ℤ) - s.stray = d.1 + 1 := h.owed
  change (s.log.countP Event.isAwaited : ℤ) - ((s.stray + 1 : ℕ) : ℤ) = d.1
  rw [Nat.cast_add, Nat.cast_one, ← sub_sub, howed, add_sub_cancel_right]

theorem Process.Lent.close {listenFd : ℕ} {d : Tally} (h : s.Lent listenFd M d) :
    Sat (world vars fails) Sound (fun _ => Process.Has c) (closeFd listenFd)
      (fun _ => Process.Has (M, d)) s := by
  rcases h with h | ⟨h, hno⟩
  · exact owns_closeFd s h
  · refine sat_call rfl fun r t ht => ?_
    rcases ht with ⟨-, hmem, -⟩ | ⟨-, -, rfl⟩
    · rw [h.live] at hmem
      exact (hno hmem).elim
    · exact sat_done h.strays

theorem acceptOn_lends (o : PushOpts) (listenFd : ℕ) {d : Tally}
    (hs : s.Has ((.fd, listenFd) ::ₘ M, d)) :
    Sat (world vars fails) Sound (fun _ (t : Process) => t.Lent listenFd M d) (acceptOn o listenFd)
      (fun conn (t : Process) => t.Has (conn.holds + (.fd, listenFd) ::ₘ M, d) ∨
        t.Has (conn.holds + M, d.awaits)) s := by
  have hno : (Kind.fd, listenFd) ∉ M := (Multiset.nodup_cons.mp hs.nodup).1
  rw [acceptOn]
  split_ifs
  · refine (Sat.throws (owns_quicAccept o.certPath o.keyPath s hs) fun _ _ hx => ?_).weaken ?_
    · exact Or.inr ⟨hx, hno⟩
    · exact fun conn t ht => Or.inr ht
  · refine (Sat.throws (owns_tcpAccept (Multiset.mem_cons_self _ _) s hs) fun _ _ hx => ?_).weaken ?_
    · exact Or.inl hx
    · exact fun conn t ht => Or.inl ht

theorem pushOver_sat (url token : Bytes) (o : PushOpts) (fileFd : ℕ) (fileMeta : FileMeta)
    (listenFd : ℕ) (hs : s.Has ((.fd, listenFd) ::ₘ (.fd, fileFd) ::ₘ R, after n l []))
    (hlistens : s.Listens o.port) :
    Sat (world vars fails) Sound
      (fun _ => Process.Has ((.fd, fileFd) ::ₘ R, after n l (registered url token o.port)))
      (pushOver url token o fileFd fileMeta listenFd)
      (fun r => Process.Has (R, settled n l (registered url token o.port) fileMeta
        (unregistered url token) r)) s := by
  let d : Tally := after n l (registered url token o.port)
  have hno : (Kind.fd, listenFd) ∉ (Kind.fd, fileFd) ::ₘ R := (Multiset.nodup_cons.mp hs.nodup).1
  have hno' : (Kind.fd, listenFd) ∉ R := fun hmem => hno (Multiset.mem_cons_of_mem hmem)
  have hblock : Sat (world vars fails) Sound
      (fun _ (t : Process) => t.Lent listenFd ((.fd, fileFd) ::ₘ R) d) (do
      announce url token o
      let conn ← acceptOn o listenFd
      (serve url token fileFd fileMeta conn).attempt)
      (fun r (t : Process) => t.Lent listenFd R (settled n l (registered url token o.port) fileMeta
        (unregistered url token) r)) s := by
    refine Sat.andThen (Sat.throws (announce_sat url token o hs hlistens) fun _ _ hx => Or.inl hx) ?_
    refine fun _ t ht => Sat.andThen (acceptOn_lends o listenFd ht) fun conn u hu => ?_
    rcases hu with hu | hu
    · rw [Multiset.cons_swap, Multiset.add_cons] at hu
      refine (Sat.throws (owns_served (c := ((.fd, listenFd) ::ₘ (.fd, fileFd) ::ₘ R, d)) url token
        fileFd fileMeta conn u hu) fun _ _ hx => Or.inl hx).weaken fun _ _ hq => Or.inl hq
    · rw [Multiset.add_cons] at hu
      refine (Sat.throws (owns_served (c := ((.fd, fileFd) ::ₘ R, d.awaits)) url token fileFd fileMeta
        conn u hu) fun _ _ hx => Or.inr ⟨hx, hno⟩).weaken fun r _ hq => Or.inr ⟨?_, hno'⟩
      cases r with
      | ok _ => exact hq
      | error e => exact hq
  exact Sat.always hblock (fun _ t ht => ht.close) fun _ t ht => ht.close

end parts

section command
variable {vars : String → Option Bytes} {fails : Prop} {R : Multiset Handle} {n : ℤ}
  {l : List Event} {s t : Process} {sha256 : Bytes → Hash}

def stopping (n : ℤ) (l : List Event) (sha256 : Bytes → Hash) (url : Bytes) (o : PushOpts) : Tally :=
  (n, fun l' => ∃ fileMeta e k, k <+: served sha256 url o fileMeta (.error e) ∧ l' = l ++ k)

def ending (n : ℤ) (l : List Event) (sha256 : Bytes → Hash) (url : Bytes) (o : PushOpts) : Tally :=
  (n, fun l' => ∃ fileMeta, l' = l ++ (served sha256 url o fileMeta (.ok ()) ++
    unregistered url (deriveToken sha256 fileMeta.chunkHashes)))

/-- What nobody releases. -/
def Lost (h : Handle) : Prop := h.1 = .fd ∨ h.1 = .mem

def Process.HasLost (a : Multiset Handle × Tally) (s : Process) : Prop :=
  s.Has a ∨ ∃ h, Lost h ∧ s.Has (h ::ₘ a.1, a.2)

theorem Process.HasLost.weaken {d : Tally} {L : List Event → Prop} (h : s.HasLost (R, d))
    (hL : ∀ l, d.2 l → L l) : s.HasLost (R, d.1, L) := by
  rcases h with h | ⟨m, hm, h⟩
  · exact Or.inl (h.weaken hL)
  · exact Or.inr ⟨m, hm, h.weaken hL⟩

theorem Process.Has.leaves {α : Type} {d : Tally} {r : Except Exc α} (h : s.Has (R, d))
    (hl : s.Leaves r t) : t.Has (R, d) ∨ ∃ e m, r = .error e ∧ Lost m ∧ t.Has (m ::ₘ R, d) := by
  rcases hl with rfl | ⟨e, k, m, he, hk, hnew, rfl⟩
  · exact Or.inl h
  · exact Or.inr ⟨e, (k, m), he, hk, h.grab hnew⟩

theorem lift_leaves {α : Type} {d : Tally} {r : Except Exc α} (hs : s.Has (R, d))
    (hl : s.Leaves r t) : Sat (world vars fails) Sound (fun _ => Process.HasLost (R, d)) (lift r)
      (fun _ => Process.Has (R, d)) t := by
  rcases hs.leaves hl with ht | ⟨e, m, rfl, hm, ht⟩
  · exact Sat.throws (owns_lift t ht) fun _ _ hx => Or.inl hx
  · exact sat_thrown (Or.inr ⟨m, hm, ht⟩)

theorem Process.Has.stopping {url : Bytes} {o : PushOpts} {k : List Event} (fileMeta : FileMeta)
    (e : Exc) (h : s.Has (R, after n l k)) (hk : k <+: served sha256 url o fileMeta (.error e)) :
    s.Has (R, stopping n l sha256 url o) :=
  h.weaken fun _ hl => ⟨fileMeta, e, k, hk, hl⟩

theorem Process.Has.failing {url : Bytes} {o : PushOpts} {fileMeta : FileMeta}
    (h : s.Has (R, failing n l (registered url (deriveToken sha256 fileMeta.chunkHashes) o.port)
      fileMeta)) : s.Has (R, Cli.stopping n l sha256 url o) := by
  refine h.weaken ?_
  rintro _ ⟨e, rfl⟩
  exact ⟨fileMeta, e, _, List.prefix_refl _, rfl⟩

theorem push_sat (sha256 : Bytes → Hash) (filePath : Path) (url : Bytes) (o : PushOpts)
    (hs : s.Has (R, after n l [])) :
    Sat (world vars fails) Sound (fun _ => Process.HasLost (R, stopping n l sha256 url o))
      (push sha256 filePath url o) (fun _ => Process.Has (R, ending n l sha256 url o)) s := by
  have hnone : ∀ l', (after n l []).2 l' → (Cli.stopping n l sha256 url o).2 l' :=
    fun _ hl => ⟨⟨[], 0, 0, 0, []⟩, .invalidArgument "", [], List.nil_prefix, hl⟩
  refine sat_call rfl fun r t ht => ?_
  obtain ⟨u, hworks, hleaves⟩ := ht
  refine Sat.andThen (Sat.throws (lift_leaves (hs.works hworks) hleaves) fun _ _ hx =>
    hx.weaken hnone) fun fileMeta t ht => ?_
  refine sat_call rfl fun r u hu => ?_
  cases r with
  | none => exact sat_thrown (Or.inl ((ht.makes hu).weaken hnone))
  | some fileFd =>
    let token := deriveToken sha256 fileMeta.chunkHashes
    have howning : Sat (world vars fails) Sound (fun _ (v : Process) =>
          v.Has ((.fd, fileFd) ::ₘ R, Cli.stopping n l sha256 url o)) (do
        let listenFd ← listenOn o
        pushOver url token o fileFd fileMeta listenFd)
        (fun r => Process.Has (R, settled n l (registered url token o.port) fileMeta
          (unregistered url token) r)) u := by
      refine Sat.andThen (Sat.throws (listenOn_listens o (ht.makes hu)) fun _ _ hx =>
        hx.weaken hnone) fun listenFd v hv => ?_
      exact Sat.throws (pushOver_sat url token o fileFd fileMeta listenFd hv.1 hv.2) fun e _ hx =>
        hx.stopping fileMeta e (List.prefix_append _ _)
    refine Sat.bind (sat_done ?_)
    refine Sat.andThen (Sat.onThrow howning fun e v hv => ?_) fun r v hv => ?_
    · exact (owns_closeFd (c := (R, Cli.stopping n l sha256 url o)) v hv).mono
        (fun _ _ _ _ h => h) (fun _ _ h => h) (fun _ _ h => Or.inl h) fun _ _ h => Or.inl h
    cases r with
    | ok _ => exact sat_done (hv.weaken fun _ hl => ⟨fileMeta, hl⟩)
    | error e => exact sat_thrown (Or.inl hv.failing)

/-- Only what answers 1 may have lost something. -/
def Process.Ends (a : Multiset Handle × Tally) (code : ℕ) (t : Process) : Prop :=
  t.Has a ∨ (code = 1 ∧ ∃ h, Lost h ∧ t.Has (h ::ₘ a.1, a.2))

theorem Process.Ends.weaken {d : Tally} {code : ℕ} {L : List Event → Prop}
    (h : t.Ends (R, d) code) (hL : ∀ l, d.2 l → L l) : t.Ends (R, d.1, L) code := by
  rcases h with h | ⟨hcode, m, hm, h⟩
  · exact Or.inl (h.weaken hL)
  · exact Or.inr ⟨hcode, m, hm, h.weaken hL⟩

def PushEnds (sha256 : Bytes → Hash) (args : List Bytes) (R : Multiset Handle) (n : ℤ)
    (l : List Event) (code : ℕ) (t : Process) : Prop :=
  t.Ends (R, n, fun l' => ∃ k, l' = l ++ k ∧ Pushed sha256 args code k) code

theorem PushEnds.nothing {args : List Bytes} {code : ℕ} (h : t.Has (R, after n l []))
    (hp : Pushed sha256 args code []) : PushEnds sha256 args R n l code t :=
  Or.inl (h.weaken fun _ hl => ⟨[], hl, hp⟩)

theorem lift_sat {α : Type} {r : Except Exc α} {a : Multiset Handle × Tally} (hs : s.Has a) :
    Sat (world vars fails) Sound (fun _ => Process.Has a) (lift r)
      (fun x (t : Process) => r = .ok x ∧ t.Has a) s := by
  cases r with
  | ok x => exact sat_done ⟨rfl, hs⟩
  | error e => exact sat_thrown hs

theorem caught_sat {p : Prog Shell ℕ} {Q : ℕ → Process → Prop} {X : Exc → Process → Prop}
    {d : Tally} (h : Sat (world vars fails) Sound (fun _ => Process.HasLost (R, d)) p Q s) :
    Sat (world vars fails) Sound X (caught p)
      (fun code (t : Process) => Q code t ∨ (code = 1 ∧ t.Ends (R, d) code)) s := by
  refine Sat.andThen h.attempt fun r t ht => ?_
  cases r with
  | ok code => exact sat_done (Or.inl ht.2)
  | error e =>
    refine sat_say_bind (sat_done (Or.inr ⟨rfl, ?_⟩))
    rcases ht.2 with ht | ⟨m, hm, ht⟩
    · exact Or.inl (ht.note rfl rfl)
    · exact Or.inr ⟨rfl, m, hm, ht.note rfl rfl⟩

theorem runPushCli_sat (sha256 : Bytes → Hash) (args : List Bytes) (hs : s.Has (R, after n l [])) :
    Sat (world vars fails) Sound (fun _ => Process.Has (R, after n l [])) (runPushCli sha256 args)
      (PushEnds sha256 args R n l) s := by
  cases args with
  | nil => exact sat_say_bind (sat_done (.nothing (hs.note rfl rfl) .usage))
  | cons filePath args =>
    refine Sat.andThen (lift_sat hs) fun parsed t ht => ?_
    obtain ⟨hparse, ht⟩ := ht
    cases parsed with
    | help =>
      refine sat_say_bind (sat_done ?_)
      exact .nothing (ht.note rfl rfl) (.help hparse)
    | unknown flag =>
      refine sat_say_bind (sat_say_bind (sat_done ?_))
      exact .nothing ((ht.note rfl rfl).note rfl rfl) .refused
    | options o =>
      dsimp only
      split_ifs
      · refine sat_say_bind (sat_done ?_)
        exact .nothing (ht.note rfl rfl) .refused
      · refine Sat.andThen (owns_resolveTrackerUrl o.trackerUrl t ht) fun url u hu => ?_
        have hsay : (books vars fails).Owns (R, after n l []) (.when (url ≠ [])
            (cout ("[push] tracker: " ++ text url))) (R, after n l []) fun _ => (R, after n l []) :=
          owns_when fun _ => owns_say rfl rfl
        refine Sat.andThen (hsay u hu) fun _ v hv => ?_
        have hbody : Sat (world vars fails) Sound
            (fun _ => Process.HasLost (R, Cli.stopping n l sha256 url o)) (do
              push sha256 filePath url o
              pure 0)
            (fun code (w : Process) => code = 0 ∧ w.Has (R, ending n l sha256 url o)) v :=
          Sat.andThen (push_sat sha256 filePath url o hv) fun _ w hw =>
            sat_done ⟨rfl, hw⟩
        refine (caught_sat hbody).weaken fun code w hw => ?_
        rcases hw with ⟨rfl, hw⟩ | ⟨rfl, hw⟩
        · refine Or.inl (hw.weaken ?_)
          rintro _ ⟨fileMeta, rfl⟩
          exact ⟨_, rfl, .done url fileMeta hparse⟩
        · refine hw.weaken ?_
          rintro _ ⟨fileMeta, e, k, hk, rfl⟩
          exact ⟨k, rfl, .stopped url fileMeta e hparse hk⟩

end command

def quicOpts : PushOpts := { transport := ascii "quic" }

def waiting : Process :=
  ((((blank.grab .fd 3).grab .fd 4).passed (.bind 4 embrPort)).note (.out
    ("[push] listening on port " ++ text (decimal embrPort.toNat) ++
      " (" ++ text (ascii "quic") ++ ")"))).note (.awaited 4)

def unheard : Exc := .systemError "quic_accept: recvmsg() failed: " 0

theorem listen_quic : ∃ l, Trace (world (fun _ => none) False) (listenOn quicOpts)
    (blank.grab .fd 3) l (.ret 4) (((blank.grab .fd 3).grab .fd 4).passed (.bind 4 embrPort)) := by
  have hsocket : world (fun _ => none) False (.socket true) (blank.grab .fd 3) (some 4)
      ((blank.grab .fd 3).grab .fd 4) := .inl ⟨4, rfl, by decide, rfl⟩
  have hbind : world (fun _ => none) False (.check (.bind 4 embrPort))
      ((blank.grab .fd 3).grab .fd 4) true
      (((blank.grab .fd 3).grab .fd 4).passed (.bind 4 embrPort)) := .inl ⟨rfl, rfl⟩
  exact ⟨_, .call hsocket <| .call hbind .done⟩

theorem pushOver_unheard (token : Bytes) (fileMeta : FileMeta) : ∃ l,
    Trace (world (fun _ => none) False) (pushOver [] token quicOpts 3 fileMeta 4)
      (((blank.grab .fd 3).grab .fd 4).passed (.bind 4 embrPort)) l (.raise unheard)
      { waiting with live := {(.fd, 3)}, errno := EBADF, stray := 1 } := by
  have hrecv : ∀ s, world (fun _ => none) False (.recvInitial 4) s none (s.note (.awaited 4)) :=
    fun s => ⟨s.errno, rfl⟩
  have hclose : world (fun _ => none) False (.close 4) waiting true
      { waiting with live := {(.fd, 3)} } := .inl ⟨rfl, by decide, rfl⟩
  have hagain : world (fun _ => none) False (.close 4) { waiting with live := {(.fd, 3)} } false
      { waiting with live := {(.fd, 3)}, errno := EBADF, stray := 1 } := .inr ⟨rfl, by decide, rfl⟩
  exact ⟨_, .act <| .call (hrecv _) <| .call hclose <| .act <| .call hagain .done⟩

theorem try_unheard (sha256 : Bytes → Hash) (fileMeta : FileMeta) : ∃ l,
    Trace (world (fun _ => none) False) (push sha256 (ascii "f") [] quicOpts) blank l (.raise unheard)
      { waiting with live := 0, errno := EBADF, stray := 1 } := by
  have hmeta : world (fun _ => none) False (.precomputeMeta (ascii "f")) blank (.ok fileMeta) blank :=
    ⟨blank, ⟨0, blank.files, rfl⟩, Or.inl rfl⟩
  have hopen : world (fun _ => none) False (.openRead (ascii "f")) blank (some 3) (blank.grab .fd 3) :=
    .inl ⟨3, rfl, Multiset.notMem_zero _, rfl⟩
  have hfile : world (fun _ => none) False (.close 3)
      { waiting with live := {(.fd, 3)}, errno := EBADF, stray := 1 } true
      { waiting with live := 0, errno := EBADF, stray := 1 } :=
    .inl ⟨rfl, Multiset.mem_singleton_self _, rfl⟩
  obtain ⟨l, hlisten⟩ := listen_quic
  obtain ⟨l', hover⟩ := pushOver_unheard (deriveToken sha256 fileMeta.chunkHashes) fileMeta
  have hclose : Trace (world (fun _ => none) False) (closeFd 3) _ _ (.ret ()) _ := .call hfile .done
  have hrest : Trace (world (fun _ => none) False) (Prog.onThrow (do
      let listenFd ← listenOn quicOpts
      pushOver [] (deriveToken sha256 fileMeta.chunkHashes) quicOpts 3 fileMeta listenFd)
      (closeFd 3) >>= fun r => lift r) (blank.grab .fd 3) _ (.raise unheard) _ :=
    Trace.raise_bind (Trace.onThrow (hlisten.andThen hover) hclose)
  exact ⟨_, .call hmeta <| .call hopen hrest⟩

theorem push_unheard (sha256 : Bytes → Hash) (fileMeta : FileMeta) : ∃ l, ∃ t : Process,
    Trace (world (fun _ => none) False)
      (runPushCli sha256 [ascii "f", ascii "--transport", ascii "quic"]) blank l (.ret 1) t ∧
      t.stray = 1 ∧ t.live = 0 := by
  have hnone : ∀ name, world (fun _ => none) False (.getenv name) blank none blank :=
    fun _ => ⟨rfl, rfl⟩
  obtain ⟨l, hpush⟩ := try_unheard sha256 fileMeta
  have hcaught : Trace (world (fun _ => none) False) (caught (do
      push sha256 (ascii "f") [] quicOpts
      pure 0)) blank (l ++ []) (.ret 1)
      (Process.note { waiting with live := 0, errno := EBADF, stray := 1 } (.error unheard)) :=
    (Trace.raise_bind hpush).attempt.andThen (.act .done)
  have hcli : runPushCli sha256 [ascii "f", ascii "--transport", ascii "quic"] = (do
      let url ← resolveTrackerUrl []
      .when (url ≠ []) (cout ("[push] tracker: " ++ text url))
      caught (do
        push sha256 (ascii "f") url quicOpts
        pure 0)) := rfl
  rw [hcli]
  exact ⟨_, _, .call (hnone _) <| .call (hnone _) hcaught, rfl, rfl⟩

def told (name : String) : Option Bytes :=
  if name = "EMBR_TRACKER" then some (ascii "http://t") else none

end Embr.Cli
