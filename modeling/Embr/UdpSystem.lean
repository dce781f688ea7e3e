import Embr.LateDuplicates
import Embr.SendOnce
import Embr.SendPipeline

/-!
# A sender and a receiver over UDP

`send_file` of one process and `recv_file` of another, with the control
connection between them and a network that loses datagrams and delivers the
others in any order. What one side may see is what the other one has done so
far, in every interleaving.
-/

open Octets Interact
namespace Embr.UdpSystem
open Embr.UdpTransport Embr.LateDuplicates
open Embr.System (World)
open DataPlane (socket)

variable {src f Y : Bytes} {fd : Path} {offset base len k n : ℕ} {s t u : Store}
  {os : Env System.Os} {arrives : Store → Bytes → Prop} {short : Prop} {feed : World → Bytes}

/-! ## What the receiver says -/

def signals (n : ℕ) : Bytes := 1 :: (List.range n).flatMap (be 4)

theorem signals_succ (n : ℕ) : signals (n + 1) = signals n ++ be 4 n := by
  simp [signals, List.range_succ]

theorem signals_mono (h : n ≤ k) : signals n <+: signals k := by
  induction h with
  | refl => exact List.prefix_rfl
  | step _ ih =>
    rw [signals_succ]
    exact ih.trans (List.prefix_append _ _)

theorem completes_out {q : Request} {res : ℤ} (h : completes arrives short q res s t) :
    t.os.out = s.os.out ∧ t.os.read = s.os.read := by
  cases q with
  | read => rcases h with ⟨-, rfl⟩ | ⟨_, _, -, -, -, -, -, rfl⟩ <;> exact ⟨rfl, rfl⟩
  | sendmsg => rcases h with ⟨-, rfl⟩ | ⟨-, rfl⟩ <;> exact ⟨rfl, rfl⟩
  | recv => rcases h with ⟨-, rfl⟩ | ⟨_, -, -, rfl⟩ <;> exact ⟨rfl, rfl⟩
  | write => rcases h with ⟨-, rfl⟩ | ⟨_, _, -, -, -, -, -, rfl⟩ <;> exact ⟨rfl, rfl⟩

theorem submit_out {r : ℤ} (h : kernel os arrives short .submit s r t) :
    t.os = s.os ∧ t.sent = s.sent ∧ t.arrived = s.arrived := by
  rcases h with ⟨-, rfl⟩ | ⟨_, -, -, rfl⟩ <;> exact ⟨rfl, rfl, rfl⟩

theorem wait_out {r : Option Cqe} (h : kernel os arrives short .waitCqe s r t) :
    t.os.out = s.os.out ∧ t.os.read = s.os.read := by
  rcases h with ⟨-, rfl⟩ | ⟨_, _, _, _, -, -, hdone⟩
  · exact ⟨rfl, rfl⟩
  · have hout := completes_out hdone
    exact hout

theorem out_ofAccounts (o : Bytes) : OfAccounts fun t => t.os.out = o := by
  intro s t hos _ _ hs
  rw [hos]
  exact hs

theorem out_submit (o : Bytes) : KeptBy (kernel os arrives short) (fun t => t.os.out = o) .submit :=
  fun _ _ _ hs ht => (congrArg World.out (submit_out ht).1).trans hs

theorem out_wait (o : Bytes) : KeptBy (kernel os arrives short) (fun t => t.os.out = o) .waitCqe :=
  fun _ _ _ hs ht => (wait_out ht).1.trans hs

def Saying (Y : Bytes) (t : Store) : Prop := t.os.out <+: Y

theorem quiet_sat {α : Type} {E : Env Udp} {p : Prog Udp α} (hp : p.Keeps E fun u => u.os.out = t.os.out)
    (ht : Saying Y t) :
    Sat E (fun _ => Saying Y) (fun _ => Saying Y) p (fun _ u => u.os.out = t.os.out) t := by
  have hsay : ∀ u : Store, u.os.out = t.os.out → Saying Y u := by
    intro u hu
    rw [Saying, hu]
    exact ht
  exact ((hp.sat rfl).inside fun _ u hu => hsay u hu).throws fun _ u hu => hsay u hu

theorem sendControl_sat {buf : Bytes} (ht : t.os.out ++ buf <+: Y) :
    Sat (kernel (socket feed) arrives short) (fun _ => Saying Y) (fun _ => Saying Y)
      ((sendExact tcp buf).embed control) (fun _ u => u.os.out = t.os.out ++ buf) t := by
  refine (control_sat (P := Saying Y) (DataPlane.sendExact_sat buf t.os)
    fun _ w hw => hw.upper.trans ht).weaken
    fun _ u hu => ?_
  obtain ⟨w, hput, rfl⟩ := hu
  exact hput.out

theorem recvNext_says (hk : s.os.out ++ signals k = t.os.out) (hle : k ≤ chunkCount len) :
    Sat (kernel (socket feed) arrives short) (fun _ => Saying (s.os.out ++ signals (chunkCount len)))
      (fun _ => Saying (s.os.out ++ signals (chunkCount len))) (recvNext fd offset len (k, n))
      (fun r u => r.elim
        (fun x => x.1 ≤ chunkCount len ∧ s.os.out ++ signals x.1 = u.os.out)
        (fun _ => u.os.out = s.os.out ++ signals (chunkCount len))) t := by
  have hsay : ∀ j ≤ chunkCount len, s.os.out ++ signals j <+: s.os.out ++ signals (chunkCount len) :=
    fun j hj => (List.prefix_append_right_inj _).mpr (signals_mono hj)
  have hhere : Saying (s.os.out ++ signals (chunkCount len)) t := by
    rw [Saying, ← hk]
    exact hsay k hle
  rw [recvNext]
  split_ifs with hlt
  · have hquiet := recvChunk_keeps (E := kernel (socket feed) arrives short) (out_ofAccounts t.os.out)
      (out_submit _) (out_wait _) (recvState fd offset len k) n
    refine Sat.andThen (quiet_sat hquiet hhere) fun r u hu => ?_
    have hnext : u.os.out ++ be 4 k = s.os.out ++ signals (k + 1) := by
      rw [hu, ← hk, signals_succ, List.append_assoc]
    refine Sat.andThen (sendControl_sat (hnext ▸ hsay (k + 1) hlt)) fun _ v hv => ?_
    rw [hnext] at hv
    refine sat_pure.mpr ⟨?_, hlt, hv.symm⟩
    rw [Saying, hv]
    exact hsay (k + 1) hlt
  · have hend : k = chunkCount len := Nat.le_antisymm hle (Nat.not_lt.mp hlt)
    rw [← hend, hk] at hhere ⊢
    exact sat_pure.mpr ⟨hhere, rfl⟩

theorem recvFile_says (fd : Path) (offset len : ℕ) (s : Store) :
    Sat (kernel (socket feed) arrives short) (fun _ => Saying (s.os.out ++ signals (chunkCount len)))
      (fun _ => Saying (s.os.out ++ signals (chunkCount len))) (recvFile fd offset len)
      (fun _ u => u.os.out = s.os.out ++ signals (chunkCount len)) s := by
  have hstart : Saying (s.os.out ++ signals (chunkCount len)) s := List.prefix_append _ _
  rw [recvFile]
  have hrecvs := submitRecvs_keeps (E := kernel (socket feed) arrives short) (out_ofAccounts s.os.out)
    (List.range UDP_FRAG_BUFS)
  refine Sat.andThen (quiet_sat hrecvs hstart) fun _ t ht => ?_
  have hthere : Saying (s.os.out ++ signals (chunkCount len)) t := by
    rw [Saying, ht]
    exact hstart
  refine Sat.andThen (quiet_sat (ioUringSubmit_keeps (out_submit _)) hthere) fun _ u hu => ?_
  have hone : u.os.out ++ [1] = s.os.out ++ signals 0 := by
    rw [hu, ht]
    rfl
  have hfirst : s.os.out ++ signals 0 <+: s.os.out ++ signals (chunkCount len) :=
    (List.prefix_append_right_inj _).mpr (signals_mono (Nat.zero_le _))
  refine Sat.andThen (sendControl_sat (hone ▸ hfirst)) fun _ v hv => ?_
  apply Sat.round fun x (t : Store) => x.1 ≤ chunkCount len ∧ s.os.out ++ signals x.1 = t.os.out
  · exact ⟨Nat.zero_le _, (hv.trans hone).symm⟩
  intro x t hx
  obtain ⟨k, n⟩ := x
  obtain ⟨hle, hk⟩ := hx
  have hnext : Sat (kernel (socket feed) arrives short) _ _ (recvNext fd offset len (k, n)) _ t :=
    recvNext_says hk hle
  have hhere : Saying (s.os.out ++ signals (chunkCount len)) t := by
    rw [Saying, ← hk]
    exact (List.prefix_append_right_inj _).mpr (signals_mono hle)
  refine ⟨hhere, hnext.weaken fun r u hu => ?_⟩
  cases r with
  | inl x => exact hu
  | inr _ =>
    refine ⟨?_, hu⟩
    rw [Saying]
    exact hu ▸ List.prefix_rfl

/-! ## What an acknowledgement says -/

/-- Once the last chunk was acknowledged, what came first of each fragment is in the file. -/
def Settled (src : Bytes) (fd : Path) (offset base : ℕ) (f : Bytes) (t : Store) : Prop :=
  base + 1 + 4 * chunkCount src.length ≤ t.os.out.length →
    Received src fd offset base f (chunkCount src.length) t

theorem unsettled (h : t.os.out.length < base + 1 + 4 * chunkCount src.length) :
    Settled src fd offset base f t := fun hle => absurd h (Nat.not_lt.mpr hle)

theorem before_sat {α : Type} {E : Env Udp} {p : Prog Udp α}
    (hp : p.Keeps E fun u => u.os.out = t.os.out)
    (h : t.os.out.length < base + 1 + 4 * chunkCount src.length) :
    Sat E (fun _ => Settled src fd offset base f) (fun _ => Settled src fd offset base f) p
      (fun _ u => u.os.out = t.os.out) t := by
  have hbefore : ∀ u : Store, u.os.out = t.os.out → Settled src fd offset base f u := by
    intro u hu
    apply unsettled
    rw [hu]
    exact h
  exact ((hp.sat rfl).inside fun _ u hu => hbefore u hu).throws fun _ u hu => hbefore u hu

theorem recvNext_settles (hk : Received src fd offset base f k t) (hlt : k < chunkCount src.length) :
    Sat (kernel (socket feed) (delivers src base) False) (fun _ => Settled src fd offset base f)
      (fun _ => Settled src fd offset base f) (recvNext fd offset src.length (k, UDP_FRAG_BUFS))
      (fun r u => r.elim
        (fun x => x.1 = k + 1 ∧ x.2 = UDP_FRAG_BUFS ∧ Received src fd offset base f (k + 1) u)
        (fun _ => False)) t := by
  have hout := hk.out
  have hbefore : t.os.out.length < base + 1 + 4 * chunkCount src.length := by omega
  rw [recvNext, if_pos hlt]
  have hquiet : Sat (Γ := Udp) _ (fun _ => Settled src fd offset base f) _ _ _ t := before_sat
    (recvChunk_keeps (E := kernel (socket feed) (delivers src base) False)
      (out_ofAccounts t.os.out) (out_submit _) (out_wait _) (recvState fd offset src.length k)
      UDP_FRAG_BUFS) hbefore
  have hchunk : Sat (Γ := Udp) (kernel (socket feed) (delivers src base) False) _ _ _ _ t :=
    recvChunk_sat (Landing src fd offset base k t) (hk.waiting.armed fd offset src.length k) hk.landing
      fun _ _ _ _ _ _ _ h hturn => h.turn hturn
  refine Sat.andThen ((hchunk.and hquiet).mono (fun _ _ _ _ hr => hr) (fun _ _ h => h.2)
    (fun _ _ h => h.2) fun _ _ h => h) fun n u hu => ?_
  obtain ⟨⟨y, held, harmed, hu, hremaining, hwrites, rfl⟩, -⟩ := hu
  obtain ⟨hwaiting, hn⟩ := harmed.waiting hwrites
  rw [harmed.idle hwrites] at hu
  have hall : ∀ i < fragCount (chunkLenAt src.length k), y.state.received i = true := by
    intro i hi
    rw [← hu.fragCount] at hi
    exact harmed.complete hremaining hi
  have hnext : ∀ w : World, w.files = u.os.files → w.out.length = base + 1 + 4 * (k + 1) →
      Received src fd offset base f (k + 1) { u with os := w } :=
    fun w hfiles hlen => hk.next hu hwaiting hall hfiles hlen
  have hthere := hu.out
  refine Sat.andThen (control_sat (DataPlane.sendExact_sat (be 4 k) _) fun o w hw => ?_)
    fun _ v hv => ?_
  · intro hfull
    have hle := hw.upper.length_le
    rw [List.length_append, be_length] at hle
    change base + 1 + 4 * chunkCount src.length ≤ w.out.length at hfull
    have hlast : chunkCount src.length = k + 1 := by omega
    rw [hlast]
    exact hnext w hw.files (by omega)
  · obtain ⟨w, hput, rfl⟩ := hv
    have hlen : w.out.length = base + 1 + 4 * (k + 1) := by
      rw [hput.out, List.length_append, be_length]
      omega
    have hreceived := hnext w hput.files hlen
    refine sat_pure.mpr ⟨fun hfull => ?_, rfl, hn, hreceived⟩
    change base + 1 + 4 * chunkCount src.length ≤ w.out.length at hfull
    have hlast : chunkCount src.length = k + 1 := by omega
    rw [hlast]
    exact hreceived

theorem recvFile_settles (hsq : s.sq = []) (hinflight : s.inflight = []) (hlog : s.arrived = []) :
    Sat (kernel (socket feed) (delivers src s.os.out.length) False)
      (fun _ => Settled src fd offset s.os.out.length (file s fd))
      (fun _ => Settled src fd offset s.os.out.length (file s fd)) (recvFile fd offset src.length)
      (fun _ u => Received src fd offset s.os.out.length (file s fd) (chunkCount src.length) u) s := by
  have hfirst : s.os.out.length < s.os.out.length + 1 + 4 * chunkCount src.length := by omega
  rw [recvFile]
  have hrecvs : Sat (Γ := Udp) _ (fun _ => Settled src fd offset s.os.out.length (file s fd)) _ _ _ s :=
    before_sat (submitRecvs_keeps (E := kernel (socket feed) (delivers src s.os.out.length) False)
      (out_ofAccounts s.os.out) (List.range UDP_FRAG_BUFS)) hfirst
  refine Sat.andThen (((submitRecvs_sat _).and hrecvs).mono (fun _ _ _ _ hr => hr) (fun _ _ h => h.2)
    (fun _ _ h => h.2) fun _ _ h => h) fun _ t ht => ?_
  obtain ⟨ht, hout⟩ := ht
  have hthere : ∀ u, Adds [] t u → Settled src fd offset s.os.out.length (file s fd) u := by
    intro u hu
    obtain ⟨q, m, rfl, -⟩ := hu
    apply unsettled
    change t.os.out.length < _
    rw [hout]
    exact hfirst
  refine Sat.andThen (submit_sat hthere) fun _ u hu => ?_
  obtain ⟨q, m, rfl, hperm⟩ := ht.trans hu
  have hwaiting := Adds.waiting ⟨q, m, rfl, hperm⟩ hsq hinflight
  have hnone : ∀ w : World, w.files = s.os.files → w.out.length = s.os.out.length + 1 →
      Received src fd offset s.os.out.length (file s fd) 0 { s.ring q m with os := w } := by
    intro w hfiles hlen
    refine ⟨hwaiting, hlen, ?_, ?_, ?_⟩
    · intro e he
      change e ∈ s.arrived at he
      rw [hlog] at he
      cases he
    · intro j hj
      exact absurd hj (Nat.not_lt_zero j)
    · intro y _
      change ((w.files fd).getD [])[y]? = _
      rw [hfiles]
      rfl
  refine Sat.andThen (control_sat (DataPlane.sendExact_sat [1] _) fun o w hw => ?_) fun _ v hv => ?_
  · intro hfull
    have hle := hw.upper.length_le
    change w.out.length ≤ (s.os.out ++ [1]).length at hle
    rw [List.length_append, List.length_singleton] at hle
    change s.os.out.length + 1 + 4 * chunkCount src.length ≤ w.out.length at hfull
    have hlast : chunkCount src.length = 0 := by omega
    rw [hlast]
    exact hnone w hw.files (by omega)
  obtain ⟨w, hput, rfl⟩ := hv
  have hlen : w.out.length = s.os.out.length + 1 := by
    rw [hput.out]
    exact List.length_append
  apply Sat.round fun x (t : Store) => x.1 ≤ chunkCount src.length ∧ x.2 = UDP_FRAG_BUFS ∧
    Received src fd offset s.os.out.length (file s fd) x.1 t
  · exact ⟨Nat.zero_le _, rfl, hnone w hput.files hlen⟩
  intro x t hx
  obtain ⟨k, n⟩ := x
  obtain ⟨hle, rfl, hk⟩ := hx
  dsimp only at hle hk
  have hhere : Settled src fd offset s.os.out.length (file s fd) t := by
    intro hfull
    have hout := hk.out
    have hlast : chunkCount src.length = k := by omega
    rw [hlast]
    exact hk
  refine ⟨hhere, ?_⟩
  rcases Nat.lt_or_eq_of_le hle with hlt | rfl
  · refine (recvNext_settles hk hlt).weaken fun r u hu => ?_
    cases r with
    | inl x =>
      obtain ⟨hnext, hn, hu⟩ := hu
      rw [← hnext] at hu
      exact ⟨hnext ▸ hlt, hn, hu⟩
    | inr _ => exact hu.elim
  · rw [recvNext, if_neg (Nat.lt_irrefl _)]
    exact sat_pure.mpr ⟨hhere, hhere, hk⟩

/-! ## The two processes -/

/-- A network that may carry a datagram any number of times. -/
def replaying (peer _ : Store) (d : Bytes) : Prop := d ∈ peer.sent

/-- A network that carries no datagram more often than it was sent. -/
def once (peer s : Store) (d : Bytes) : Prop :=
  (s.arrived.map Prod.snd).count d < peer.sent.count d

theorem once_replays (s t : Store) (d : Bytes) (h : once s t d) : replaying s t d :=
  List.count_pos_iff.mp (Nat.zero_lt_of_lt h)

abbrev senderSide (peer : Store) : Env Udp :=
  kernel (socket fun _ => peer.os.out) (fun _ _ => False) False

abbrev receiverSide (net : Store → Store → Bytes → Prop) (peer : Store) : Env Udp :=
  kernel (socket fun _ => peer.os.out) (net peer) False

/-- The sender on the left, the receiver on the right. -/
abbrev JointReaches (net : Store → Store → Bytes → Prop) :
    PairConfig Udp Udp Unit Unit → PairConfig Udp Udp Unit Unit → Prop :=
  PairReaches senderSide (receiverSide net)

/-- Both before their first step, the sender having read all that the receiver said. -/
structure Start (s t : Store) : Prop where
  idle : Idle s
  sq : t.sq = []
  inflight : t.inflight = []
  arrived : t.arrived = []
  heard : s.os.read = t.os.out.length

structure Link (said : Bytes) (s t : Store) : Prop where
  read : s.os.read ≤ t.os.out.length
  out : s.os.out = said

section link
variable {said : Bytes}

theorem recv_read {X : Bytes} {w w' : World} {n : ℕ} {r : Option Bytes}
    (h : socket (fun _ => X) (.recv n) w r w') (hw : w.read ≤ X.length) :
    w'.read ≤ X.length ∧ w'.out = w.out := by
  rcases h with ⟨bs, -, -, hbs, -, rfl⟩ | ⟨-, rfl⟩ | ⟨-, e, rfl⟩
  · have hle := hbs.length_le
    dsimp only at hle
    rw [List.length_drop] at hle
    refine ⟨?_, rfl⟩
    change w.read + bs.length ≤ X.length
    omega
  · exact ⟨hw, rfl⟩
  · exact ⟨hw, rfl⟩

theorem send_out {w w' : World} {bs : Bytes} {r : Option ℕ}
    (h : socket feed (.send bs) w r w') : w.out.length ≤ w'.out.length := by
  rcases h with ⟨k, -, -, -, -, rfl⟩ | ⟨-, rfl⟩ | ⟨-, e, rfl⟩
  · rw [World.put, List.length_append]
    exact Nat.le_add_right _ _
  · exact le_rfl
  · exact le_rfl

theorem sender_keeps (fd : Path) (offset len : ℕ) (said : Bytes) (t : Store) :
    (sendFile fd offset len).Keeps (senderSide t) fun s => Link said s t := by
  refine sendFile_keeps ?_ ?_ ?_ ?_
  · intro s s' hos _ _ hs
    exact ⟨hos ▸ hs.read, hos ▸ hs.out⟩
  · intro s r s' hs hr
    obtain ⟨hos, -⟩ := submit_out hr
    exact ⟨hos ▸ hs.read, hos ▸ hs.out⟩
  · intro s r s' hs hr
    obtain ⟨hout, hread⟩ := wait_out hr
    exact ⟨hread ▸ hs.read, hout.trans hs.out⟩
  · intro n s r s' hs hr
    obtain ⟨hread, hout⟩ := recv_read hr.1 hs.read
    exact ⟨hread, hout.trans hs.out⟩

theorem receiver_keeps (net : Store → Store → Bytes → Prop) (fd : Path) (offset len : ℕ)
    (said : Bytes) (s : Store) :
    (recvFile fd offset len).Keeps (receiverSide net s) fun t => Link said s t := by
  refine recvFile_keeps ?_ ?_ ?_ ?_
  · intro t t' hos _ _ ht
    exact ⟨hos ▸ ht.read, ht.out⟩
  · intro t r t' ht hr
    obtain ⟨hos, -⟩ := submit_out hr
    exact ⟨hos ▸ ht.read, ht.out⟩
  · intro t r t' ht hr
    obtain ⟨hout, -⟩ := wait_out hr
    exact ⟨hout ▸ ht.read, ht.out⟩
  · intro bs t r t' ht hr
    exact ⟨ht.read.trans (send_out hr.1), ht.out⟩

theorem completes_mono {a b : Store → Bytes → Prop} {q : Request} {res : ℤ}
    (hab : ∀ d, a s d → b s d) (h : completes a short q res s t) : completes b short q res s t := by
  cases q with
  | recv =>
    rcases h with h | ⟨d, hd, hrest⟩
    · exact Or.inl h
    · exact Or.inr ⟨d, hab d hd, hrest⟩
  | _ => exact h

theorem covers {net : Store → Store → Bytes → Prop} {I J : Option Op → Store → Prop}
    (hnet : ∀ s t d, net s t d → d ∈ s.sent) (hI : ∀ o s, I o s → Point src base s)
    (hJ : ∀ o t, J o t → Saying Y t) :
    Covers (Γ := Udp) (Δ := Udp) (linked (Link said) senderSide)
      (linked (fun t s => Link said s t) (receiverSide net))
      (kernel (socket fun _ => Y) (fun _ _ => False) False)
      (kernel (socket fun _ => said) (delivers src base) False) I J where
  left := by
    intro _ s _ t _ ht o r s' hr
    cases o with
    | os o => exact ⟨DataPlane.socket_mono (hJ _ _ ht) _ _ _ _ hr.2.1, hr.2.2⟩
    | submit => exact hr.2
    | waitCqe => exact hr.2
  right := by
    intro _ s _ t hs _ o r t' hr
    obtain ⟨hlink, hr⟩ := hr
    cases o with
    | os o =>
      rw [← hlink.out]
      exact hr
    | submit => exact hr
    | waitCqe =>
      rcases hr with hr | ⟨a, sqe, b, res, hin, heq, hdone⟩
      · exact Or.inl hr
      refine Or.inr ⟨a, sqe, b, res, hin, heq, completes_mono (fun d hd => ?_) hdone⟩
      obtain ⟨k, i, hpiece, hacked, hdatagram⟩ := (hI _ _ hs).genuine d (hnet _ _ _ hd)
      exact ⟨k, i, hpiece, hacked.trans hlink.read, hdatagram⟩

end link

theorem receiver_mono {net net' : Store → Store → Bytes → Prop}
    (hnet : ∀ s t d, net s t d → net' s t d) (s : Store) (o : Op) (t : Store) (r : o.Reply) (t' : Store)
    (h : receiverSide net s o t r t') : receiverSide net' s o t r t' := by
  cases o with
  | os o => exact h
  | submit => exact h
  | waitCqe =>
    rcases h with h | ⟨a, sqe, b, res, hin, heq, hdone⟩
    · exact Or.inl h
    · exact Or.inr ⟨a, sqe, b, res, hin, heq, completes_mono (hnet s _) hdone⟩

/-! ## Joint runs -/

/-- What came in is of the source, and no chunk was sent before the one ahead of it was
acknowledged. -/
def Timely (src : Bytes) (base : ℕ) (log : List (ℕ × Bytes)) : Prop :=
  ∀ e ∈ log, ∃ k i, Piece src k i ∧ e.2 = datagram src k i ∧ base + 1 + 4 * k ≤ e.1

theorem wait_arrived {r : Option Cqe} (h : kernel os arrives short .waitCqe s r t) :
    t.arrived = s.arrived ∨ ∃ a d, arrives { s with inflight := a } d ∧
      t.arrived = s.arrived ++ [(s.os.out.length, d)] := by
  rcases h with ⟨-, rfl⟩ | ⟨a, sqe, b, res, -, -, hdone⟩
  · exact Or.inl rfl
  generalize sqe.request = q at hdone
  cases q with
  | read => rcases hdone with ⟨-, rfl⟩ | ⟨_, _, -, -, -, -, -, rfl⟩ <;> exact Or.inl rfl
  | sendmsg => rcases hdone with ⟨-, rfl⟩ | ⟨-, rfl⟩ <;> exact Or.inl rfl
  | recv =>
    rcases hdone with ⟨-, rfl⟩ | ⟨d, hd, -, rfl⟩
    · exact Or.inl rfl
    · exact Or.inr ⟨a ++ b, d, hd, rfl⟩
  | write => rcases hdone with ⟨-, rfl⟩ | ⟨_, _, -, -, -, -, -, rfl⟩ <;> exact Or.inl rfl

theorem receiver_timely (src : Bytes) (base : ℕ) (fd : Path) (offset len : ℕ) :
    (recvFile fd offset len).Keeps (kernel (socket feed) (delivers src base) False)
      fun t : Store => Timely src base t.arrived := by
  refine recvFile_keeps ?_ ?_ ?_ ?_
  · intro t t' _ _ harrived ht
    rw [harrived]
    exact ht
  · intro t r t' ht hr
    rw [(submit_out hr).2.2]
    exact ht
  · intro t r t' ht hr e he
    rcases wait_arrived hr with hsame | ⟨a, d, ⟨k, i, hpiece, hacked, rfl⟩, hmore⟩
    · exact ht e (hsame ▸ he)
    · rw [hmore] at he
      rcases List.mem_append.mp he with he | he
      · exact ht e he
      · rw [List.mem_singleton.mp he]
        exact ⟨k, i, hpiece, rfl, hacked⟩
  · intro bs t r t' ht hr
    rw [hr.2]
    exact ht

section joint
variable {fd' : Path} {offset' : ℕ} {net : Store → Store → Bytes → Prop}
  {d : PairConfig Udp Udp Unit Unit}

abbrev Running (src : Bytes) (fd' : Path) (offset' : ℕ) (s t : Store) :
    PairConfig Udp Udp Unit Unit → Prop :=
  BothSat (kernel (socket fun _ => t.os.out ++ signals (chunkCount src.length)) (fun _ _ => False) False)
    (kernel (socket fun _ => s.os.out) (delivers src t.os.out.length) False)
    (fun o u => Point src t.os.out.length u ∧ Single o u)
    (fun _ u => (Saying (t.os.out ++ signals (chunkCount src.length)) u ∧
      Settled src fd' offset' t.os.out.length (file t fd') u) ∧
      Timely src t.os.out.length u.arrived)
    (fun _ _ => True) (fun _ _ => True)
    (fun _ u => t.os.out.length + 1 + 4 * chunkCount src.length ≤ u.os.read)
    (fun _ u => Received src fd' offset' t.os.out.length (file t fd') (chunkCount src.length) u)

theorem start_running (hstart : Start s t) (hf : s.os.files fd = some f) (hsrc : Holds f offset src) :
    Running src fd' offset' s t
      ((sendFile fd offset src.length, s), (recvFile fd' offset' src.length, t)) := by
  have hsend : Sat (Γ := Udp) (kernel (socket fun _ => t.os.out ++ signals (chunkCount src.length))
      (fun _ _ => False) False) _ _ _ _ s := sendFile_sat hsrc hstart.idle hf
  have honce : Sat (Γ := Udp) (kernel (socket fun _ => t.os.out ++ signals (chunkCount src.length))
      (fun _ _ => False) False) _ _ _ _ s := sendFile_once hsrc hstart.idle hf
  rw [hstart.heard] at hsend honce
  have hspoke : Sat (Γ := Udp) (kernel (socket fun _ => s.os.out) (delivers src t.os.out.length) False)
      _ _ _ _ t :=
    recvFile_says fd' offset' src.length t
  have hsettles : Sat (Γ := Udp) (kernel (socket fun _ => s.os.out) _ False) _ _
      (recvFile fd' offset' src.length) _ t :=
    recvFile_settles hstart.sq hstart.inflight hstart.arrived
  have htimely : (recvFile fd' offset' src.length).Keeps (kernel (socket fun _ => s.os.out) _ False) _ :=
    receiver_timely src t.os.out.length fd' offset' src.length
  have hnone : Timely src t.os.out.length t.arrived := by
    rw [hstart.arrived]
    exact fun _ he => absurd he List.not_mem_nil
  refine ⟨(hsend.and honce).mono (fun _ _ _ _ hr => hr) (fun _ _ h => h) (fun _ _ _ => trivial) ?_,
    ((hspoke.and hsettles).and (htimely.sat hnone)).mono (fun _ _ _ _ hr => hr) (fun _ _ h => h)
      (fun _ _ _ => trivial) ?_⟩
  · exact fun _ u hu => hu.2.2
  · exact fun _ u hu => hu.1.2

theorem joint_running (hnet : ∀ s t d, net s t d → d ∈ s.sent) (hstart : Start s t)
    (hf : s.os.files fd = some f) (hsrc : Holds f offset src)
    (hrun : JointReaches net
      ((sendFile fd offset src.length, s), (recvFile fd' offset' src.length, t)) d) :
    Link s.os.out d.1.2 d.2.2 ∧ Running src fd' offset' s t d := by
  have htied : Tied senderSide (receiverSide net) (Link s.os.out)
      ((sendFile fd offset src.length, s), (recvFile fd' offset' src.length, t)) :=
    ⟨fun _ => sender_keeps _ _ _ _ _, fun _ => receiver_keeps _ _ _ _ _ _,
      ⟨le_of_eq hstart.heard, rfl⟩⟩
  obtain ⟨hthere, hlinked⟩ := htied.reaches hrun
  refine ⟨hthere.here, (start_running hstart hf hsrc).reaches (covers hnet ?_ ?_) hlinked⟩
  · exact fun _ _ h => h.1
  · exact fun _ _ h => h.1.1

/-- One side has returned. -/
def Over (d : PairConfig Udp Udp Unit Unit) : Prop := d.1.1 = .ret () ∨ d.2.1 = .ret ()

theorem joint_received (hlink : Link s.os.out d.1.2 d.2.2) (h : Running src fd' offset' s t d)
    (hover : Over d) :
    Received src fd' offset' t.os.out.length (file t fd') (chunkCount src.length) d.2.2 := by
  obtain ⟨⟨p, s'⟩, q, t'⟩ := d
  rcases hover with rfl | rfl
  · have hread := hlink.read
    exact h.2.here.1.2 (h.1.2.trans hread)
  · exact h.2.2

/-- Over any network: what comes in is of the source and in time. Once one side has returned, the
receiver has the bytes of the source exactly if no late datagram with other bytes came first. -/
theorem transfer_iff (src f : Bytes) (fd fd' : Path) (offset offset' : ℕ) (s t : Store)
    (d : PairConfig Udp Udp Unit Unit) (hstart : Start s t) (hf : s.os.files fd = some f)
    (hsrc : slice f offset src.length = src)
    (hrun : JointReaches replaying
      ((sendFile fd offset src.length, s), (recvFile fd' offset' src.length, t)) d) :
    Timely src t.os.out.length d.2.2.arrived ∧
      (Over d → (slice (file d.2.2 fd') offset' src.length = src ↔
        InPlace src t.os.out.length d.2.2.arrived ∧ RestThere src (file t fd') offset')) := by
  obtain ⟨hlink, hthere⟩ := joint_running (fun _ _ _ h => h) hstart hf (Octets.holds_iff.mpr hsrc) hrun
  refine ⟨hthere.2.here.2, fun hover => ?_⟩
  rw [← Octets.holds_iff]
  exact (joint_received hlink hthere hover).holds_iff

/-! ## A network without duplicates -/

/-- No datagram came in more often than it was sent. -/
def Carried (s t : Store) : Prop := ∀ d, (t.arrived.map Prod.snd).count d ≤ s.sent.count d

theorem wait_sent {r : Option Cqe} (h : kernel os arrives short .waitCqe s r t) :
    s.sent <+: t.sent := by
  rcases h with ⟨-, rfl⟩ | ⟨a, sqe, b, res, -, -, hdone⟩
  · exact List.prefix_rfl
  generalize sqe.request = q at hdone
  cases q with
  | read => rcases hdone with ⟨-, rfl⟩ | ⟨_, _, -, -, -, -, -, rfl⟩ <;> exact List.prefix_rfl
  | sendmsg =>
    rcases hdone with ⟨-, rfl⟩ | ⟨-, rfl⟩
    · exact List.prefix_rfl
    · exact List.prefix_append _ _
  | recv => rcases hdone with ⟨-, rfl⟩ | ⟨_, -, -, rfl⟩ <;> exact List.prefix_rfl
  | write => rcases hdone with ⟨-, rfl⟩ | ⟨_, _, -, -, -, -, -, rfl⟩ <;> exact List.prefix_rfl

theorem sender_carries (fd : Path) (offset len : ℕ) (t : Store) :
    (sendFile fd offset len).Keeps (senderSide t) fun s => Carried s t := by
  refine sendFile_keeps ?_ ?_ ?_ ?_
  · intro s s' _ hsent _ hs
    rw [Carried, hsent]
    exact hs
  · intro s r s' hs hr
    rw [Carried, (submit_out hr).2.1]
    exact hs
  · intro s r s' hs hr d
    exact (hs d).trans ((wait_sent hr).sublist.count_le d)
  · intro n s r s' hs hr
    rw [hr.2]
    exact hs

theorem receiver_carries (fd : Path) (offset len : ℕ) (s : Store) :
    (recvFile fd offset len).Keeps (receiverSide once s) fun t => Carried s t := by
  refine recvFile_keeps ?_ ?_ ?_ ?_
  · intro t t' _ _ harrived ht
    rw [Carried, harrived]
    exact ht
  · intro t r t' ht hr
    rw [Carried, (submit_out hr).2.2]
    exact ht
  · intro t r t' ht hr d
    rcases wait_arrived hr with hsame | ⟨a, d', hd, hmore⟩
    · rw [hsame]
      exact ht d
    · have hroom : (t.arrived.map Prod.snd).count d' < s.sent.count d' := hd
      rw [hmore, List.map_append, List.count_append, List.map_singleton, List.count_singleton]
      have hbefore := ht d
      split_ifs with hsame
      · rw [← beq_iff_eq.mp hsame]
        exact hroom
      · exact hbefore
  · intro bs t r t' ht hr
    rw [hr.2]
    exact ht

theorem firstAt_of_nodup (h : Received src fd offset base f (chunkCount src.length) u)
    (hnodup : (u.arrived.map Prod.snd).Nodup) {k i : ℕ} (hpiece : Piece src k i) :
    firstAt u.arrived (base + 1 + 4 * k) i = some (datagram src k i) := by
  induction k using Nat.strong_induction_on generalizing i with
  | _ k ih =>
    obtain ⟨d, hd, ⟨j, hjk, hj, rfl⟩, -⟩ := h.stored k hpiece.chunk i hpiece.frag
    rcases Nat.lt_or_eq_of_le hjk with hlt | rfl
    · have hearlier := mem_of_firstAt (ih j hlt hj)
      have hagain := mem_of_firstAt hd
      have hsame := List.inj_on_of_nodup_map hnodup hearlier.1 hagain.1 rfl
      have hat := congrArg Prod.fst hsame
      dsimp only at hat
      omega
    · exact hd

theorem inPlace_of_nodup (h : Received src fd offset base f (chunkCount src.length) u)
    (hnodup : (u.arrived.map Prod.snd).Nodup) : InPlace src base u.arrived := by
  intro k i hpiece
  refine ⟨_, firstAt_of_nodup h hnodup hpiece, ?_⟩
  rw [Piece.payload_datagram, List.take_length]

theorem arrived_of_nodup (h : Received src fd offset base f (chunkCount src.length) u)
    (hnodup : (u.arrived.map Prod.snd).Nodup) {d : Bytes} (hd : d ∈ datagrams src) :
    d ∈ u.arrived.map Prod.snd := by
  obtain ⟨k, i, hpiece, rfl⟩ := mem_datagrams.mp hd
  have hfirst := mem_of_firstAt (firstAt_of_nodup h hnodup hpiece)
  exact List.mem_map_of_mem hfirst.1

theorem rest_there (hsize : src.length ≤ (2 ^ 32 - 1) * chunkSize) : RestThere src f offset := by
  have hchunk : chunkSize = 1048576 := rfl
  have hcount : chunkCount src.length = (src.length + chunkSize - 1) / chunkSize % 2 ^ 32 := rfl
  intro z hz
  rw [List.length_drop] at hz
  rw [hchunk] at hsize hcount hz
  omega

theorem joint_carried (hstart : Start s t)
    (hrun : JointReaches once
      ((sendFile fd offset src.length, s), (recvFile fd' offset' src.length, t)) d) :
    Carried d.1.2 d.2.2 := by
  have htied : Tied senderSide (receiverSide once) Carried
      ((sendFile fd offset src.length, s), (recvFile fd' offset' src.length, t)) := by
    refine ⟨fun _ => sender_carries _ _ _ _, fun _ => receiver_carries _ _ _ _, fun d => ?_⟩
    change (t.arrived.map Prod.snd).count d ≤ s.sent.count d
    rw [hstart.arrived]
    exact Nat.zero_le _
  obtain ⟨hcarried, -⟩ := htied.reaches hrun
  exact hcarried.here

theorem Carried.nodup (h : Carried s t) (hsent : s.sent.Nodup) : (t.arrived.map Prod.snd).Nodup :=
  List.nodup_iff_count_le_one.mpr fun d => (h d).trans (List.nodup_iff_count_le_one.mp hsent d)

/-- Over a network that loses and reorders datagrams but repeats none, the receiver has the bytes
of the source as soon as one side has returned. -/
theorem transfer_exact (src f : Bytes) (fd fd' : Path) (offset offset' : ℕ) (s t : Store)
    (d : PairConfig Udp Udp Unit Unit) (hstart : Start s t) (hf : s.os.files fd = some f)
    (hsrc : slice f offset src.length = src) (hsize : src.length ≤ (2 ^ 32 - 1) * chunkSize)
    (hrun : JointReaches once
      ((sendFile fd offset src.length, s), (recvFile fd' offset' src.length, t)) d)
    (hover : Over d) : slice (file d.2.2 fd') offset' src.length = src := by
  obtain ⟨hlink, hthere⟩ := joint_running once_replays hstart hf (Octets.holds_iff.mpr hsrc) hrun
  have hreceived := joint_received hlink hthere hover
  have hnodup := (joint_carried hstart hrun).nodup hthere.1.here.2
  rw [← Octets.holds_iff]
  exact hreceived.holds_iff.mpr ⟨inPlace_of_nodup hreceived hnodup, rest_there hsize⟩

/-- No datagram is made up, repeated or, once one side has returned, lost: what came in is then
what was sent, and that is each fragment of the source once. -/
theorem transfer_lossless (src f : Bytes) (fd fd' : Path) (offset offset' : ℕ) (s t : Store)
    (d : PairConfig Udp Udp Unit Unit) (hstart : Start s t) (hf : s.os.files fd = some f)
    (hsrc : slice f offset src.length = src)
    (hrun : JointReaches once
      ((sendFile fd offset src.length, s), (recvFile fd' offset' src.length, t)) d) :
    (d.2.2.arrived.map Prod.snd).Subperm d.1.2.sent ∧ d.1.2.sent.Subperm (datagrams src) ∧
      (Over d → (d.2.2.arrived.map Prod.snd).Perm (datagrams src) ∧
        d.1.2.sent.Perm (datagrams src)) := by
  obtain ⟨hlink, hthere⟩ := joint_running once_replays hstart hf (Octets.holds_iff.mpr hsrc) hrun
  obtain ⟨hpoint, hsingle⟩ := hthere.1.here
  have hcarried := joint_carried hstart hrun
  have hnodup := hcarried.nodup hsingle
  have harrived : (d.2.2.arrived.map Prod.snd).Subperm d.1.2.sent :=
    List.subperm_ext_iff.mpr fun p _ => hcarried p
  have hsent : d.1.2.sent.Subperm (datagrams src) := by
    refine List.subperm_of_subset hsingle fun p hp => ?_
    obtain ⟨k, i, hpiece, -, rfl⟩ := hpoint.genuine p hp
    exact mem_datagrams.mpr ⟨k, i, hpiece, rfl⟩
  refine ⟨harrived, hsent, fun hover => ?_⟩
  have hreceived := joint_received hlink hthere hover
  have hall : (datagrams src).Subperm (d.2.2.arrived.map Prod.snd) :=
    List.subperm_of_subset (datagrams_nodup src) fun p hp => arrived_of_nodup hreceived hnodup hp
  exact ⟨(harrived.trans hsent).antisymm hall, hsent.antisymm (hall.trans harrived)⟩

end joint

/-! A file of one byte. -/

def letterWaits : Store :=
  { (Store.init empty false).ring [] ((List.range UDP_FRAG_BUFS).map recvSqe) with
    os := empty.put [1] }

theorem letter_asks (peer : Store) :
    Reaches (receiverSide once peer) (recvFile [97] 0 1, .init empty false)
    (.repeatUntil (recvNext [97] 0 1) (0, UDP_FRAG_BUFS), letterWaits) := by
  obtain ⟨_, u, hrun, rfl⟩ : Returns (taking (socket fun _ => peer.os.out) (once peer) False) recvCold _
      (.init empty false) := recvCold_returns rfl
  have hcold : Reaches (receiverSide once peer) (recvCold, .init empty false) (.ret (), _) :=
    hrun.mono fun _ _ _ _ h => h.1
  rw [recvFile_eq]
  exact hcold.andThen _

def letterLoaded : Store := (letterAsked.ring [] []).fillChunk 0 (slice [104] 0 1)

theorem fillSlot_slots (t : Store) (slot : ℕ) (x : SendSlot) : (t.fillSlot slot x).slots slot = x :=
  Function.update_self ..

theorem loaded_fillSlot (h : Loaded src k t) (slot : ℕ) (x : SendSlot) :
    Loaded src k (t.fillSlot slot x) := h

theorem letter_sent : ∃ q u, Reaches (senderSide letterWaits) (sendFile [97] 0 1, letterStore) (q, u) ∧
    u.sent = [datagram [104] 0 0] := by
  have hpiece : Piece [104] 0 0 := ⟨by decide, by decide⟩
  have hfrag : fragLen (chunkLenAt 1 0) 0 = chunkLenAt 1 0 := by decide
  have hslot : onlySlot (0 % 2) 0 (chunkLenAt 1 0) = slotOf [104] 0 0 := by
    simp [onlySlot, slotOf, hfrag]
  obtain ⟨_, _, hcold, rfl⟩ : Returns (senderSide letterWaits) _ _ _ := letter_asked Nat.one_pos
  obtain ⟨_, t, hwait, ht⟩ : Returns (senderSide letterWaits) _ _ _ :=
    letter_read le_rfl fun hlt => absurd hlt (Nat.lt_irrefl 1)
  have hloaded : t = letterLoaded := ht
  subst hloaded
  have hstart : SendStarts (senderSide letterWaits) [97] 0 1 letterStore 0 letterLoaded :=
    ⟨by decide, _, ⟨_, _, hcold, hwait, .enter⟩, .refl⟩
  obtain ⟨_, u, hchunk, rfl⟩ : Returns (senderSide letterWaits) (sendChunk (0 % 2) 0 (chunkLenAt 1 0)) _ _ :=
    sendChunk_returns (t := letterLoaded) (by decide) (by decide) rfl rfl
  rw [hslot] at hchunk
  have hinside := hstart.inside.trans (hchunk.andThen _)
  refine ⟨_, _, hinside, ?_⟩
  have hfill : Loaded [104] 0 letterLoaded := by
    have hbytes : chunkOf [104] 0 = slice [104] 0 1 := by decide
    have hfill := loaded_fill (letterAsked.ring [] []) [104] 0
    rwa [hbytes] at hfill
  have hslots : (letterLoaded.fillSlot 0 (slotOf [104] 0 0)).slots (0 % QUEUE_DEPTH) =
      slotOf [104] 0 0 := by
    rw [Nat.zero_mod]
    exact fillSlot_slots _ _ _
  have hthere := (loaded_fillSlot hfill 0 (slotOf [104] 0 0)).points hpiece hslots
  rw [Nat.zero_mod] at hthere
  rw [hthere]
  rfl

theorem letter_received {peer : Store} (hsent : peer.sent = [datagram [104] 0 0]) :
    Returns (receiverSide once peer) (.repeatUntil (recvNext [97] 0 1) (0, UDP_FRAG_BUFS))
      (fun _ _ => True) letterWaits := by
  have hpiece : Piece [104] 0 0 := ⟨by decide, by decide⟩
  have hlate : Late [104] 0 0 (datagram [104] 0 0) := ⟨0, le_rfl, hpiece, rfl⟩
  have hwaiting : Waiting letterWaits := List.Perm.refl _
  have harrives : ∀ q m, once peer (letterWaits.ring q m) (datagram [104] 0 0) := by
    intro q m
    change 0 < peer.sent.count (datagram [104] 0 0)
    simp [hsent]
  have hchunk : Returns (taking (socket fun _ => peer.os.out) (once peer) False)
      (UdpTransport.recvChunk (recvState [97] 0 1 0) UDP_FRAG_BUFS) (fun _ _ => True) letterWaits := by
    have hthere : Arrived (recvState [97] 0 1 0) _ _ (fun _ => datagram [104] 0 0) 0 letterWaits :=
      hwaiting.arrived rfl
    obtain ⟨l, r, hin⟩ := List.append_of_mem (hthere.waits 0 le_rfl (by decide))
    have hhdr := heard_hdr (t := letterWaits) (b := 0) hlate
    have hindex : (parseFragHdr (datagram [104] 0 0)).fragIndex.toNat = 0 := hpiece.index_datagram
    have hfresh : Fresh ((letterWaits.heard 0 (datagram [104] 0 0)).ring letterWaits.sq (l ++ r)) 0
        ((datagram [104] 0 0).take UDP_MTU).length (inOrder (recvState [97] 0 1 0) 1 0)
        (hdrIn (letterWaits.heard 0 (datagram [104] 0 0)) 0) := by
      rw [hhdr]
      refine ⟨hhdr.symm, ?_, by decide, ?_, ?_, ?_, ?_⟩
      · rw [hlate.facts.1, Piece.datagram_length]
        exact_mod_cast Nat.le_add_right _ _
      · rw [hindex]
        decide
      · rw [hindex]
        decide
      · rw [hindex]
        rfl
      · change 0 < QUEUE_DEPTH
        decide
    have hone : fragCount (chunkLenAt 1 0) = 1 := by decide
    rw [UdpTransport.recvChunk, recvState_inOrder, hone]
    refine Leads.returns (land_leads Nat.one_pos hin (harrives _ _) hfresh ?_)
    rw [hhdr, hindex, mark_inOrder]
    refine all_writes_return (by decide) ((hthere.next hin).writing ?_ rfl) fun _ _ => trivial
    exact flushed_sq (Or.inr rfl)
  refine (recvNext_returns (by decide) hwaiting hchunk fun u _ _ => ?_).env fun _ _ _ _ h => h.1
  exact recvNext_ends (by decide) trivial

theorem letter_transfer : ∃ d, JointReaches once
    ((sendFile [97] 0 1, letterStore), (recvFile [97] 0 1, .init empty false)) d ∧ Over d := by
  obtain ⟨q, u, hsend, hsent⟩ := letter_sent
  obtain ⟨_, v, hrecv, -⟩ := letter_received hsent
  refine ⟨((q, u), (.ret (), v)), ?_, Or.inr rfl⟩
  exact (PairReaches.right (letter_asks letterStore)).trans
    ((PairReaches.left hsend).trans (PairReaches.right hrecv))

theorem start_letter : Start letterStore (.init empty false) := ⟨idle_init _ _, rfl, rfl, rfl, rfl⟩

theorem transfer_exact_letter : ∃ d, JointReaches once
    ((sendFile [97] 0 1, letterStore), (recvFile [97] 0 1, .init empty false)) d ∧
      slice (file d.2.2 [97]) 0 1 = [104] := by
  obtain ⟨d, hrun, hover⟩ := letter_transfer
  exact ⟨d, hrun, transfer_exact [104] [104] [97] [97] 0 0 letterStore (.init empty false) d
    start_letter rfl rfl (by decide) hrun hover⟩

theorem transfer_lossless_letter : ∃ d, JointReaches once
    ((sendFile [97] 0 1, letterStore), (recvFile [97] 0 1, .init empty false)) d ∧
      (d.2.2.arrived.map Prod.snd).Perm (datagrams [104]) := by
  obtain ⟨d, hrun, hover⟩ := letter_transfer
  exact ⟨d, hrun, ((transfer_lossless [104] [104] [97] [97] 0 0 letterStore (.init empty false) d
    start_letter rfl rfl hrun).2.2 hover).1⟩

theorem transfer_iff_letter : ∃ d, JointReaches replaying
    ((sendFile [97] 0 1, letterStore), (recvFile [97] 0 1, .init empty false)) d ∧ Over d ∧
      Timely [104] 0 d.2.2.arrived := by
  obtain ⟨d, hrun, hover⟩ := letter_transfer
  have hreplay : JointReaches replaying
      ((sendFile [97] 0 1, letterStore), (recvFile [97] 0 1, .init empty false)) d :=
    hrun.mono (fun _ _ _ _ _ h => h) (receiver_mono once_replays)
  exact ⟨d, hreplay, hover, (transfer_iff [104] [104] [97] [97] 0 0 letterStore (.init empty false) d
    start_letter rfl rfl hreplay).1⟩

end Embr.UdpSystem
