import Embr.Delivery

/-!
# The receiver and the sender on one connection

A channel carries what one side has sent to the other. With a capacity it holds
at most that many unread bytes, and a call that sends waits for room as a call
that receives waits for bytes. The two solo runs cover every joint run, and a
side that cannot move has returned, or waits for the other one.
-/

open Octets Interact
open Embr.System Embr.Protocol Embr.Reliable Embr.Delivery
namespace Embr.Channel

abbrev channel (cap : Option ℕ) (peer : World) : Env Os :=
  kernel False (connection (fun _ => peer.out)
    fun s k => ∀ c, cap = some c → s.out.length + k ≤ peer.read + c)

section solo
variable {X : Bytes} {cap : Option ℕ} {peer s : World} {α : Type}
  {K : Kind → Bytes → ℕ → Prop} {Q : α → World → Prop}

theorem channel_le_stream (hpre : peer.out <+: X) (o : Op) (r : o.Reply) (s' : World)
    (h : channel cap peer o s r s') : stream (fun _ => X) o s r s' := by
  cases o with
  | send buf =>
    obtain ⟨k, hk, hkl, -, rfl, rfl⟩ := h
    exact ⟨k, hk, hkl, trivial, rfl, rfl⟩
  | recv len =>
    obtain ⟨bs, hne, hlen, hbs, rfl, rfl⟩ := h
    exact ⟨bs, hne, hlen, hbs.trans (drop_isPrefix hpre _), rfl, rfl⟩
  | sendfile fd offset len =>
    obtain ⟨f, k, hf, hk, hkl, hkf, -, rfl, rfl⟩ := h
    exact ⟨f, k, hf, hk, hkl, hkf, trivial, rfl, rfl⟩
  | spliceIn len =>
    obtain ⟨buf, bs, hbuf, hne, hlen, hbs, rfl, rfl⟩ := h
    exact ⟨buf, bs, hbuf, hne, hlen, hbs.trans (drop_isPrefix hpre _), rfl, rfl⟩
  | _ => exact h

def Full (cap : Option ℕ) (peer s : World) : Prop :=
  ∃ c, cap = some c ∧ peer.read + c ≤ s.out.length

theorem room_of_not_full (h : ¬ Full cap peer s) {c : ℕ} (hc : cap = some c) :
    s.out.length + 1 ≤ peer.read + c := by
  by_contra hlt
  exact h ⟨c, hc, by omega⟩

theorem waits {o : Op} (hstream : ∃ r s', stream (fun _ => X) o s r s')
    (hstuck : ∀ r s', ¬ channel cap peer o s r s') :
    (kind (some o) = .sends ∧ Full cap peer s) ∨
      (kind (some o) = .receives ∧ peer.out.length ≤ s.read) := by
  obtain ⟨r, s', h⟩ := hstream
  cases o with
  | send buf =>
    left
    refine ⟨rfl, ?_⟩
    by_contra hroom
    obtain ⟨k, hk, hkl, -⟩ := h
    exact hstuck (some 1) _ ⟨1, Nat.one_pos, hk.trans_le hkl, fun c => room_of_not_full hroom, rfl, rfl⟩
  | recv len =>
    right
    refine ⟨rfl, ?_⟩
    by_contra hmore
    obtain ⟨bs, hne, hlen, -⟩ := h
    have hpos := List.length_pos_of_ne_nil hne
    have hone : (slice peer.out s.read 1).length = 1 := slice_length (by omega)
    refine hstuck (some _) _ ⟨slice peer.out s.read 1, ?_, ?_, List.take_prefix _ _, rfl, rfl⟩
    · exact List.ne_nil_of_length_pos (by omega)
    · omega
  | sendfile fd offset len =>
    left
    refine ⟨rfl, ?_⟩
    by_contra hroom
    obtain ⟨f, k, hf, hk, hkl, hkf, -⟩ := h
    exact hstuck (some 1) _ ⟨f, 1, hf, Nat.one_pos, hk.trans_le hkl, by omega,
      fun c => room_of_not_full hroom, rfl, rfl⟩
  | spliceIn len =>
    right
    refine ⟨rfl, ?_⟩
    by_contra hmore
    obtain ⟨buf, bs, hbuf, hne, hlen, -⟩ := h
    have hpos := List.length_pos_of_ne_nil hne
    have hone : (slice peer.out s.read 1).length = 1 := slice_length (by omega)
    refine hstuck (some _) _ ⟨buf, slice peer.out s.read 1, hbuf, ?_, ?_, List.take_prefix _ _,
      rfl, rfl⟩
    · exact List.ne_nil_of_length_pos (by omega)
    · omega
  | _ => exact (hstuck r s' h).elim

theorem stuck_waits (cap : Option ℕ) (peer : World) {p : Prog Os α}
    (h : Total (stream fun _ => X) (Along K) Q p s)
    (hstuck : ∀ c, ¬ Step (channel cap peer) (p, s) c) :
    (∃ a, p = .ret a) ∨ (K .sends s.out s.read ∧ Full cap peer s) ∨
      (K .receives s.out s.read ∧ peer.out.length ≤ s.read) := by
  rcases Step.stuck hstuck with hdone | ⟨o, k, rfl, hno⟩
  · cases p with
    | ret a => exact .inl ⟨a, rfl⟩
    | raise e => nomatch h
    | _ => exact hdone.elim
  · obtain ⟨hhere, hstream, -⟩ := total_call.mp h
    rw [Along] at hhere
    right
    rcases waits hstream hno with ⟨hkind, hfull⟩ | ⟨hkind, hall⟩
    · rw [hkind] at hhere
      exact .inl ⟨hhere, hfull⟩
    · rw [hkind] at hhere
      exact .inr ⟨hhere, hall⟩

end solo

section joint
variable {sha256 : Bytes → Hash} {m : FileMeta} {src : Bytes} {msg : Message} {ns : List ℕ}
  {c₁ c₂ : Option ℕ} {out fd outputPath : Path} {F G : Path → Option Bytes}
  {d : PairConfig Os Os Unit Unit}

/-- `c₁` bounds what the receiver sends ahead, `c₂` what the sender does. -/
abbrev JointReaches (c₁ c₂ : Option ℕ) :
    PairConfig Os Os Unit Unit → PairConfig Os Os Unit Unit → Prop :=
  PairReaches (channel c₁) (channel c₂)

/-- The receiver and the sender before their first step. -/
def start (sha256 : Bytes → Hash) (m : FileMeta) (outputPath fd : Path)
    (F G : Path → Option Bytes) : PairConfig Os Os Unit Unit :=
  ((runPull sha256 tcp outputPath, .init F), (runPush tcp fd m, .init G))

theorem covers (c₁ c₂ : Option ℕ) :
    Covers (channel c₁) (channel c₂) (stream fun _ => pushStream msg src ns)
    (stream fun _ => pullStream ns) (Along (PullPoint msg src ns))
    (Along (PushPoint msg src ns)) where
  left _ _ _ _ _ ht q r s' h := channel_le_stream ht.said q r s' h
  right _ _ _ _ hs _ q r t' h := channel_le_stream hs.said q r t' h

abbrev Running (m : FileMeta) (msg : Message) (src : Bytes) (ns : List ℕ) (out : Path)
    (F G : Path → Option Bytes) :
    PairConfig Os Os Unit Unit → Prop :=
  BothTotal (stream fun _ => pushStream msg src ns) (stream fun _ => pullStream ns)
    (Along (PullPoint msg src ns)) (Along (PushPoint msg src ns))
    (fun _ u => ∃ F', F' out = some (deliver src ns (startFile F out m)) ∧
      F' (PartialFile.pathFor out) = none ∧
      At F' (pullStream ns) (pushStream msg src ns).length [] u)
    (fun _ u => At G (pushStream msg src ns) (pullStream ns).length ns u)

theorem at_init (F : Path → Option Bytes) : At F [] 0 [] (.init F) :=
  ⟨rfl, rfl, rfl, rfl, Or.inl rfl⟩

theorem start_running (hd : Describes sha256 m src) (hmsg : makeFilemeta m = .ok msg)
    (hfit : msg.payload.length ≤ MAX_PAYLOAD_SIZE)
    (hout : out = if outputPath = [] then m.fileName else outputPath)
    (hns : ns = (startBits F out m).neededChunks) (hfd : G fd = some src) :
    Running m msg src ns out F G (start sha256 m outputPath fd F G) := by
  refine ⟨runPull_at hd hmsg hfit hout hns (at_init F), runPush_at hd hmsg ?_ hfd (at_init G)⟩
  intro i hi
  rw [hns] at hi
  exact (startBits_length F out m) ▸ ChunkManager.neededChunks_lt hi

theorem final_returned_or_full (hc₁ : ∀ c, c₁ = some c → 0 < c) (hc₂ : ∀ c, c₂ = some c → 0 < c)
    {p q : Prog Os Unit} {s t : World} (hrun : Running m msg src ns out F G ((p, s), (q, t)))
    (hfin : PairFinal (channel c₁) (channel c₂) ((p, s), (q, t))) :
    (p = .ret () ∧ q = .ret ()) ∨
      (Full c₁ t s ∧ Full c₂ s t ∧ PullPoint msg src ns .sends s.out s.read ∧
        PushPoint msg src ns .sends t.out t.read) := by
  have hpull : Total _ _ _ p s := hrun.1
  have hpush : Total _ _ _ q t := hrun.2
  have hframe : (frame msg).length ≤ (pushStream msg src ns).length := by
    rw [pushStream, List.length_append]
    exact Nat.le_add_right _ _
  have hlen := pullStream_length ns
  rcases stuck_waits c₁ t hpull (fun c hs => hfin _ (.left hs)) with
    ⟨⟨⟩, rfl⟩ | ⟨hpk, c, hc, hfull⟩ | ⟨hpk, hall⟩
  · obtain ⟨-, F', -, -, hend⟩ := total_ret.mp hpull
    rcases stuck_waits c₂ s hpush (fun c hs => hfin _ (.right hs)) with
      ⟨⟨⟩, rfl⟩ | ⟨hqk, c, hc, hfull⟩ | ⟨hqk, hall⟩
    · exact .inl ⟨rfl, rfl⟩
    · obtain ⟨j, hj, -, hlt, -⟩ := hqk.sends rfl
      have hle := answers_take_le src ns j
      have hpos := hc₂ c hc
      rw [hend.read, pushStream, List.length_append] at hfull
      omega
    · have hlt := (hqk.receives rfl).1
      rw [hend.out] at hall
      omega
  · have hpos := hc₁ c hc
    rcases stuck_waits c₂ s hpush (fun c hs => hfin _ (.right hs)) with
      ⟨⟨⟩, rfl⟩ | ⟨hqk, c', hc', hfull'⟩ | ⟨hqk, hall⟩
    · obtain ⟨-, hend⟩ := total_ret.mp hpush
      have hle := hpk.said.length_le
      rw [hend.read] at hfull
      omega
    · exact .inr ⟨⟨c, hc, hfull⟩, ⟨c', hc', hfull'⟩, hpk, hqk⟩
    · omega
  · rcases stuck_waits c₂ s hpush (fun c hs => hfin _ (.right hs)) with
      ⟨⟨⟩, rfl⟩ | ⟨hqk, c, hc, hfull⟩ | ⟨hqk, hall'⟩
    · obtain ⟨-, hend⟩ := total_ret.mp hpush
      rw [hend.out] at hall
      rcases hpk.receives rfl with ⟨-, hlt⟩ | ⟨-, hlt⟩
      · omega
      · omega
    · have hpos := hc₂ c hc
      omega
    · obtain ⟨hlt, hsaid⟩ := hqk.receives rfl
      rcases hpk.receives rfl with ⟨hout, hlt'⟩ | ⟨hout, hlt'⟩
      · have hmeta := hsaid (by omega)
        omega
      · rw [hout] at hall'
        omega

end joint

end Embr.Channel
