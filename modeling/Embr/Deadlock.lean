import Embr.Lib.Observes
import Embr.EndToEnd

/-!
# Channels of bounded capacity

The receiver sends all its requests before it reads any chunk, and the sender
answers each request before it reads the next one. Both can be left waiting for
room exactly if the answers to some requests overflow one channel while the
requests after these overflow the other.
-/

open Octets Interact
open Embr.System Embr.Protocol Embr.Reliable Embr.Delivery Embr.Channel
namespace Embr.Deadlock

section observes
open Prog.Observes
variable {sha256 : Bytes → Hash} {out fd : Path} {m : FileMeta}

theorem retry_observes {σ β : Type} (what : String) (x : σ) :
    (retry what x : Prog Os (σ ⊕ β)).Observes :=
  bind get fun _ => ite (pure _) (raise _)

theorem throwErrno_observes {α : Type} (what : String) : (throwErrno what : Prog Os α).Observes :=
  bind get fun _ => raise _

theorem lift_observes {α : Type} (x : Except Exc α) : (lift x : Prog Os α).Observes := by
  cases x with
  | ok a => exact pure a
  | error e => exact raise (Γ := Os) e

theorem sendExact_observes (buf : Bytes) : (sendExact tcp buf).Observes := by
  apply repeatUntil
  intro sent
  refine ite (bind (ask _) ?_) (pure _)
  intro r
  cases r with
  | some n => exact ite (raise _) (pure _)
  | none => exact bind get fun _ => ite (pure _) (raise _)

theorem recvExact_observes (len : ℕ) : (recvExact tcp len).Observes := by
  apply repeatUntil
  intro received
  refine ite (bind (ask _) ?_) (pure _)
  intro r
  cases r with
  | some bs => exact ite (raise _) (pure _)
  | none => exact bind get fun _ => ite (pure _) (raise _)

theorem sendMsg_observes (msg : Message) : (sendMsg tcp msg).Observes :=
  bind (sendExact_observes _) fun _ => ite (sendExact_observes _) (pure _)

theorem recvMsg_observes : (recvMsg tcp).Observes :=
  bind (recvExact_observes _) fun _ => ite (raise _) (ite (raise _) (ite (raise _)
    (ite (bind (recvExact_observes _) fun _ => pure _) (pure _))))

theorem sendFile_observes (offset len : ℕ) : (tcp.sendFile fd offset len).Observes := by
  apply repeatUntil
  intro x
  refine ite (bind (ask _) ?_) (pure _)
  intro r
  cases r with
  | some n => exact ite (raise _) (pure _)
  | none => exact retry_observes _ _

theorem openPipe_observes : TcpTransport.openPipe.Observes :=
  bind get fun _ => ite (pure _) (bind (ask _) fun _ => ite (pure _) (throwErrno_observes _))

theorem drainPipe_observes (pos remain : ℕ) :
    (TcpTransport.drainPipe fd pos remain).Observes := by
  apply repeatUntil
  intro x
  refine ite (bind (ask _) ?_) (pure _)
  intro r
  cases r with
  | some n => exact ite (raise _) (pure _)
  | none => exact retry_observes _ _

theorem recvFile_observes (offset len : ℕ) : (tcp.recvFile fd offset len).Observes := by
  refine bind openPipe_observes fun _ => repeatUntil ?_
  intro x
  refine ite (bind (ask _) ?_) (pure _)
  intro r
  cases r with
  | some n => exact ite (raise _) (bind (drainPipe_observes _ _) fun _ => pure _)
  | none => exact retry_observes _ _

theorem writeExact_observes (buf : Bytes) : (writeExact fd buf).Observes := by
  apply repeatUntil
  intro offset
  refine ite (bind (ask _) ?_) (pure _)
  intro r
  cases r with
  | some n => exact pure _
  | none => exact retry_observes _ _

theorem readExact_observes (len : ℕ) : (readExact fd len).Observes := by
  apply repeatUntil
  intro buf
  refine ite (bind (ask _) ?_) (pure _)
  intro r
  cases r with
  | some bs => exact ite (pure _) (pure _)
  | none => exact bind get fun _ => ite (pure _) (pure _)

theorem load_observes (fileHash : Hash) (chunkCount : UInt32) :
    (PartialFile.load out fileHash chunkCount).Observes := by
  refine bind (ask _) fun _ => ite (bind (readExact_observes _) ?_) (pure _)
  intro r
  cases r with
  | error e => exact pure _
  | ok storedHash =>
    refine ite (pure _) (bind (ask _) ?_)
    intro r
    cases r with
    | none => exact pure _
    | some size =>
      refine ite (pure _) (bind (readExact_observes _) ?_)
      intro r
      cases r with
      | error e => exact pure _
      | ok raw => exact pure _

theorem save_observes (fileHash : Hash) (cm : ChunkManager) :
    (PartialFile.save out fileHash cm).Observes :=
  bind (ask _) fun _ => ite (bind (writeExact_observes _) fun _ => writeExact_observes _) (raise _)

theorem openOutput_observes (prior : Option ChunkManager) :
    (openOutput out m prior).Observes := by
  cases prior with
  | some cm =>
    exact bind (ask _) fun _ => ite (pure _)
      (bind (ask _) fun _ => ite (pure _) (throwErrno_observes _))
  | none =>
    exact bind (ask _) fun _ => ite
      (bind (ask _) fun _ => ite (pure _) (throwErrno_observes _)) (throwErrno_observes _)

theorem sendRequests_observes (needed : List ℕ) : (sendRequests tcp needed).Observes := by
  induction needed with
  | nil => exact pure _
  | cons i needed ih => exact bind (sendMsg_observes _) fun _ => ih

theorem recvChunk_observes (i : ℕ) (cm : ChunkManager) :
    (recvChunk sha256 tcp out m i cm).Observes := by
  refine bind recvMsg_observes fun _ => ite (raise _) (bind (lift_observes _) fun _ =>
    ite (raise _) (bind (recvFile_observes _ _) fun _ => bind (ask _) ?_))
  intro r
  cases r with
  | none => exact throwErrno_observes _
  | some mapped =>
    refine bind ?_ fun _ => bind (save_observes _ _) fun _ => bind (ask _) fun _ => pure _
    exact ite (lift_observes _) (bind (lift_observes _) fun _ => bind (ask _) fun _ => pure _)

theorem recvChunks_observes (needed : List ℕ) (cm : ChunkManager) :
    (recvChunks sha256 tcp out m needed cm).Observes := by
  induction needed generalizing cm with
  | nil => exact pure _
  | cons i needed ih => exact bind (recvChunk_observes i cm) fun cm => ih cm

theorem finish_observes (cm : ChunkManager) : (finish out cm).Observes :=
  ite (bind (ask _) fun _ => ask _) (ask _)

theorem runPull_observes (outputPath : Path) : (runPull sha256 tcp outputPath).Observes := by
  refine bind (sendMsg_observes _) fun _ => bind ?_ fun m => bind (ask _) fun _ => ?_
  · exact bind recvMsg_observes fun _ => ite (raise _) (lift_observes _)
  · exact bind (load_observes _ _) fun prior => bind (openOutput_observes prior) fun _ =>
      bind (ask _) fun _ => bind (sendRequests_observes _) fun _ => bind (sendMsg_observes _)
        fun _ => bind (recvChunks_observes _ _) fun _ => finish_observes _

theorem serve_observes (fileSize : ℕ) (chunkCount : UInt32) :
    (serve tcp fd fileSize chunkCount).Observes :=
  repeatUntil fun _ => bind recvMsg_observes fun _ => ite (pure _) (ite (raise _)
    (bind (lift_observes _) fun _ => ite (raise _)
      (bind (bind (sendMsg_observes _) fun _ => sendFile_observes _ _) fun _ =>
        bind (ask _) fun _ => pure _)))

theorem runPush_observes : (runPush tcp fd m).Observes :=
  bind recvMsg_observes fun _ => ite (raise _) (bind (lift_observes _) fun _ =>
    bind (ask _) fun _ => bind (lift_observes _) fun _ => bind (sendMsg_observes _) fun _ =>
      bind (ask _) fun _ => bind (serve_observes _ _) fun _ => ask _)

end observes

section moves
variable {c : ℕ} {peer s s' : World}

theorem channel_moves {o : Op} {r : o.Reply} (h : channel (some c) peer o s r s') :
    (s'.read = s.read ∧ s'.out = s.out) ∨
      (s'.read = s.read ∧ s'.out.length ≤ peer.read + c) ∨
      (s.read ≤ s'.read ∧ s'.out = s.out) := by
  have hrefused : s.Refused s' → s'.read = s.read ∧ s'.out = s.out := by
    intro h
    obtain ⟨e, rfl⟩ := h
    exact ⟨rfl, rfl⟩
  cases o with
  | send buf =>
    obtain ⟨k, -, hk, hroom, -, rfl⟩ := h
    right
    left
    refine ⟨rfl, ?_⟩
    have hroom := hroom c rfl
    change (s.out ++ buf.take k).length ≤ _
    rw [List.length_append, List.length_take]
    omega
  | recv len =>
    obtain ⟨bs, -, -, -, -, rfl⟩ := h
    exact .inr (.inr ⟨Nat.le_add_right _ _, rfl⟩)
  | sendfile fd offset len =>
    obtain ⟨f, k, -, -, -, hk, hroom, -, rfl⟩ := h
    right
    left
    refine ⟨rfl, ?_⟩
    have hroom := hroom c rfl
    change (s.out ++ slice f offset k).length ≤ _
    rw [List.length_append, slice_length hk]
    omega
  | spliceIn len =>
    obtain ⟨buf, bs, -, -, -, -, -, rfl⟩ := h
    exact .inr (.inr ⟨Nat.le_add_right _ _, rfl⟩)
  | pipe =>
    rcases h with ⟨-, rfl⟩ | ⟨-, -, h⟩
    · exact .inl ⟨rfl, rfl⟩
    · exact .inl (hrefused h)
  | spliceOut fd offset len =>
    rcases h with ⟨_, _, _, -, -, -, -, -, -, rfl⟩ | ⟨-, -, rfl⟩ | ⟨-, -, h⟩
    · exact .inl ⟨rfl, rfl⟩
    · exact .inl ⟨rfl, rfl⟩
    · exact .inl (hrefused h)
  | openRead path =>
    rcases h with ⟨-, -, rfl⟩ | ⟨-, -, h⟩
    · exact .inl ⟨rfl, rfl⟩
    · exact .inl (hrefused h)
  | openReadWrite path =>
    rcases h with ⟨-, -, rfl⟩ | ⟨-, -, h⟩
    · exact .inl ⟨rfl, rfl⟩
    · exact .inl (hrefused h)
  | openTrunc path =>
    rcases h with ⟨-, rfl⟩ | ⟨-, -, h⟩
    · exact .inl ⟨rfl, rfl⟩
    · exact .inl (hrefused h)
  | ftruncate fd len =>
    rcases h with ⟨_, -, -, rfl⟩ | ⟨-, -, h⟩
    · exact .inl ⟨rfl, rfl⟩
    · exact .inl (hrefused h)
  | stat path =>
    rcases h with ⟨_, -, -, rfl⟩ | ⟨-, -, h⟩
    · exact .inl ⟨rfl, rfl⟩
    · exact .inl (hrefused h)
  | read fd len =>
    rcases h with ⟨_, _, -, -, -, -, -, rfl⟩ | ⟨-, -, h⟩
    · exact .inl ⟨rfl, rfl⟩
    · exact .inl (hrefused h)
  | write fd buf =>
    rcases h with ⟨_, _, -, -, -, -, rfl⟩ | ⟨-, -, h⟩
    · exact .inl ⟨rfl, rfl⟩
    · exact .inl (hrefused h)
  | mmap fd offset len =>
    rcases h with ⟨_, _, -, -, -, -, -, rfl⟩ | ⟨-, -, h⟩
    · exact .inl ⟨rfl, rfl⟩
    · exact .inl (hrefused h)
  | unlink path =>
    rcases h with rfl | ⟨-, h⟩
    · exact .inl ⟨rfl, rfl⟩
    · exact .inl (hrefused h)
  | print l =>
    subst h
    exact .inl ⟨rfl, rfl⟩

theorem step_moves {α : Type} {p q : Prog Os α} (hp : p.Observes)
    (h : Step (channel (some c) peer) (p, s) (q, s')) : q.Observes ∧
      ((s'.read = s.read ∧ s'.out = s.out) ∨
        (s'.read = s.read ∧ s'.out.length ≤ peer.read + c) ∨
        (s.read ≤ s'.read ∧ s'.out = s.out)) := by
  obtain ⟨hq, hstore | ⟨o, r, hr⟩⟩ := hp.step h
  · subst hstore
    exact ⟨hq, .inl ⟨rfl, rfl⟩⟩
  · exact ⟨hq, channel_moves hr⟩

end moves

/-- Bytes that answer the requests for the chunks `ns`. -/
def answered (fileSize : ℕ) (ns : List ℕ) : ℕ :=
  (ns.map fun i => 10 + chunkLen fileSize i).sum

def Stuck (c₁ c₂ : Option ℕ) (d : PairConfig Os Os Unit Unit) : Prop :=
  PairFinal (channel c₁) (channel c₂) d ∧ ¬ (d.1.1.Done ∧ d.2.1.Done)

def DeadlockFree (c₁ c₂ : ℕ) (d : PairConfig Os Os Unit Unit) : Prop :=
  ∀ d', JointReaches (some c₁) (some c₂) d d' → ¬ Stuck (some c₁) (some c₂) d'

section deadlock
variable {sha256 : Bytes → Hash} {m : FileMeta} {src : Bytes} {msg : Message} {ns : List ℕ}
  {c₁ c₂ j : ℕ} {out fd outputPath : Path} {F G : Path → Option Bytes}
  {d d' : PairConfig Os Os Unit Unit}

theorem answers_length (hd : Describes sha256 m src) (hns : ∀ i ∈ ns, i < m.chunkCount.toNat) :
    (answers src ns).length = answered src.length ns := by
  induction ns with
  | nil => rfl
  | cons i ns ih =>
    have hi := hns i (List.mem_cons_self ..)
    have hhdr : (frame (makeChunkHdr ⟨UInt32.ofNat i⟩)).length = 10 := by
      simp [makeChunkHdr, putU32, HEADER_SIZE]
    have hrest := ih fun k hk => hns k (List.mem_cons_of_mem _ hk)
    rw [answers_cons, answer, List.length_append, List.length_append, hhdr, hd.chunk_length hi,
      hrest, answered, answered, List.map_cons, List.sum_cons]

/-- No side is ahead of the other by more than its channel holds. -/
structure Within (c₁ c₂ : ℕ) (d : PairConfig Os Os Unit Unit) : Prop where
  pullObserves : d.1.1.Observes
  pushObserves : d.2.1.Observes
  pullAhead : d.1.2.out.length ≤ d.2.2.read + c₁
  pushAhead : d.2.2.out.length ≤ d.1.2.read + c₂

theorem Within.step (h : Within c₁ c₂ d)
    (hs : PairStep (channel (some c₁)) (channel (some c₂)) d d') : Within c₁ c₂ d' := by
  obtain ⟨hp, hq, hpull, hpush⟩ := h
  cases hs with
  | left hs =>
    obtain ⟨hp', hmove⟩ := step_moves hp hs
    refine ⟨hp', hq, ?_, ?_⟩
    · rcases hmove with ⟨-, hout⟩ | ⟨-, hroom⟩ | ⟨-, hout⟩
      · exact hout ▸ hpull
      · exact hroom
      · exact hout ▸ hpull
    · rcases hmove with ⟨hread, -⟩ | ⟨hread, -⟩ | ⟨hread, -⟩
      · exact hread ▸ hpush
      · exact hread ▸ hpush
      · exact hpush.trans (Nat.add_le_add_right hread _)
  | right hs =>
    obtain ⟨hq', hmove⟩ := step_moves hq hs
    refine ⟨hp, hq', ?_, ?_⟩
    · rcases hmove with ⟨hread, -⟩ | ⟨hread, -⟩ | ⟨hread, -⟩
      · exact hread ▸ hpull
      · exact hread ▸ hpull
      · exact hpull.trans (Nat.add_le_add_right hread _)
    · rcases hmove with ⟨-, hout⟩ | ⟨-, hroom⟩ | ⟨-, hout⟩
      · exact hout ▸ hpush
      · exact hroom
      · exact hout ▸ hpush

theorem requests_unfinished (hfull : c₂ < (answers src (ns.take j)).length)
    (hlong : 10 * j + c₁ < 10 * ns.length + 6)
    (hrun : Running m msg src ns out F G d) (hwithin : Within c₁ c₂ d)
    (hlt : d.1.2.out.length < (pullStream ns).length)
    (hr : PairReaches (channel (some c₁)) (channel (some c₂)) d d') :
    d'.1.2.out.length < (pullStream ns).length := by
  have hlen := pullStream_length ns
  have key : Running m msg src ns out F G d' ∧ Within c₁ c₂ d' ∧
      d'.1.2.out.length < (pullStream ns).length := by
    induction hr with
    | refl => exact ⟨hrun, hwithin, hlt⟩
    | @tail d d' _ hs ih =>
      obtain ⟨hrun, hwithin, hlt⟩ := ih
      have hwithin' := hwithin.step hs
      refine ⟨hrun.step (covers _ _) hs, hwithin', ?_⟩
      have hread : d.1.2.read ≤ (frame msg).length := by
        by_contra hlate
        have hall := hrun.1.here.late (Nat.lt_of_not_le hlate)
        rw [hall] at hlt
        exact lt_irrefl _ hlt
      have hserved : d.2.2.read ≤ 10 + 10 * j := by
        by_contra hmore
        have hlower := hrun.2.here.lower j (Nat.lt_of_not_le hmore)
        have hahead := hwithin.pushAhead
        omega
      have hahead' := hwithin'.pullAhead
      cases hs with
      | left hs =>
        dsimp only at hahead' hserved ⊢
        omega
      | right hs => exact hlt
  exact key.2.2

theorem start_within (c₁ c₂ : ℕ) (F G : Path → Option Bytes) :
    Within c₁ c₂ (start sha256 m outputPath fd F G) :=
  ⟨runPull_observes _, runPush_observes, Nat.zero_le _, Nat.zero_le _⟩

theorem exists_deadlock (hfull : c₂ < (answers src (ns.take j)).length)
    (hlong : 10 * j + c₁ < 10 * ns.length + 6)
    (hrun : Running m msg src ns out F G (start sha256 m outputPath fd F G)) :
    ∃ d, JointReaches (some c₁) (some c₂) (start sha256 m outputPath fd F G) d ∧
      Stuck (some c₁) (some c₂) d := by
  obtain ⟨⟨⟨p, s⟩, ⟨q, t⟩⟩, hr, hfin⟩ := hrun.exists_final (covers (some c₁) (some c₂))
  refine ⟨_, hr, hfin, ?_⟩
  intro hdone
  have hempty : (start sha256 m outputPath fd F G).1.2.out.length < (pullStream ns).length := by
    rw [pullStream_length]
    change 0 < _
    omega
  have hlt := requests_unfinished hfull hlong hrun (start_within c₁ c₂ F G) hempty hr
  have hpull : Total _ _ _ p s := (hrun.reaches (covers _ _) hr).1
  cases p with
  | ret a =>
    obtain ⟨-, F', -, -, hend⟩ := total_ret.mp hpull
    change s.out.length < _ at hlt
    rw [hend.out] at hlt
    exact lt_irrefl _ hlt
  | raise e => nomatch hpull
  | _ => exact hdone.1

theorem no_deadlock (hc₁ : 0 < c₁) (hc₂ : 0 < c₂)
    (hroom : ∀ j ≤ ns.length, c₂ < (answers src (ns.take j)).length →
      10 * ns.length + 6 ≤ 10 * j + c₁)
    (hrun : Running m msg src ns out F G d) : ¬ Stuck (some c₁) (some c₂) d := by
  obtain ⟨⟨p, s⟩, ⟨q, t⟩⟩ := d
  intro h
  obtain ⟨hfin, hdone⟩ := h
  apply hdone
  have hpos₁ : ∀ c, some c₁ = some c → 0 < c := by
    rintro c ⟨⟩
    exact hc₁
  have hpos₂ : ∀ c, some c₂ = some c → 0 < c := by
    rintro c ⟨⟩
    exact hc₂
  rcases final_returned_or_full hpos₁ hpos₂ hrun hfin with
    ⟨rfl, rfl⟩ | ⟨⟨c, hc, hfull₁⟩, ⟨c', hc', hfull₂⟩, hpull, hpush⟩
  · exact ⟨trivial, trivial⟩
  · cases hc
    cases hc'
    have hlen := pullStream_length ns
    obtain ⟨j, hj, hread, hout, -⟩ := hpush.sends rfl
    rcases hpull.sends rfl with ⟨hshort, -⟩ | ⟨-, hshort, hmeta⟩
    · omega
    · have hall := hroom j hj (by omega)
      omega

/-- No run deadlocks exactly if, whenever the answers to the first `j` requests
are more than the sender's channel holds, the receiver's one holds the rest of
its requests and the COMPLETE. -/
theorem deadlock_free_iff (hd : Describes sha256 m src) (hmsg : makeFilemeta m = .ok msg)
    (hfit : msg.payload.length ≤ MAX_PAYLOAD_SIZE)
    (hout : out = if outputPath = [] then m.fileName else outputPath)
    (hns : ns = (startBits F out m).neededChunks) (hfd : G fd = some src)
    (hc₁ : 0 < c₁) (hc₂ : 0 < c₂) :
    DeadlockFree c₁ c₂ (start sha256 m outputPath fd F G) ↔
    ∀ j ≤ ns.length, c₂ < answered src.length (ns.take j) →
      10 * ns.length + 6 ≤ 10 * j + c₁ := by
  have hrun := start_running (G := G) hd hmsg hfit hout hns hfd
  have hlt : ∀ i ∈ ns, i < m.chunkCount.toNat := by
    intro i hi
    rw [hns] at hi
    exact (startBits_length F out m) ▸ ChunkManager.neededChunks_lt hi
  have hlen : ∀ j, (answers src (ns.take j)).length = answered src.length (ns.take j) :=
    fun j => answers_length hd fun i hi => hlt i (List.mem_of_mem_take hi)
  constructor
  · intro hfree j _ hfull
    by_contra hlong
    rw [← hlen j] at hfull
    obtain ⟨d, hr, hdead⟩ := exists_deadlock hfull (Nat.lt_of_not_le hlong) hrun
    exact hfree d hr hdead
  · intro hroom d hr
    apply no_deadlock hc₁ hc₂ _ (hrun.reaches (covers _ _) hr)
    intro j hj hfull
    rw [hlen j] at hfull
    exact hroom j hj hfull

open EndToEnd in
theorem deadlock_free_letter : DeadlockFree 16 1
    (start (fun _ => letterHash) letter [111] [97] (fun _ => none) letterFiles) := by
  obtain ⟨msg, hmsg, hfit⟩ := letter_message
  apply (deadlock_free_iff letter_describes hmsg hfit letter_out rfl letter_source (by decide)
    (by decide)).mpr
  intro j _ _
  exact Nat.le_add_left _ _

open EndToEnd in
/-- One byte of room each way, and one chunk of one byte. -/
theorem deadlock_reachable : ¬ ∀ (sha256 : Bytes → Hash) (m : FileMeta) (src : Bytes)
    (msg : Message) (F G : Path → Option Bytes) (out fd outputPath : Path) (c₁ c₂ : ℕ),
    Describes sha256 m src → makeFilemeta m = .ok msg →
    msg.payload.length ≤ MAX_PAYLOAD_SIZE →
    (out = if outputPath = [] then m.fileName else outputPath) → G fd = some src →
    0 < c₁ → 0 < c₂ → DeadlockFree c₁ c₂ (start sha256 m outputPath fd F G) := by
  intro h
  obtain ⟨msg, hmsg, hfit⟩ := letter_message
  have hrun := start_running (F := fun _ => none) letter_describes hmsg hfit letter_out rfl
    letter_source
  have hfull : 1 < (answers [97] ([0].take 1)).length := by decide
  have hlong : 10 * 1 + 1 < 10 * [0].length + 6 := by decide
  obtain ⟨d, hr, hstuck⟩ := exists_deadlock hfull hlong hrun
  exact h _ _ _ _ _ _ _ _ _ 1 1 letter_describes hmsg hfit letter_out letter_source (by decide)
    (by decide) d hr hstuck

end deadlock

end Embr.Deadlock
