import Embr.PullCommand

/-!
# What a command leaves behind

Whatever fails, a command ends with what it has found, but for one descriptor or mapping
that may be lost where the hashing or the transfer throws, and no call is made with
anything released. Over QUIC `quic_accept` keeps a descriptor that the command closes too: each
first packet that is awaited costs one `close` of a number nobody has opened since.
-/

open Octets Interact Text
open Interact.Books
open Embr.System (lift)
open Embr.Protocol (Hash FileMeta)
namespace Embr.Cli

section commands
variable {vars : String → Option Bytes} {fails : Prop} {R : Multiset Handle} {d : Tally} {n : ℤ}
  {l : List Event} {s : Process}

theorem owns_runTrackerCli (args : List Bytes) :
    (books vars fails).Owns (R, d) (runTrackerCli args) (R, d) fun _ => (R, d) := by
  refine owns_lift.bind fun parsed => ?_
  cases parsed with
  | help => exact (owns_say rfl rfl).bind fun _ => owns_pure rfl
  | unknown flag =>
    exact (owns_say rfl rfl).bind fun _ => (owns_say rfl rfl).bind fun _ => owns_pure rfl
  | options config =>
    have hserver : (books vars fails).Owns (R, d)
        (shell (.runTrackerServer config.bindAddr config.bindPort config.ttl)) (R, d)
        fun _ => (R, d) :=
      owns_works (fun _ hs _ _ hx => hs.stays hx) (Multiset.zero_subset _)
    exact hserver.bind fun _ => owns_pure rfl

abbrev somehow (n : ℤ) : Tally := (n, fun _ => True)

theorem main_sat (sha256 : Bytes → Hash) (args : List Bytes) (hs : s.Has (R, after n l [])) :
    Sat (world vars fails) Sound (fun _ => Process.Has (R, somehow n)) (main sha256 args)
      (fun code (t : Process) => t.Ends (R, somehow n) code) s := by
  have hany : ∀ {L : List Event → Prop} {t : Process}, t.Has (R, n, L) → t.Has (R, somehow n) :=
    fun ht => ht.weaken fun _ _ => trivial
  have howns : ∀ {p : Prog Shell ℕ},
      (books vars fails).Owns (R, somehow n) p (R, somehow n) (fun _ => (R, somehow n)) →
      Sat (world vars fails) Sound (fun _ => Process.Has (R, somehow n)) p
        (fun code (t : Process) => t.Ends (R, somehow n) code) s :=
    fun hp => (hp s (hany hs)).weaken fun _ _ ht => Or.inl ht
  cases args with
  | nil => exact howns ((owns_say rfl rfl).bind fun _ => owns_pure rfl)
  | cons verb args =>
    rw [main]
    split_ifs
    · exact (Sat.throws (runPushCli_sat sha256 args hs) fun _ _ hx => hany hx).weaken
        fun _ _ ht => ht.weaken fun _ _ => trivial
    · exact (Sat.throws (runPullCli_sat args hs) fun _ _ hx => hany hx).weaken
        fun _ _ ht => ht.weaken fun _ _ => trivial
    · exact howns (owns_runTrackerCli args)
    · exact howns (owns_runTrustCli args)
    · exact howns ((owns_say rfl rfl).bind fun _ => (owns_say rfl rfl).bind fun _ => owns_pure rfl)

end commands

/-- Any command, in any environment, whatever fails and wherever it is. -/
theorem main_releases (sha256 : Bytes → Hash) (vars : String → Option Bytes) (fails : Prop)
    (args : List Bytes) {s t : Process} {p : Prog Shell ℕ} (hs : s.live.Nodup)
    (hrun : Reaches (world vars fails) (main sha256 args, s) (p, t)) :
    (∀ op, p.head = some op → op.uses ⊆ t.live) ∧
    (p.Done → (t.live = s.live ∨ (p = .ret 1 ∧ ∃ h, Lost h ∧ t.live = h ::ₘ s.live)) ∧
      t.stray + s.log.countP Event.isAwaited = s.stray + t.log.countP Event.isAwaited) := by
  have hhas : s.Has (s.live, after s.owed s.acts []) := ⟨rfl, hs, rfl, (List.append_nil _).symm⟩
  have hsat : Sat (world vars fails) Sound _ (main sha256 args) _ s := main_sat sha256 args hhas
  have hpaid : t.owed = s.owed →
      t.stray + s.log.countP Event.isAwaited = s.stray + t.log.countP Event.isAwaited := by
    intro howed
    rw [Process.owed, Process.owed] at howed
    omega
  refine ⟨(hsat.visited hrun).uses, fun hdone => ?_⟩
  cases p with
  | ret code =>
    rcases hsat.returned hrun with h | ⟨rfl, m, hm, h⟩
    · exact ⟨Or.inl h.live, hpaid h.owed⟩
    · exact ⟨Or.inr ⟨rfl, m, hm, h.live⟩, hpaid h.owed⟩
  | raise e => exact ⟨Or.inl (hsat.raised hrun).live, hpaid (hsat.raised hrun).owed⟩
  | act f k => exact hdone.elim
  | call o k => exact hdone.elim
  | loop body x k => exact hdone.elim

theorem main_releases_unheard : ∃ t : Process, t.stray = 1 ∧
    (t.live = blank.live ∨ ∃ h, Lost h ∧ t.live = h ::ₘ blank.live) ∧ t.live = 0 ∧
    t.stray + blank.log.countP Event.isAwaited = blank.stray + t.log.countP Event.isAwaited := by
  obtain ⟨l, t, hrun, hstray, hlive⟩ :=
    push_unheard (fun _ => ⟨List.replicate 32 0, rfl⟩) ⟨[], 0, 0, 0, []⟩
  have hall := main_releases _ _ _ (ascii "push" :: [ascii "f", ascii "--transport", ascii "quic"])
    (s := blank) Multiset.nodup_zero hrun.reaches
  exact ⟨t, hstray, (hall.2 trivial).1.imp id And.right, hlive, (hall.2 trivial).2⟩

end Embr.Cli
