import Embr.Cli
import Embr.Handles

/-!
# The parts of a command that hold nothing

The tracker's URL, the file it is kept in and the command that changes it.
-/

open Octets Interact Text
open Interact.Books
open Embr.System (lift)
open Embr.Protocol (Hash)
namespace Embr.Cli

section commands
variable {vars : String → Option Bytes} {fails : Prop} {M R : Multiset Handle} {d : Tally} {α : Type}
  {a c : Multiset Handle × Tally}

theorem owns_lift {r : Except Exc α} : (books vars fails).Owns a (lift r) a fun _ => a := by
  cases r with
  | ok x => exact owns_pure rfl
  | error e => exact owns_raise

theorem owns_file {o : Op} (huse : o.uses = 0) (hworld : ∀ s x t, world vars fails o s x t →
      t.live = s.live ∧ t.stray = s.stray ∧ t.log = s.log)
    (hop : ∀ url token port, o ≠ .trackerRegister url token port := by rintro _ _ _ ⟨⟩) :
    (books vars fails).Owns (M, d) (shell o) c fun _ => (M, d) := by
  refine owns_works (fun s hs x t hx => ?_) (huse ▸ Multiset.zero_subset _) hop
  obtain ⟨hlive, hstray, hlog⟩ := hworld s x t hx
  refine ⟨hlive.trans hs.live, hs.nodup, ?_, ?_⟩
  · rw [Process.owed, hlog, hstray]
    exact hs.owed
  · rw [Process.acts, hlog]
    exact hs.acts

theorem owns_getenv (name : String) :
    (books vars fails).Owns (M, d) (shell (.getenv name)) c fun _ => (M, d) := by
  refine owns_file rfl ?_
  rintro s x t ⟨-, rfl⟩
  exact ⟨rfl, rfl, rfl⟩

theorem owns_getConfigPath : (books vars fails).Owns (M, d) getConfigPath c fun _ => (M, d) := by
  refine Owns.bind (owns_getenv _) fun home => ?_
  cases home with
  | none => exact owns_pure rfl
  | some home =>
    dsimp only
    split_ifs
    · exact owns_pure rfl
    · exact owns_pure rfl

theorem owns_existsFile (path : Path) :
    (books vars fails).Owns (M, d) (existsFile path) (M, d) fun _ => (M, d) := by
  refine Owns.bind (owns_file (o := .exists path) rfl ?_) fun _ => owns_lift
  rintro s x t (⟨-, rfl⟩ | ⟨-, -, -, rfl⟩)
  · exact ⟨rfl, rfl, rfl⟩
  · exact ⟨rfl, rfl, rfl⟩

theorem owns_readTrackerUrl :
    (books vars fails).Owns (M, d) readTrackerUrl (M, d) fun _ => (M, d) := by
  refine Owns.bind owns_getConfigPath fun path => ?_
  split_ifs
  · exact owns_pure rfl
  · refine Owns.bind (owns_existsFile path) fun there => ?_
    split_ifs
    · refine Owns.bind (owns_file (o := .read path) rfl ?_) fun _ => owns_pure rfl
      rintro s x t ⟨-, rfl⟩
      exact ⟨rfl, rfl, rfl⟩
    · exact owns_pure rfl

theorem owns_resolveTrackerUrl (flagValue : Bytes) :
    (books vars fails).Owns (M, d) (resolveTrackerUrl flagValue) (M, d) fun _ => (M, d) := by
  rw [resolveTrackerUrl]
  split_ifs
  · exact owns_pure rfl
  · refine Owns.bind (owns_getenv _) fun env => ?_
    cases env with
    | none => exact owns_readTrackerUrl
    | some env =>
      dsimp only
      split_ifs
      · exact owns_pure rfl
      · exact owns_readTrackerUrl

theorem owns_writeTrackerUrl (url : Bytes) :
    (books vars fails).Owns (M, d) (writeTrackerUrl url) (M, d) fun _ => (M, d) := by
  refine Owns.bind owns_getConfigPath fun path => ?_
  split_ifs
  · exact owns_raise
  · refine Owns.bind (owns_file (o := .createDirectories (parentPath path)) rfl ?_) fun _ => ?_
    · rintro s x t ⟨rfl, -⟩
      exact ⟨rfl, rfl, rfl⟩
    · refine owns_lift.bind fun _ => owns_file rfl ?_
      rintro s x t (rfl | ⟨-, rfl | ⟨n, rfl⟩⟩)
      · exact ⟨rfl, rfl, rfl⟩
      · exact ⟨rfl, rfl, rfl⟩
      · exact ⟨rfl, rfl, rfl⟩

theorem owns_clearTracker :
    (books vars fails).Owns (M, d) clearTracker (M, d) fun _ => (M, d) := by
  refine Owns.bind owns_getConfigPath fun path => ?_
  refine Owns.bind (owns_existsFile path) fun there => ?_
  split_ifs
  · refine Owns.bind (owns_file (o := .remove path) rfl ?_) fun _ => ?_
    · rintro s x t (⟨-, rfl⟩ | ⟨-, -, -, rfl⟩)
      · exact ⟨rfl, rfl, rfl⟩
      · exact ⟨rfl, rfl, rfl⟩
    · exact owns_lift.bind fun _ => owns_say rfl rfl
  · exact owns_say rfl rfl

theorem owns_runTrustCli (args : List Bytes) :
    (books vars fails).Owns (M, d) (runTrustCli args) (M, d) fun _ => (M, d) := by
  cases args with
  | nil => exact (owns_say rfl rfl).bind fun _ => owns_pure rfl
  | cons arg args =>
    rw [runTrustCli]
    split_ifs
    · refine Owns.bind (Owns.bind owns_readTrackerUrl fun url => ?_) fun _ => owns_pure rfl
      split_ifs
      · exact owns_say rfl rfl
      · exact owns_say rfl rfl
    · exact owns_clearTracker.bind fun _ => owns_pure rfl
    · exact (owns_say rfl rfl).bind fun _ => owns_pure rfl
    · exact (owns_writeTrackerUrl arg).bind fun _ => (owns_say rfl rfl).bind fun _ => owns_pure rfl

end commands

end Embr.Cli
