import Embr.PushCommand

/-!
# What others see of a pull

A pull asks the tracker only about a token, never about an address, and begins a transfer
only when it knows whom to ask for one. It answers 0 when the transfer has ended without an
exception, and not before.
-/

open Octets Interact Text
open Interact.Books
open Embr.System (lift)
namespace Embr.Cli

inductive Sought (arg : Bytes) : List Event → Prop
  | direct : isIpv4 arg = true → Sought arg []
  | resolved (url : Bytes) (sender : Bytes × UInt16) : isIpv4 arg = false → isToken arg = true →
      url ≠ [] → Sought arg [.resolve url arg (.ok sender)]

inductive Halted (arg : Bytes) (outPath : Path) : List Event → Prop
  | unresolved (url : Bytes) (e : Exc) : isIpv4 arg = false → isToken arg = true → url ≠ [] →
      Halted arg outPath [.resolve url arg (.error e)]
  | unconnected {k : List Event} : Sought arg k → Halted arg outPath k
  | failed {k : List Event} (e : Exc) : Sought arg k →
      Halted arg outPath (k ++ [.pull outPath (.error e)])

/-- The acts of a pull with these arguments that answers a code. -/
inductive Pulled : List Bytes → ℕ → List Event → Prop
  | usage : Pulled [] 1 []
  | help {arg : Bytes} {args : List Bytes} :
      parseFlags pullFlags {} args = .ok .help → Pulled (arg :: args) 0 []
  | refused {arg : Bytes} {args : List Bytes} : Pulled (arg :: args) 1 []
  | stopped {arg : Bytes} {args : List Bytes} {o : PullOpts} {k : List Event} :
      parseFlags pullFlags {} args = .ok (.options o) → Halted arg o.outPath k →
      Pulled (arg :: args) 1 k
  | done {arg : Bytes} {args : List Bytes} {o : PullOpts} {k : List Event} :
      parseFlags pullFlags {} args = .ok (.options o) → Sought arg k →
      Pulled (arg :: args) 0 (k ++ [.pull o.outPath (.ok ())])

section parts
variable {vars : String → Option Bytes} {fails : Prop} {R : Multiset Handle} {n : ℤ}
  {d : Tally} {c : Multiset Handle × Tally} {l k : List Event} {s t : Process}

def among (n : ℤ) (l : List Event) (K : List Event → Prop) : Tally :=
  (n, fun l' => ∃ k, K k ∧ l' = l ++ k)

theorem Process.Has.among {K : List Event → Prop} (h : s.Has (R, after n l k)) (hk : K k) :
    s.Has (R, among n l K) :=
  h.weaken fun _ hl => ⟨k, hk, hl⟩

theorem findSender_sat (arg url : Bytes) (o : PullOpts) (hs : s.Has (R, after n l [])) :
    Sat (world vars fails) Sound (fun _ => Process.Has (R, among n l (Halted arg o.outPath)))
      (findSender arg url o) (fun sender (t : Process) => match sender with
        | none => t.Has (R, after n l [])
        | some _ => ∃ k, Sought arg k ∧ t.Has (R, after n l k)) s := by
  have hcases : isIpv4 arg = true ∨ isIpv4 arg = false := by
    cases isIpv4 arg with
    | true => exact Or.inl rfl
    | false => exact Or.inr rfl
  rw [findSender]
  split_ifs with hip htoken hurl
  · exact sat_say_bind (sat_done ⟨[], .direct hip, hs.note rfl rfl⟩)
  · exact sat_say_bind (sat_done (hs.note rfl rfl))
  · have hno := hcases.resolve_left hip
    refine sat_say_bind (sat_call rfl fun r t ht => ?_)
    have hdone := ((hs.note rfl rfl).acted rfl rfl).stays ht
    cases r with
    | error e => exact sat_thrown (hdone.among (.unresolved url e hno htoken hurl))
    | ok sender =>
      refine Sat.bind (sat_done (sat_say_bind (sat_done ?_)))
      exact ⟨_, .resolved url sender hno htoken hurl, hdone.note rfl rfl⟩
  · exact sat_say_bind (sat_done (hs.note rfl rfl))

theorem owns_connectOn (transport ip : Bytes) (port : UInt16) :
    (books vars fails).Owns (R, d) (connectOn transport ip port) (R, d)
      fun conn => (conn.holds + R, d) := by
  rw [connectOn]
  split_ifs
  · exact owns_quicConnect ip port
  · exact owns_tcpConnect ip port

theorem Process.Has.opensPipe {conn conn' : Conn} (h : s.Has (conn.holds + R, d))
    (hopens : s.OpensPipe conn conn' t) : t.Has (conn'.holds + R, d) := by
  obtain ⟨fd, rd, wr, rfl, rfl, hrd, hwr, rfl⟩ := hopens
  have hboth := (h.grab hrd).grab hwr
  rw [Multiset.cons_swap] at hboth
  simpa only [Conn.holds, Multiset.cons_add] using hboth

theorem runPull_sat {conn : Conn} (outPath : Path) (hs : s.Has (conn.holds + R, after n l k))
    {X : Exc → Process → Prop} :
    Sat (world vars fails) Sound X (shell (.runPull conn outPath)) (fun r (t : Process) =>
      t.Has (r.1.holds + R, after n l (k ++ [.pull outPath r.2])) ∨
      ∃ e m, r.2 = .error e ∧ Lost m ∧
        t.Has (r.1.holds + m ::ₘ R, after n l (k ++ [.pull outPath r.2]))) s := by
  refine sat_ask.mpr ⟨sound_uses ?_ (by rintro _ _ _ ⟨⟩), fun r t hr => ⟨sound_none _, ?_⟩⟩
  · rw [hs.live]
    exact Multiset.subset_of_le (Multiset.le_add_right _ _)
  · obtain ⟨u, v, hu, hworks, hleaves⟩ := hr
    have hacted := hs.acted (e := .pull outPath r.2) rfl rfl
    have hmoved : u.Has (r.1.holds + R, after n l (k ++ [.pull outPath r.2])) := by
      rcases hu with hcarries | hopens
      · exact hacted.carries hcarries
      · exact hacted.opensPipe hopens
    simp only [Multiset.add_cons]
    exact (hmoved.works hworks).leaves hleaves

theorem pull_sat (arg url : Bytes) (o : PullOpts) (hs : s.Has (R, after n l [])) :
    Sat (world vars fails) Sound (fun _ => Process.HasLost (R, among n l (Halted arg o.outPath)))
      (pull arg url o) (fun code (t : Process) => (code = 1 ∧ t.Has (R, after n l [])) ∨
        (code = 0 ∧ ∃ k, Sought arg k ∧
          t.Has (R, after n l (k ++ [.pull o.outPath (.ok ())])))) s := by
  refine Sat.andThen (Sat.throws (findSender_sat arg url o hs) fun _ _ hx => Or.inl hx) ?_
  intro sender t ht
  cases sender with
  | none => exact sat_done (Or.inl ⟨rfl, ht⟩)
  | some sender =>
    obtain ⟨k, hk, ht⟩ := ht
    refine Sat.andThen (Sat.throws (owns_connectOn o.transport sender.1 sender.2 t ht) fun _ _ hx =>
      Or.inl (hx.among (.unconnected hk))) fun conn u hu => ?_
    refine sat_say_bind (Sat.andThen (runPull_sat o.outPath (hu.note rfl rfl)) fun r v hv => ?_)
    obtain ⟨conn', ended⟩ := r
    rcases hv with hv | ⟨e, m, hended, hm, hv⟩
    · refine Sat.andThen (owns_destroy (c := (R, among n l (Halted arg o.outPath))) conn' v hv
        |>.throws fun _ _ hx => Or.inl hx) fun _ w hw => ?_
      cases ended with
      | error e => exact sat_thrown (Or.inl (hw.among (.failed e hk)))
      | ok _ => exact Sat.bind (sat_done (sat_done (Or.inr ⟨rfl, k, hk, hw⟩)))
    · cases hended
      refine Sat.andThen (owns_destroy (c := (R, among n l (Halted arg o.outPath))) conn' v hv
        |>.throws fun _ _ hx => Or.inl hx) fun _ w hw => ?_
      exact sat_thrown (Or.inr ⟨m, hm, hw.among (.failed e hk)⟩)

end parts

section command
variable {vars : String → Option Bytes} {fails : Prop} {R : Multiset Handle} {n : ℤ}
  {l : List Event} {s t : Process}

def PullEnds (args : List Bytes) (R : Multiset Handle) (n : ℤ) (l : List Event) (code : ℕ)
    (t : Process) : Prop :=
  t.Ends (R, n, fun l' => ∃ k, l' = l ++ k ∧ Pulled args code k) code

theorem PullEnds.nothing {args : List Bytes} {code : ℕ} (h : t.Has (R, after n l []))
    (hp : Pulled args code []) : PullEnds args R n l code t :=
  Or.inl (h.weaken fun _ hl => ⟨[], hl, hp⟩)

theorem runPullCli_sat (args : List Bytes) (hs : s.Has (R, after n l [])) :
    Sat (world vars fails) Sound (fun _ => Process.Has (R, after n l [])) (runPullCli args)
      (PullEnds args R n l) s := by
  cases args with
  | nil => exact sat_say_bind (sat_done (.nothing (hs.note rfl rfl) .usage))
  | cons arg args =>
    refine Sat.andThen (lift_sat hs) fun parsed t ht => ?_
    obtain ⟨hparse, ht⟩ := ht
    cases parsed with
    | help =>
      refine sat_say_bind (sat_done ?_)
      exact .nothing (ht.note rfl rfl) (.help hparse)
    | unknown flag =>
      refine sat_say_bind (sat_say_bind (sat_done ?_))
      exact .nothing ((ht.note rfl rfl).note rfl rfl) .refused
    | options o =>
      dsimp only
      split_ifs
      · refine sat_say_bind (sat_done ?_)
        exact .nothing (ht.note rfl rfl) .refused
      · refine Sat.andThen (owns_resolveTrackerUrl o.trackerUrl t ht) fun url u hu => ?_
        refine (caught_sat (pull_sat arg url o hu)).weaken ?_
        rintro code v ((⟨rfl, hv⟩ | ⟨rfl, k, hk, hv⟩) | ⟨rfl, hv⟩)
        · exact .nothing hv .refused
        · exact Or.inl (hv.weaken fun _ hl => ⟨_, hl, .done hparse hk⟩)
        · refine hv.weaken ?_
          rintro _ ⟨k, hk, rfl⟩
          exact ⟨k, rfl, .stopped hparse hk⟩

end command

/-- The token that is all zeros, and the process once the tracker has answered. -/
def zeros : Bytes := ascii "0000000000000000"

end Embr.Cli
