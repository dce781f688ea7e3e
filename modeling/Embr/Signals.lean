import Embr.Hostile
import Embr.Reliable

/-!
# Reads that signals interrupt

The reliable system again, except that a signal may interrupt any read, write or
transfer, any number of times. What a record holds decides what `load` answers.
-/

open Octets Interact
open Embr.System Embr.Protocol
namespace Embr.Signals

abbrev reliable (net : Env Os) : Env Os := kernel False net

def interrupted : (o : Op) → World → o.Reply → World → Prop
  | .sendfile _ _ _, s, r, s' => r = none ∧ s' = { s with errno := EINTR }
  | .spliceIn _, s, r, s' => r = none ∧ s' = { s with errno := EINTR }
  | .spliceOut _ _ _, s, r, s' => r = none ∧ s' = { s with errno := EINTR }
  | .read _ _, s, r, s' => r = none ∧ s' = { s with errno := EINTR }
  | .write _ _, s, r, s' => r = none ∧ s' = { s with errno := EINTR }
  | _, _, _, _ => False

def signalled (net : Env Os) : Env Os :=
  fun o s r s' => reliable net o s r s' ∨ interrupted o s r s'

theorem signalled_of_reliable {net : Env Os} (o : Op) (s : World) (r : o.Reply) (s' : World)
    (h : reliable net o s r s') : signalled net o s r s' := Or.inl h

theorem kernel_of_reliable {fails : Prop} {net net' : Env Os} (hf : fails)
    (hnet : ∀ o s r s', net o s r s' → net' o s r s') (o : Op) (s : World) (r : o.Reply) (s' : World)
    (h : reliable net o s r s') : kernel fails net' o s r s' := by
  cases o with
  | send | recv | sendfile | spliceIn => exact hnet _ _ _ _ h
  | print => exact h
  | pipe | openTrunc | ftruncate | read => exact h.imp_right fun h => ⟨h.1, hf, h.2.2⟩
  | openRead | openReadWrite | stat | mmap => exact h.imp_right fun h => ⟨h.1, Or.inl hf, h.2.2⟩
  | unlink => exact h.imp_right fun h => ⟨hf, h.2⟩
  | spliceOut => exact h.imp_right fun h => h.elim (fun h => h.1.elim) fun h => h.1.elim
  | write =>
    rcases h with ⟨f, k, h, hk, hpos, hr, hs⟩ | ⟨-, hfalse, -⟩
    · exact Or.inl ⟨f, k, h, hk, fun _ => hf, hr, hs⟩
    · exact hfalse.elim

variable {net : Env Os} {E : Env Os} {fails : Prop} {s s₀ : World} {fd out : Path} {f : Bytes}
  {len : ℕ}

structure Read (fails : Prop) (fd : Path) (f : Bytes) (len : ℕ) (s : World) (r : Except Exc Bytes)
    (u : World) : Prop where
  calm : Calm s u
  ok : ∀ bs, r = .ok bs → s.cursor fd + len ≤ f.length ∧ bs = slice f (s.cursor fd) len ∧
    u.cursor fd = s.cursor fd + len
  error : ∀ e, r = .error e → fails ∨ f.length < s.cursor fd + len

/-- A system whose files are what they are; `fails` says whether a call may fail all the same. -/
structure Reads (E : Env Os) (fails : Prop) : Prop where
  openRead : ∀ path s r s', E (.openRead path) s r s' →
    (r = true ∧ (s.files path).isSome ∧ s' = s.seek path 0) ∨
    (r = false ∧ (fails ∨ s.files path = none) ∧ s.Refused s')
  stat : ∀ path s r s', E (.stat path) s r s' →
    (∃ f, s.files path = some f ∧ r = some f.length ∧ s' = s) ∨
    (r = none ∧ (fails ∨ s.files path = none) ∧ s.Refused s')
  read : ∀ fd f len s, s.files fd = some f → s.cursor fd ≤ f.length →
    Sat E (fun _ _ => True) (fun _ _ => fails) (readExact fd len) (Read fails fd f len s) s

theorem readExact_signalled (hf : s.files fd = some f) (hcur : s.cursor fd ≤ f.length) :
    Sat (signalled net) (fun _ _ => True) (fun _ _ => False) (readExact fd len)
      (Read False fd f len s) s := by
  apply Sat.round (fun (buf : Bytes) (u : World) => Calm s u ∧ buf.length ≤ len ∧
    u.cursor fd = s.cursor fd + buf.length ∧ buf <+: f.drop (s.cursor fd))
  · exact ⟨.refl s, Nat.zero_le _, rfl, List.nil_prefix⟩
  intro buf u hx
  obtain ⟨hu, hle, hat, hpre⟩ := hx
  have hplen := hpre.length_le
  rw [List.length_drop] at hplen
  refine ⟨trivial, ?_⟩
  by_cases hlt : 0 < len - buf.length
  · rw [if_pos hlt]
    refine sat_ask_bind.mpr ⟨trivial, fun r v hv => ?_⟩
    rcases hv with (⟨g, bs, hg, hbs, hbl, heof, rfl, rfl⟩ | ⟨-, hfalse, -⟩) | ⟨rfl, rfl⟩
    · rw [hu.files, hf] at hg
      cases hg
      have hseek := hu.seek fd (u.cursor fd + bs.length)
      by_cases hzero : bs.length = 0
      · have heof := heof (List.eq_nil_of_length_eq_zero hzero)
        simp only [if_pos hzero]
        refine sat_pure.mpr ⟨trivial, trivial, hseek, (fun _ h => nomatch h), fun _ _ => ?_⟩
        right
        omega
      · simp only [if_neg hzero]
        refine sat_pure.mpr ⟨trivial, hseek, ?_, ?_, ?_⟩
        · rw [List.length_append]
          omega
        · rw [List.length_append, ← Nat.add_assoc, ← hat]
          exact Function.update_self ..
        · rw [hat, ← List.drop_drop] at hbs
          exact append_isPrefix hpre hbs
    · exact hfalse.elim
    · refine sat_get_bind.mpr ⟨trivial, ?_⟩
      rw [if_pos rfl]
      exact sat_pure.mpr ⟨trivial, ⟨hu.files, hu.trace⟩, hle, hat, hpre⟩
  · rw [if_neg hlt]
    have hlen : buf.length = len := by omega
    refine sat_pure.mpr ⟨trivial, trivial, hu, fun bs hbs => ?_, (fun _ h => nomatch h)⟩
    cases hbs
    refine ⟨by omega, ?_, hlen ▸ hat⟩
    rw [slice, ← hlen]
    exact List.prefix_iff_eq_take.mp hpre

theorem reads_signalled : Reads (signalled net) False where
  openRead _ _ _ _ h := by
    rcases h with h | h
    · exact h
    · exact h.elim
  stat _ _ _ _ h := by
    rcases h with h | h
    · exact h
    · exact h.elim
  read _ _ _ _ hf hcur := readExact_signalled hf hcur

theorem reads_rough : Reads rough True where
  openRead _ _ _ _ h := h
  stat _ _ _ _ h := h
  read fd f len s hf hcur := by
    refine ((readExact_sat hf len).inside fun _ _ _ => trivial).weaken fun r u h => ?_
    obtain ⟨hcalm, hok⟩ := h
    refine ⟨hcalm, fun bs hbs => ?_, fun _ _ => Or.inl trivial⟩
    obtain ⟨hlen, hat, hpre⟩ := hok bs hbs
    have hplen := hpre.length_le
    rw [List.length_drop] at hplen
    refine ⟨by omega, ?_, hat⟩
    rw [slice, ← hlen]
    exact List.prefix_iff_eq_take.mp hpre

theorem readExact_ends (hf : s.files fd = some f) :
    Total (reliable net) (fun _ _ => True) (fun _ u => u.files = s.files) (readExact fd len) s := by
  apply Total.round (fun (_ : Bytes) (u : World) => u.files = s.files)
    (fun buf _ => len - buf.length) rfl
  intro buf u hu
  have hfu : u.files fd = some f := by
    rw [hu]
    exact hf
  refine ⟨trivial, ?_⟩
  by_cases hlt : 0 < len - buf.length
  · rw [if_pos hlt]
    refine total_ask_bind.mpr ⟨trivial, ?_, fun r v hv => ?_⟩
    · refine ⟨some ((f.drop (u.cursor fd)).take (len - buf.length)), _,
        Or.inl ⟨f, _, hfu, List.take_prefix _ _, List.length_take_le _ _, fun hnil => ?_, rfl,
          rfl⟩⟩
      have hzero := congrArg List.length hnil
      rw [List.length_take, List.length_drop, List.length_nil] at hzero
      right
      omega
    rcases hv with ⟨g, bs, -, -, -, -, rfl, rfl⟩ | ⟨-, hfalse, -⟩
    · by_cases hzero : bs.length = 0
      · simp only [if_pos hzero]
        exact total_pure.mpr ⟨trivial, trivial, hu⟩
      · simp only [if_neg hzero]
        refine total_pure.mpr ⟨trivial, hu, ?_⟩
        rw [List.length_append]
        omega
    · exact hfalse.elim
  · rw [if_neg hlt]
    exact total_pure.mpr ⟨trivial, trivial, hu⟩

def Besides (fd : Path) (s u : World) : Prop :=
  (u.files fd).isSome ∧ ∀ path, path ≠ fd → u.files path = s.files path

theorem writeExact_ends {buf : Bytes} (hs : Besides fd s₀ s) :
    Total (reliable net) (fun _ _ => True) (fun _ u => Besides fd s₀ u) (writeExact fd buf) s := by
  apply Total.round (fun (_ : ℕ) (u : World) => Besides fd s₀ u)
    (fun offset _ => buf.length - offset) hs
  intro offset u hu
  obtain ⟨g, hg⟩ := Option.isSome_iff_exists.mp hu.1
  refine ⟨trivial, ?_⟩
  by_cases hlt : 0 < buf.length - offset
  · rw [if_pos hlt]
    refine total_ask_bind.mpr ⟨trivial, ?_, fun r v hv => ?_⟩
    · refine ⟨some 1, _, Or.inl ⟨g, 1, hg, ?_, (fun h => nomatch h), rfl, rfl⟩⟩
      rw [List.length_drop]
      omega
    rcases hv with ⟨g', k, -, -, hpos, rfl, rfl⟩ | ⟨-, hfalse, -⟩
    · have hkpos : 0 < k := Nat.pos_of_ne_zero fun hk => hpos hk
      refine total_pure.mpr ⟨trivial, ⟨?_, fun path hp => ?_⟩, by omega⟩
      · change (Function.update u.files fd _ fd).isSome
        rw [Function.update_self]
        rfl
      · change Function.update u.files fd _ path = _
        rw [Function.update_of_ne hp]
        exact hu.2 path hp
    · exact hfalse.elim
  · rw [if_neg hlt]
    exact total_pure.mpr ⟨trivial, trivial, hu⟩

end Embr.Signals
