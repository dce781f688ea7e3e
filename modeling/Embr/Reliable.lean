import Embr.Transfer

/-!
# The parts of a transfer on a reliable system

No call fails here, transfers and file operations still move any part of what
they were asked for, and `Y` is what arrives. Each part is specified by the
state it leaves behind. `K` is what the points of a run satisfy: it is told
whether the program is about to send, to receive or to do something else, how
much it has sent and how much it has read.
-/

open Octets Interact
open Embr.System Embr.Protocol
namespace Embr.Reliable

inductive Kind
  | silent | sends | receives

def kind : Option Op → Kind
  | some (.send _) => .sends
  | some (.sendfile _ _ _) => .sends
  | some (.recv _) => .receives
  | some (.spliceIn _) => .receives
  | _ => .silent

abbrev Along (K : Kind → Bytes → ℕ → Prop) (o : Option Op) (u : World) : Prop :=
  K (kind o) u.out u.read

/-- The chunks the sender has reported as sent, oldest first. -/
def served : List Event → List ℕ
  | [] => []
  | .line (.pushSentChunk chunk _) :: es => served es ++ [chunk]
  | _ :: es => served es

structure At (files : Path → Option Bytes) (out : Bytes) (read : ℕ) (chunks : List ℕ)
    (u : World) : Prop where
  files : u.files = files
  out : u.out = out
  read : u.read = read
  sent : served u.trace = chunks
  pipe : u.pipe = none ∨ u.pipe = some []

variable {K : Kind → Bytes → ℕ → Prop} {Y O : Bytes} {R : ℕ} {V : List ℕ}
  {F : Path → Option Bytes} {s u : World} {fd out : Path} {f : Bytes}

namespace At

theorem along (h : At F O R V s) {o : Option Op} (hK : K (kind o) O R) : Along K o s := by
  rw [Along, h.out, h.read]
  exact hK

theorem seek (h : At F O R V s) (path : Path) (pos : ℕ) : At F O R V (s.seek path pos) :=
  ⟨h.files, h.out, h.read, h.sent, h.pipe⟩

theorem refused (h : At F O R V s) (hu : s.Refused u) : At F O R V u := by
  obtain ⟨e, rfl⟩ := hu
  exact ⟨h.files, h.out, h.read, h.sent, h.pipe⟩

theorem store (h : At F O R V s) (path : Path) (g : Option Bytes) :
    At (Function.update F path g) O R V (s.store path g) := by
  refine ⟨?_, h.out, h.read, h.sent, h.pipe⟩
  rw [← h.files]
  rfl

theorem truncated (h : At F O R V s) (path : Path) : At F O R V (s.log (.truncated path)) :=
  ⟨h.files, h.out, h.read, h.sent, h.pipe⟩

theorem put (h : At F O R V s) (bs : Bytes) : At F (O ++ bs) R V (s.put bs) := by
  refine ⟨h.files, ?_, h.read, h.sent, h.pipe⟩
  rw [← h.out]
  rfl

theorem skip (h : At F O R V s) (n : ℕ) : At F O (R + n) V (s.skip n) := by
  refine ⟨h.files, h.out, ?_, h.sent, h.pipe⟩
  rw [← h.read]
  rfl

theorem line (h : At F O R V s) {l : Line} (hl : served [.line l] = []) :
    At F O R V (s.log (.line l)) := by
  refine ⟨h.files, h.out, h.read, ?_, h.pipe⟩
  rw [← h.sent]
  cases l with
  | pushSentChunk chunk total => cases hl
  | _ => rfl

theorem sentChunk (h : At F O R V s) (chunk total : ℕ) :
    At F O R (V ++ [chunk]) (s.log (.line (.pushSentChunk chunk total))) := by
  refine ⟨h.files, h.out, h.read, ?_, h.pipe⟩
  rw [← h.sent]
  rfl

end At

/-! ## Messages -/

theorem sendMsg_at {msg : Message} (h : At F O R V s)
    (hK : ∀ k ≤ (frame msg).length, K .silent (O ++ (frame msg).take k) R)
    (hsend : ∀ k < (frame msg).length, K .sends (O ++ (frame msg).take k) R) :
    Total (stream fun _ => Y) (Along K) (fun _ u => At F (O ++ frame msg) R V u)
      (sendMsg tcp msg) s := by
  apply sendMsg_total
  · intro k hk
    exact (h.put _).along (hK k hk)
  · intro k hk buf
    exact (h.put _).along (hsend k hk)
  · exact h.put _

theorem recvMsg_at {msg : Message} (h : At F O R V s) (hmsg : msg.Valid)
    (hpre : frame msg <+: Y.drop R)
    (hK : ∀ k ≤ (frame msg).length, K .silent O (R + k))
    (hrecv : ∀ k < (frame msg).length, K .receives O (R + k)) :
    Total (stream fun _ => Y) (Along K) (fun m u => m = msg ∧ At F O (R + (frame msg).length) V u)
      (recvMsg tcp) s := by
  apply recvMsg_total hmsg
  · exact fun _ => rfl
  · rw [h.read]
    exact hpre
  · intro k hk
    exact (h.skip k).along (hK k hk)
  · intro k hk len
    exact (h.skip k).along (hrecv k hk)
  · exact ⟨rfl, h.skip _⟩

theorem print_at {l : Line} (h : At F O R V s) (hl : served [.line l] = [])
    (hK : K .silent O R) :
    Total (stream fun _ => Y) (Along K) (fun _ u => At F O R V u) (sys (.print l)) s := by
  refine (total_ask (E := stream fun _ => Y) (o := .print l)).mpr ⟨h.along hK, ⟨(), _, rfl⟩, ?_⟩
  intro r u hu
  subst hu
  exact ⟨(h.line hl).along hK, h.line hl⟩

/-! ## Files sent and received -/

theorem sendFile_at {offset len : ℕ} (h : At F O R V s) (hf : F fd = some f)
    (hlen : offset + len ≤ f.length)
    (hK : ∀ k ≤ len, K .silent (O ++ slice f offset k) R)
    (hsend : ∀ k < len, K .sends (O ++ slice f offset k) R) :
    Total (stream fun _ => Y) (Along K) (fun _ u => At F (O ++ slice f offset len) R V u)
      (tcp.sendFile fd offset len) s := by
  apply Total.round
    (fun x u => x.1 + x.2 = offset + len ∧ offset ≤ x.1 ∧
      At F (O ++ slice f offset (x.1 - offset)) R V u)
    (fun x _ => x.2)
  · refine ⟨rfl, le_rfl, ?_⟩
    simpa [slice] using h
  intro x u hx
  obtain ⟨pos, remain⟩ := x
  obtain ⟨hsum, hle, hu⟩ := hx
  change pos + remain = _ at hsum
  change offset ≤ pos at hle
  have hlocal := hu.along (o := none) (hK _ (by omega))
  refine ⟨hlocal, ?_⟩
  change Total _ _ _ (if 0 < remain then _ else _) _
  by_cases hpos : 0 < remain
  · rw [if_pos hpos]
    apply total_ask_bind.mpr
    refine ⟨hu.along (hsend _ (by omega)), ?_, ?_⟩
    · refine ⟨some 1, _, f, 1, ?_, by omega, by omega, by omega, trivial, rfl, rfl⟩
      rw [hu.files]
      exact hf
    · intro r v hv
      obtain ⟨g, k, hg, hk, hkr, hkf, -, rfl, rfl⟩ := hv
      rw [hu.files, hf] at hg
      cases hg
      simp only [if_neg (Nat.pos_iff_ne_zero.mp hk)]
      have hnew : At F (O ++ slice f offset (pos + k - offset)) R V (u.put (slice f pos k)) := by
        have hcat : slice f offset (pos + k - offset) =
            slice f offset (pos - offset) ++ slice f pos k := by
          have hsplit : pos + k - offset = (pos - offset) + k := by omega
          have hstart : offset + (pos - offset) = pos := by omega
          rw [hsplit, slice_add, hstart]
        rw [hcat, ← List.append_assoc]
        exact hu.put _
      apply total_pure.mpr
      refine ⟨hnew.along (hK _ (by omega)), ⟨?_, ?_, hnew⟩, ?_⟩
      · change pos + k + (remain - k) = _
        omega
      · change offset ≤ pos + k
        omega
      · change remain - k < remain
        omega
  · rw [if_neg hpos]
    have hend : pos - offset = len := by omega
    rw [hend] at hu
    exact total_pure.mpr ⟨hlocal, hlocal, hu⟩

structure Filling (F : Path → Option Bytes) (fd : Path) (f Y O : Bytes) (R offset : ℕ)
    (V : List ℕ) (pos : ℕ) (rest : Bytes) (u : World) : Prop where
  files : u.files = Function.update F fd (some (writeAt f offset (slice Y R (pos - offset))))
  out : u.out = O
  read : u.read = R + (pos - offset) + rest.length
  sent : served u.trace = V
  pipe : u.pipe = some rest
  start : offset ≤ pos
  rest : rest = slice Y (R + (pos - offset)) rest.length

theorem drainPipe_at {offset len pos n : ℕ} {rest : Bytes}
    (h : Filling F fd f Y O R offset V pos rest s) (hn : rest.length = n)
    (hlen : pos + n ≤ offset + len) (havail : R + len ≤ Y.length)
    (hK : ∀ k ≤ len, K .silent O (R + k)) :
    Total (stream fun _ => Y) (Along K)
      (fun r u => r = pos + n ∧ Filling F fd f Y O R offset V r [] u)
      (TcpTransport.drainPipe fd pos n) s := by
  apply Total.round
    (fun x u => x.1 + x.2 = pos + n ∧ ∃ rest,
      rest.length = x.2 ∧ Filling F fd f Y O R offset V x.1 rest u)
    (fun x _ => x.2)
  · exact ⟨rfl, rest, hn, h⟩
  intro x u hx
  obtain ⟨pos', remain⟩ := x
  obtain ⟨hsum, rest, hrest, hu⟩ := hx
  change pos' + remain = _ at hsum
  change rest.length = remain at hrest
  have hstart := hu.start
  have hhere : ∀ o, kind o = .silent → Along K o u := by
    intro o ho
    rw [Along, ho, hu.out, hu.read]
    have hk := hK (pos' - offset + rest.length) (by omega)
    rwa [← Nat.add_assoc] at hk
  refine ⟨hhere none rfl, ?_⟩
  change Total _ _ _ (if 0 < remain then _ else _) _
  by_cases hpos : 0 < remain
  · rw [if_pos hpos]
    have hf : u.files fd = some (writeAt f offset (slice Y R (pos' - offset))) := by
      rw [hu.files]
      exact Function.update_self ..
    apply total_ask_bind.mpr
    refine ⟨hhere _ rfl, ?_, ?_⟩
    · exact ⟨some 1, _, Or.inl ⟨rest, _, 1, hu.pipe, hf, by omega, by omega, by omega, rfl, rfl⟩⟩
    intro r v hv
    rcases hv with ⟨buf, g, k, hbuf, hg, hk, hkr, hkb, rfl, rfl⟩ | ⟨hfalse, -⟩ | ⟨hfalse, -⟩
    · rw [hu.pipe] at hbuf
      cases hbuf
      rw [hf] at hg
      cases hg
      simp only [if_neg (Nat.pos_iff_ne_zero.mp hk)]
      have hread := hu.read
      have htake : rest.take k = slice Y (R + (pos' - offset)) k := by
        rw [hu.rest, slice, slice, List.take_take, Nat.min_eq_left (by omega)]
      have hdrop : rest.drop k = slice Y (R + (pos' + k - offset)) (rest.length - k) := by
        have hat : R + (pos' + k - offset) = R + (pos' - offset) + k := by omega
        rw [hat]
        nth_rewrite 1 [hu.rest]
        rw [slice, slice, List.drop_take, List.drop_drop]
      have hwrite : writeAt (writeAt f offset (slice Y R (pos' - offset))) pos' (rest.take k) =
          writeAt f offset (slice Y R (pos' + k - offset)) := by
        have hl : (slice Y R (pos' - offset)).length = pos' - offset :=
          slice_length (by omega)
        have hat : pos' = offset + (slice Y R (pos' - offset)).length := by omega
        have hsplit : pos' + k - offset = (pos' - offset) + k := by omega
        rw [htake, hsplit, slice_add, ← writeAt_writeAt, ← hat]
      have hnew : Filling F fd f Y O R offset V (pos' + k) (rest.drop k)
          ((u.store fd (some (writeAt (writeAt f offset (slice Y R (pos' - offset))) pos'
            (rest.take k)))).fill (rest.drop k)) := by
        refine ⟨?_, hu.out, ?_, hu.sent, rfl, by omega, ?_⟩
        · rw [hwrite]
          change Function.update u.files _ _ = _
          rw [hu.files, Function.update_idem]
        · change u.read = _
          rw [hread, List.length_drop]
          omega
        · rw [List.length_drop]
          exact hdrop
      have hlocal : Along K none ((u.store fd (some (writeAt
          (writeAt f offset (slice Y R (pos' - offset))) pos' (rest.take k)))).fill
          (rest.drop k)) := hhere none rfl
      apply total_pure.mpr
      refine ⟨hlocal, ⟨?_, _, ?_, hnew⟩, ?_⟩
      · change pos' + k + (remain - k) = _
        omega
      · change (rest.drop k).length = remain - k
        rw [List.length_drop]
        omega
      · change remain - k < remain
        omega
    · exact hfalse.elim
    · exact hfalse.elim
  · rw [if_neg hpos]
    have hnil : rest = [] := List.eq_nil_of_length_eq_zero (by omega)
    subst hnil
    have hend : pos' = pos + n := by
      rw [List.length_nil] at hrest
      omega
    exact total_pure.mpr ⟨hhere none rfl, hhere none rfl, hend, hu⟩

theorem openPipe_at (h : At F O R V s) (hK : K .silent O R) :
    Total (stream fun _ => Y) (Along K) (fun _ u => At F O R V u ∧ u.pipe = some [])
      TcpTransport.openPipe s := by
  apply total_get_bind.mpr
  refine ⟨h.along hK, ?_⟩
  rcases h.pipe with hpipe | hpipe
  · rw [hpipe, if_neg (by simp)]
    have hfill : At F O R V (s.fill []) :=
      ⟨h.files, h.out, h.read, h.sent, Or.inr rfl⟩
    apply total_ask_bind.mpr
    refine ⟨h.along hK, ⟨true, _, Or.inl ⟨rfl, rfl⟩⟩, ?_⟩
    intro r u hu
    rcases hu with ⟨rfl, rfl⟩ | ⟨-, hfalse, -⟩
    · exact total_pure.mpr ⟨hfill.along hK, hfill, rfl⟩
    · exact hfalse.elim
  · rw [hpipe, if_pos (by simp)]
    exact total_pure.mpr ⟨h.along hK, h, hpipe⟩

theorem recvFile_at {offset len : ℕ} (h : At F O R V s) (hf : F fd = some f)
    (hoff : offset ≤ f.length) (havail : R + len ≤ Y.length)
    (hK : ∀ k ≤ len, K .silent O (R + k)) (hrecv : ∀ k < len, K .receives O (R + k)) :
    Total (stream fun _ => Y) (Along K)
      (fun _ u => At (Function.update F fd (some (writeAt f offset (slice Y R len)))) O (R + len)
        V u) (tcp.recvFile fd offset len) s := by
  refine Total.andThen (openPipe_at h (hK 0 (Nat.zero_le _))) ?_
  intro _ t ht
  obtain ⟨ht, hpipe⟩ := ht
  apply Total.round
    (fun x u => x.1 + x.2 = offset + len ∧ Filling F fd f Y O R offset V x.1 [] u)
    (fun x _ => x.2)
  · refine ⟨rfl, ?_, ht.out, ?_, ht.sent, hpipe, le_rfl, by simp [slice]⟩
    · change t.files = Function.update F fd (some (writeAt f offset (slice Y R (offset - offset))))
      rw [Nat.sub_self, slice, List.take_zero, writeAt_nil hoff, ht.files, ← hf,
        Function.update_eq_self]
    · change t.read = R + (offset - offset) + 0
      rw [ht.read]
      omega
  intro x u hx
  obtain ⟨pos, remain⟩ := x
  obtain ⟨hsum, hu⟩ := hx
  change pos + remain = _ at hsum
  have hstart := hu.start
  have hread := hu.read
  rw [List.length_nil, Nat.add_zero] at hread
  change u.read = R + (pos - offset) at hread
  have hlocal : Along K none u := by
    rw [Along, hu.out, hread]
    exact hK _ (by omega)
  refine ⟨hlocal, ?_⟩
  change Total _ _ _ (if 0 < remain then _ else _) _
  change offset ≤ pos at hstart
  by_cases hpos : 0 < remain
  · rw [if_pos hpos]
    apply total_ask_bind.mpr
    refine ⟨?_, ?_, ?_⟩
    · change K .receives u.out u.read
      rw [hu.out, hread]
      exact hrecv _ (by omega)
    · refine ⟨some (slice Y u.read 1).length, _, [], slice Y u.read 1, hu.pipe, ?_, ?_, ?_, rfl,
        rfl⟩
      · apply List.ne_nil_of_length_pos
        rw [slice_length (by omega)]
        omega
      · rw [slice_length (by omega)]
        omega
      · exact List.take_prefix _ _
    intro r v hv
    obtain ⟨buf, bs, hbuf, hne, hbl, hpre, rfl, rfl⟩ := hv
    rw [hu.pipe] at hbuf
    cases hbuf
    have hbpos : 0 < bs.length := List.length_pos_of_ne_nil hne
    have hbs : bs = slice Y (R + (pos - offset)) bs.length := by
      rw [slice, ← hread]
      exact List.prefix_iff_eq_take.mp hpre
    have hfill : Filling F fd f Y O R offset V pos bs ((u.fill ([] ++ bs)).skip bs.length) := by
      refine ⟨hu.files, hu.out, ?_, hu.sent, rfl, hstart, hbs⟩
      change u.read + bs.length = _
      rw [hread]
    simp only [if_neg (Nat.pos_iff_ne_zero.mp hbpos)]
    refine Total.andThen (drainPipe_at hfill rfl (by omega) havail hK) ?_
    intro r w hw
    obtain ⟨rfl, hw⟩ := hw
    have hwread := hw.read
    rw [List.length_nil, Nat.add_zero] at hwread
    apply total_pure.mpr
    refine ⟨?_, ⟨?_, hw⟩, ?_⟩
    · rw [Along, hw.out, hwread]
      exact hK _ (by omega)
    · change pos + bs.length + (remain - bs.length) = _
      omega
    · change remain - bs.length < remain
      omega
  · rw [if_neg hpos]
    have hend : pos - offset = len := by omega
    have hfiles := hu.files
    change u.files = Function.update F fd (some (writeAt f offset (slice Y R (pos - offset))))
      at hfiles
    rw [hend] at hfiles hread
    exact total_pure.mpr ⟨hlocal, hlocal, hfiles, hu.out, hread, hu.sent, Or.inr hu.pipe⟩

/-! ## The record and the output -/

theorem readExact_at {len : ℕ} (h : At F O R V s) (hK : K .silent O R) (hf : F fd = some f)
    (hcur : s.cursor fd ≤ f.length) :
    Total (stream fun _ => Y) (Along K)
      (fun r u => At F O R V u ∧
        (s.cursor fd + len ≤ f.length →
          r = .ok (slice f (s.cursor fd) len) ∧ u.cursor fd = s.cursor fd + len) ∧
        (f.length < s.cursor fd + len → ∃ e, r = .error e))
      (readExact fd len) s := by
  apply Total.round
    (fun (buf : Bytes) (u : World) => At F O R V u ∧ buf.length ≤ len ∧
      u.cursor fd = s.cursor fd + buf.length ∧ buf <+: f.drop (s.cursor fd))
    (fun buf _ => len - buf.length)
  · exact ⟨h, Nat.zero_le _, rfl, List.nil_prefix⟩
  intro buf u hx
  obtain ⟨hu, hle, hat, hpre⟩ := hx
  have hfu : u.files fd = some f := by
    rw [hu.files]
    exact hf
  have hplen := hpre.length_le
  rw [List.length_drop] at hplen
  refine ⟨hu.along hK, ?_⟩
  by_cases hlt : 0 < len - buf.length
  · rw [if_pos hlt]
    apply total_ask_bind.mpr
    refine ⟨hu.along hK, ?_, ?_⟩
    · refine ⟨some ((f.drop (u.cursor fd)).take (len - buf.length)), _,
        Or.inl ⟨f, _, hfu, List.take_prefix _ _, List.length_take_le _ _, ?_, rfl, rfl⟩⟩
      intro hnil
      have hzero := congrArg List.length hnil
      rw [List.length_take, List.length_drop, List.length_nil] at hzero
      right
      omega
    intro r v hv
    rcases hv with ⟨g, bs, hg, hbs, hbl, heof, rfl, rfl⟩ | ⟨-, hfalse, -⟩
    · rw [hfu] at hg
      cases hg
      have hseek := hu.seek fd (u.cursor fd + bs.length)
      by_cases hzero : bs.length = 0
      · simp only [if_pos hzero]
        have heof := heof (List.eq_nil_of_length_eq_zero hzero)
        refine total_pure.mpr ⟨hseek.along hK, hseek.along hK, hseek, ?_, ?_⟩
        · intro hin
          omega
        · intro _
          exact ⟨_, rfl⟩
      · simp only [if_neg hzero]
        refine total_pure.mpr ⟨hseek.along hK, ⟨hseek, ?_, ?_, ?_⟩, ?_⟩
        · rw [List.length_append]
          omega
        · rw [List.length_append, ← Nat.add_assoc, ← hat]
          exact Function.update_self ..
        · rw [hat, ← List.drop_drop] at hbs
          exact append_isPrefix hpre hbs
        · rw [List.length_append]
          omega
    · exact hfalse.elim
  · rw [if_neg hlt]
    have hlen : buf.length = len := by omega
    refine total_pure.mpr ⟨hu.along hK, hu.along hK, hu, ?_, ?_⟩
    · intro _
      refine ⟨?_, hlen ▸ hat⟩
      rw [slice, ← hlen]
      exact congrArg _ (List.prefix_iff_eq_take.mp hpre)
    · intro hout
      omega

def loaded (files : Path → Option Bytes) (out : Path) (fileHash : Hash) (chunkCount : UInt32) :
    Option ChunkManager :=
  match files (PartialFile.pathFor out), files out with
  | some f, some g =>
    if f.take hashSize = fileHash.val ∧ g.length = chunkCount.toNat * chunkSize ∧
        hashSize + bitmapBytes chunkCount ≤ f.length then
      some (unpack chunkCount (slice f hashSize (bitmapBytes chunkCount)))
    else none
  | _, _ => none

theorem load_at {fileHash : Hash} {chunkCount : UInt32} (h : At F O R V s) (hK : K .silent O R) :
    Total (stream fun _ => Y) (Along K)
      (fun r u => r = loaded F out fileHash chunkCount ∧ At F O R V u)
      (PartialFile.load out fileHash chunkCount) s := by
  apply total_ask_bind.mpr
  cases hf : F (PartialFile.pathFor out) with
  | none =>
    have hfs : s.files (PartialFile.pathFor out) = none := by
      rw [h.files]
      exact hf
    refine ⟨h.along hK, ⟨false, _, Or.inr ⟨rfl, Or.inr hfs, 0, rfl⟩⟩, ?_⟩
    intro r u hu
    rcases hu with ⟨-, hsome, -⟩ | ⟨rfl, -, hu⟩
    · rw [hfs] at hsome
      cases hsome
    · rw [if_neg Bool.false_ne_true]
      refine total_pure.mpr ⟨(h.refused hu).along hK, ?_, h.refused hu⟩
      rw [loaded, hf]
  | some f =>
    have hfs : s.files (PartialFile.pathFor out) = some f := by
      rw [h.files]
      exact hf
    refine ⟨h.along hK, ⟨true, _, Or.inl ⟨rfl, hfs ▸ rfl, rfl⟩⟩, ?_⟩
    intro r u hu
    rcases hu with ⟨rfl, -, rfl⟩ | ⟨-, hnone, -⟩
    · have hseek := h.seek (PartialFile.pathFor out) 0
      have hcur : (s.seek (PartialFile.pathFor out) 0).cursor (PartialFile.pathFor out) = 0 :=
        Function.update_self ..
      rw [if_pos rfl]
      refine Total.andThen (readExact_at hseek hK hf (by rw [hcur]; exact Nat.zero_le _)) ?_
      intro r t ht
      obtain ⟨ht, hok, herr⟩ := ht
      rw [hcur, Nat.zero_add] at hok herr
      by_cases hshort : hashSize ≤ f.length
      · obtain ⟨rfl, hpos⟩ := hok hshort
        have htake : slice f 0 hashSize = f.take hashSize := rfl
        dsimp only
        rw [htake]
        by_cases hhash : f.take hashSize = fileHash.val
        · rw [if_neg (not_not.mpr hhash)]
          apply total_ask_bind.mpr
          cases hg : F out with
          | none =>
            have hgt : t.files out = none := by
              rw [ht.files]
              exact hg
            refine ⟨ht.along hK, ⟨none, _, Or.inr ⟨rfl, Or.inr hgt, 0, rfl⟩⟩, ?_⟩
            intro r v hv
            rcases hv with ⟨g, hg', -, -⟩ | ⟨rfl, -, hv⟩
            · rw [hgt] at hg'
              cases hg'
            · refine total_pure.mpr ⟨(ht.refused hv).along hK, ?_, ht.refused hv⟩
              rw [loaded, hf, hg]
          | some g =>
            have hgt : t.files out = some g := by
              rw [ht.files]
              exact hg
            refine ⟨ht.along hK, ⟨some g.length, _, Or.inl ⟨g, hgt, rfl, rfl⟩⟩, ?_⟩
            intro r v hv
            rcases hv with ⟨g', hg', rfl, rfl⟩ | ⟨-, hnone, -⟩
            · rw [hgt] at hg'
              cases hg'
              dsimp only
              by_cases hsize : g.length = chunkCount.toNat * chunkSize
              · rw [if_neg (not_not.mpr hsize)]
                refine Total.andThen (readExact_at ht hK hf (by rw [hpos]; exact hshort)) ?_
                intro r w hw
                obtain ⟨hw, hok', herr'⟩ := hw
                rw [hpos] at hok' herr'
                by_cases hlen : hashSize + bitmapBytes chunkCount ≤ f.length
                · obtain ⟨rfl, -⟩ := hok' hlen
                  refine total_pure.mpr ⟨hw.along hK, ?_, hw⟩
                  rw [loaded, hf, hg]
                  exact (if_pos ⟨hhash, hsize, hlen⟩).symm
                · obtain ⟨e, rfl⟩ := herr' (by omega)
                  refine total_pure.mpr ⟨hw.along hK, ?_, hw⟩
                  rw [loaded, hf, hg]
                  exact (if_neg (fun hall => hlen hall.2.2)).symm
              · rw [if_pos hsize]
                refine total_pure.mpr ⟨ht.along hK, ?_, ht⟩
                rw [loaded, hf, hg]
                exact (if_neg (fun hall => hsize hall.2.1)).symm
            · rcases hnone with hfalse | hnone
              · exact hfalse.elim
              · rw [hgt] at hnone
                cases hnone
        · rw [if_pos hhash]
          refine total_pure.mpr ⟨ht.along hK, ?_, ht⟩
          rw [loaded, hf]
          cases F out with
          | none => rfl
          | some g => exact (if_neg (fun hall => hhash hall.1)).symm
      · obtain ⟨e, rfl⟩ := herr (by omega)
        refine total_pure.mpr ⟨ht.along hK, ?_, ht⟩
        rw [loaded, hf]
        cases F out with
        | none => rfl
        | some g =>
          refine (if_neg (fun hall => hshort ?_)).symm
          have hle := hall.2.2
          omega
    · rcases hnone with hfalse | hnone
      · exact hfalse.elim
      · rw [hfs] at hnone
        cases hnone

theorem writeExact_at {buf : Bytes} (h : At F O R V s) (hK : K .silent O R) (hf : F fd = some f)
    (hcur : s.cursor fd = f.length) :
    Total (stream fun _ => Y) (Along K)
      (fun _ u => At (Function.update F fd (some (f ++ buf))) O R V u ∧
        u.cursor fd = (f ++ buf).length)
      (writeExact fd buf) s := by
  apply Total.round
    (fun offset (u : World) => offset ≤ buf.length ∧
      At (Function.update F fd (some (f ++ buf.take offset))) O R V u ∧
      u.cursor fd = f.length + offset)
    (fun offset _ => buf.length - offset)
  · refine ⟨Nat.zero_le _, ?_, hcur⟩
    rw [List.take_zero, List.append_nil, ← hf, Function.update_eq_self]
    exact h
  intro offset u hx
  obtain ⟨hle, hu, hat⟩ := hx
  refine ⟨hu.along hK, ?_⟩
  have hfu : u.files fd = some (f ++ buf.take offset) := by
    rw [hu.files]
    exact Function.update_self ..
  by_cases hlt : 0 < buf.length - offset
  · rw [if_pos hlt]
    apply total_ask_bind.mpr
    refine ⟨hu.along hK, ?_, ?_⟩
    · refine ⟨some 1, _, Or.inl ⟨_, 1, hfu, ?_, (fun h => nomatch h), rfl, rfl⟩⟩
      rw [List.length_drop]
      omega
    intro r v hv
    rcases hv with ⟨g, k, hg, hk, hpos, rfl, rfl⟩ | ⟨-, hfalse, -⟩
    · rw [hfu] at hg
      cases hg
      rw [List.length_drop] at hk
      have hkpos : 0 < k := Nat.pos_of_ne_zero fun hk => hpos hk
      have hwrite : writeAt (f ++ buf.take offset) (u.cursor fd) ((buf.drop offset).take k) =
          f ++ buf.take (offset + k) := by
        have hend : u.cursor fd = (f ++ buf.take offset).length := by
          rw [hat, List.length_append, List.length_take, Nat.min_eq_left hle]
        rw [hend, writeAt_end, List.append_assoc, List.take_add]
      have hnew : At (Function.update F fd (some (f ++ buf.take (offset + k)))) O R V
          ((u.store fd (some (writeAt (f ++ buf.take offset) (u.cursor fd)
            ((buf.drop offset).take k)))).seek fd (u.cursor fd + k)) := by
        rw [hwrite]
        have hstore := hu.store fd (some (f ++ buf.take (offset + k)))
        rw [Function.update_idem] at hstore
        exact hstore.seek _ _
      refine total_pure.mpr ⟨hnew.along hK, ⟨by omega, hnew, ?_⟩, by omega⟩
      rw [← Nat.add_assoc, ← hat]
      exact Function.update_self ..
    · exact hfalse.elim
  · rw [if_neg hlt]
    have hend : offset = buf.length := by omega
    subst hend
    rw [List.take_length] at hu
    refine total_pure.mpr ⟨hu.along hK, hu.along hK, hu, ?_⟩
    rw [hat, List.length_append]

theorem save_at {fileHash : Hash} {cm : ChunkManager} (h : At F O R V s) (hK : K .silent O R) :
    Total (stream fun _ => Y) (Along K)
      (fun _ u => At (Function.update F (PartialFile.pathFor out)
        (some (fileHash.val ++ pack cm.bitmap))) O R V u)
      (PartialFile.save out fileHash cm) s := by
  apply total_ask_bind.mpr
  refine ⟨h.along hK, ⟨true, _, Or.inl ⟨rfl, rfl⟩⟩, ?_⟩
  intro r u hu
  rcases hu with ⟨rfl, rfl⟩ | ⟨-, hfalse, -⟩
  · rw [if_pos rfl]
    have hempty := ((h.store (PartialFile.pathFor out) (some [])).seek
      (PartialFile.pathFor out) 0).truncated (PartialFile.pathFor out)
    have hcur : (((s.store (PartialFile.pathFor out) (some [])).seek (PartialFile.pathFor out)
        0).log (.truncated (PartialFile.pathFor out))).cursor (PartialFile.pathFor out) = 0 :=
      Function.update_self ..
    refine Total.andThen (writeExact_at hempty hK (Function.update_self ..) hcur) ?_
    intro _ t ht
    obtain ⟨ht, hpos⟩ := ht
    rw [Function.update_idem, List.nil_append] at ht
    rw [List.nil_append] at hpos
    refine (writeExact_at ht hK (Function.update_self ..) hpos).weaken ?_
    intro _ v hv
    have hdone := hv.1
    rwa [Function.update_idem] at hdone
  · exact hfalse.elim

theorem openOutput_at {m : FileMeta} {prior : Option ChunkManager} (h : At F O R V s)
    (hK : K .silent O R) (hprior : prior.isSome → (F out).isSome) :
    Total (stream fun _ => Y) (Along K)
      (fun cm u => cm = prior.getD (.new m.chunkCount) ∧
        At (if prior.isSome then F
          else Function.update F out (some (List.replicate m.fileSize.toNat 0))) O R V u)
      (openOutput out m prior) s := by
  cases prior with
  | some cm =>
    have hopen : (s.files out).isSome := by
      rw [h.files]
      exact hprior rfl
    apply total_ask_bind.mpr
    refine ⟨h.along hK, ⟨true, _, Or.inl ⟨rfl, hopen, rfl⟩⟩, ?_⟩
    intro r u hu
    rcases hu with ⟨rfl, -, rfl⟩ | ⟨-, hnone, -⟩
    · rw [if_pos rfl]
      exact total_pure.mpr ⟨(h.seek out 0).along hK, rfl, h.seek out 0⟩
    · rcases hnone with hfalse | hnone
      · exact hfalse.elim
      · rw [hnone] at hopen
        cases hopen
  | none =>
    apply total_ask_bind.mpr
    refine ⟨h.along hK, ⟨true, _, Or.inl ⟨rfl, rfl⟩⟩, ?_⟩
    intro r u hu
    rcases hu with ⟨rfl, rfl⟩ | ⟨-, hfalse, -⟩
    · have hempty := ((h.store out (some [])).seek out 0).truncated out
      have hfile : (((s.store out (some [])).seek out 0).log (.truncated out)).files out =
          some [] := World.store_self s out (some [])
      rw [if_pos rfl]
      apply total_ask_bind.mpr
      refine ⟨hempty.along hK, ⟨true, _, Or.inl ⟨[], hfile, rfl, rfl⟩⟩, ?_⟩
      intro r v hv
      rcases hv with ⟨f, hf, rfl, rfl⟩ | ⟨-, hfalse, -⟩
      · rw [hfile] at hf
        cases hf
        have hsized := hempty.store out (some (resize [] m.fileSize.toNat))
        have hzero : resize [] m.fileSize.toNat = List.replicate m.fileSize.toNat 0 := by
          simp [resize]
        rw [Function.update_idem] at hsized
        rw [if_pos rfl]
        refine total_pure.mpr ⟨hsized.along hK, rfl, ?_⟩
        rw [if_neg (by simp), ← hzero]
        exact hsized
      · exact hfalse.elim
    · exact hfalse.elim

end Embr.Reliable
