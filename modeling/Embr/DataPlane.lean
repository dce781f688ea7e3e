import Embr.Signals

/-!
# The data plane of a TCP connection

`send_file` and `recv_file` on a kernel that moves any part of what it is asked
for, is interrupted and fails as it likes. What a receive has taken from the
socket is in the file or still in the pipe.
-/

open Octets Interact
open Embr.System Embr.Reliable Embr.Signals
namespace Embr.DataPlane

def faulty (feed : World → Bytes) : (o : Op) → World → o.Reply → World → Prop
  | .send buf, s, r, s' =>
      connection feed (fun _ _ => True) (.send buf) s r s' ∨ (r = some 0 ∧ s' = s) ∨
        (r = none ∧ s.Refused s')
  | .recv len, s, r, s' =>
      connection feed (fun _ _ => True) (.recv len) s r s' ∨ (r = some [] ∧ s' = s) ∨
        (r = none ∧ s.Refused s')
  | .sendfile fd offset len, s, r, s' =>
      connection feed (fun _ _ => True) (.sendfile fd offset len) s r s' ∨ (r = some 0 ∧ s' = s) ∨
        (r = none ∧ s.Refused s')
  | .spliceIn len, s, r, s' =>
      connection feed (fun _ _ => True) (.spliceIn len) s r s' ∨ (r = some 0 ∧ s' = s) ∨
        (r = none ∧ s.Refused s')
  | _, _, _, _ => False

abbrev socket (feed : World → Bytes) : Env Os := kernel True (faulty feed)

theorem socket_mono {X Y : Bytes} (h : X <+: Y) (o : Op) (s : World) (r : o.Reply) (s' : World)
    (hr : socket (fun _ => X) o s r s') : socket (fun _ => Y) o s r s' := by
  cases o with
  | recv len =>
    refine hr.imp_left fun hr => ?_
    obtain ⟨bs, hne, hlen, hbs, rfl, rfl⟩ := hr
    exact ⟨bs, hne, hlen, hbs.trans (drop_isPrefix h _), rfl, rfl⟩
  | spliceIn len =>
    refine hr.imp_left fun hr => ?_
    obtain ⟨buf, bs, hbuf, hne, hlen, hbs, rfl, rfl⟩ := hr
    exact ⟨buf, bs, hbuf, hne, hlen, hbs.trans (drop_isPrefix h _), rfl, rfl⟩
  | _ => exact hr

/-- The pipe of `recv_file`: not there yet, or empty. -/
def Idle (s : World) : Prop := s.pipe = none ∨ s.pipe = some []

def Ordinary (e : Exc) (_ : World) : Prop := ∀ what, e ≠ .logicError what

def Fails : (o : Op) → o.Reply → World → Prop
  | .send _, r, s' => r = some 0 ∨ (r = none ∧ ¬ (s'.errno = EAGAIN ∨ s'.errno = EWOULDBLOCK))
  | .recv _, r, s' => r = some [] ∨ (r = none ∧ ¬ (s'.errno = EAGAIN ∨ s'.errno = EWOULDBLOCK))
  | .sendfile _ _ _, r, s' => r = some 0 ∨ (r = none ∧ s'.errno ≠ EINTR)
  | _, _, _ => False

/-- A socket on which a call fails only if `fails`. -/
def steady (fails : Prop) (feed : World → Bytes) : Env Os :=
  fun o s r s' => socket feed o s r s' ∧ (Fails o r s' → fails)

def Failed (fails : Prop) (e : Exc) (s : World) : Prop := Ordinary e s ∧ fails

variable {feed : World → Bytes} {Y : Bytes} {s t u : World} {fd : Path} {f buf : Bytes}
  {offset len : ℕ} {fails : Prop}

theorem steady_of_socket (o : Op) (s : World) (r : o.Reply) (s' : World)
    (h : socket feed o s r s') : steady True feed o s r s' := ⟨h, fun _ => trivial⟩

theorem retry_ordinary {E : Env Os} {I : Option Op → World → Prop} {σ β : Type} {what : String}
    {x : σ} {Q : σ ⊕ β → World → Prop} (hI : I none s) (hQ : Q (.inl x) s) :
    Sat E I Ordinary (retry what x) Q s := by
  refine sat_get_bind.mpr ⟨hI, ?_⟩
  split_ifs
  · exact sat_pure.mpr ⟨hI, hQ⟩
  · exact sat_raise.mpr ⟨hI, fun _ h => nomatch h⟩

theorem retry_failed {E : Env Os} {I : Option Op → World → Prop} {σ β : Type} {what : String}
    {x : σ} {Q : σ ⊕ β → World → Prop} (hI : I none s) (hQ : Q (.inl x) s)
    (hfails : s.errno ≠ EINTR → fails) : Sat E I (Failed fails) (retry what x) Q s := by
  refine sat_get_bind.mpr ⟨hI, ?_⟩
  split_ifs with herrno
  · exact sat_pure.mpr ⟨hI, hQ⟩
  · exact sat_raise.mpr ⟨hI, ⟨(fun _ h => nomatch h), hfails herrno⟩⟩

/-! ## Sending -/

/-- What a sender leaves behind that has put `bs` on the socket. -/
structure Put (s : World) (bs : Bytes) (u : World) : Prop where
  out : u.out = s.out ++ bs
  files : u.files = s.files
  read : u.read = s.read
  pipe : u.pipe = s.pipe

namespace Put
variable {a b : Bytes}

theorem nil (s : World) : Put s [] s := ⟨(List.append_nil _).symm, rfl, rfl, rfl⟩

theorem refused (h : Put s a t) (hu : t.Refused u) : Put s a u := by
  obtain ⟨e, rfl⟩ := hu
  exact ⟨h.out, h.files, h.read, h.pipe⟩

theorem put (h : Put s a t) (b : Bytes) : Put s (a ++ b) (t.put b) := by
  refine ⟨?_, h.files, h.read, h.pipe⟩
  rw [World.put, h.out, List.append_assoc]

theorem trans (h : Put s a t) (h' : Put t b u) : Put s (a ++ b) u := by
  refine ⟨?_, h'.files.trans h.files, h'.read.trans h.read, h'.pipe.trans h.pipe⟩
  rw [h'.out, h.out, List.append_assoc]

end Put

structure Putting (s : World) (bs : Bytes) (o : Option Op) (u : World) : Prop where
  lower : s.out <+: u.out
  upper : u.out <+: s.out ++ bs
  files : u.files = s.files
  read : u.read = s.read
  sends : ∀ n, o ≠ some (.recv n)

theorem Put.within {a b : Bytes} (h : Put s a u) (hab : a <+: b) : Putting s b none u := by
  refine ⟨?_, ?_, h.files, h.read, fun _ ho => nomatch ho⟩
  · rw [h.out]
    exact List.prefix_append ..
  · rw [h.out]
    exact (List.prefix_append_right_inj s.out).mpr hab

theorem Putting.asks {bs : Bytes} {o : Op} (h : Putting s bs none u) (ho : ∀ n, o ≠ .recv n) :
    Putting s bs (some o) u :=
  ⟨h.lower, h.upper, h.files, h.read, fun n heq => ho n (Option.some.inj heq)⟩

theorem Putting.mono {a b : Bytes} {o : Option Op} (h : Putting s a o u) (hab : a <+: b) :
    Putting s b o u :=
  ⟨h.lower, h.upper.trans ((List.prefix_append_right_inj s.out).mpr hab), h.files, h.read, h.sends⟩

theorem Put.next {a b : Bytes} {o : Option Op} (h : Put s a t) (hu : Putting t b o u) :
    Putting s (a ++ b) o u := by
  have hlower := hu.lower
  have hupper := hu.upper
  rw [h.out] at hlower hupper
  rw [List.append_assoc] at hupper
  exact ⟨(List.prefix_append ..).trans hlower, hupper, hu.files.trans h.files,
    hu.read.trans h.read, hu.sends⟩

theorem sendFile_steady (fd : Path) (offset len : ℕ) (s : World) :
    Sat (steady fails feed) (Putting s (slice ((s.files fd).getD []) offset len)) (Failed fails)
      (tcp.sendFile fd offset len)
      (fun _ u => Put s (slice ((s.files fd).getD []) offset len) u ∧
        (slice ((s.files fd).getD []) offset len).length = len) s := by
  generalize hf : (s.files fd).getD [] = f
  apply Sat.round (fun x u => x.1 + x.2 = offset + len ∧ offset ≤ x.1 ∧
    Put s (slice f offset (x.1 - offset)) u ∧ (slice f offset (x.1 - offset)).length = x.1 - offset)
  · rw [Nat.sub_self]
    exact ⟨rfl, le_rfl, .nil s, rfl⟩
  intro x u hx
  obtain ⟨pos, remain⟩ := x
  obtain ⟨hsum, hle, hu, hlen⟩ := hx
  dsimp only at hsum hle hu hlen
  have hhere : Putting s (slice f offset len) none u :=
    hu.within (List.take_prefix_take_left (by omega))
  refine ⟨hhere, ?_⟩
  dsimp only
  by_cases hpos : 0 < remain
  · rw [if_pos hpos]
    refine sat_ask_bind.mpr ⟨hhere.asks (fun _ h => nomatch h), fun r v hv => ?_⟩
    obtain ⟨hv, hfails⟩ := hv
    rcases hv with ⟨g, k, hg, hk, hkr, hkf, -, rfl, rfl⟩ | ⟨rfl, rfl⟩ | ⟨rfl, hv⟩
    · rw [hu.files] at hg
      have hgf : g = f := by
        rw [hg] at hf
        exact hf
      subst hgf
      have hcat : slice g offset (pos + k - offset) = slice g offset (pos - offset) ++ slice g pos k := by
        have hsplit : pos + k - offset = (pos - offset) + k := by omega
        have hstart : offset + (pos - offset) = pos := by omega
        rw [hsplit, slice_add, hstart]
      have hnew : Put s (slice g offset (pos + k - offset)) (u.put (slice g pos k)) := by
        rw [hcat]
        exact hu.put _
      simp only [if_neg (Nat.pos_iff_ne_zero.mp hk)]
      refine sat_pure.mpr ⟨hnew.within (List.take_prefix_take_left (by omega)), ?_, ?_, hnew, ?_⟩
      · dsimp only
        omega
      · dsimp only
        omega
      · change (slice g offset (pos + k - offset)).length = pos + k - offset
        rw [hcat, List.length_append, hlen, slice_length hkf]
        omega
    · exact sat_raise.mpr ⟨hhere, ⟨(fun _ h => nomatch h), hfails (.inl rfl)⟩⟩
    · have hback := hu.refused hv
      exact retry_failed (hback.within (List.take_prefix_take_left (by omega)))
        ⟨hsum, hle, hback, hlen⟩ fun herrno => hfails (.inr ⟨rfl, herrno⟩)
  · rw [if_neg hpos]
    have hend : pos - offset = len := by omega
    rw [hend] at hu hlen
    exact sat_pure.mpr ⟨hhere, hhere, hu, hlen⟩

theorem sendFile_sat (fd : Path) (offset len : ℕ) (s : World) :
    Sat (socket feed) (Putting s (slice ((s.files fd).getD []) offset len)) Ordinary
      (tcp.sendFile fd offset len)
      (fun _ u => Put s (slice ((s.files fd).getD []) offset len) u ∧
        (slice ((s.files fd).getD []) offset len).length = len) s :=
  ((sendFile_steady fd offset len s).env steady_of_socket).throws fun _ _ h => h.1

theorem sendExact_steady (buf : Bytes) (s : World) :
    Sat (steady fails feed) (Putting s buf) (Failed fails) (sendExact tcp buf)
      (fun _ u => Put s buf u) s := by
  apply Sat.round (fun sent u => sent ≤ buf.length ∧ Put s (buf.take sent) u)
  · exact ⟨Nat.zero_le _, .nil s⟩
  intro sent u hx
  obtain ⟨hle, hu⟩ := hx
  have hhere : Putting s buf none u := hu.within (List.take_prefix ..)
  refine ⟨hhere, ?_⟩
  by_cases hlt : sent < buf.length
  · rw [if_pos hlt]
    refine sat_ask_bind.mpr ⟨hhere.asks (fun _ h => nomatch h), fun r v hv => ?_⟩
    obtain ⟨hv, hfails⟩ := hv
    rcases hv with ⟨k, hk, hkl, -, rfl, rfl⟩ | ⟨rfl, rfl⟩ | ⟨rfl, hv⟩
    · rw [List.length_drop] at hkl
      have hcat : buf.take (sent + k) = buf.take sent ++ (buf.drop sent).take k := List.take_add
      have hnew : Put s (buf.take (sent + k)) (u.put ((buf.drop sent).take k)) := by
        rw [hcat]
        exact hu.put _
      simp only [if_neg (Nat.pos_iff_ne_zero.mp hk)]
      exact sat_pure.mpr ⟨hnew.within (List.take_prefix ..), by omega, hnew⟩
    · exact sat_raise.mpr ⟨hhere, ⟨(fun _ h => nomatch h), hfails (.inl rfl)⟩⟩
    · have hback := hu.refused hv
      have hthere : Putting s buf none v := hback.within (List.take_prefix ..)
      refine sat_get_bind.mpr ⟨hthere, ?_⟩
      split_ifs with herrno
      · exact sat_pure.mpr ⟨hthere, hle, hback⟩
      · exact sat_raise.mpr ⟨hthere, ⟨(fun _ h => nomatch h), hfails (.inr ⟨rfl, herrno⟩)⟩⟩
  · rw [if_neg hlt]
    rw [List.take_of_length_le (by omega)] at hu
    exact sat_pure.mpr ⟨hhere, hhere, hu⟩

theorem sendExact_sat (buf : Bytes) (s : World) :
    Sat (socket feed) (Putting s buf) Ordinary (sendExact tcp buf)
      (fun _ u => Put s buf u) s :=
  ((sendExact_steady buf s).env steady_of_socket).throws fun _ _ h => h.1

/-! ## Receiving -/

/-- `bs` over the bytes at `offset`; a file does not grow by writing nothing. -/
def overwrite (f : Bytes) (offset : ℕ) (bs : Bytes) : Bytes :=
  if bs = [] then f else writeAt f offset bs

theorem overwrite_nil (f : Bytes) (offset : ℕ) : overwrite f offset [] = f := if_pos rfl

theorem overwrite_overwrite (f : Bytes) (offset : ℕ) (a b : Bytes) :
    overwrite (overwrite f offset a) (offset + a.length) b = overwrite f offset (a ++ b) := by
  by_cases ha : a = []
  · subst ha
    rw [overwrite_nil, List.nil_append, List.length_nil, Nat.add_zero]
  by_cases hb : b = []
  · subst hb
    rw [overwrite_nil, List.append_nil]
  have hab : a ++ b ≠ [] := fun h => ha (List.append_eq_nil_iff.mp h).1
  simp only [overwrite, if_neg ha, if_neg hb, if_neg hab, writeAt_writeAt]

structure Taken (s : World) (fd : Path) (Y : Bytes) (offset : ℕ) (got rest : Bytes) (u : World) :
    Prop where
  files : u.files =
    Function.update s.files fd ((s.files fd).map fun f => overwrite f offset got)
  out : u.out = s.out
  read : u.read = s.read + (got ++ rest).length
  pipe : u.pipe = some rest
  part : got ++ rest <+: Y.drop s.read

namespace Taken
variable {got rest : Bytes}

theorem file (h : Taken s fd Y offset got rest u) :
    u.files fd = (s.files fd).map fun f => overwrite f offset got := by
  rw [h.files]
  exact Function.update_self ..

theorem refused (h : Taken s fd Y offset got rest t) (hu : t.Refused u) :
    Taken s fd Y offset got rest u := by
  obtain ⟨e, rfl⟩ := hu
  exact ⟨h.files, h.out, h.read, h.pipe, h.part⟩

theorem splice (h : Taken s fd Y offset got rest u) {k : ℕ} (hk : 0 < k) (hkl : k ≤ rest.length)
    (hg : u.files fd = some f) :
    Taken s fd Y offset (got ++ rest.take k) (rest.drop k)
      ((u.store fd (some (writeAt f (offset + got.length) (rest.take k)))).fill (rest.drop k)) := by
  have hsplit : (got ++ rest.take k) ++ rest.drop k = got ++ rest := by
    rw [List.append_assoc, List.take_append_drop]
  have htake : rest.take k ≠ [] := by
    apply List.ne_nil_of_length_pos
    rw [List.length_take]
    omega
  refine ⟨?_, h.out, ?_, rfl, ?_⟩
  · obtain ⟨f₀, hf₀, rfl⟩ := Option.map_eq_some_iff.mp (h.file.symm.trans hg)
    have hwrite : writeAt (overwrite f₀ offset got) (offset + got.length) (rest.take k) =
        overwrite f₀ offset (got ++ rest.take k) := by
      rw [← overwrite_overwrite, overwrite, overwrite, if_neg htake]
    change Function.update u.files fd _ = _
    rw [h.files, Function.update_idem, hwrite, hf₀]
    rfl
  · rw [hsplit]
    exact h.read
  · rw [hsplit]
    exact h.part

theorem fill (h : Taken s fd Y offset got [] u) {bs : Bytes} (hbs : bs <+: Y.drop u.read) :
    Taken s fd Y offset got bs ((u.fill bs).skip bs.length) := by
  have hread := h.read
  rw [List.append_nil] at hread
  refine ⟨h.files, h.out, ?_, rfl, ?_⟩
  · change u.read + bs.length = _
    rw [List.length_append]
    omega
  · have hpart := h.part
    rw [List.append_nil] at hpart
    rw [hread, ← List.drop_drop] at hbs
    exact append_isPrefix hpart hbs

end Taken

abbrev Silent (s : World) (_ : Option Op) (u : World) : Prop := u.out = s.out

theorem drainPipe_sat {got rest : Bytes} {pos n : ℕ} (h : Taken s fd Y offset got rest t)
    (hpos : pos = offset + got.length) (hn : n = rest.length) :
    Sat (socket fun _ => Y) (Silent s) Ordinary (TcpTransport.drainPipe fd pos n)
      (fun r u => r = offset + (got ++ rest).length ∧ Taken s fd Y offset (got ++ rest) [] u) t := by
  apply Sat.round (fun x u => ∃ a b, a ++ b = got ++ rest ∧ x.1 = offset + a.length ∧
    x.2 = b.length ∧ Taken s fd Y offset a b u)
  · exact ⟨got, rest, rfl, hpos, hn, h⟩
  intro x u hx
  obtain ⟨fileOffset, remainPipe⟩ := x
  obtain ⟨a, b, hab, hat, hleft, hu⟩ := hx
  dsimp only at hat hleft
  refine ⟨hu.out, ?_⟩
  dsimp only
  by_cases hmore : 0 < remainPipe
  · rw [if_pos hmore]
    refine sat_ask_bind.mpr ⟨hu.out, fun r v hv => ?_⟩
    rcases hv with ⟨buf, g, k, hbuf, hg, hk, hkr, hkb, rfl, rfl⟩ | ⟨-, rfl, rfl⟩ | ⟨-, rfl, hv⟩
    · rw [hu.pipe] at hbuf
      cases hbuf
      have hnew := hu.splice hk hkb hg
      rw [← hat] at hnew
      simp only [if_neg (Nat.pos_iff_ne_zero.mp hk)]
      refine sat_pure.mpr ⟨hu.out, _, _, ?_, ?_, ?_, hnew⟩
      · rw [List.append_assoc, List.take_append_drop, hab]
      · change fileOffset + k = _
        rw [List.length_append, List.length_take_of_le hkb]
        omega
      · change remainPipe - k = _
        rw [List.length_drop]
        omega
    · exact sat_raise.mpr ⟨hu.out, fun _ h => nomatch h⟩
    · have hback := hu.refused hv
      exact retry_ordinary hback.out ⟨a, b, hab, hat, hleft, hback⟩
  · rw [if_neg hmore]
    have hnil : b = [] := List.eq_nil_of_length_eq_zero (by omega)
    subst hnil
    rw [List.append_nil] at hab
    subst hab
    exact sat_pure.mpr ⟨hu.out, hu.out, hat, hu⟩

theorem openPipe_sat (Y : Bytes) (fd : Path) (offset : ℕ) (h : Idle s) :
    Sat (socket feed) (Silent s) Ordinary TcpTransport.openPipe
      (fun _ u => Taken s fd Y offset [] [] u) s := by
  have htaken : ∀ v : World, v.files = s.files → v.out = s.out → v.read = s.read →
      v.pipe = some [] → Taken s fd Y offset [] [] v := by
    intro v hfiles hout hread hpipe
    refine ⟨?_, hout, hread, hpipe, List.nil_prefix⟩
    rw [hfiles]
    cases hf : s.files fd with
    | none => exact (Function.update_eq_self_iff.mpr hf.symm).symm
    | some f => exact (Function.update_eq_self_iff.mpr hf.symm).symm
  refine sat_get_bind.mpr ⟨rfl, ?_⟩
  rcases h with hpipe | hpipe
  · rw [hpipe, if_neg (by simp)]
    refine sat_ask_bind.mpr ⟨rfl, fun r v hv => ?_⟩
    rcases hv with ⟨rfl, rfl⟩ | ⟨rfl, -, hv⟩
    · exact sat_pure.mpr ⟨rfl, htaken _ rfl rfl rfl rfl⟩
    · obtain ⟨e, rfl⟩ := hv
      exact sat_get_bind.mpr ⟨rfl, sat_raise.mpr ⟨rfl, fun _ h => nomatch h⟩⟩
  · rw [hpipe, if_pos (by simp)]
    exact sat_pure.mpr ⟨rfl, htaken _ rfl rfl rfl hpipe⟩

theorem recvFile_sat (fd : Path) (offset len : ℕ) (h : Idle s) :
    Sat (socket fun _ => Y) (Silent s) Ordinary (tcp.recvFile fd offset len)
      (fun _ u => ∃ got, got.length = len ∧ Taken s fd Y offset got [] u) s := by
  refine Sat.andThen (openPipe_sat Y fd offset h) fun _ t ht => ?_
  apply Sat.round (fun x u => ∃ got, x.1 = offset + got.length ∧ got.length + x.2 = len ∧
    Taken s fd Y offset got [] u)
  · exact ⟨[], rfl, Nat.zero_add _, ht⟩
  intro x u hx
  obtain ⟨fileOffset, remain⟩ := x
  obtain ⟨got, hat, hsum, hu⟩ := hx
  dsimp only at hat hsum
  refine ⟨hu.out, ?_⟩
  dsimp only
  by_cases hmore : 0 < remain
  · rw [if_pos hmore]
    refine sat_ask_bind.mpr ⟨hu.out, fun r v hv => ?_⟩
    rcases hv with ⟨buf, bs, hbuf, hne, hle, hbs, rfl, rfl⟩ | ⟨rfl, rfl⟩ | ⟨rfl, hv⟩
    · rw [hu.pipe] at hbuf
      cases hbuf
      have hpos : bs.length ≠ 0 := fun hnil => hne (List.eq_nil_of_length_eq_zero hnil)
      simp only [if_neg hpos]
      refine Sat.andThen (drainPipe_sat (hu.fill hbs) hat rfl) fun pos w hw => ?_
      obtain ⟨hend, hw⟩ := hw
      refine sat_pure.mpr ⟨hw.out, got ++ bs, hend, ?_, hw⟩
      rw [List.length_append]
      dsimp only
      omega
    · exact sat_raise.mpr ⟨hu.out, fun _ h => nomatch h⟩
    · have hback := hu.refused hv
      exact retry_ordinary hback.out ⟨got, hat, hsum, hback⟩
  · rw [if_neg hmore]
    exact sat_pure.mpr ⟨hu.out, hu.out, got, by omega, hu⟩

structure Got (s : World) (Y bs : Bytes) (u : World) : Prop where
  files : u.files = s.files
  out : u.out = s.out
  read : u.read = s.read + bs.length
  pipe : u.pipe = s.pipe
  part : bs <+: Y.drop s.read

def Taking (s : World) (Y : Bytes) (len : ℕ) (o : Option Op) (u : World) : Prop :=
  ∃ bs, bs.length ≤ len ∧ Got s Y bs u ∧ ∀ n, o = some (.recv n) → bs.length < len

theorem Got.taking {bs : Bytes} (h : Got s Y bs u) (hle : bs.length ≤ len) :
    Taking s Y len none u := ⟨bs, hle, h, fun _ ho => nomatch ho⟩

theorem recvExact_steady (len : ℕ) (s : World) :
    Sat (steady fails fun _ => Y) (Taking s Y len) (Failed fails) (recvExact tcp len)
      (fun bs u => bs.length = len ∧ Got s Y bs u) s := by
  apply Sat.round (fun received u => received.length ≤ len ∧ Got s Y received u)
  · exact ⟨Nat.zero_le _, rfl, rfl, rfl, rfl, List.nil_prefix⟩
  intro received u hx
  obtain ⟨hle, hu⟩ := hx
  have hhere := hu.taking hle
  refine ⟨hhere, ?_⟩
  by_cases hlt : received.length < len
  · rw [if_pos hlt]
    refine sat_ask_bind.mpr ⟨⟨received, hle, hu, fun _ _ => hlt⟩, fun r v hv => ?_⟩
    obtain ⟨hv, hfails⟩ := hv
    rcases hv with ⟨bs, hne, hlen, hbs, rfl, rfl⟩ | ⟨rfl, rfl⟩ | ⟨rfl, hv⟩
    · have hpos : bs.length ≠ 0 := fun hnil => hne (List.eq_nil_of_length_eq_zero hnil)
      have hnew : Got s Y (received ++ bs) (u.skip bs.length) := by
        refine ⟨hu.files, hu.out, ?_, hu.pipe, ?_⟩
        · change u.read + bs.length = _
          rw [hu.read, List.length_append, Nat.add_assoc]
        · rw [hu.read, ← List.drop_drop] at hbs
          exact append_isPrefix hu.part hbs
      have hsum : (received ++ bs).length ≤ len := by
        rw [List.length_append]
        omega
      simp only [if_neg hpos]
      exact sat_pure.mpr ⟨hnew.taking hsum, hsum, hnew⟩
    · exact sat_raise.mpr ⟨hhere, ⟨(fun _ h => nomatch h), hfails (.inl rfl)⟩⟩
    · obtain ⟨e, rfl⟩ := hv
      have hback : Got s Y received { u with errno := e } :=
        ⟨hu.files, hu.out, hu.read, hu.pipe, hu.part⟩
      refine sat_get_bind.mpr ⟨hback.taking hle, ?_⟩
      split_ifs with herrno
      · exact sat_pure.mpr ⟨hback.taking hle, hle, hback⟩
      · refine sat_raise.mpr ⟨hback.taking hle, ⟨(fun _ h => nomatch h), ?_⟩⟩
        exact hfails (.inr ⟨rfl, herrno⟩)
  · rw [if_neg hlt]
    exact sat_pure.mpr ⟨hhere, hhere, by omega, hu⟩

theorem recvExact_sat (len : ℕ) (s : World) :
    Sat (socket fun _ => Y) (Taking s Y len) Ordinary (recvExact tcp len)
      (fun bs u => bs.length = len ∧ Got s Y bs u) s :=
  ((recvExact_steady len s).env steady_of_socket).throws fun _ _ h => h.1

/-! ## One part after another -/

/-- What goes over a connection: a control message, or `len` bytes from a file at one end into a
file at the other. -/
inductive Part
  | message (bs : Bytes)
  | range (fd : Path) (offset : ℕ) (fd' : Path) (offset' : ℕ) (len : ℕ)

namespace Part

def length : Part → ℕ
  | message bs => bs.length
  | range _ _ _ _ len => len

/-- `G` are the files of the sender. -/
def bytes (G : Path → Option Bytes) : Part → Bytes
  | message bs => bs
  | range fd offset _ _ len => slice ((G fd).getD []) offset len

def control : Part → Option Bytes
  | message bs => some bs
  | range _ _ _ _ _ => none

/-- The files of the receiver after the part. -/
def copied (G F : Path → Option Bytes) : Part → Path → Option Bytes
  | message _ => F
  | range fd offset fd' offset' len =>
    Function.update F fd' ((F fd').map fun f =>
      overwrite f offset' (slice ((G fd).getD []) offset len))

def send : Part → Prog Os Unit
  | message bs => sendExact tcp bs
  | range fd offset _ _ len => tcp.sendFile fd offset len

def recv : Part → Prog Os (Option Bytes)
  | message bs => do
    let got ← recvExact tcp bs.length
    pure (some got)
  | range _ _ fd' offset' len => do
    tcp.recvFile fd' offset' len
    pure none

end Part

def sendParts : List Part → Prog Os Unit
  | [] => pure ()
  | p :: ps => do
    p.send
    sendParts ps

def recvParts : List Part → Prog Os (List Bytes)
  | [] => pure []
  | p :: ps => do
    let got ← p.recv
    let more ← recvParts ps
    pure (got.toList ++ more)

/-- All a sender can put on the socket: where a file is too short, the rest never follows. -/
def wire (G : Path → Option Bytes) : List Part → Bytes
  | [] => []
  | p :: ps => p.bytes G ++ if (p.bytes G).length = p.length then wire G ps else []

/-- The files of the receiver in the end. -/
def copies (G : Path → Option Bytes) : List Part → (Path → Option Bytes) → Path → Option Bytes
  | [], F => F
  | p :: ps, F => copies G ps (p.copied G F)

section parts
variable {G : Path → Option Bytes} {p : Part} {ps more : List Part}

theorem bytes_length_le (G : Path → Option Bytes) (p : Part) : (p.bytes G).length ≤ p.length := by
  cases p with
  | message bs => exact le_rfl
  | range fd offset fd' offset' len => exact List.length_take_le ..

theorem send_sat (p : Part) (hG : s.files = G) :
    Sat (socket feed) (Putting s (p.bytes G)) Ordinary p.send
      (fun _ u => Put s (p.bytes G) u ∧ (p.bytes G).length = p.length) s := by
  subst hG
  cases p with
  | message bs => exact (sendExact_sat bs s).weaken fun _ _ h => ⟨h, rfl⟩
  | range fd offset fd' offset' len => exact sendFile_sat fd offset len s

theorem sendParts_sat (ps : List Part) (hG : s.files = G) :
    Sat (socket feed) (Putting s (wire G ps)) Ordinary (sendParts ps)
      (fun _ u => Put s (wire G ps) u ∧ ∀ p ∈ ps, (p.bytes G).length = p.length) s := by
  induction ps generalizing s with
  | nil =>
    have hnil := Put.nil s
    exact sat_pure.mpr ⟨hnil.within List.nil_prefix, hnil, List.forall_mem_nil _⟩
  | cons p ps ih =>
    refine Sat.seq (send_sat p hG) (fun o u hu => ?_) fun _ u hu => ?_
    · exact hu.mono (List.prefix_append ..)
    obtain ⟨hput, hfits⟩ := hu
    rw [wire, if_pos hfits]
    refine (ih (hput.files.trans hG)).mono (fun _ _ _ _ h => h) (fun o v hv => ?_)
      (fun _ _ h => h) fun _ v hv => ?_
    · exact hput.next hv
    · exact ⟨hput.trans hv.1, List.forall_mem_cons.mpr ⟨hfits, hv.2⟩⟩

theorem wire_eq (h : ∀ p ∈ ps, (p.bytes G).length = p.length) :
    wire G ps = ps.flatMap (Part.bytes G) := by
  induction ps with
  | nil => rfl
  | cons p ps ih =>
    obtain ⟨hp, hps⟩ := List.forall_mem_cons.mp h
    rw [wire, if_pos hp, ih hps, List.flatMap_cons]

/-- What a receiver knows that has taken one part or several from the socket. -/
structure Arrived (s : World) (files : Path → Option Bytes) (n : ℕ) (u : World) : Prop where
  files : u.files = files
  out : u.out = s.out
  read : u.read = s.read + n
  idle : Idle u

theorem part_eq {got : Bytes} (hlen : got.length = p.length) (hgot : got <+: Y.drop s.read)
    (hY : Y.drop s.read = wire G (p :: ps)) :
    got = p.bytes G ∧ (p.bytes G).length = p.length := by
  rw [hY, wire] at hgot
  have hle := bytes_length_le G p
  have hfits : (p.bytes G).length = p.length := by
    by_contra hshort
    rw [if_neg hshort, List.append_nil] at hgot
    have hbound := hgot.length_le
    omega
  rw [if_pos hfits] at hgot
  have hpre : got <+: p.bytes G :=
    List.prefix_of_prefix_length_le hgot (List.prefix_append ..) (by omega)
  exact ⟨hpre.eq_of_length (by omega), hfits⟩

theorem recv_sat (hs : Idle s) (hY : Y.drop s.read = wire G (p :: ps)) :
    Sat (socket fun _ => Y) (Silent s) Ordinary p.recv
      (fun got u => got = p.control ∧ (p.bytes G).length = p.length ∧
        Arrived s (p.copied G s.files) p.length u) s := by
  cases p with
  | message bs =>
    refine Sat.seq (recvExact_sat bs.length s) (fun o u hu => ?_) fun got u hu => ?_
    · obtain ⟨got, -, hgot, -⟩ := hu
      exact hgot.out
    obtain ⟨hlen, hu⟩ := hu
    obtain ⟨heq, hfits⟩ := part_eq (p := .message bs) hlen hu.part hY
    refine sat_pure.mpr ⟨hu.out, congrArg some heq, hfits, hu.files, hu.out, ?_, ?_⟩
    · rw [hu.read, hlen]
      rfl
    · rw [Idle, hu.pipe]
      exact hs
  | range fd offset fd' offset' len =>
    refine Sat.andThen (recvFile_sat fd' offset' len hs) fun _ u hu => ?_
    obtain ⟨got, hlen, hu⟩ := hu
    have hpart := hu.part
    have hread := hu.read
    rw [List.append_nil] at hpart hread
    obtain ⟨heq, hfits⟩ := part_eq (p := .range fd offset fd' offset' len) hlen hpart hY
    subst heq
    refine sat_pure.mpr ⟨hu.out, rfl, hfits, hu.files, hu.out, ?_, Or.inr hu.pipe⟩
    rw [hread, hlen]
    rfl

theorem recvParts_sat (ps more : List Part) (hs : Idle s)
    (hY : Y.drop s.read = wire G (ps ++ more)) :
    Sat (socket fun _ => Y) (Silent s) Ordinary (recvParts ps)
      (fun got u => got = ps.filterMap Part.control ∧ (∀ p ∈ ps, (p.bytes G).length = p.length) ∧
        Arrived s (copies G ps s.files) (ps.map Part.length).sum u) s := by
  induction ps generalizing s with
  | nil => exact sat_pure.mpr ⟨rfl, rfl, List.forall_mem_nil _, rfl, rfl, rfl, hs⟩
  | cons p ps ih =>
    refine Sat.andThen (recv_sat hs hY) fun got u hu => ?_
    obtain ⟨hgot, hfits, hu⟩ := hu
    have hnext : Y.drop u.read = wire G (ps ++ more) := by
      rw [hu.read, ← List.drop_drop, hY, List.cons_append, wire, if_pos hfits, ← hfits,
        List.drop_left' rfl]
    refine Sat.seq (ih hu.idle hnext) (fun o v hv => hv.trans hu.out) fun got' v hv => ?_
    obtain ⟨hgot', hfits', hv⟩ := hv
    refine sat_pure.mpr ⟨hv.out.trans hu.out, ?_, List.forall_mem_cons.mpr ⟨hfits, hfits'⟩, ?_⟩
    · rw [hgot, hgot', List.filterMap_cons]
      cases p <;> rfl
    · refine ⟨?_, hv.out.trans hu.out, ?_, hv.idle⟩
      · rw [hv.files, hu.files]
        rfl
      · rw [hv.read, hu.read, List.map_cons, List.sum_cons, Nat.add_assoc]

/-- The kernel of one side, the other one being in the state `peer`. -/
abbrev facing (peer : World) : Env Os := socket fun _ => peer.out

theorem parts_sat (ps more : List Part) {s r : World} (hread : r.read = s.out.length)
    (hr : Idle r) {d : PairConfig Os Os Unit (List Bytes)}
    (h : PairReaches facing facing ((sendParts (ps ++ more), s), (recvParts ps, r)) d) :
    BothSat (socket fun _ => r.out) (socket fun _ => s.out ++ wire s.files (ps ++ more))
      (Putting s (wire s.files (ps ++ more))) (Silent r) Ordinary Ordinary
      (fun _ u => Put s (wire s.files (ps ++ more)) u ∧
        ∀ p ∈ ps ++ more, (p.bytes s.files).length = p.length)
      (fun got u => got = ps.filterMap Part.control ∧
        (∀ p ∈ ps, (p.bytes s.files).length = p.length) ∧
        Arrived r (copies s.files ps r.files) (ps.map Part.length).sum u) d := by
  have hcovers : Covers facing facing (socket fun _ => r.out)
      (socket fun _ => s.out ++ wire s.files (ps ++ more))
      (Putting s (wire s.files (ps ++ more))) (Silent r) := by
    refine ⟨fun _ _ _ t _ ht q v v' hv => ?_, fun _ u _ _ hu _ q v v' hv => ?_⟩
    · exact socket_mono (ht ▸ List.prefix_rfl) q _ v v' hv
    · exact socket_mono hu.upper q _ v v' hv
  have hwire : (s.out ++ wire s.files (ps ++ more)).drop r.read = wire s.files (ps ++ more) := by
    rw [hread, List.drop_left' rfl]
  exact BothSat.reaches hcovers ⟨sendParts_sat _ rfl, recvParts_sat ps more hr hwire⟩ h

/-- Whatever the kernel does, calls that return have moved exactly the bytes they were to move. -/
theorem tcp_data_plane :
    (∀ (Y : Bytes) (fd : Path) (offset len : ℕ) (s t : World) (f : Bytes), s.files fd = some f →
      Reaches (socket fun _ => Y) (tcp.sendFile fd offset len, s) (.ret (), t) →
      Put s (slice f offset len) t ∧ (slice f offset len).length = len) ∧
    (∀ (Y : Bytes) (fd : Path) (offset len : ℕ) (s t : World) (f : Bytes), s.files fd = some f →
      Idle s → Reaches (socket fun _ => Y) (tcp.recvFile fd offset len, s) (.ret (), t) →
      t.files = Function.update s.files fd (some (overwrite f offset (slice Y s.read len))) ∧
      (slice Y s.read len).length = len ∧ t.read = s.read + len ∧ t.pipe = some [] ∧
      t.out = s.out) ∧
    ∀ (ps more : List Part) (s r t u : World) (q : Prog Os Unit) (got : List Bytes),
      r.read = s.out.length → Idle r →
      PairReaches facing facing ((sendParts (ps ++ more), s), (recvParts ps, r))
        ((q, t), (.ret got, u)) →
      got = ps.filterMap Part.control ∧ (∀ p ∈ ps, (p.bytes s.files).length = p.length) ∧
      Arrived r (copies s.files ps r.files) (ps.map Part.length).sum u ∧
      (q = .ret () → Put s ((ps ++ more).flatMap (Part.bytes s.files)) t) := by
  refine ⟨fun Y fd offset len s t f hf h => ?_, fun Y fd offset len s t f hf hs h => ?_,
    fun ps more s r t u q got hread hr h => ?_⟩
  · have hput := (sendFile_sat fd offset len s).returned h
    rwa [hf] at hput
  · obtain ⟨bs, hlen, ht⟩ := (recvFile_sat fd offset len hs).returned h
    have hpart := ht.part
    have hread := ht.read
    rw [List.append_nil] at hpart hread
    have hbs : bs = slice Y s.read len := by
      rw [slice, ← hlen]
      exact List.prefix_iff_eq_take.mp hpart
    subst hbs
    refine ⟨?_, hlen, hlen ▸ hread, ht.pipe, ht.out⟩
    rw [ht.files, hf]
    rfl
  · have hsat := parts_sat ps more hread hr h
    obtain ⟨-, hgot, hfits, harrived⟩ := hsat.2
    refine ⟨hgot, hfits, harrived, fun hq => ?_⟩
    subst hq
    obtain ⟨-, hput, hall⟩ := hsat.1
    rwa [wire_eq hall] at hput

end parts

/-! Two bytes of a file between two messages. -/

def letter : List Part := [.message [1], .range [97] 1 [98] 0 2, .message [2]]

def sender : World := .init fun _ => some [7, 8, 9]

def receiver : World := .init fun _ => some [0, 0, 0]

section letter
variable {F : Path → Option Bytes} {O : Bytes} {R : ℕ} {V : List ℕ}

theorem socket_of_stream (o : Op) (s : World) (r : o.Reply) (s' : World)
    (h : stream feed o s r s') : socket feed o s r s' := by
  refine kernel_of_reliable trivial (fun o s r s' h => ?_) o s r s' h
  cases o with
  | send | recv | sendfile | spliceIn => exact Or.inl h
  | _ => exact h

theorem init_at (F : Path → Option Bytes) : At F [] 0 [] (.init F) :=
  ⟨rfl, rfl, rfl, rfl, Or.inl rfl⟩

theorem sendExact_at (h : At F O R V s) :
    Total (stream fun _ => Y) (Along fun _ _ _ => True) (fun _ u => At F (O ++ buf) R V u)
      (sendExact tcp buf) s :=
  sendExact_total (fun _ _ => trivial) (fun _ _ => trivial) (h.put buf)

theorem message_at (h : At F O R V s) (hlen : R + buf.length ≤ Y.length) :
    Total (stream fun _ => Y) (Along fun _ _ _ => True)
      (fun _ u => At F O (R + buf.length) V u) (Part.recv (.message buf)) s :=
  Total.bind (recvExact_total (fun _ => rfl) (h.read ▸ hlen) (fun _ _ => trivial)
    (fun _ _ => trivial) (total_pure.mpr ⟨trivial, h.skip buf.length⟩))

theorem range_at {src : Path} {pos : ℕ} (h : At F O R V s) (hf : F fd = some f)
    (hoff : offset ≤ f.length) (hlen : R + len ≤ Y.length) :
    Total (stream fun _ => Y) (Along fun _ _ _ => True)
      (fun _ u => At (Function.update F fd (some (writeAt f offset (slice Y R len)))) O (R + len) V u)
      (Part.recv (.range src pos fd offset len)) s := by
  refine Total.andThen ?_ fun _ u hu => total_pure.mpr ⟨trivial, hu⟩
  exact recvFile_at h hf hoff hlen (fun _ _ => trivial) fun _ _ => trivial

theorem letter_sent : ∃ t, t.out = [1, 8, 9, 2] ∧
    Reaches (facing receiver) (sendParts letter, sender) (.ret (), t) := by
  have hends : Total (stream fun _ => []) (Along fun _ _ _ => True)
      (fun _ u => u.out = [1, 8, 9, 2]) (sendParts letter) sender := by
    refine Total.andThen (sendExact_at (init_at _)) fun _ t ht => ?_
    have hrange : Total (stream fun _ => []) (Along fun _ _ _ => True) _
        (tcp.sendFile [97] 1 2) t :=
      sendFile_at ht rfl (by decide) (fun _ _ => trivial) fun _ _ => trivial
    refine Total.andThen hrange fun _ u hu => ?_
    refine Total.andThen (sendExact_at hu) fun _ v hv => ?_
    exact total_pure.mpr ⟨trivial, hv.out⟩
  obtain ⟨_, t, hrun, ht⟩ := hends.returns
  exact ⟨t, ht, hrun.mono socket_of_stream⟩

theorem letter_received {t : World} (ht : t.out = [1, 8, 9, 2]) : ∃ got u,
    Reaches (facing t) (recvParts letter, receiver) (.ret got, u) := by
  have hends : Total (stream fun _ => t.out) (Along fun _ _ _ => True) (fun _ _ => True)
      (recvParts letter) receiver := by
    rw [ht]
    refine Total.andThen (message_at (init_at _) (by decide)) fun _ u hu => Total.bind ?_
    refine Total.andThen (range_at hu rfl (by decide) (by decide)) fun _ v hv => Total.bind ?_
    refine Total.andThen (message_at hv (by decide)) fun _ _ _ => Total.bind ?_
    simp [recvParts, Along]
  obtain ⟨got, u, hrun, -⟩ := hends.returns
  exact ⟨got, u, hrun.mono socket_of_stream⟩

theorem tcp_data_plane_letter :
    ∃ t u got, PairReaches facing facing ((sendParts (letter ++ []), sender),
        (recvParts letter, receiver)) ((.ret (), t), (.ret got, u)) ∧
      got = [[1], [2]] ∧ u.files [98] = some [8, 9, 0] ∧ u.read = 4 := by
  obtain ⟨t, ht, hsent⟩ := letter_sent
  obtain ⟨got, u, hreceived⟩ := letter_received ht
  have hrun : PairReaches facing facing ((sendParts (letter ++ []), sender),
      (recvParts letter, receiver)) ((.ret (), t), (.ret got, u)) :=
    (PairReaches.left hsent).trans (PairReaches.right hreceived)
  obtain ⟨hgot, -, hu, -⟩ := tcp_data_plane.2.2 letter [] sender receiver t u (.ret ()) got rfl
    (Or.inl rfl) hrun
  refine ⟨t, u, got, hrun, hgot, ?_, hu.read⟩
  rw [hu.files]
  rfl

end letter

end Embr.DataPlane
