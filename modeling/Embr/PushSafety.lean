import Embr.DataPlane
import Embr.Delivery
import Embr.SizeLimit

/-!
# What a sender says to anybody

`run_push` facing a peer that sends any bytes at all. The answers to the
messages of the peer are a function of these messages, and the sender is never
ahead of what it has read.
-/

open Octets Interact
open Embr.System Embr.Protocol Embr.DataPlane Embr.Delivery
namespace Embr.PushSafety

def frames (msgs : List Message) : Bytes := (msgs.map frame).flatten

/-- `bs` are the frames of `msgs` and a part of one more, or of no frame at all. -/
structure Frames (bs : Bytes) (msgs : List Message) (part : Bytes) : Prop where
  bytes : bs = frames msgs ++ part
  valid : ∀ msg ∈ msgs, msg.Valid
  rest : ∀ msg : Message, msg.Valid → ¬ frame msg <+: part

def wanted (chunkCount : UInt32) : List Message → List ℕ
  | [] => []
  | msg :: msgs =>
    match parseChunkReq msg with
    | .ok chunkReq =>
      if chunkReq.chunkIndex < chunkCount then chunkReq.chunkIndex.toNat :: wanted chunkCount msgs
      else []
    | .error _ => []

/-- What the messages of a peer are answered with. -/
def response (m : FileMeta) (src : Bytes) : List Message → Bytes
  | [] => []
  | msg :: msgs =>
    match parseHandshake msg, makeFilemeta m with
    | .ok _, .ok metaMsg => frame metaMsg ++ answers src (wanted m.chunkCount msgs)
    | _, _ => []

variable {m : FileMeta} {src Y part : Bytes} {msgs msgs' : List Message} {msg metaMsg : Message}
  {n : UInt32} {s t u : World} {fails : Prop}

theorem frames_concat (msgs : List Message) (msg : Message) :
    frames (msgs ++ [msg]) = frames msgs ++ frame msg := by
  simp [frames]

theorem wanted_mono (h : msgs <+: msgs') : wanted n msgs <+: wanted n msgs' := by
  obtain ⟨more, rfl⟩ := h
  induction msgs with
  | nil => exact List.nil_prefix
  | cons msg msgs ih =>
    rw [List.cons_append, wanted, wanted]
    split
    · split_ifs
      · exact (List.prefix_cons_inj _).mpr ih
      · exact List.nil_prefix
    · exact List.nil_prefix

theorem answers_mono {ns ns' : List ℕ} (h : ns <+: ns') : answers src ns <+: answers src ns' := by
  obtain ⟨more, rfl⟩ := h
  rw [answers_append]
  exact List.prefix_append ..

theorem response_mono (h : msgs <+: msgs') : response m src msgs <+: response m src msgs' := by
  cases msgs with
  | nil => exact List.nil_prefix
  | cons msg msgs =>
    obtain ⟨more, rfl⟩ := h
    rw [List.cons_append, response, response]
    split
    · exact (List.prefix_append_right_inj _).mpr
        (answers_mono (wanted_mono (List.prefix_append ..)))
    · exact List.nil_prefix

def Asks (n : UInt32) (msgs : List Message) : Prop :=
  ∀ msg ∈ msgs, ∃ chunkReq, parseChunkReq msg = .ok chunkReq ∧ chunkReq.chunkIndex < n

theorem wanted_append (h : Asks n msgs) (more : List Message) :
    wanted n (msgs ++ more) = wanted n msgs ++ wanted n more := by
  induction msgs with
  | nil => rfl
  | cons msg msgs ih =>
    obtain ⟨hmsg, hmsgs⟩ := List.forall_mem_cons.mp h
    obtain ⟨chunkReq, hparse, hlt⟩ := hmsg
    simp only [List.cons_append, wanted, hparse, if_pos hlt, ih hmsgs]

theorem response_asks {hs : Message} {v : HandshakePayload} (hhs : parseHandshake hs = .ok v)
    (hmeta : makeFilemeta m = .ok metaMsg) (more : List Message) :
    response m src (hs :: more) = frame metaMsg ++ answers src (wanted m.chunkCount more) := by
  rw [response, hhs, hmeta]

/-! ## Where a run can be -/

structure Heard (Y : Bytes) (s : World) (msgs : List Message) (part : Bytes) (u : World) :
    Prop where
  read : u.read = s.read + (frames msgs ++ part).length
  bytes : frames msgs ++ part <+: Y.drop s.read
  valid : ∀ msg ∈ msgs, msg.Valid
  files : u.files = s.files

/-- A handshake, requests for chunks and the end. -/
def Complete (n : UInt32) (msgs : List Message) : Prop :=
  ∃ hs v reqs last, msgs = hs :: (reqs ++ [last]) ∧ parseHandshake hs = .ok v ∧ Asks n reqs ∧
    last.type = .complete

def Unwelcome (n : UInt32) (msgs : List Message) : Prop :=
  (∃ hs, msgs = [hs] ∧ ∀ v, parseHandshake hs ≠ .ok v) ∨
    ∃ hs v reqs last, msgs = hs :: (reqs ++ [last]) ∧ parseHandshake hs = .ok v ∧ Asks n reqs ∧
      last.type ≠ .complete ∧ ¬ Asks n [last]

def Malformed (part : Bytes) : Prop := ∀ msg : Message, msg.Valid → ¬ part <+: frame msg

/-- What was read cannot be the beginning of a proper conversation. -/
def Rejected (n : UInt32) (Y : Bytes) (s u : World) : Prop :=
  ∃ msgs part, Heard Y s msgs part u ∧ (Malformed part ∨ part = [] ∧ Unwelcome n msgs)

def Refuses (fails : Prop) (n : UInt32) (Y : Bytes) (s : World) (e : Exc) (u : World) : Prop :=
  Ordinary e u ∧ (fails ∨ Rejected n Y s u)

def Point (m : FileMeta) (src Y : Bytes) (s : World) (o : Option Op) (u : World) : Prop :=
  ∃ msgs part, Heard Y s msgs part u ∧ (∀ msg : Message, msg.Valid → ¬ frame msg <+: part) ∧
    s.out ++ response m src msgs.dropLast <+: u.out ∧ u.out <+: s.out ++ response m src msgs ∧
    ∀ len, o = some (.recv len) → u.out = s.out ++ response m src msgs

theorem no_frame : ∀ msg : Message, msg.Valid → ¬ frame msg <+: [] := by
  intro msg _ h
  have hpos := frame_pos msg
  have hlen := h.length_le
  rw [List.length_nil] at hlen
  omega

theorem Heard.concat (h : Heard Y s msgs (frame msg) u) (hmsg : msg.Valid) :
    Heard Y s (msgs ++ [msg]) [] u := by
  have heq : frames (msgs ++ [msg]) ++ [] = frames msgs ++ frame msg := by
    rw [List.append_nil, frames_concat]
  refine ⟨heq ▸ h.read, heq ▸ h.bytes, fun msg' hmsg' => ?_, h.files⟩
  rcases List.mem_append.mp hmsg' with hold | hnew
  · exact h.valid msg' hold
  · rw [List.mem_singleton.mp hnew]
    exact hmsg

theorem Heard.point {o : Option Op} (h : Heard Y s msgs part u)
    (hout : u.out = s.out ++ response m src msgs)
    (hone : ∀ msg : Message, msg.Valid → frame msg <+: part → frame msg = part)
    (hrecv : ∀ len, o = some (.recv len) → ∀ msg : Message, msg.Valid → ¬ frame msg <+: part) :
    Point m src Y s o u := by
  by_cases hwhole : ∃ msg : Message, msg.Valid ∧ frame msg <+: part
  · obtain ⟨msg, hmsg, hpre⟩ := hwhole
    have heq := hone msg hmsg hpre
    subst heq
    refine ⟨msgs ++ [msg], [], h.concat hmsg, no_frame, ?_, ?_, fun len ho => ?_⟩
    · rw [List.dropLast_concat, hout]
    · rw [hout]
      exact (List.prefix_append_right_inj _).mpr (response_mono (List.prefix_append ..))
    · exact absurd hpre (hrecv len ho msg hmsg)
  · refine ⟨msgs, part, h, fun msg hmsg hpre => hwhole ⟨msg, hmsg, hpre⟩, ?_, ?_, fun _ _ => hout⟩
    · rw [hout]
      exact (List.prefix_append_right_inj _).mpr (response_mono (List.dropLast_prefix _))
    · rw [hout]

theorem Heard.answered (h : Heard Y s msgs [] u) (hout : u.out = s.out ++ response m src msgs) :
    Point m src Y s none u :=
  h.point hout (fun msg hmsg hpre => absurd hpre (no_frame msg hmsg)) (by rintro _ ⟨⟩)

theorem Heard.prints (h : Heard Y s msgs [] u) (hout : u.out = s.out ++ response m src msgs)
    (line : Line) : Point m src Y s (some (.print line)) u :=
  h.point hout (fun msg hmsg hpre => absurd hpre (no_frame msg hmsg)) (by rintro _ ⟨⟩)

theorem Heard.put {bs : Bytes} (h : Heard Y s msgs part t) (hu : Put t bs u) :
    Heard Y s msgs part u :=
  ⟨hu.read.trans h.read, h.bytes, h.valid, hu.files.trans h.files⟩

theorem Heard.answering {o : Option Op} {bs : Bytes} (h : Heard Y s (msgs ++ [msg]) [] t)
    (hout : t.out = s.out ++ response m src msgs)
    (hbs : response m src msgs ++ bs = response m src (msgs ++ [msg])) (hu : Putting t bs o u) :
    Point m src Y s o u := by
  refine ⟨msgs ++ [msg], [], ⟨hu.read.trans h.read, h.bytes, h.valid, hu.files.trans h.files⟩,
    no_frame, ?_, ?_, fun len ho => absurd ho (hu.sends len)⟩
  · rw [List.dropLast_concat, ← hout]
    exact hu.lower
  · rw [← hbs, ← List.append_assoc, ← hout]
    exact hu.upper

/-! ## One message -/

theorem toByte_ofByte {b : UInt8}
    (h : ¬ (b < MsgType.toByte .handshake ∨ MsgType.toByte .cancel < b)) :
    (MsgType.ofByte b).toByte = b ∧ MsgType.ofByte b ≠ .invalid := by
  obtain ⟨hlo, hhi⟩ := not_or.mp h
  have hlo' : 1 ≤ b.toNat := UInt8.le_iff_toNat_le.mp (UInt8.not_lt.mp hlo)
  have hhi' : b.toNat ≤ 8 := UInt8.le_iff_toNat_le.mp (UInt8.not_lt.mp hhi)
  have hb : UInt8.ofNat b.toNat = b := UInt8.ofNat_toNat
  rw [← hb]
  generalize b.toNat = k at hlo' hhi'
  interval_cases k <;> decide

theorem header_of {hdr payload : Bytes} (hlen : hdr.length = HEADER_SIZE)
    (hversion : hdr.getD 0 0 = PROTOCOL_VERSION)
    (htype : ¬ (hdr.getD 1 0 < MsgType.toByte .handshake ∨
      MsgType.toByte .cancel < hdr.getD 1 0))
    (hpayload : payload.length = ofBE (slice hdr 2 4)) :
    header ⟨.ofByte (hdr.getD 1 0), payload⟩ = hdr := by
  match hdr, hlen with
  | [a, b, c, d, e, f], _ =>
    have hput : putU32 (UInt32.ofNat payload.length) = [c, d, e, f] := by
      have hlt : ofBE [c, d, e, f] < 2 ^ 32 := (ofBE_lt [c, d, e, f]).trans_eq (by simp)
      change payload.length = ofBE [c, d, e, f] at hpayload
      rw [putU32, hpayload, UInt32.toNat_ofNat_of_lt' hlt]
      exact be_ofBE [c, d, e, f]
    have hbyte : (MsgType.ofByte b).toByte = b := (toByte_ofByte htype).1
    change PROTOCOL_VERSION :: (MsgType.ofByte b).toByte :: putU32 _ = _
    rw [hput, hbyte, ← hversion]
    rfl

theorem frame_length_of {hdr got : Bytes} (hlen : hdr.length = HEADER_SIZE) (hmsg : msg.Valid)
    (h : frame msg <+: hdr ++ got) : (frame msg).length = HEADER_SIZE + ofBE (slice hdr 2 4) := by
  have hhdr : header msg = hdr := by
    refine (List.prefix_of_prefix_length_le ((List.prefix_append ..).trans h)
      (List.prefix_append ..) ?_).eq_of_length ?_
    · rw [header_length, hlen]
    · rw [header_length, hlen]
  rw [frame_length, ← hhdr, header_payloadLen hmsg.2]

theorem header_parts {hdr : Bytes} (hlen : hdr.length = HEADER_SIZE) (hmsg : msg.Valid)
    (h : hdr <+: frame msg) : hdr.getD 0 0 = PROTOCOL_VERSION ∧
      ¬ (hdr.getD 1 0 < MsgType.toByte .handshake ∨ MsgType.toByte .cancel < hdr.getD 1 0) ∧
      ofBE (slice hdr 2 4) ≤ MAX_PAYLOAD_SIZE := by
  have hhdr : hdr = header msg :=
    (List.prefix_of_prefix_length_le h (List.prefix_append ..)
      (by rw [header_length, hlen])).eq_of_length (by rw [header_length, hlen])
  subst hhdr
  refine ⟨rfl, ?_, ?_⟩
  · obtain ⟨type, payload⟩ := msg
    change ¬ (type.toByte < _ ∨ _ < type.toByte)
    cases type with
    | invalid => exact absurd rfl hmsg.1
    | _ => decide
  · rw [header_payloadLen hmsg.2]
    exact hmsg.2

theorem Heard.got {bs : Bytes} (h : Heard Y s msgs part t) (hu : Got t Y bs u) :
    Heard Y s msgs (part ++ bs) u := by
  have hbs := hu.part
  have hread := hu.read
  rw [h.read, ← List.drop_drop] at hbs
  refine ⟨?_, ?_, h.valid, hu.files.trans h.files⟩
  · rw [hread, h.read, ← List.append_assoc, Nat.add_assoc]
    exact congrArg (s.read + ·) List.length_append.symm
  · rw [← List.append_assoc]
    exact append_isPrefix h.bytes hbs

/-- A read that stops where every message that begins so may end. -/
theorem recvPart_sat {len : ℕ} (h : Heard Y s msgs part t)
    (hout : t.out = s.out ++ response m src msgs)
    (hlen : ∀ (bs : Bytes) (msg : Message), msg.Valid → frame msg <+: part ++ bs →
      part.length + len ≤ (frame msg).length) :
    Sat (steady fails fun _ => Y) (Point m src Y s) (Refuses fails n Y s) (recvExact tcp len)
      (fun bs u => bs.length = len ∧ Heard Y s msgs (part ++ bs) u ∧ u.out = t.out ∧
        Point m src Y s none u) t := by
  have hpoint : ∀ {o : Option Op} {bs : Bytes} {u : World}, bs.length ≤ len → Got t Y bs u →
      (∀ k, o = some (.recv k) → bs.length < len) → Point m src Y s o u := by
    intro o bs u hle hbs hrecv
    refine (h.got hbs).point (hbs.out.trans hout) (fun msg hmsg hpre => ?_)
      fun k ho msg hmsg hpre => ?_
    · have hfull := hlen bs msg hmsg hpre
      have hbound := hpre.length_le
      rw [List.length_append] at hbound
      refine hpre.eq_of_length ?_
      rw [List.length_append]
      omega
    · have hlt := hrecv k ho
      have hfull := hlen bs msg hmsg hpre
      have hbound := hpre.length_le
      rw [List.length_append] at hbound
      omega
  have hsat : Sat (steady fails fun _ => Y) _ (Refuses fails n Y s) _ _ t :=
    (recvExact_steady len t).throws fun _ _ hx => ⟨hx.1, .inl hx.2⟩
  refine (hsat.inside fun o u hu => ?_).weaken fun bs u hu => ?_
  · obtain ⟨bs, hle, hbs, hrecv⟩ := hu
    exact hpoint hle hbs hrecv
  · exact ⟨hu.1, h.got hu.2, hu.2.out, hpoint hu.1.le hu.2 (by rintro _ ⟨⟩)⟩

theorem frame_of {hdr payload : Bytes} (hlen : hdr.length = HEADER_SIZE)
    (hversion : hdr.getD 0 0 = PROTOCOL_VERSION)
    (htype : ¬ (hdr.getD 1 0 < MsgType.toByte .handshake ∨
      MsgType.toByte .cancel < hdr.getD 1 0))
    (hpayload : payload.length = ofBE (slice hdr 2 4)) :
    frame ⟨.ofByte (hdr.getD 1 0), payload⟩ = hdr ++ payload := by
  rw [frame, header_of hlen hversion htype hpayload]

theorem recvMsg_sat (h : Heard Y s msgs [] t) (hout : t.out = s.out ++ response m src msgs) :
    Sat (steady fails fun _ => Y) (Point m src Y s) (Refuses fails n Y s) (recvMsg tcp)
      (fun msg u => Heard Y s (msgs ++ [msg]) [] u ∧ u.out = t.out) t := by
  refine Sat.andThen (recvPart_sat h hout fun bs msg _ _ => ?_) fun hdr u hu => ?_
  · have hlen := frame_length msg
    rw [List.length_nil]
    omega
  obtain ⟨hlen, hhdr, hsame, hhere⟩ := hu
  rw [List.nil_append] at hhdr
  have hmalformed : ∀ e : Exc, Ordinary e u → Malformed hdr → Sat (steady fails fun _ => Y)
      (Point m src Y s) (Refuses fails n Y s) (.raise e)
      (fun msg u => Heard Y s (msgs ++ [msg]) [] u ∧ u.out = t.out) u :=
    fun e he h => sat_raise.mpr ⟨hhere, he, .inr ⟨msgs, hdr, hhdr, .inl h⟩⟩
  dsimp only
  split_ifs with hversion htype hmax hpos
  · refine hmalformed _ (by rintro _ ⟨⟩) fun msg hmsg hpre => ?_
    exact hversion (header_parts hlen hmsg hpre).1
  · refine hmalformed _ (by rintro _ ⟨⟩) fun msg hmsg hpre => ?_
    exact (header_parts hlen hmsg hpre).2.1 htype
  · refine hmalformed _ (by rintro _ ⟨⟩) fun msg hmsg hpre => ?_
    exact absurd (header_parts hlen hmsg hpre).2.2 (Nat.not_le.mpr hmax)
  · refine Sat.andThen (recvPart_sat hhdr (hsame.trans hout) fun got msg hmsg hpre => ?_)
      fun payload v hv => ?_
    · rw [hlen, frame_length_of hlen hmsg hpre]
    · obtain ⟨hpayload, hv, hsame', hthere⟩ := hv
      have hvalid : Message.Valid ⟨.ofByte (hdr.getD 1 0), payload⟩ := by
        refine ⟨(toByte_ofByte htype).2, ?_⟩
        change payload.length ≤ _
        omega
      rw [← frame_of hlen (not_not.mp hversion) htype hpayload] at hv
      exact sat_pure.mpr ⟨hthere, hv.concat hvalid, hsame'.trans hsame⟩
  · have hzero : ([] : Bytes).length = ofBE (slice hdr 2 4) := by
      rw [List.length_nil]
      omega
    rw [← List.append_nil hdr, ← frame_of hlen (not_not.mp hversion) htype hzero] at hhdr
    exact sat_pure.mpr ⟨hhere, hhdr.concat ⟨(toByte_ofByte htype).2, Nat.zero_le _⟩, hsame⟩

/-! ## One answer -/

structure Serves (size : ℕ) (link : Transport Os) : Prop where
  send : link.send = tcp.send
  recv : link.recv = tcp.recv
  errno : link.errno = tcp.errno
  sendFile : ∀ fd offset len, 1 ≤ len → len ≤ chunkSize → offset + len ≤ size →
    link.sendFile fd offset len = tcp.sendFile fd offset len

/-- The connection, with a check of what `send_file` is called with. -/
def checked (size : ℕ) : Transport Os :=
  { tcp with
    sendFile := fun fd offset len =>
      if 1 ≤ len ∧ len ≤ chunkSize ∧ offset + len ≤ size then tcp.sendFile fd offset len
      else .raise (.logicError "send_file: out of range") }

theorem serves_tcp (size : ℕ) : Serves size tcp := ⟨rfl, rfl, rfl, fun _ _ _ _ _ _ => rfl⟩

theorem serves_checked (size : ℕ) : Serves size (checked size) :=
  ⟨rfl, rfl, rfl, fun _ _ _ hpos hle hend => if_pos ⟨hpos, hle, hend⟩⟩

section answer
variable {size : ℕ} {link : Transport Os} {fd : Path} {i : UInt32} {feed : World → Bytes}

theorem Serves.sendMsg (h : Serves size link) (msg : Message) : sendMsg link msg = sendMsg tcp msg := by
  obtain ⟨send, recv, sendFile, recvFile, errno⟩ := link
  obtain ⟨rfl, rfl, rfl, -⟩ := h
  rfl

theorem Serves.recvMsg (h : Serves size link) : recvMsg link = recvMsg tcp := by
  obtain ⟨send, recv, sendFile, recvFile, errno⟩ := link
  obtain ⟨rfl, rfl, rfl, -⟩ := h
  rfl

theorem sendMsg_sat (msg : Message) (s : World) :
    Sat (steady fails feed) (Putting s (frame msg)) (Failed fails) (sendMsg tcp msg)
      (fun _ u => Put s (frame msg) u) s := by
  refine Sat.seq (sendExact_steady (header msg) s) (fun o u hu => ?_) fun _ t ht => ?_
  · exact hu.mono (List.prefix_append ..)
  split_ifs with hpos
  · refine ((sendExact_steady msg.payload t).weaken fun _ u hu => ht.trans hu).inside ?_
    exact fun o u hu => ht.next hu
  · have hnil : msg.payload = [] := List.eq_nil_of_length_eq_zero (by omega)
    rw [frame, hnil, List.append_nil]
    exact sat_pure.mpr ⟨ht.within List.prefix_rfl, ht⟩

theorem chunk_range {i : ℕ} (hlt : src.length < 2 ^ 64) (hi : i * chunkSize < src.length) :
    1 ≤ chunkLen src.length i ∧ chunkLen src.length i ≤ chunkSize ∧
      i * chunkSize + chunkLen src.length i ≤ src.length := by
  have hpos : 0 < chunkSize := by decide
  rw [chunkLen_of_le hlt hi.le]
  omega

theorem serveChunk_sat (hlink : Serves src.length link) (hlt : src.length < 2 ^ 64)
    (hi : i.toNat * chunkSize < src.length) (hf : s.files fd = some src) :
    Sat (steady fails feed) (Putting s (answer src i.toNat)) (Failed fails)
      (serveChunk link fd src.length i)
      (fun _ u => Put s (answer src i.toNat) u) s := by
  have hanswer : answer src i.toNat = frame (makeChunkHdr ⟨i⟩) ++ chunk src i.toNat := by
    rw [answer, UInt32.ofNat_toNat]
  obtain ⟨hpos, hle, hend⟩ := chunk_range hlt hi
  rw [serveChunk, hlink.sendMsg, hlink.sendFile _ _ _ hpos hle hend, hanswer]
  refine Sat.seq (sendMsg_sat _ s) (fun o u hu => ?_) fun _ t ht => ?_
  · exact hu.mono (List.prefix_append ..)
  have hft : (t.files fd).getD [] = src := by
    rw [ht.files, hf]
    rfl
  have hsend : Sat (steady fails feed) _ (Failed fails) _ _ t :=
    sendFile_steady fd (i.toNat * chunkSize) (chunkLen src.length i.toNat) t
  rw [hft] at hsend
  exact (hsend.weaken fun _ u hu => ht.trans hu.1).inside fun o u hu => ht.next hu

end answer

/-! ## The whole exchange -/

theorem error_bind {α β : Type} {x : Except Exc α} {f : α → Except Exc β} {e : Exc}
    (h : (x >>= f) = .error e) : x = .error e ∨ ∃ a, x = .ok a ∧ f a = .error e := by
  cases x with
  | error e' =>
    cases h
    exact Or.inl rfl
  | ok a => exact Or.inr ⟨a, rfl, h⟩

theorem getU32_ordinary {r : Reader} {e : Exc} (h : r.getU32 = .error e) : Ordinary e u := by
  rcases error_bind h with h | ⟨_, -, h⟩
  · rw [Reader.ensure] at h
    split_ifs at h
    cases h
    rintro _ ⟨⟩
  · cases h

theorem getStr_ordinary {r : Reader} {e : Exc} (h : r.getStr = .error e) : Ordinary e u := by
  rcases error_bind h with h | ⟨_, -, h⟩
  · exact getU32_ordinary h
  rcases error_bind h with h | ⟨_, -, h⟩
  · rw [Reader.ensure] at h
    split_ifs at h
    cases h
    rintro _ ⟨⟩
  · cases h

theorem parseHandshake_ordinary {e : Exc} (h : parseHandshake msg = .error e) : Ordinary e u := by
  rw [parseHandshake] at h
  split_ifs at h
  · cases h
    rintro _ ⟨⟩
  rcases error_bind h with h | ⟨_, -, h⟩
  · exact getStr_ordinary h
  · cases h

theorem parseChunkReq_ordinary {e : Exc} (h : parseChunkReq msg = .error e) : Ordinary e u := by
  rw [parseChunkReq] at h
  split_ifs at h
  · cases h
    rintro _ ⟨⟩
  rcases error_bind h with h | ⟨_, -, h⟩
  · exact getU32_ordinary h
  · cases h

/-- Every message read is answered, and the last one was the end. -/
def Answered (m : FileMeta) (src Y : Bytes) (s u : World) : Prop :=
  ∃ msgs, Heard Y s msgs [] u ∧ u.out = s.out ++ response m src msgs ∧ Complete m.chunkCount msgs

structure Serving (m : FileMeta) (src Y : Bytes) (s : World) (hs : Message) (reqs : List Message)
    (u : World) : Prop where
  heard : Heard Y s (hs :: reqs) [] u
  out : u.out = s.out ++ response m src (hs :: reqs)
  asks : Asks m.chunkCount reqs

section serve
variable {hs : Message} {reqs : List Message} {v : HandshakePayload} {link : Transport Os}
  {fd : Path}

theorem response_concat (hhs : parseHandshake hs = .ok v) (hmeta : makeFilemeta m = .ok metaMsg)
    (hreqs : Asks m.chunkCount reqs) (msg : Message) :
    response m src (hs :: (reqs ++ [msg])) =
      response m src (hs :: reqs) ++ answers src (wanted m.chunkCount [msg]) := by
  rw [response_asks hhs hmeta, response_asks hhs hmeta, wanted_append hreqs, answers_append,
    List.append_assoc]

theorem Heard.log (h : Heard Y s msgs part u) (e : Event) :
    Heard Y s msgs part (u.log e) := ⟨h.read, h.bytes, h.valid, h.files⟩

/-- A message that asks for no chunk adds nothing to the answer. -/
theorem Serving.silent (h : Serving m src Y s hs reqs u) (hhs : parseHandshake hs = .ok v)
    (hmeta : makeFilemeta m = .ok metaMsg) (hout : t.out = u.out)
    (hnone : wanted m.chunkCount [msg] = []) :
    t.out = s.out ++ response m src (hs :: (reqs ++ [msg])) := by
  rw [response_concat hhs hmeta h.asks, hnone, hout, h.out]
  exact congrArg (s.out ++ ·) (List.append_nil _).symm

theorem Serving.rejected (h : Serving m src Y s hs reqs u) (hhs : parseHandshake hs = .ok v)
    (ht : Heard Y s (hs :: (reqs ++ [msg])) [] t) (htype : msg.type ≠ .complete)
    (hasks : ¬ Asks m.chunkCount [msg]) : Rejected m.chunkCount Y s t :=
  ⟨_, [], ht, .inr ⟨rfl, .inr ⟨hs, v, reqs, msg, rfl, hhs, h.asks, htype, hasks⟩⟩⟩

theorem Asks.concat (h : Asks n reqs) {chunkReq : ChunkReq} (hparse : parseChunkReq msg = .ok chunkReq)
    (hin : chunkReq.chunkIndex < n) : Asks n (reqs ++ [msg]) := by
  intro msg' hmsg'
  rcases List.mem_append.mp hmsg' with hold | hnew
  · exact h msg' hold
  · rw [List.mem_singleton.mp hnew]
    exact ⟨chunkReq, hparse, hin⟩

theorem Serving.chunk_sat {chunkReq : ChunkReq} (h : Serving m src Y s hs reqs u)
    (hlink : Serves src.length link) (hlt : src.length < 2 ^ 64)
    (hstart : chunkReq.chunkIndex.toNat * chunkSize < src.length)
    (hf : s.files fd = some src) (hhs : parseHandshake hs = .ok v)
    (hmeta : makeFilemeta m = .ok metaMsg) (ht : Heard Y s (hs :: (reqs ++ [msg])) [] t)
    (hout : t.out = u.out) (hparse : parseChunkReq msg = .ok chunkReq)
    (hin : chunkReq.chunkIndex < m.chunkCount) :
    Sat (steady fails fun _ => Y) (Point m src Y s) (Refuses fails m.chunkCount Y s)
      (serveChunk link fd src.length chunkReq.chunkIndex)
      (fun _ => Serving m src Y s hs (reqs ++ [msg])) t := by
  have hwanted : wanted m.chunkCount [msg] = [chunkReq.chunkIndex.toNat] := by
    simp [wanted, hparse, hin]
  have hanswer : response m src (hs :: reqs) ++ answer src chunkReq.chunkIndex.toNat =
      response m src (hs :: reqs ++ [msg]) := by
    rw [List.cons_append, response_concat hhs hmeta h.asks, hwanted]
    simp [answers]
  have hsat : Sat (steady fails fun _ => Y) _ (Refuses fails m.chunkCount Y s) _ _ t :=
    (serveChunk_sat hlink hlt hstart (ht.files ▸ hf)).throws fun _ _ hx => ⟨hx.1, .inl hx.2⟩
  refine (hsat.inside fun o w hw => ?_).weaken fun _ w hw => ?_
  · exact Heard.answering ht (hout.trans h.out) hanswer hw
  · refine ⟨ht.put hw, ?_, h.asks.concat hparse hin⟩
    rw [hw.out, hout, h.out, List.append_assoc, hanswer]
    rfl

theorem serve_sat (hlink : Serves src.length link) (hlt : src.length < 2 ^ 64)
    (hsize : m.fileSize.toNat = src.length)
    (hcount : ∀ i < m.chunkCount.toNat, i * chunkSize < src.length) (hf : s.files fd = some src)
    (hhs : parseHandshake hs = .ok v) (hmeta : makeFilemeta m = .ok metaMsg)
    (h : Serving m src Y s hs reqs t) :
    Sat (steady fails fun _ => Y) (Point m src Y s) (Refuses fails m.chunkCount Y s)
      (serve link fd m.fileSize.toNat m.chunkCount) (fun _ u => Answered m src Y s u) t := by
  rw [hsize]
  apply Sat.round (fun (_ : UInt32) u => ∃ reqs, Serving m src Y s hs reqs u)
  · exact ⟨reqs, h⟩
  intro chunksSent u hu
  obtain ⟨reqs, hu⟩ := hu
  refine ⟨hu.heard.answered hu.out, ?_⟩
  rw [hlink.recvMsg]
  refine Sat.andThen (recvMsg_sat hu.heard hu.out) fun msg w hw => ?_
  obtain ⟨hw, hout⟩ := hw
  have hsilent : wanted m.chunkCount [msg] = [] → w.out = _ := hu.silent hhs hmeta hout
  split_ifs with hcomplete htype
  · have hend := hsilent (by simp [wanted, parseChunkReq, hcomplete])
    exact sat_pure.mpr ⟨hw.answered hend, hw.answered hend, _, hw, hend, hs, v, reqs, msg, rfl, hhs,
      hu.asks, hcomplete⟩
  · have hend := hsilent (by simp [wanted, parseChunkReq, htype])
    exact sat_raise.mpr ⟨hw.answered hend, by rintro _ ⟨⟩,
      .inr (hu.rejected hhs hw hcomplete (by simp [Asks, parseChunkReq, htype]))⟩
  cases hparse : parseChunkReq msg with
  | error e =>
    have hend := hsilent (by simp [wanted, hparse])
    exact sat_raise_bind.mpr ⟨hw.answered hend, parseChunkReq_ordinary hparse,
      .inr (hu.rejected hhs hw hcomplete (by simp [Asks, hparse]))⟩
  | ok chunkReq =>
    change Sat _ _ _ (if m.chunkCount ≤ chunkReq.chunkIndex then _ else _) _ _
    split_ifs with hrange
    · have hend := hsilent (by simp [wanted, hparse, UInt32.not_lt.mpr hrange])
      exact sat_raise.mpr ⟨hw.answered hend, by rintro _ ⟨⟩,
        .inr (hu.rejected hhs hw hcomplete (by simp [Asks, hparse, UInt32.not_lt.mpr hrange]))⟩
    · have hin := UInt32.not_le.mp hrange
      have hstart := hcount _ (UInt32.lt_iff_toNat_lt.mp hin)
      refine Sat.andThen (hu.chunk_sat hlink hlt hstart hf hhs hmeta hw hout hparse hin)
        fun _ x hx => ?_
      refine sat_ask_bind.mpr ⟨hx.heard.prints hx.out _, fun r y hy => ?_⟩
      obtain ⟨hy, -⟩ := hy
      subst hy
      have hlog := hx.heard.log (.line (.pushSentChunk chunkReq.chunkIndex.toNat
        (chunksSent + 1).toNat))
      exact sat_pure.mpr ⟨hlog.answered hx.out, _, hlog, hx.out, hx.asks⟩

theorem runPush_sat (hlink : Serves src.length link) (hlt : src.length < 2 ^ 64)
    (hsize : m.fileSize.toNat = src.length)
    (hcount : ∀ i < m.chunkCount.toNat, i * chunkSize < src.length) (hf : s.files fd = some src)
    (hmeta : makeFilemeta m = .ok metaMsg) :
    Sat (steady fails fun _ => Y) (Point m src Y s) (Refuses fails m.chunkCount Y s)
      (runPush link fd m)
      (fun _ u => Answered m src Y s u) s := by
  have hstart : Heard Y s [] [] s := ⟨rfl, List.nil_prefix, List.forall_mem_nil _, rfl⟩
  rw [runPush, hlink.recvMsg]
  have hnothing : s.out = s.out ++ response m src [] := (List.append_nil _).symm
  refine Sat.andThen (recvMsg_sat hstart hnothing) fun hs t ht => ?_
  obtain ⟨ht, hout⟩ := ht
  have hsilent : response m src [hs] = [] → Point m src Y s none t := by
    intro hnone
    refine ht.answered ?_
    change t.out = s.out ++ response m src [hs]
    rw [hnone, List.append_nil, hout]
  have hreject : (∀ v, parseHandshake hs ≠ .ok v) → Rejected m.chunkCount Y s t :=
    fun h => ⟨[hs], [], ht, .inr ⟨rfl, .inl ⟨hs, rfl, h⟩⟩⟩
  split_ifs with htype
  · have hpoint := hsilent (by simp [response, parseHandshake, htype])
    exact sat_raise.mpr ⟨hpoint, by rintro _ ⟨⟩,
      .inr (hreject (by simp [parseHandshake, htype]))⟩
  cases hhs : parseHandshake hs with
  | error e =>
    have hpoint := hsilent (by simp [response, hhs])
    exact sat_raise_bind.mpr ⟨hpoint, parseHandshake_ordinary hhs, .inr (hreject (by simp [hhs]))⟩
  | ok v =>
    have hanswer : response m src [] ++ frame metaMsg = response m src ([] ++ [hs]) := by
      rw [List.nil_append, response_asks hhs hmeta]
      simp [response, wanted, answers]
    have hempty : t.out = s.out ++ response m src [] := hout.trans (List.append_nil _).symm
    change Sat _ _ _ (sys (.print (.pushConnected v.token)) >>= fun _ => _) _ _
    refine sat_ask_bind.mpr ⟨?_, fun r u hu => ?_⟩
    · exact Heard.answering ht hempty hanswer
        (((Put.nil t).within List.nil_prefix).asks (by rintro _ ⟨⟩))
    obtain ⟨hu, -⟩ := hu
    subst hu
    have hlog := ht.log (.line (.pushConnected v.token))
    rw [hmeta]
    change Sat _ _ _ (sendMsg link metaMsg >>= fun _ => _) _ _
    rw [hlink.sendMsg]
    refine Sat.seq ((sendMsg_sat metaMsg _).throws fun _ _ h => ⟨h.1, .inl h.2⟩) (fun o u hu => ?_)
      fun _ u hu => ?_
    · exact Heard.answering hlog hempty hanswer hu
    have hheard : Heard Y s [hs] [] u := hlog.put hu
    have hsaid : u.out = s.out ++ response m src [hs] := by
      change _ = s.out ++ response m src ([] ++ [hs])
      rw [hu.out, ← hanswer, ← List.append_assoc, ← hempty]
      rfl
    refine sat_ask_bind.mpr ⟨hheard.prints hsaid _, fun r w hw => ?_⟩
    obtain ⟨hw, -⟩ := hw
    subst hw
    refine Sat.andThen (serve_sat hlink hlt hsize hcount hf hhs hmeta
      ⟨hheard.log _, hsaid, List.forall_mem_nil _⟩) fun sent x hx => ?_
    obtain ⟨msgs, hx, hend, hcomplete⟩ := hx
    refine sat_ask.mpr ⟨hx.prints hend _, fun r y hy => ?_⟩
    obtain ⟨hy, -⟩ := hy
    subst hy
    exact ⟨(hx.log _).answered hend, msgs, hx.log _, hend, hcomplete⟩

end serve

/-! ## Any file, any peer -/

section push
variable {sha256 : Bytes → Hash} {pool : Bytes → ℕ → UInt32 → Except Exc (List Hash)}
  {hardwareConcurrency w : ℕ} {mtimeNs : UInt64} {filePath fd : Path} {s₀ t₀ : World}

theorem Heard.frames (h : Heard Y s msgs part u)
    (hpart : ∀ msg : Message, msg.Valid → ¬ frame msg <+: part) :
    s.read ≤ u.read ∧ Frames (slice Y s.read (u.read - s.read)) msgs part := by
  have hread := h.read
  refine ⟨by omega, ?_, h.valid, hpart⟩
  rw [slice, hread, Nat.add_sub_cancel_left]
  exact (List.prefix_iff_eq_take.mp h.bytes).symm

/-- Whatever a peer sends, it is told what it asked for and nothing else. -/
theorem push_safe (hsrc : s₀.files filePath = some src) (hlt : src.length < 2 ^ 63)
    (hpool : Hashing.Computes sha256 src src.length
      (Precompute.chunkCountOf (UInt64.ofNat src.length)) w
      (pool src src.length (Precompute.chunkCountOf (UInt64.ofNat src.length))))
    (hm : Reaches rough
      (Precompute.precomputeMeta pool hardwareConcurrency mtimeNs filePath, s₀) (.ret m, t₀))
    (hf : s.files fd = some src) (Y : Bytes) :
    (∀ q u, Reaches (socket fun _ => Y) (runPush tcp fd m, s) (q, u) →
      ∃ msgs part, s.read ≤ u.read ∧
        Frames (slice Y s.read (u.read - s.read)) msgs part ∧
        s.out ++ response m src msgs.dropLast <+: u.out ∧
        u.out <+: s.out ++ response m src msgs ∧
        ((∃ len, q.head = some (.recv len)) ∨ q = .ret () →
          u.out = s.out ++ response m src msgs) ∧
        (q = .ret () → Complete m.chunkCount msgs)) ∧
    (∀ e u, Reaches (steady False fun _ => Y) (runPush tcp fd m, s) (.raise e, u) →
      Rejected m.chunkCount Y s u) ∧
    ∀ e u, Reaches (socket fun _ => Y) (runPush (checked src.length) fd m, s) (.raise e, u) →
      ∀ what, e ≠ .logicError what := by
  obtain ⟨-, -, hsize, hcount, hlen⟩ := SizeLimit.precomputed hsrc hlt hpool hm
  obtain ⟨metaMsg, hmeta⟩ : ∃ metaMsg, makeFilemeta m = .ok metaMsg :=
    ⟨_, if_neg (not_not.mpr hlen)⟩
  have hin : ∀ i < m.chunkCount.toNat, i * chunkSize < src.length := by
    intro i hi
    rw [hcount] at hi
    exact chunk_start (hi.trans_le (Nat.mod_le _ _))
  have hsmall : src.length < 2 ^ 64 := by omega
  refine ⟨fun q u h => ?_, fun e u h => ?_, fun e u h => ?_⟩
  · have hsat : Sat (steady True fun _ => Y) (Point m src Y s) _ _ _ s :=
      runPush_sat (serves_tcp _) hsmall hsize hin hf hmeta
    have hrun := h.mono steady_of_socket
    by_cases hret : q = .ret ()
    · subst hret
      obtain ⟨msgs, hheard, hout, hcomplete⟩ := hsat.returned hrun
      obtain ⟨hread, hframes⟩ := hheard.frames no_frame
      refine ⟨msgs, [], hread, hframes, ?_, ?_, fun _ => hout, fun _ => hcomplete⟩
      · rw [hout]
        exact (List.prefix_append_right_inj _).mpr (response_mono (List.dropLast_prefix _))
      · rw [hout]
    · obtain ⟨msgs, part, hheard, hpart, hlower, hupper, hrecv⟩ := hsat.visited hrun
      obtain ⟨hread, hframes⟩ := hheard.frames hpart
      refine ⟨msgs, part, hread, hframes, hlower, hupper, fun hq => ?_, fun hq => absurd hq hret⟩
      rcases hq with ⟨len, hq⟩ | hq
      · exact hrecv len hq
      · exact absurd hq hret
  · have hsat : Sat (steady False fun _ => Y) (Point m src Y s) _ _ _ s :=
      runPush_sat (serves_tcp _) hsmall hsize hin hf hmeta
    exact (hsat.raised h).2.resolve_left id
  · have hsat : Sat (steady True fun _ => Y) (Point m src Y s) _ _ _ s :=
      runPush_sat (serves_checked _) hsmall hsize hin hf hmeta
    exact (hsat.raised (h.mono steady_of_socket)).1

theorem sender_describes {t : World} (h : Reaches rough (Precompute.precomputeMeta
      (Hashing.inOrder fun _ => zeroHash) 1 0 [97], SizeLimit.sender [7]) (.ret m, t)) :
    Describes (fun _ => zeroHash) m [7] := by
  obtain ⟨-, hashes, hsource, rfl⟩ :=
    (Precompute.precomputeMeta_sat (SizeLimit.sender_file [7]) (by decide)).returned h
  refine ⟨by decide, rfl, rfl, ?_⟩
  rcases hsource with ⟨cachePath, hpath, hcached⟩ | hok
  · have hnone : (SizeLimit.sender [7]).files cachePath = none := by
      cases hpath
      rfl
    rw [hnone] at hcached
    cases hcached
  · exact (Except.ok.inj hok).symm

/-- A peer that asks for the only chunk gets it. -/
theorem push_safe_oneChunk : ∃ m u msgs metaMsg,
    Reaches (socket fun _ => pullStream [0]) (runPush tcp [97] m, SizeLimit.sender [7])
      (.ret (), u) ∧
    makeFilemeta m = .ok metaMsg ∧ u.out = frame metaMsg ++ answer [7] 0 ∧
    u.out = response m [7] msgs ∧ Complete m.chunkCount msgs := by
  obtain ⟨m, t, hrun⟩ : ∃ m t, Reaches rough (Precompute.precomputeMeta
      (Hashing.inOrder fun _ => zeroHash) 1 0 [97], SizeLimit.sender [7]) (.ret m, t) :=
    SizeLimit.sender_precomputes (by decide) (by decide)
  have hpool : Hashing.Computes (fun _ => zeroHash) [7] 1 (Precompute.chunkCountOf 1) 1 _ :=
    Hashing.computes_hashes (by decide) (by decide)
  have hsafe := push_safe (SizeLimit.sender_file [7]) (by decide) hpool hrun
    (SizeLimit.sender_file [7]) (pullStream [0])
  have hd := sender_describes hrun
  obtain ⟨metaMsg, hmeta⟩ : ∃ metaMsg, makeFilemeta m = .ok metaMsg := by
    refine ⟨_, if_neg (not_not.mpr ?_)⟩
    rw [hd.hashes, List.length_map, List.length_range]
  have hin : ∀ i ∈ [0], i < m.chunkCount.toNat := by
    rw [hd.count]
    decide
  obtain ⟨_, u, hpush, hu⟩ := (runPush_at hd hmeta hin (SizeLimit.sender_file [7])
    ⟨rfl, rfl, rfl, rfl, .inl rfl⟩).returns
  have hserved := hpush.mono socket_of_stream
  obtain ⟨msgs, part, -, -, -, -, hend, hcomplete⟩ := hsafe.1 _ u hserved
  refine ⟨m, u, msgs, metaMsg, hserved, hmeta, ?_, hend (.inr rfl), hcomplete rfl⟩
  rw [hu.out, pushStream]
  exact congrArg (frame metaMsg ++ ·) (List.append_nil _)

end push

end Embr.PushSafety
