import Embr.Transport

/-!
# Framed messages

`send_msg` and `recv_msg` of `core/protocol.cpp`, and what they do on a reliable
byte stream that splits the traffic anywhere. The specifications of the exact
transfers and of single messages hold for any source of incoming bytes, so that
the loopback below and a connected peer both use them.
-/

open Octets Interact
open Embr.System Embr.Protocol
namespace Embr

section messages
variable {S Op : Type} {R : Op → Type}

def header (msg : Message) : Bytes :=
  PROTOCOL_VERSION :: msg.type.toByte :: putU32 (UInt32.ofNat msg.payload.length)

def sendMsg (t : Transport (Sys S Op R)) (msg : Message) : Prog (Sys S Op R) Unit := do
  sendExact t (header msg)
  if 0 < msg.payload.length then sendExact t msg.payload else pure ()

def recvMsg (t : Transport (Sys S Op R)) : Prog (Sys S Op R) Message := do
  let hdr ← recvExact t HEADER_SIZE
  let version := hdr.getD 0 0
  let type := hdr.getD 1 0
  let payloadLen := ofBE (slice hdr 2 4)
  if version ≠ PROTOCOL_VERSION then
    .raise (.runtimeError ("recv_msg: unsupported protocol version " ++ toString version.toNat))
  else if type < MsgType.toByte .handshake ∨ MsgType.toByte .cancel < type then
    .raise (.runtimeError ("recv_msg: unknown message type " ++ toString type.toNat))
  else if MAX_PAYLOAD_SIZE < payloadLen then
    .raise (.runtimeError ("recv_msg: payload_len exceeds MAX_PAYLOAD_SIZE ("
      ++ toString payloadLen ++ "bytes)"))
  else if 0 < payloadLen then do
    let payload ← recvExact t payloadLen
    pure ⟨.ofByte type, payload⟩
  else pure ⟨.ofByte type, []⟩

end messages

/-- What a reliable connection does: it takes some of the bytes offered while
there is room for them, and hands over some of the bytes of `feed` not read yet. -/
def connection (feed : World → Bytes) (room : World → ℕ → Prop) :
    (o : Op) → World → o.Reply → World → Prop
  | .send buf, s, r, s' =>
      ∃ k, 0 < k ∧ k ≤ buf.length ∧ room s k ∧ r = some k ∧ s' = s.put (buf.take k)
  | .recv len, s, r, s' =>
      ∃ bs, bs ≠ [] ∧ bs.length ≤ len ∧ bs <+: (feed s).drop s.read ∧ r = some bs ∧
        s' = s.skip bs.length
  | .sendfile fd offset len, s, r, s' =>
      ∃ f k, s.files fd = some f ∧ 0 < k ∧ k ≤ len ∧ offset + k ≤ f.length ∧ room s k ∧
        r = some k ∧ s' = s.put (slice f offset k)
  | .spliceIn len, s, r, s' =>
      ∃ buf bs, s.pipe = some buf ∧ bs ≠ [] ∧ bs.length ≤ len ∧ bs <+: (feed s).drop s.read ∧
        r = some bs.length ∧ s' = (s.fill (buf ++ bs)).skip bs.length
  | _, _, _, _ => False

abbrev stream (feed : World → Bytes) : Env Os := kernel False (connection feed fun _ _ => True)

section exact
variable {feed : World → Bytes} {I : Option Op → World → Prop} {s : World}

theorem sendExact_total {buf : Bytes} {Q : Unit → World → Prop}
    (hI : ∀ k ≤ buf.length, I none (s.put (buf.take k)))
    (hsend : ∀ k < buf.length, I (some (.send (buf.drop k))) (s.put (buf.take k)))
    (hQ : Q () (s.put buf)) : Total (stream feed) I Q (sendExact tcp buf) s := by
  apply Total.round (fun sent t => sent ≤ buf.length ∧ t = s.put (buf.take sent))
    (fun sent _ => buf.length - sent)
  · exact ⟨Nat.zero_le _, by simp⟩
  rintro sent t ⟨hle, rfl⟩
  refine ⟨hI sent hle, ?_⟩
  by_cases hlt : sent < buf.length
  · rw [if_pos hlt]
    change Total _ _ _ (sys (.send (buf.drop sent)) >>= _) _
    refine total_ask_bind.mpr ⟨hsend sent hlt, ?_, ?_⟩
    · exact ⟨some 1, _, 1, by omega, by rw [List.length_drop]; omega, trivial, rfl, rfl⟩
    · rintro r s' ⟨k, hk, hkl, -, rfl, rfl⟩
      rw [List.length_drop] at hkl
      have hput : (s.put (buf.take sent)).put ((buf.drop sent).take k) =
          s.put (buf.take (sent + k)) := by
        rw [World.put_put, List.take_add]
      simp only [if_neg (Nat.pos_iff_ne_zero.mp hk)]
      rw [hput, total_pure]
      refine ⟨hI _ (by omega), ⟨by omega, rfl⟩, ?_⟩
      omega
  · have hend : sent = buf.length := by omega
    subst hend
    rw [if_neg hlt, total_pure]
    have hI' := hI buf.length le_rfl
    rw [List.take_length] at hI' ⊢
    exact ⟨hI', hI', hQ⟩

theorem recvExact_total {len : ℕ} {Q : Bytes → World → Prop}
    (hfeed : ∀ k, feed (s.skip k) = feed s) (hlen : s.read + len ≤ (feed s).length)
    (hI : ∀ k ≤ len, I none (s.skip k))
    (hrecv : ∀ k < len, I (some (.recv (len - k))) (s.skip k))
    (hQ : Q (slice (feed s) s.read len) (s.skip len)) :
    Total (stream feed) I Q (recvExact tcp len) s := by
  apply Total.round
    (fun received t => received.length ≤ len ∧ t = s.skip received.length ∧
      received = slice (feed s) s.read received.length)
    (fun received _ => len - received.length)
  · exact ⟨Nat.zero_le _, rfl, by simp [slice]⟩
  rintro received t ⟨hle, rfl, hrec⟩
  refine ⟨hI _ hle, ?_⟩
  by_cases hlt : received.length < len
  · rw [if_pos hlt]
    change Total _ _ _ (sys (.recv (len - received.length)) >>= _) _
    refine total_ask_bind.mpr ⟨hrecv _ hlt, ?_, ?_⟩
    · refine ⟨some (slice (feed s) (s.read + received.length) 1), _, _, ?_, ?_, ?_, rfl, rfl⟩
      · apply List.ne_nil_of_length_pos
        rw [slice_length (by omega)]
        omega
      · rw [slice_length (by omega)]
        omega
      · rw [hfeed]
        exact List.take_prefix _ _
    · rintro r s' ⟨bs, hne, hbl, hpre, rfl, rfl⟩
      rw [hfeed] at hpre
      have hpos : 0 < bs.length := List.length_pos_of_ne_nil hne
      simp only [if_neg (Nat.pos_iff_ne_zero.mp hpos)]
      rw [World.skip_skip, total_pure]
      refine ⟨hI _ (by omega), ⟨?_, ?_, ?_⟩, ?_⟩
      · rw [List.length_append]
        omega
      · rw [List.length_append]
      · rw [List.length_append, slice_add, ← hrec]
        congr 1
        exact List.prefix_iff_eq_take.mp hpre
      · rw [List.length_append]
        omega
  · have hend : received.length = len := by omega
    rw [if_neg hlt, total_pure]
    rw [hend] at hrec ⊢
    refine ⟨hI _ le_rfl, hI _ le_rfl, ?_⟩
    rw [hrec]
    exact hQ

end exact

def frame (msg : Message) : Bytes := header msg ++ msg.payload

@[simp] theorem header_length (msg : Message) : (header msg).length = HEADER_SIZE := by
  simp [header, putU32, HEADER_SIZE]

@[simp] theorem frame_length (msg : Message) :
    (frame msg).length = HEADER_SIZE + msg.payload.length := by
  rw [frame, List.length_append, header_length]

theorem header_payloadLen {msg : Message} (h : msg.payload.length ≤ MAX_PAYLOAD_SIZE) :
    ofBE (slice (header msg) 2 4) = msg.payload.length := by
  have hlt : msg.payload.length < 2 ^ 32 := by
    rw [MAX_PAYLOAD_SIZE] at h
    omega
  have hslice : slice (header msg) 2 4 = be 4 msg.payload.length := by
    simp only [slice, header, putU32, List.drop_succ_cons, List.drop_zero]
    rw [UInt32.toNat_ofNat_of_lt' hlt]
    exact List.take_of_length_le (by rw [be_length])
  rw [hslice]
  exact ofBE_be_of_lt (by omega)

section message
variable {feed : World → Bytes} {I : Option Op → World → Prop} {s : World} {msg : Message}

theorem sendMsg_total {Q : Unit → World → Prop}
    (hI : ∀ k ≤ (frame msg).length, I none (s.put ((frame msg).take k)))
    (hsend : ∀ k < (frame msg).length, ∀ buf,
      I (some (.send buf)) (s.put ((frame msg).take k)))
    (hQ : Q () (s.put (frame msg))) : Total (stream feed) I Q (sendMsg tcp msg) s := by
  have htake : ∀ k ≤ HEADER_SIZE, (frame msg).take k = (header msg).take k := by
    intro k hk
    exact List.take_append_of_le_length (by rw [header_length]; exact hk)
  have htake' : ∀ k, (frame msg).take (HEADER_SIZE + k) = header msg ++ msg.payload.take k := by
    intro k
    rw [frame, ← header_length msg, List.take_length_add_append]
  have hlen : (frame msg).length = HEADER_SIZE + msg.payload.length := frame_length msg
  have hall : I none (s.put (header msg)) := by
    have h := hI (HEADER_SIZE + 0) (by omega)
    rwa [htake', List.take_zero, List.append_nil] at h
  apply Total.bind
  apply sendExact_total
  · intro k hk
    rw [header_length] at hk
    rw [← htake k hk]
    exact hI k (by omega)
  · intro k hk
    rw [header_length] at hk
    rw [← htake k (by omega)]
    exact hsend k (by omega) _
  · by_cases hpos : 0 < msg.payload.length
    · rw [if_pos hpos]
      apply sendExact_total
      · intro k hk
        rw [World.put_put, ← htake']
        exact hI _ (by omega)
      · intro k hk
        rw [World.put_put, ← htake']
        exact hsend _ (by omega) _
      · rw [World.put_put]
        exact hQ
    · have hnil : msg.payload = [] := List.eq_nil_of_length_eq_zero (by omega)
      rw [if_neg hpos, total_pure]
      rw [frame, hnil, List.append_nil] at hQ
      exact ⟨hall, hQ⟩

theorem recvMsg_total {Q : Message → World → Prop} (hm : msg.Valid)
    (hfeed : ∀ k, feed (s.skip k) = feed s) (hpre : frame msg <+: (feed s).drop s.read)
    (hI : ∀ k ≤ (frame msg).length, I none (s.skip k))
    (hrecv : ∀ k < (frame msg).length, ∀ len, I (some (.recv len)) (s.skip k))
    (hQ : Q msg (s.skip (frame msg).length)) :
    Total (stream feed) I Q (recvMsg tcp) s := by
  obtain ⟨rest, hrest⟩ := hpre
  have hlen : (frame msg).length = HEADER_SIZE + msg.payload.length := frame_length msg
  have havail : s.read + (HEADER_SIZE + msg.payload.length) ≤ (feed s).length := by
    have h := congrArg List.length hrest
    rw [List.length_append, hlen, List.length_drop] at h
    have hpos : 0 < HEADER_SIZE := by decide
    omega
  have hhdr : slice (feed s) s.read HEADER_SIZE = header msg := by
    rw [slice, ← hrest, frame, List.append_assoc, ← header_length msg, List.take_left']
    rfl
  have hpay : slice (feed s) (s.read + HEADER_SIZE) msg.payload.length = msg.payload := by
    rw [slice, ← List.drop_drop, ← hrest, frame, List.append_assoc, ← header_length msg,
      List.drop_left' rfl, List.take_left' rfl]
  apply Total.bind
  apply recvExact_total hfeed (by omega)
  · exact fun k hk => hI k (by omega)
  · exact fun k hk => hrecv k (by omega) _
  · rw [hhdr]
    have hversion : (header msg).getD 0 0 = PROTOCOL_VERSION := rfl
    have htype : (header msg).getD 1 0 = msg.type.toByte := rfl
    have hplen := header_payloadLen hm.2
    simp only [hversion, htype, hplen, ne_eq, not_true_eq_false, if_false,
      if_neg (MsgType.toByte_range hm.1), if_neg (Nat.not_lt.mpr hm.2), MsgType.ofByte_toByte]
    by_cases hpos : 0 < msg.payload.length
    · rw [if_pos hpos]
      apply Total.bind
      apply recvExact_total
      · intro k
        rw [World.skip_skip, hfeed, hfeed]
      · rw [hfeed]
        change s.read + HEADER_SIZE + _ ≤ _
        omega
      · intro k hk
        rw [World.skip_skip]
        exact hI _ (by omega)
      · intro k hk
        rw [World.skip_skip]
        exact hrecv _ (by omega) _
      · rw [hfeed, World.skip_skip, total_pure, ← hlen]
        change I none _ ∧ Q ⟨msg.type, slice (feed s) (s.read + HEADER_SIZE) _⟩ _
        rw [hpay]
        exact ⟨hI _ le_rfl, hQ⟩
    · have hnil : msg.payload = [] := List.eq_nil_of_length_eq_zero (by omega)
      rw [if_neg hpos, total_pure]
      have hzero : (frame msg).length = HEADER_SIZE := by
        rw [hlen, hnil]
        rfl
      rw [hzero] at hI hQ
      refine ⟨hI _ le_rfl, ?_⟩
      rw [← hnil]
      exact hQ

end message

def sendAll (t : Transport Os) : List Message → Prog Os Unit
  | [] => pure ()
  | msg :: msgs => do
    sendMsg t msg
    sendAll t msgs

def recvAll (t : Transport Os) : ℕ → Prog Os (List (Message × ℕ))
  | 0 => pure []
  | n + 1 => do
    let before ← .get
    let msg ← recvMsg t
    let after ← .get
    let msgs ← recvAll t n
    pure ((msg, after.read - before.read) :: msgs)

def exchange (t : Transport Os) (msgs : List Message) : Prog Os (List (Message × ℕ)) := do
  sendAll t msgs
  recvAll t msgs.length

/-- What was sent is what arrives. -/
abbrev loopback : Env Os := stream World.out

theorem sendAll_total {msgs : List Message} {Q : Unit → World → Prop} {s : World}
    (hQ : Q () (s.put (msgs.map frame).flatten)) :
    Total loopback (fun _ _ => True) Q (sendAll tcp msgs) s := by
  induction msgs generalizing s with
  | nil =>
    rw [List.map_nil, List.flatten_nil, World.put_nil] at hQ
    exact total_pure.mpr ⟨trivial, hQ⟩
  | cons msg msgs ih =>
    apply Total.bind
    apply sendMsg_total
    · exact fun _ _ => trivial
    · exact fun _ _ _ => trivial
    · apply ih
      rw [World.put_put]
      exact hQ

theorem recvAll_total {msgs : List Message} {Q : List (Message × ℕ) → World → Prop} {s : World}
    (hmsgs : ∀ msg ∈ msgs, msg.Valid)
    (hout : (msgs.map frame).flatten = s.out.drop s.read)
    (hQ : Q (msgs.map fun msg => (msg, HEADER_SIZE + msg.payload.length))
      (s.skip (msgs.map frame).flatten.length)) :
    Total loopback (fun _ _ => True) Q (recvAll tcp msgs.length) s := by
  induction msgs generalizing s Q with
  | nil => exact total_pure.mpr ⟨trivial, hQ⟩
  | cons msg msgs ih =>
    simp only [List.map_cons, List.flatten_cons] at hout hQ
    rw [List.length_cons, recvAll, total_get_bind]
    refine ⟨trivial, Total.bind ?_⟩
    apply recvMsg_total (hmsgs msg (List.mem_cons_self ..))
    · exact fun _ => rfl
    · exact ⟨_, hout⟩
    · exact fun _ _ => trivial
    · exact fun _ _ _ => trivial
    · rw [total_get_bind]
      refine ⟨trivial, Total.bind (ih ?_ ?_ ?_)⟩
      · exact fun m hm => hmsgs m (List.mem_cons_of_mem _ hm)
      · change _ = s.out.drop (s.read + (frame msg).length)
        rw [← List.drop_drop, ← hout, List.drop_left' rfl]
      · have hused : (s.skip (frame msg).length).read - s.read =
            HEADER_SIZE + msg.payload.length := by
          rw [← frame_length]
          exact Nat.add_sub_cancel_left ..
        rw [total_pure, hused, World.skip_skip, ← List.length_append]
        exact ⟨trivial, hQ⟩

/-- Framing round trip: however the traffic is split, the messages come back in
order, each consuming its own frame, and nothing is left over. -/
theorem exchange_round_trip (msgs : List Message) (hmsgs : ∀ msg ∈ msgs, msg.Valid)
    (s : World) (hempty : s.read = s.out.length) :
    Total loopback (fun _ _ => True)
      (fun r t => r = msgs.map (fun msg => (msg, 6 + msg.payload.length)) ∧
        t.read = t.out.length)
      (exchange tcp msgs) s := by
  apply Total.bind
  apply sendAll_total
  apply recvAll_total hmsgs
  · change _ = (s.out ++ _).drop s.read
    rw [hempty, List.drop_left' rfl]
  · refine ⟨rfl, ?_⟩
    change s.read + _ = (s.out ++ _).length
    rw [hempty, List.length_append]

theorem exchange_round_trip_two :
    Total loopback (fun _ _ => True)
      (fun r t => r = [(⟨.handshake, [7, 9]⟩, 8), (⟨.complete, []⟩, 6)] ∧
        t.read = t.out.length)
      (exchange tcp [⟨.handshake, [7, 9]⟩, ⟨.complete, []⟩]) (.init fun _ => none) := by
  refine exchange_round_trip [⟨.handshake, [7, 9]⟩, ⟨.complete, []⟩] ?_ _ rfl
  intro msg hmsg
  rcases List.mem_pair.mp hmsg with rfl | rfl
  · exact ⟨by decide, by decide⟩
  · exact ⟨by decide, by decide⟩

end Embr
