import Embr.Registration
import Embr.Protocol

/-!
# Many senders of one file

`derive_token` of `cli/push_cli.cpp` gives every sender of a file the same
token, and the tracker keeps one record of it. Any caller takes that record
out, so the last request about a token decides, whoever sent it.
-/

open Octets Text Embr.Protocol
namespace Embr.Tracker

def hexDigit (n : ℕ) : UInt8 := if n < 10 then UInt8.ofNat (48 + n) else UInt8.ofNat (87 + n)

def hexByte (b : UInt8) : Bytes := [hexDigit (b.toNat / 16), hexDigit (b.toNat % 16)]

def deriveToken (sha256 : Bytes → Hash) (chunkHashes : List Hash) : Token :=
  ((sha256 (chunkHashes.flatMap Subtype.val)).val.take 8).flatMap hexByte

def isHex (c : UInt8) : Bool := (48 ≤ c && c ≤ 57) || (97 ≤ c && c ≤ 102)

theorem hexDigit_isHex : ∀ n < 16, isHex (hexDigit n) = true := by decide

theorem hexByte_isHex {b c : UInt8} (h : c ∈ hexByte b) : isHex c = true := by
  have hb := b.toNat_lt
  simp only [hexByte, List.mem_cons, List.not_mem_nil, or_false] at h
  rcases h with rfl | rfl
  · exact hexDigit_isHex _ (by omega)
  · exact hexDigit_isHex _ (by omega)

theorem flatMap_hexByte_length (bs : Bytes) : (bs.flatMap hexByte).length = 2 * bs.length := by
  induction bs with
  | nil => rfl
  | cons b bs ih =>
    rw [List.flatMap_cons, List.length_append, ih, List.length_cons]
    simp only [hexByte, List.length_cons, List.length_nil]
    omega

theorem validToken_iff {token : Token} :
    validToken token = true ↔ token.length = tokenSize ∧ ∀ c ∈ token, isHex c = true := by
  rw [validToken]
  split_ifs with h
  · simp [h]
  · simp only [List.all_eq_true, isHex, not_not.mp h, true_and]

theorem validToken_deriveToken (sha256 : Bytes → Hash) (chunkHashes : List Hash) :
    validToken (deriveToken sha256 chunkHashes) = true := by
  refine validToken_iff.mpr ⟨?_, fun c hc => ?_⟩
  · rw [deriveToken, flatMap_hexByte_length, List.length_take,
      (sha256 (chunkHashes.flatMap Subtype.val)).property]
    rfl
  · obtain ⟨b, -, hb⟩ := List.mem_flatMap.mp hc
    exact hexByte_isHex hb

theorem quote_notMem_of_validToken {token : Token} (h : validToken token = true) :
    quote ∉ token := by
  intro hmem
  have hhex := (validToken_iff.mp h).2 quote hmem
  exact absurd hhex (by decide)

variable {token url : Token} {port : UInt16}

theorem registerBody_token (h : quote ∉ token) (port : UInt16) :
    Scanned (registerBody token port) "token" token := by
  have hbody : registerBody token port = ascii "\x7b" ++ stringNeedle "token" ++
      (token ++ quote :: (ascii ",\"sender_port\":" ++ decimal port.toNat ++ ascii "\x7d")) := by
    simp [registerBody, stringNeedle, ascii, quote]
  have hkey : Splits (stringNeedle "token") (registerBody token port) (ascii "\x7b")
      (token ++ quote :: (ascii ",\"sender_port\":" ++ decimal port.toNat ++ ascii "\x7d")) := by
    rw [hbody]
    exact Misses.splits (Misses.of_notMem (by decide))
  exact ⟨_, _, _, hkey, splits_singleton.mpr ⟨rfl, h⟩⟩

theorem registerBody_port (h : quote ∉ token) (port : UInt16) :
    ScannedNumber (registerBody token port) "sender_port" port.toNat := by
  refine port_after_string (by decide : ∀ i < (ascii "\x7b\"" ++ ascii "token" ++ _).length, _) h ?_
  simp [registerBody, numberNeedle, ascii, quote, comma]

theorem registerBody_senderIp (h : quote ∉ token) (port : UInt16) (v : Bytes) :
    ¬ Scanned (registerBody token port) "sender_ip" v := by
  have hbody : registerBody token port = ascii "\x7b\"token\":" ++ [quote] ++ token ++
      [quote, comma] ++ ascii "\"sender_port\":" ++ decimal port.toNat ++ ascii "\x7d" := by
    simp [registerBody, ascii, quote, comma]
  refine Scanned.not_of_find (Misses.find_none (List.cons_ne_nil _ _) ?_)
  rw [hbody]
  refine .append (.append (.append (.append (.append (.append ?_ ?_) ?_) ?_) ?_) ?_) ?_
  · exact .of_clash (by decide)
  · refine .cons ?_ .nil
    exact misses_value "sender_ip" (x := [58, 34]) (by decide) h (.inr (by simp [comma]))
  · exact .of_notMem h
  · exact .of_clash (by decide)
  · exact .of_clash (by decide)
  · refine .of_notMem fun hmem => ?_
    exact absurd (decimal_digit hmem) (by decide)
  · exact .of_clash (by decide)

/-- `embr push` on a port, as the tracker sees it. -/
def pushed (token : Token) (port : UInt16) (remoteAddr : Bytes) : Request :=
  ⟨registerBody token port, fun _ => none, remoteAddr, []⟩

theorem pushed_accepted (h : validToken token = true) (hport : port ≠ 0) (remoteAddr : Bytes) :
    Accepts (pushed token port remoteAddr) := by
  have hquote := quote_notMem_of_validToken h
  refine ⟨?_, ?_⟩
  · rw [pushed, (registerBody_token hquote port).get]
    exact h
  · rw [pushed, (registerBody_port hquote port).get]
    exact hport

theorem pushed_shows {remoteAddr : Bytes} (h : validToken token = true) (hport : port ≠ 0)
    (hne : remoteAddr ≠ []) (hquote : quote ∉ remoteAddr) :
    Shows (pushed token port remoteAddr) remoteAddr port.toNat := by
  have htoken := quote_notMem_of_validToken h
  refine ⟨hne, fun hzero => hport (UInt16.toNat_inj.mp (Int.ofNat_inj.mp hzero)), remoteAddr, port,
    .inr ⟨fun v hv => (registerBody_senderIp htoken port v hv).elim, rfl⟩, ?_, hquote,
    .inl ⟨rfl, rfl⟩⟩
  have hlt := port.toNat_lt
  exact ⟨port.toNat, (registerBody_port htoken port).integer, by omega⟩

structure Event where
  sender : ℕ
  now : TimePoint
  visit : Visit

def Event.arrival (e : Event) : Arrival := ⟨e.now, e.visit⟩

variable {e : Event} {events before after : List Event} {s : ℕ} {req r : Request}
  {t₀ t₁ : TimePoint} {ttl : ℤ} {ip : Bytes}

/-- `tracker_resolve` of the token after these events. -/
def answer (url token : Bytes) (ttl : ℤ) (events : List Event) (r : Request) (t₁ : TimePoint) :
    Except Exc (Bytes × UInt16) :=
  trackerResolve url token
    (some (handleResolve r (serveAll (.new ttl) (events.map Event.arrival)) t₁).1)

def leavingToken : Token := deriveToken (fun _ => .ofBytes []) []

def first : Request := pushed leavingToken 10007 (ascii "10.0.0.1")

end Embr.Tracker
