import Embr.Tracker
import Embr.Lib.Json

/-!
# From `/register` to `tracker_resolve`

What a sender registers passes through two scanners of its own body, the store,
a body that is put together without escaping, and the scanners again at the
receiver. A registration comes through if the address and the port in its body are what the
scanners find there, nothing is lost on the way and the address has no quote in it.
-/

open Octets Text
namespace Embr.Tracker

variable {body v w ip a : Bytes} {key : String} {req : Request} {store : TokenStore}
  {token url : Token} {now : TimePoint} {port : UInt16}

def Scanned (body : Bytes) (key : String) (v : Bytes) : Prop :=
  ∃ pre rest after, Splits (stringNeedle key) body pre rest ∧ Splits [quote] rest v after

def scannedInteger (body : Bytes) (key : String) : Option ℤ :=
  match find (numberNeedle key) body with
  | none => none
  | some keyPos => integer (body.drop (keyPos + (numberNeedle key).length))

theorem Scanned.get (h : Scanned body key v) : jsonGetStr body key = v := by
  obtain ⟨pre, rest, after, hkey, hval⟩ := h
  rw [jsonGetStr, hkey.find]
  dsimp only
  rw [hkey.drop, hval.find]
  dsimp only
  rw [hval.eq, List.append_assoc, List.take_left]

theorem Scanned.of_get (h : jsonGetStr body key ≠ []) :
    Scanned body key (jsonGetStr body key) := by
  cases hkey : find (stringNeedle key) body with
  | none => exact (h (by rw [jsonGetStr, hkey])).elim
  | some i =>
    cases hval : find [quote] (body.drop (i + (stringNeedle key).length)) with
    | none => exact (h (by rw [jsonGetStr, hkey]; dsimp only; rw [hval])).elim
    | some j =>
      have hs : Scanned body key _ := ⟨_, _, _, find_splits hkey, find_splits hval⟩
      rw [hs.get]
      exact hs

theorem Scanned.not_of_find (h : find (stringNeedle key) body = none) :
    ¬ Scanned body key v := by
  intro ⟨_, _, _, hkey, _⟩
  rw [hkey.find] at h
  cases h

theorem jsonGetStr_absent (h : ∀ v, ¬ Scanned body key v) : jsonGetStr body key = [] :=
  by_contra fun hne => h _ (.of_get hne)

theorem jsonGetU16_integer (h : jsonGetU16 body key ≠ 0) :
    ∃ n, scannedInteger body key = some n ∧ ((jsonGetU16 body key).toNat : ℤ) = n % 65536 := by
  rw [jsonGetU16] at h ⊢
  rw [scannedInteger]
  cases hkey : find (numberNeedle key) body with
  | none => exact (h (by rw [hkey])).elim
  | some i =>
    rw [hkey] at h
    dsimp only at h ⊢
    cases hv : stoul (body.drop (i + (numberNeedle key).length)) with
    | none => exact (h (by rw [hv])).elim
    | some v =>
      obtain ⟨n, hn, hmod⟩ := integer_of_stoul hv
      refine ⟨n, hn, ?_⟩
      have hport : (UInt16.ofNat v).toNat = v % 65536 := UInt16.toNat_ofNat
      dsimp only
      rw [hport]
      omega

def ScannedNumber (body : Bytes) (key : String) (n : ℕ) : Prop :=
  ∃ pre rest, Splits (numberNeedle key) body pre (decimal n ++ rest) ∧
    ∀ b ∈ rest.head?, isDigit b = false

theorem ScannedNumber.integer {n : ℕ} (h : ScannedNumber body key n) :
    scannedInteger body key = some n := by
  obtain ⟨pre, rest, hkey, hrest⟩ := h
  rw [scannedInteger, hkey.find]
  dsimp only
  rw [hkey.drop, Text.integer, numeral_decimal n hrest]
  rfl

theorem ScannedNumber.get (h : ScannedNumber body key port.toNat) : jsonGetU16 body key = port := by
  obtain ⟨pre, rest, hkey, hrest⟩ := h
  have hport := port.toNat_lt
  rw [jsonGetU16, hkey.find]
  dsimp only
  rw [hkey.drop, stoul_decimal (by omega) hrest]
  exact UInt16.ofNat_toNat

theorem resolvedBody_ip (ip : Bytes) (port : UInt16) :
    jsonGetStr (resolvedBody ip port) "sender_ip" = ip.takeWhile (· ≠ quote) := by
  obtain ⟨after, hafter⟩ : ∃ after, ascii "\",\"sender_port\":" ++ decimal port.toNat ++
      ascii "\x7d" = quote :: after := ⟨_, rfl⟩
  have hbody : resolvedBody ip port = ascii "\x7b" ++ stringNeedle "sender_ip" ++
      (ip ++ quote :: after) := by
    rw [← hafter]
    simp [resolvedBody, stringNeedle, ascii]
  have hkey : Splits (stringNeedle "sender_ip") (resolvedBody ip port) (ascii "\x7b")
      (ip ++ quote :: after) := by
    rw [hbody]
    exact Misses.splits (Misses.of_notMem (by decide))
  obtain ⟨v, rest, hval⟩ := exists_splits_singleton (c := quote) (l := ip ++ quote :: after)
    (by simp)
  rw [Scanned.get ⟨_, _, _, hkey, hval⟩, ← hval.takeWhile, takeWhile_append_cons]

theorem misses_value (key : String) {x y : Bytes} (hkey : quote ∉ ascii key) (hv : quote ∉ v)
    (h : v ≠ ascii key ∨ ¬ x <+: y) :
    ¬ ascii "\"" ++ ascii key ++ ascii "\"" ++ x <+: quote :: (v ++ quote :: y) := by
  intro ⟨r, hr⟩
  have hr : ascii key ++ quote :: (x ++ r) = v ++ quote :: y := by
    have hcons : quote :: (ascii key ++ quote :: (x ++ r)) = quote :: (v ++ quote :: y) := by
      rw [← hr]
      simp [ascii, quote]
    exact (List.cons.inj hcons).2
  have hl : Splits [quote] (v ++ quote :: y) (ascii key) (x ++ r) :=
    splits_singleton.mpr ⟨hr.symm, hkey⟩
  have hr : Splits [quote] (v ++ quote :: y) v y := splits_singleton.mpr ⟨rfl, hv⟩
  obtain ⟨heq, hrest⟩ := hl.unique hr
  rcases h with h | h
  · exact h heq.symm
  · exact h ⟨r, hrest⟩

theorem port_after_string {name : String} {n : ℕ} (hname : ∀ i < (ascii "\x7b\"" ++ ascii name ++
      ascii "\":").length,
    ¬ numberNeedle "sender_port" <+: (ascii "\x7b\"" ++ ascii name ++ ascii "\":").drop i ∧
      ¬ (ascii "\x7b\"" ++ ascii name ++ ascii "\":").drop i <+: numberNeedle "sender_port")
    (hv : quote ∉ v) (hbody : body = (ascii "\x7b\"" ++ ascii name ++ ascii "\":" ++ [quote] ++ v ++
      [quote, comma]) ++ numberNeedle "sender_port" ++ (decimal n ++ ascii "\x7d")) :
    ScannedNumber body "sender_port" n := by
  have hkey : Splits (numberNeedle "sender_port") body
      (ascii "\x7b\"" ++ ascii name ++ ascii "\":" ++ [quote] ++ v ++ [quote, comma])
      (decimal n ++ ascii "\x7d") := by
    rw [hbody]
    refine Misses.splits (.append (.append (.append (.of_clash hname) ?_) ?_) ?_)
    · refine .cons ?_ .nil
      exact misses_value "sender_port" (x := [58]) (by decide) hv (.inr (by simp [comma]))
    · exact .of_notMem hv
    · exact .of_clash (by decide)
  exact ⟨_, _, hkey, by intro b hb; cases hb; decide⟩

theorem resolvedBody_port (hip : quote ∉ ip) (port : UInt16) :
    ScannedNumber (resolvedBody ip port) "sender_port" port.toNat := by
  refine port_after_string (by decide : ∀ i < (ascii "\x7b\"" ++ ascii "sender_ip" ++ _).length, _)
    hip ?_
  simp [resolvedBody, numberNeedle, ascii, quote, comma]

/-- The address stands behind the first `"sender_ip":"` of the body; or nothing stands there, and
it is the first of several in `X-Forwarded-For`, or the connection comes from it without one. -/
def Filed (req : Request) (f : Bytes) : Prop :=
  Scanned req.body "sender_ip" f ∨ (∀ v, Scanned req.body "sender_ip" v → v = []) ∧
    match req.header "X-Forwarded-For" with
    | some xff => comma ∈ xff ∧ f = xff.takeWhile (· ≠ comma)
    | none => f = req.remoteAddr

/-- The integer behind the first `"sender_port":` of the body, modulo `2 ^ 16`. -/
def FiledPort (req : Request) (p : UInt16) : Prop :=
  ∃ n, scannedInteger req.body "sender_port" = some n ∧ (p.toNat : ℤ) = n % 65536

/-- A record comes through as it is if there is no quote in its address. Otherwise the address is
cut at the quote, and a `"sender_port":` behind it passes for that of the record. -/
def ReadsBack (f : Bytes) (p : UInt16) (a : Bytes) (n : ℤ) : Prop :=
  quote ∉ a ∧ (f = a ∧ n = p.toNat ∨
    ∃ after, f = a ++ quote :: after ∧
      n = (jsonGetU16 (resolvedBody f p) "sender_port").toNat)

/-- What the tracker files of the request reads back as this address and port. -/
def Shows (req : Request) (a : Bytes) (n : ℤ) : Prop :=
  a ≠ [] ∧ n ≠ 0 ∧ ∃ f p, Filed req f ∧ FiledPort req p ∧ ReadsBack f p a n

theorem clientIp_eq (req : Request) : clientIp req =
    match req.header "X-Forwarded-For" with
    | some xff => if comma ∈ xff then xff.takeWhile (· ≠ comma) else []
    | none => req.remoteAddr := by
  rw [clientIp]
  cases req.header "X-Forwarded-For" with
  | none => rfl
  | some xff =>
    dsimp only
    split_ifs with hmem
    · obtain ⟨i, hfind, htake⟩ := find_singleton_some hmem
      rw [hfind]
      exact htake
    · rw [find_singleton_none hmem]

theorem registeredIp_eq_iff {f : Bytes} (hne : f ≠ []) : registeredIp req = f ↔ Filed req f := by
  rw [registeredIp, Filed]
  by_cases hnil : jsonGetStr req.body "sender_ip" = []
  · have hnone : ∀ v, Scanned req.body "sender_ip" v → v = [] := fun v hv => hv.get.symm.trans hnil
    have hscanned : ¬ Scanned req.body "sender_ip" f := fun hf => hne (hnone f hf)
    rw [if_pos hnil, clientIp_eq]
    cases req.header "X-Forwarded-For" with
    | none =>
      dsimp only
      constructor
      · exact fun h => .inr ⟨hnone, h.symm⟩
      · exact fun h => (h.resolve_left hscanned).2.symm
    | some xff =>
      dsimp only
      constructor
      · intro h
        split_ifs at h with hmem
        · exact .inr ⟨hnone, hmem, h.symm⟩
        · exact (hne h.symm).elim
      · intro h
        obtain ⟨-, hmem, hf⟩ := h.resolve_left hscanned
        rw [if_pos hmem]
        exact hf.symm
  · rw [if_neg hnil]
    constructor
    · rintro rfl
      exact .inl (.of_get hnil)
    · rintro (hf | ⟨hnone, -⟩)
      · exact hf.get
      · exact (hnil (hnone _ (.of_get hnil))).elim

theorem filedPort_iff (hreq : Accepts req) :
    FiledPort req port ↔ jsonGetU16 req.body "sender_port" = port := by
  obtain ⟨n, hn, hmod⟩ := jsonGetU16_integer hreq.2
  constructor
  · intro ⟨m, hm, hport⟩
    cases hn.symm.trans hm
    exact UInt16.toNat_inj.mp (Int.ofNat_inj.mp (hmod.trans hport.symm))
  · rintro rfl
    exact ⟨n, hn, hmod⟩

def resolved (url token : Bytes) (req : Request) : Except Exc (Bytes × UInt16) :=
  trackerResolve url token
    (some ⟨200, resolvedBody (registeredIp req) (jsonGetU16 req.body "sender_port")⟩)

theorem resolved_eq (url token : Bytes) (req : Request) :
    resolved url token req =
      if (registeredIp req).takeWhile (· ≠ quote) = [] ∨
        jsonGetU16 (resolvedBody (registeredIp req) (jsonGetU16 req.body "sender_port"))
          "sender_port" = 0 then
        .error (.runtimeError ("tracker_resolve: malformed response: " ++ text
          (resolvedBody (registeredIp req) (jsonGetU16 req.body "sender_port"))))
      else .ok ((registeredIp req).takeWhile (· ≠ quote),
        jsonGetU16 (resolvedBody (registeredIp req) (jsonGetU16 req.body "sender_port"))
          "sender_port") := by
  rw [← resolvedBody_ip (registeredIp req) (jsonGetU16 req.body "sender_port")]
  rfl

theorem takeWhile_quote (hne : a ≠ []) {f : Bytes} (h : f.takeWhile (· ≠ quote) = a) :
    quote ∉ a ∧ (f = a ∨ ∃ after, f = a ++ quote :: after) := by
  by_cases hmem : quote ∈ f
  · obtain ⟨pre, rest, hf⟩ := exists_splits_singleton hmem
    obtain rfl : pre = a := hf.takeWhile.symm.trans h
    obtain ⟨heq, hpre⟩ := splits_singleton.mp hf
    exact ⟨hpre, .inr ⟨rest, heq⟩⟩
  · obtain rfl : f = a := (takeWhile_ne_self.mpr hmem).symm.trans h
    exact ⟨hmem, .inl rfl⟩

theorem resolved_iff (hreq : Accepts req) :
    resolved url token req = .ok (a, port) ↔ Shows req a port.toNat := by
  have hzero : ((port.toNat : ℤ) ≠ 0) ↔ port ≠ 0 :=
    not_congr (Int.natCast_eq_zero.trans ⟨fun h => UInt16.toNat_inj.mp h, fun h => h ▸ rfl⟩)
  rw [resolved_eq, Shows, hzero]
  constructor
  · intro h
    split_ifs at h with hbad
    injection h with h
    injection h with ha hport
    rw [not_or, ha, hport] at hbad
    obtain ⟨hne, hport0⟩ := hbad
    obtain ⟨hquote, hform⟩ := takeWhile_quote hne ha
    have hfiled : registeredIp req ≠ [] := by
      rintro hnil
      rw [hnil] at ha
      exact hne ha.symm
    refine ⟨hne, hport0, registeredIp req, _, (registeredIp_eq_iff hfiled).mp rfl,
      (filedPort_iff hreq).mpr rfl, hquote, ?_⟩
    rcases hform with heq | hafter
    · rw [heq, (resolvedBody_port hquote _).get] at hport
      exact .inl ⟨heq, by rw [hport]⟩
    · obtain ⟨after, hafter⟩ := hafter
      exact .inr ⟨after, hafter, by rw [hport]⟩
  · intro ⟨hne, hport0, f, p, hf, hp, hquote, hform⟩
    have hfne : f ≠ [] := by
      rintro rfl
      rcases hform with ⟨rfl, -⟩ | ⟨after, hafter, -⟩
      · exact hne rfl
      · exact List.cons_ne_nil _ _ (List.append_eq_nil_iff.mp hafter.symm).2
    have hcut : f.takeWhile (· ≠ quote) = a := by
      rcases hform with ⟨rfl, -⟩ | ⟨after, rfl, -⟩
      · exact takeWhile_ne_self.mpr hquote
      · rw [takeWhile_append_cons, takeWhile_ne_self.mpr hquote]
    have hread : jsonGetU16 (resolvedBody f p) "sender_port" = port := by
      rcases hform with ⟨rfl, hn⟩ | ⟨after, -, hn⟩
      · rw [(resolvedBody_port hquote p).get]
        exact UInt16.toNat_inj.mp (Int.ofNat_inj.mp hn.symm)
      · exact UInt16.toNat_inj.mp (Int.ofNat_inj.mp hn.symm)
    rw [(registeredIp_eq_iff hfne).mpr hf, (filedPort_iff hreq).mp hp, hcut, hread,
      if_neg (not_or.mpr ⟨hne, hport0⟩)]

theorem Shows.toNat {n : ℤ} (h : Shows req a n) : ∃ port : UInt16, n = port.toNat := by
  obtain ⟨-, -, f, p, -, -, -, ⟨-, hn⟩ | ⟨after, -, hn⟩⟩ := h
  · exact ⟨p, hn⟩
  · exact ⟨_, hn⟩

/-- A visit that registers the token or takes it out. -/
def Arrival.Touches (token : Token) (a : Arrival) : Prop :=
  match a.visit with
  | .register req => Accepts req ∧ jsonGetStr req.body "token" = token
  | .unregister req => req.pathToken = token
  | _ => False

theorem Arrival.not_changes {a : Arrival} {c : Call} (h : ¬ a.Touches token)
    (hc : a.call = some c) : ¬ c.Changes token := by
  obtain ⟨now, visit⟩ := a
  cases visit with
  | register req =>
    simp only [Arrival.call] at hc
    split_ifs at hc with hreq
    cases hc
    exact fun htoken => h ⟨hreq, htoken⟩
  | resolve req =>
    simp only [Arrival.call] at hc
    split_ifs at hc
    cases hc
    exact id
  | unregister req =>
    simp only [Arrival.call] at hc
    split_ifs at hc
    cases hc
    exact h
  | sweep =>
    cases hc
    exact id

section
variable {ttl : ℤ} {before between : List Arrival} {r : Request} {t₀ t₁ : TimePoint}

theorem resolve_registered (hreq : Accepts req) (hr : r.pathToken = jsonGetStr req.body "token")
    (hbetween : ∀ a ∈ between, ¬ a.Touches r.pathToken)
    (hchron : Chronological ((before ++ Arrival.mk t₀ (.register req) :: between ++
      [Arrival.mk t₁ (.resolve r)]).filterMap Arrival.call)) :
    (handleResolve r (serveAll (.new ttl)
        (before ++ Arrival.mk t₀ (.register req) :: between)) t₁).1 =
      if (t₁.val : ℤ) - t₀.val ≤ nanoseconds ttl then
        ⟨200, resolvedBody (registeredIp req) (jsonGetU16 req.body "sender_port")⟩
      else ⟨404, ascii "\x7b\"error\":\"token not found\"\x7d"⟩ := by
  have hvalid : validToken r.pathToken = true := hr ▸ hreq.1
  have hcall : Arrival.call ⟨t₁, .resolve r⟩ = some ⟨t₁, .resolve r.pathToken⟩ := by
    simp [Arrival.call, hvalid]
  have hfiled : Arrival.call ⟨t₀, .register req⟩ = some ⟨t₀, .upsert r.pathToken
      ⟨registeredIp req, jsonGetU16 req.body "sender_port", 0⟩⟩ := by
    simp only [Arrival.call, if_pos hreq, hr]
  have hcalls : (before ++ Arrival.mk t₀ (.register req) :: between).filterMap Arrival.call =
      before.filterMap Arrival.call ++ ⟨t₀, .upsert r.pathToken
        ⟨registeredIp req, jsonGetU16 req.body "sender_port", 0⟩⟩ ::
        between.filterMap Arrival.call := by
    rw [List.filterMap_append, List.filterMap_cons, hfiled]
  have hlast : [(⟨t₁, .resolve r⟩ : Arrival)].filterMap Arrival.call =
      [⟨t₁, .resolve r.pathToken⟩] := by
    rw [List.filterMap_cons, hcall]
    rfl
  rw [List.filterMap_append, hlast] at hchron
  have hlatest : Latest r.pathToken
      ((before ++ Arrival.mk t₀ (.register req) :: between).filterMap Arrival.call)
      ⟨registeredIp req, jsonGetU16 req.body "sender_port", t₀⟩ := by
    refine ⟨_, _, _, _, hcalls, rfl, fun c hc => ?_⟩
    obtain ⟨a, ha, hac⟩ := List.mem_filterMap.mp hc
    exact Arrival.not_changes (hbetween a ha) hac
  have hresolve : (((TokenStore.new ttl).run _).resolve r.pathToken t₁).1 = _ :=
    TokenStore.run_resolve_latest hchron hlatest
  rw [serveAll_eq]
  simp only [handleResolve, hvalid, Bool.true_eq_false, if_false, hresolve]
  split_ifs <;> rfl

end

end Embr.Tracker
