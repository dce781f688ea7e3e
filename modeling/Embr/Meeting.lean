import Embr.TrackerClient

/-!
# Where sender and receiver meet

Any number of trackers, each with everything that has come to it so far, and clients that reach
them over a network that loses requests and answers. A client that got no answer does not know
whether its request came through. What others ask of the trackers in the meantime is arbitrary.
-/

open Octets Interact Text
open Embr.System (lift)
open Embr.Tracker hiding trackerResolve
open Embr.TrackerClient
namespace Embr.Meeting

variable {Site : Type}

/-- What has come to each tracker. -/
abbrev Net (Site : Type) := Site → List Arrival

namespace Net

/-- More has come in, and no clock has run backwards. -/
def Grows (n t : Net Site) : Prop :=
  ∀ k, n k <+: t k ∧ Chronological ((t k).filterMap Arrival.call)

/-- What has come to a tracker since then. -/
def since (n t : Net Site) (k : Site) : List Arrival := (t k).drop (n k).length

end Net

/-- Which tracker a host and a port lead to, what a router makes of the end of a path, and how long
the trackers keep a token. A token of hexadecimal digits is not escaped. -/
structure Wire (Site : Type) where
  site : ParsedUrl → Option Site
  param : Bytes → Bytes → Option Bytes
  ttl : Site → ℤ
  hex : ∀ pattern token, validToken token = true → param pattern (pattern ++ token) = some token

structure Plain (addr : Bytes) : Prop where
  nonempty : addr ≠ []
  unquoted : quote ∉ addr

def Op.server : TrackerClient.Op → ParsedUrl
  | .post server _ _ => server
  | .get server _ => server

def Wire.route (w : Wire Site) (remoteAddr : Bytes) : TrackerClient.Op → Option Visit
  | .post _ path body =>
    if path = ascii "/register" then some (.register ⟨body, fun _ => none, remoteAddr, []⟩)
    else (w.param (ascii "/unregister/") path).map fun token =>
      .unregister ⟨body, fun _ => none, remoteAddr, token⟩
  | .get _ path => (w.param (ascii "/resolve/") path).map fun token =>
      .resolve ⟨[], fun _ => none, remoteAddr, token⟩

def respond (ttl : ℤ) (arrivals : List Arrival) (a : Arrival) : Response :=
  match a.visit with
  | .register req => (handleRegister req (serveAll (.new ttl) arrivals) a.now).1
  | .resolve req => (handleResolve req (serveAll (.new ttl) arrivals) a.now).1
  | .unregister req => (handleUnregister req (serveAll (.new ttl) arrivals)).1
  | .sweep => ⟨404, []⟩

/-- One request. Anybody may ask anything before it and after it. -/
inductive Exchange (w : Wire Site) (o : TrackerClient.Op) (n : Net Site) :
    Option Response → Net Site → Prop where
  | lost {t : Net Site} : n.Grows t → Exchange w o n none t
  | elsewhere {t : Net Site} (r : Option Response) : w.site (Op.server o) = none → n.Grows t →
      Exchange w o n r t
  | unrouted {t : Net Site} {addr : Bytes} : w.route addr o = none → n.Grows t →
      Exchange w o n (some ⟨404, []⟩) t
  | served {k : Site} {u t : Net Site} {addr : Bytes} {visit : Visit} {now : TimePoint}
      {rest : List Arrival} {r : Option Response} : w.site (Op.server o) = some k → Plain addr →
      w.route addr o = some visit → n.Grows u → u.Grows t → t k = u k ++ ⟨now, visit⟩ :: rest →
      (r = none ∨ r = some (respond (w.ttl k) (u k) ⟨now, visit⟩)) → Exchange w o n r t

abbrev net (w : Wire Site) : Env (Http (Net Site)) := fun o n r t => Exchange w o n r t

variable {w : Wire Site} {k : Site} {server : ParsedUrl} {url token : Bytes} {port : UInt16}
  {n m t u : Net Site} {a : Arrival}

theorem Net.Grows.trans (h : n.Grows u) (h' : u.Grows t) : n.Grows t :=
  fun k => ⟨(h k).1.trans (h' k).1, (h' k).2⟩

theorem Net.Grows.since (h : n.Grows t) (k : Site) : t k = n k ++ n.since t k := by
  obtain ⟨rest, hrest⟩ := (h k).1
  rw [Net.since, ← hrest, List.drop_left' rfl]

theorem Net.Grows.since_trans (h : n.Grows u) (h' : u.Grows t) (k : Site) :
    n.since t k = n.since u k ++ u.since t k := by
  rw [Net.since, h'.since k, h.since k, List.append_assoc, List.drop_left' rfl]

theorem Net.Grows.came {rest : List Arrival} (h : n.Grows u) (ht : t k = u k ++ a :: rest) :
    n.since t k = n.since u k ++ a :: rest := by
  rw [Net.since, ht, h.since k, List.append_assoc, List.drop_left' rfl]

def Registered (token : Token) (port : UInt16) (n t : Net Site) (k : Site) : Prop :=
  n.Grows t ∧ ∃ addr now, Plain addr ∧
    ⟨now, .register (pushed token port addr)⟩ ∈ n.since t k

theorem register_sat (hurl : parseUrl url = .ok server) (hsite : w.site server = some k) :
    Sat (net w) (fun _ _ => True) (fun _ _ => True) (trackerRegister url token port)
      (fun _ t => Registered token port n t k) n := by
  rw [trackerRegister, hurl]
  refine sat_ask_bind.mpr ⟨trivial, fun r t hr => ?_⟩
  cases r with
  | none => exact sat_raise.mpr ⟨trivial, trivial⟩
  | some result =>
    by_cases hstatus : result.status = 200
    · simp only [if_neg (not_not.mpr hstatus)]
      refine sat_pure.mpr ⟨trivial, ?_⟩
      cases hr with
      | elsewhere _ hnone => cases hnone.symm.trans hsite
      | unrouted => cases hstatus
      | @served _ u _ addr _ now _ _ hk haddr hroute hu ht hlog =>
        cases hk.symm.trans hsite
        cases hroute
        refine ⟨hu.trans ht, addr, now, haddr, ?_⟩
        rw [hu.came hlog]
        exact List.mem_append_right _ List.mem_cons_self
    · simp only [if_pos hstatus]
      exact sat_raise.mpr ⟨trivial, trivial⟩

def connectionFailed (url : Bytes) : Exc :=
  .runtimeError ("tracker_resolve: connection failed to " ++ text url)

def notFound (token : Bytes) : Exc :=
  .runtimeError ("tracker_resolve: token not found: " ++ text token)

/-- How `tracker_resolve` ends: there was no answer, or it is the one of the tracker as it was. -/
def Resolved (w : Wire Site) (url token : Bytes) (n t : Net Site) (k : Site)
    (r : Except Exc (Bytes × UInt16)) : Prop :=
  r = .error (connectionFailed url) ∨ ∃ u now req rest, n.Grows u ∧ u.Grows t ∧
    req.pathToken = token ∧ t k = u k ++ ⟨now, .resolve req⟩ :: rest ∧
    r = Tracker.trackerResolve url token
      (some (handleResolve req (serveAll (.new (w.ttl k)) (u k)) now).1)

theorem resolve_sat (hvalid : validToken token = true) (hurl : parseUrl url = .ok server)
    (hsite : w.site server = some k) :
    Sat (net w) (fun _ _ => True) (fun e t => Resolved w url token n t k (.error e))
      (trackerResolve url token) (fun a t => Resolved w url token n t k (.ok a)) n := by
  rw [trackerResolve, hurl]
  refine sat_ask_bind.mpr ⟨trivial, fun r t hr => ?_⟩
  have hfate : Resolved w url token n t k (Tracker.trackerResolve url token r) := by
    cases hr with
    | lost => exact .inl rfl
    | elsewhere _ hnone => cases hnone.symm.trans hsite
    | unrouted hroute =>
      rw [Wire.route, w.hex _ _ hvalid] at hroute
      cases hroute
    | served hk haddr hroute hu ht hlog hanswer =>
      cases hk.symm.trans hsite
      rw [Wire.route, w.hex _ _ hvalid] at hroute
      cases hroute
      rcases hanswer with rfl | rfl
      · exact .inl rfl
      · exact .inr ⟨_, _, _, _, hu, ht, rfl, hlog, rfl⟩
  cases hlift : Tracker.trackerResolve url token r with
  | error e => exact sat_raise.mpr ⟨trivial, hlift ▸ hfate⟩
  | ok a => exact sat_pure.mpr ⟨trivial, hlift ▸ hfate⟩

theorem resolved_pushed {addr : Bytes} (hvalid : validToken token = true) (hport : port ≠ 0)
    (haddr : Plain addr) : resolved url token (pushed token port addr) = .ok (addr, port) :=
  (resolved_iff (pushed_accepted hvalid hport addr)).mpr
    (pushed_shows hvalid hport haddr.nonempty haddr.unquoted)

theorem exists_last_touch {arrivals : List Arrival} (h : ∃ a ∈ arrivals, a.Touches token) :
    ∃ before a after, arrivals = before ++ a :: after ∧ a.Touches token ∧
      ∀ b ∈ after, ¬ b.Touches token := by
  induction arrivals using List.reverseRecOn with
  | nil =>
    obtain ⟨a, ha, -⟩ := h
    cases ha
  | append_singleton arrivals b ih =>
    by_cases hb : b.Touches token
    · exact ⟨arrivals, b, [], rfl, hb, fun c hc => absurd hc List.not_mem_nil⟩
    · have hearlier : ∃ a ∈ arrivals, a.Touches token := by
        obtain ⟨a, ha, htouch⟩ := h
        rcases List.mem_append.mp ha with ha | ha
        · exact ⟨a, ha, htouch⟩
        · rw [List.mem_singleton.mp ha] at htouch
          exact (hb htouch).elim
      obtain ⟨before, a, after, rfl, ha, hafter⟩ := ih hearlier
      refine ⟨before, a, after ++ [b], by simp, ha, fun c hc => ?_⟩
      rcases List.mem_append.mp hc with hc | hc
      · exact hafter c hc
      · rw [List.mem_singleton.mp hc]
        exact hb

theorem pushed_token {addr : Bytes} (hvalid : validToken token = true) :
    jsonGetStr (pushed token port addr).body "token" = token :=
  (registerBody_token (quote_notMem_of_validToken hvalid) port).get

/-- The tracker was as in `u` when it answered the request, and the last visit since `n` that
touched the token was this registration. -/
def Answered (w : Wire Site) (url token : Bytes) (port : UInt16) (n m u t : Net Site) (k : Site)
    (addr : Bytes) (t₀ t₁ : TimePoint) (req : Request) (r : Except Exc (Bytes × UInt16)) : Prop :=
  m.Grows u ∧ u.Grows t ∧ req.pathToken = token ∧
    (∃ rest, t k = u k ++ ⟨t₁, .resolve req⟩ :: rest) ∧
    r = Tracker.trackerResolve url token (some (respond (w.ttl k) (u k) ⟨t₁, .resolve req⟩)) ∧
    ∃ before after, n.since u k = before ++ ⟨t₀, .register (pushed token port addr)⟩ :: after ∧
      ∀ a ∈ after, ¬ a.Touches token

theorem Resolved.of_senders {m' : Net Site} {r : Except Exc (Bytes × UInt16)}
    (hvalid : validToken token = true) (hport : port ≠ 0) (hregistered : Registered token port n m k)
    (hmeanwhile : m.Grows m') (h : Resolved w url token m' t k r)
    (halone : ∀ a ∈ n.since t k, a.Touches token →
      ∃ addr, Plain addr ∧ a.visit = .register (pushed token port addr)) :
    r = .error (connectionFailed url) ∨ ∃ u addr t₀ t₁ req, Plain addr ∧
      Answered w url token port n m' u t k addr t₀ t₁ req r ∧
      r = if (t₁.val : ℤ) - t₀.val ≤ nanoseconds (w.ttl k) then .ok (addr, port)
        else .error (notFound token) := by
  rcases h with hlost | ⟨u, now, req, rest, hu, ht, hreq, hlog, hr⟩
  · exact .inl hlost
  obtain ⟨hm, addr₀, now₀, -, hmem⟩ := hregistered
  have hnu : n.Grows u := (hm.trans hmeanwhile).trans hu
  have htouched : ∃ a ∈ n.since u k, a.Touches token := by
    refine ⟨⟨now₀, .register (pushed token port addr₀)⟩, ?_, pushed_accepted hvalid hport addr₀,
      pushed_token hvalid⟩
    rw [(hm.trans hmeanwhile).since_trans hu, hm.since_trans hmeanwhile]
    exact List.mem_append_left _ (List.mem_append_left _ hmem)
  obtain ⟨before, ⟨t₀, visit⟩, after, hsince, hlast, hafter⟩ := exists_last_touch htouched
  have hthere : (⟨t₀, visit⟩ : Arrival) ∈ n.since t k := by
    rw [hnu.since_trans ht, hsince]
    simp
  obtain ⟨addr, haddr, hvisit⟩ := halone _ hthere hlast
  have hvisit : visit = .register (pushed token port addr) := hvisit
  subst hvisit
  have hbefore : u k = n k ++ before ++ ⟨t₀, .register (pushed token port addr)⟩ :: after := by
    rw [hnu.since k, hsince, List.append_assoc]
  have hchron : Chronological
      ((u k ++ [(⟨now, .resolve req⟩ : Arrival)]).filterMap Arrival.call) := by
    have hall := (ht k).2
    rw [hlog, ← List.singleton_append, ← List.append_assoc, List.filterMap_append] at hall
    exact hall.sublist (List.sublist_append_left _ _)
  have hanswer := hr
  rw [hbefore] at hchron hr
  rw [resolve_registered (pushed_accepted hvalid hport addr)
    (hreq.trans (pushed_token hvalid).symm) (fun a ha => hreq.symm ▸ hafter a ha) hchron] at hr
  refine .inr ⟨u, addr, t₀, now, req, haddr, ⟨hu, ht, hreq, ⟨rest, hlog⟩, hanswer, before, after,
    hsince, hafter⟩, ?_⟩
  · rw [hr]
    split_ifs
    · exact resolved_pushed hvalid hport haddr
    · rfl

/-- A sender whose `tracker_register` returned is found by every `tracker_resolve` whose URL leads
to the same tracker, if it is answered at all and the token is not too old, as long as nobody else
registers it otherwise or unregisters it. -/
theorem register_then_resolve (w : Wire Site) (url url' token : Bytes)
    (server server' : ParsedUrl) (k : Site) (port : UInt16) (n m m' t : Net Site)
    (q : Prog (Http (Net Site)) (Bytes × UInt16)) (hvalid : validToken token = true)
    (hport : port ≠ 0) (hurl : parseUrl url = .ok server) (hurl' : parseUrl url' = .ok server')
    (hsite : w.site server = some k) (hsite' : w.site server' = some k)
    (hregister : Reaches (net w) (trackerRegister url token port, n) (.ret (), m))
    (hmeanwhile : m.Grows m')
    (hresolve : Reaches (net w) (trackerResolve url' token, m') (q, t)) (hdone : q.Done)
    (halone : ∀ a ∈ n.since t k, a.Touches token →
      ∃ addr, Plain addr ∧ a.visit = .register (pushed token port addr)) :
    q = .raise (connectionFailed url') ∨ ∃ r, q = lift r ∧ ∃ u addr t₀ t₁ req, Plain addr ∧
      Answered w url' token port n m' u t k addr t₀ t₁ req r ∧
      r = if (t₁.val : ℤ) - t₀.val ≤ nanoseconds (w.ttl k) then .ok (addr, port)
        else .error (notFound token) := by
  have hregistered : Registered token port n m k := (register_sat hurl hsite).returned hregister
  obtain ⟨r, rfl, hr⟩ : ∃ r, q = lift r ∧ Resolved w url' token m' t k r := by
    cases q with
    | ret a => exact ⟨.ok a, rfl, (resolve_sat hvalid hurl' hsite').returned hresolve⟩
    | raise e => exact ⟨.error e, rfl, (resolve_sat hvalid hurl' hsite').raised hresolve⟩
    | _ => exact hdone.elim
  rcases hr.of_senders hvalid hport hregistered hmeanwhile halone with
    rfl | hanswered
  · exact .inl rfl
  · exact .inr ⟨r, rfl, hanswered⟩

def tail (pattern path : Bytes) : Option Bytes :=
  if path.take pattern.length = pattern then some (path.drop pattern.length) else none

def one : Wire Unit where
  site _ := some ()
  param := tail
  ttl _ := 10
  hex pattern token _ := by
    rw [tail, List.take_left' rfl, if_pos rfl, List.drop_left' rfl]

def oneToken : Bytes := ascii "3a7b4e2f1c9d8a6b"

def filed : Arrival := ⟨⟨0, by decide⟩, .register (pushed oneToken 4747 (ascii "10.0.0.1"))⟩

def asked : Arrival :=
  ⟨⟨5, by decide⟩, .resolve ⟨[], fun _ => none, ascii "10.0.0.2", oneToken⟩⟩

def logged (arrivals : List Arrival) : Net Unit := fun _ => arrivals

theorem grows_logged (before after : List Arrival)
    (hchron : Chronological ((before ++ after).filterMap Arrival.call)) :
    (logged before).Grows (logged (before ++ after)) :=
  fun _ => ⟨List.prefix_append before after, hchron⟩

theorem parseUrl_one : parseUrl (ascii "http://t") = .ok ⟨ascii "t", 10009⟩ := by decide

theorem plain_one : Plain (ascii "10.0.0.1") := ⟨by decide, by decide⟩

theorem plain_two : Plain (ascii "10.0.0.2") := ⟨by decide, by decide⟩

theorem grows_filed : (logged []).Grows (logged [filed]) :=
  grows_logged [] [filed] (List.pairwise_singleton _ _)

theorem grows_asked : (logged [filed]).Grows (logged [filed, asked]) :=
  grows_logged [filed] [asked] (chronological_pair id)

theorem register_one : Reaches (net one) (trackerRegister (ascii "http://t") oneToken 4747,
    logged []) (.ret (), logged [filed]) := by
  have hserved : net one (.post ⟨ascii "t", 10009⟩ (ascii "/register") (registerBody oneToken 4747))
      (logged []) (some (respond 10 [] filed)) (logged [filed]) :=
    .served rfl plain_one rfl (fun k => ⟨List.prefix_rfl, .nil⟩) grows_filed rfl (.inr rfl)
  rw [trackerRegister, parseUrl_one]
  exact .head (.call hserved) .refl

theorem resolve_one : Reaches (net one) (trackerResolve (ascii "http://t") oneToken,
    logged [filed]) (.ret (ascii "10.0.0.1", 4747), logged [filed, asked]) := by
  have hserved : net one (.get ⟨ascii "t", 10009⟩ (ascii "/resolve/" ++ oneToken))
      (logged [filed]) (some (respond 10 [filed] asked)) (logged [filed, asked]) :=
    .served rfl plain_two rfl
      (fun k => ⟨List.prefix_rfl, List.pairwise_singleton _ _⟩) grows_asked rfl (.inr rfl)
  have hanswer : Tracker.trackerResolve (ascii "http://t") oneToken
      (some (respond 10 [filed] asked)) = .ok (ascii "10.0.0.1", 4747) := by decide
  rw [trackerResolve, parseUrl_one]
  refine .head (.call hserved) ?_
  rw [Prog.bind, hanswer]
  exact .refl

theorem register_then_resolve_one : ∃ r,
    (.ret (ascii "10.0.0.1", 4747) : Prog (Http (Net Unit)) (Bytes × UInt16)) = lift r ∧
    ∃ u addr t₀ t₁ req, Plain addr ∧
      Answered one (ascii "http://t") oneToken 4747 (logged []) (logged [filed]) u
        (logged [filed, asked]) () addr t₀ t₁ req r ∧
      r = if (t₁.val : ℤ) - t₀.val ≤ nanoseconds 10 then .ok (addr, 4747)
        else .error (notFound oneToken) := by
  have halone : ∀ a ∈ (logged []).since (logged [filed, asked]) (), a.Touches oneToken →
      ∃ addr, Plain addr ∧ a.visit = .register (pushed oneToken 4747 addr) := by
    intro a ha htouch
    rcases List.mem_cons.mp ha with rfl | ha
    · exact ⟨_, plain_one, rfl⟩
    · rw [List.mem_singleton.mp ha] at htouch
      exact htouch.elim
  have hfate := register_then_resolve one (ascii "http://t") (ascii "http://t") oneToken
    ⟨ascii "t", 10009⟩ ⟨ascii "t", 10009⟩ () 4747 (logged []) (logged [filed]) (logged [filed])
    (logged [filed, asked]) (.ret (ascii "10.0.0.1", 4747)) (by decide) (by decide) parseUrl_one
    parseUrl_one rfl rfl register_one (fun _ => ⟨List.prefix_rfl, List.pairwise_singleton _ _⟩)
    resolve_one trivial halone
  rcases hfate with hraise | hfound
  · cases hraise
  · exact hfound

end Embr.Meeting
