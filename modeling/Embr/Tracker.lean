import Embr.TokenStore
import Embr.Util
import Embr.Lib.Text

/-!
# The tracker and its clients

`util/json_parser.hpp`, `tracker/tracker_handlers.cpp` and
`tracker/tracker_client.cpp`. HTTP itself is taken as given: a handler gets the
body, the headers and the path parameter of a request, and a client gets the
response or nothing. The sweeper of `run_tracker_server` is one more visitor.
-/

open Octets Text
namespace Embr.Tracker

def quote : UInt8 := 34
def comma : UInt8 := 44

def stringNeedle (key : String) : Bytes := ascii "\"" ++ ascii key ++ ascii "\":\""

def numberNeedle (key : String) : Bytes := ascii "\"" ++ ascii key ++ ascii "\":"

def jsonGetStr (body : Bytes) (key : String) : Bytes :=
  match find (stringNeedle key) body with
  | none => []
  | some keyPos =>
    let value := body.drop (keyPos + (stringNeedle key).length)
    match find [quote] value with
    | none => []
    | some valEnd => value.take valEnd

def jsonGetU16 (body : Bytes) (key : String) : UInt16 :=
  match find (numberNeedle key) body with
  | none => 0
  | some keyPos =>
    match stoul (body.drop (keyPos + (numberNeedle key).length)) with
    | none => 0
    | some v => UInt16.ofNat v

structure Request where
  body : Bytes
  header : String → Option Bytes
  remoteAddr : Bytes
  pathToken : Bytes

structure Response where
  status : ℕ
  body : Bytes

def validToken (token : Token) : Bool :=
  if token.length ≠ tokenSize then false
  else token.all fun c => (48 ≤ c && c ≤ 57) || (97 ≤ c && c ≤ 102)

def clientIp (req : Request) : Bytes :=
  match req.header "X-Forwarded-For" with
  | some xff =>
    match find [comma] xff with
    | some commaPos => xff.take commaPos
    | none => []
  | none => req.remoteAddr

def registeredBody (ip : Bytes) : Bytes := ascii "\x7b\"sender_ip\":\"" ++ ip ++ ascii "\"\x7d"

def resolvedBody (ip : Bytes) (port : UInt16) : Bytes :=
  ascii "\x7b\"sender_ip\":\"" ++ ip ++ ascii "\",\"sender_port\":" ++ decimal port.toNat ++
    ascii "\x7d"

def handleRegister (req : Request) (store : TokenStore) (now : TimePoint) :
    Response × TokenStore :=
  let token := jsonGetStr req.body "token"
  let port := jsonGetU16 req.body "sender_port"
  let senderIp := jsonGetStr req.body "sender_ip"
  if validToken token = false ∨ port = 0 then
    (⟨400, ascii "\x7b\"error\":\"malformed token or missing port\"\x7d"⟩, store)
  else
    let ip := if senderIp = [] then clientIp req else senderIp
    (⟨200, registeredBody ip⟩, store.upsert token ⟨ip, port, 0⟩ now)

def handleResolve (req : Request) (store : TokenStore) (now : TimePoint) : Response × TokenStore :=
  if validToken req.pathToken = false then
    (⟨400, ascii "\x7b\"error\":\"malformed token\"\x7d"⟩, store)
  else
    let (record, store) := store.resolve req.pathToken now
    match record with
    | none => (⟨404, ascii "\x7b\"error\":\"token not found\"\x7d"⟩, store)
    | some record => (⟨200, resolvedBody record.senderIp record.senderPort⟩, store)

def handleUnregister (req : Request) (store : TokenStore) : Response × TokenStore :=
  if validToken req.pathToken = false then
    (⟨400, ascii "\x7b\"error\":\"malformed token\"\x7d"⟩, store)
  else (⟨204, []⟩, (store.remove req.pathToken).2)

def registerBody (token : Token) (senderPort : UInt16) : Bytes :=
  ascii "\x7b\"token\":\"" ++ token ++ ascii "\",\"sender_port\":" ++ decimal senderPort.toNat ++
    ascii "\x7d"

def trackerResolve (trackerUrl token : Bytes) (result : Option Response) :
    Except Exc (Bytes × UInt16) :=
  match result with
  | none => .error (.runtimeError ("tracker_resolve: connection failed to " ++ text trackerUrl))
  | some result =>
    if result.status = 404 then
      .error (.runtimeError ("tracker_resolve: token not found: " ++ text token))
    else if result.status ≠ 200 then
      .error (.runtimeError ("tracker_resolve: HTTP " ++ toString result.status ++ " from "
        ++ text trackerUrl))
    else
      let senderIp := jsonGetStr result.body "sender_ip"
      let senderPort := jsonGetU16 result.body "sender_port"
      if senderIp = [] ∨ senderPort = 0 then
        .error (.runtimeError ("tracker_resolve: malformed response: " ++ text result.body))
      else .ok (senderIp, senderPort)

inductive Visit
  | register (req : Request)
  | resolve (req : Request)
  | unregister (req : Request)
  | sweep

structure Arrival where
  now : TimePoint
  visit : Visit

def serve (store : TokenStore) (a : Arrival) : TokenStore :=
  match a.visit with
  | .register req => (handleRegister req store a.now).2
  | .resolve req => (handleResolve req store a.now).2
  | .unregister req => (handleUnregister req store).2
  | .sweep => (store.sweepExpired a.now).2

def serveAll (store : TokenStore) (arrivals : List Arrival) : TokenStore :=
  arrivals.foldl serve store

def registeredIp (req : Request) : Bytes :=
  if jsonGetStr req.body "sender_ip" = [] then clientIp req else jsonGetStr req.body "sender_ip"

def Accepts (req : Request) : Prop :=
  validToken (jsonGetStr req.body "token") = true ∧ jsonGetU16 req.body "sender_port" ≠ 0

instance (req : Request) : Decidable (Accepts req) := inferInstanceAs (Decidable (_ ∧ _))

/-- The call that a visit makes to the store. -/
def Arrival.call (a : Arrival) : Option Call :=
  match a.visit with
  | .register req =>
    if Accepts req then
      some ⟨a.now, .upsert (jsonGetStr req.body "token")
        ⟨registeredIp req, jsonGetU16 req.body "sender_port", 0⟩⟩
    else none
  | .resolve req => if validToken req.pathToken then some ⟨a.now, .resolve req.pathToken⟩ else none
  | .unregister req =>
    if validToken req.pathToken then some ⟨a.now, .remove req.pathToken⟩ else none
  | .sweep => some ⟨a.now, .sweepExpired⟩

theorem handleRegister_accepted {req : Request} (h : Accepts req) (store : TokenStore)
    (now : TimePoint) : handleRegister req store now = (⟨200, registeredBody (registeredIp req)⟩,
      store.upsert (jsonGetStr req.body "token")
        ⟨registeredIp req, jsonGetU16 req.body "sender_port", 0⟩ now) := by
  have hno : ¬ (validToken (jsonGetStr req.body "token") = false ∨
      jsonGetU16 req.body "sender_port" = 0) := by
    simpa [Accepts] using h
  simp only [handleRegister, if_neg hno, registeredIp]

theorem handleRegister_refused {req : Request} (h : ¬ Accepts req) (store : TokenStore)
    (now : TimePoint) : (handleRegister req store now).1.status = 400 ∧
      (handleRegister req store now).2 = store := by
  have hyes : validToken (jsonGetStr req.body "token") = false ∨
      jsonGetU16 req.body "sender_port" = 0 := by
    by_contra hno
    rw [not_or, Bool.not_eq_false] at hno
    exact h hno
  simp only [handleRegister, if_pos hyes, and_self]

theorem serve_eq (store : TokenStore) (a : Arrival) :
    serve store a = match a.call with
      | some c => store.step c
      | none => store := by
  obtain ⟨now, visit⟩ := a
  cases visit with
  | register req =>
    by_cases h : Accepts req
    · simp only [serve, Arrival.call, if_pos h, handleRegister_accepted h]
      rfl
    · simp only [serve, Arrival.call, if_neg h, (handleRegister_refused h store now).2]
  | resolve req =>
    cases h : validToken req.pathToken with
    | false => simp [serve, Arrival.call, handleResolve, h]
    | true =>
      simp only [serve, Arrival.call, handleResolve, h, Bool.true_eq_false, if_false, if_true]
      split <;> rfl
  | unregister req =>
    cases h : validToken req.pathToken with
    | false => simp [serve, Arrival.call, handleUnregister, h]
    | true => simp [serve, Arrival.call, handleUnregister, h, TokenStore.step]
  | sweep => rfl

theorem serveAll_eq (store : TokenStore) (arrivals : List Arrival) :
    serveAll store arrivals = store.run (arrivals.filterMap Arrival.call) := by
  induction arrivals generalizing store with
  | nil => rfl
  | cons a arrivals ih =>
    change serveAll (serve store a) arrivals = _
    rw [ih, serve_eq, List.filterMap_cons]
    cases a.call <;> rfl

end Embr.Tracker
