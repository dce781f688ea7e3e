import Embr.Cli

/-!
# The clients of the tracker

`tracker/tracker_client.cpp`. A request goes to the server that the URL names, and there is an
answer or none. A URL is a host and a port behind an optional `http://`; what follows the last
colon is the port.
-/

open Octets Interact Text
open Embr.System (Sys lift)
namespace Embr.TrackerClient
open Cli (stoi trackerPort)
open Tracker (Token Response registerBody)

def httpPrefix : Bytes := ascii "http://"
def colon : UInt8 := 58

def rfind (c : UInt8) (str : Bytes) : Option ℕ :=
  (find [c] str.reverse).map fun i => str.length - 1 - i

structure ParsedUrl where
  trackerHost : Bytes
  trackerPort : ℤ
  deriving DecidableEq

def parseUrl (trackerUrl : Bytes) : Except Exc ParsedUrl :=
  let start := if trackerUrl.take httpPrefix.length = httpPrefix then httpPrefix.length else 0
  match rfind colon trackerUrl with
  | none => .ok ⟨trackerUrl.drop start, trackerPort.toNat⟩
  | some colonPos =>
    if colonPos < start then .ok ⟨trackerUrl.drop start, trackerPort.toNat⟩
    else
      match stoi (trackerUrl.drop (colonPos + 1)) with
      | .error e => .error e
      | .ok port => .ok ⟨slice trackerUrl start (colonPos - start), port⟩

inductive Op
  | post (server : ParsedUrl) (path body : Bytes)
  | get (server : ParsedUrl) (path : Bytes)

abbrev Op.Reply (_ : Op) : Type := Option Response

section clients
variable {Net : Type}

abbrev Http (Net : Type) : Iface := Sys Net Op Op.Reply

abbrev http (o : Op) : Prog (Http Net) (Option Response) := @Prog.ask (Http Net) o

def trackerRegister (trackerUrl token : Bytes) (senderPort : UInt16) : Prog (Http Net) Unit := do
  let server ← lift (parseUrl trackerUrl)
  match ← http (.post server (ascii "/register") (registerBody token senderPort)) with
  | none =>
    .raise (.runtimeError ("tracker_register: connection failed to " ++ text trackerUrl))
  | some result =>
    if result.status ≠ 200 then
      .raise (.runtimeError ("tracker_register: HTTP " ++ toString result.status ++ " from "
        ++ text trackerUrl))
    else pure ()

def trackerResolve (trackerUrl token : Bytes) : Prog (Http Net) (Bytes × UInt16) := do
  let server ← lift (parseUrl trackerUrl)
  let result ← http (.get server (ascii "/resolve/" ++ token))
  lift (Tracker.trackerResolve trackerUrl token result)

def trackerUnregister (trackerUrl token : Bytes) : Prog (Http Net) Unit := do
  let _ ← (do
    let server ← lift (parseUrl trackerUrl)
    let _ ← http (.post server (ascii "/unregister/" ++ token) [])
    pure () : Prog (Http Net) Unit).attempt
  pure ()

end clients

variable {url host rest pre digits : Bytes} {port : ℤ} {c : UInt8} {e : Exc}

theorem rfind_none (h : c ∉ url) : rfind c url = none := by
  rw [rfind, find_singleton_none (by simpa using h)]
  rfl

theorem rfind_last (h : c ∉ rest) : rfind c (pre ++ c :: rest) = some pre.length := by
  have hsplits : Splits [c] (pre ++ c :: rest).reverse rest.reverse pre.reverse :=
    splits_singleton.mpr ⟨by simp, by simpa using h⟩
  rw [rfind, hsplits.find]
  simp

/-- The URL without `http://`. -/
def bare (url : Bytes) : Bytes :=
  if url.take httpPrefix.length = httpPrefix then url.drop httpPrefix.length else url

theorem exists_start (url : Bytes) : ∃ pre, url = pre ++ bare url ∧
    (if url.take httpPrefix.length = httpPrefix then httpPrefix.length else 0) = pre.length ∧
    (pre = [] ∨ pre = httpPrefix) := by
  rw [bare]
  split_ifs with hprefix
  · refine ⟨httpPrefix, ?_, rfl, .inr rfl⟩
    conv_lhs => rw [← List.take_append_drop httpPrefix.length url, hprefix]
  · exact ⟨[], rfl, rfl, .inl rfl⟩

theorem parseUrl_host (h : colon ∉ bare url) :
    parseUrl url = .ok ⟨bare url, trackerPort.toNat⟩ := by
  obtain ⟨pre, hurl, hstart, hpre⟩ := exists_start url
  generalize hrest : bare url = rest at *
  rw [parseUrl, hstart, hurl, List.drop_left' rfl]
  rcases hpre with rfl | rfl
  · rw [List.nil_append, rfind_none h]
  · have hlast : rfind colon (httpPrefix ++ rest) = some 4 := by
      have hslashes : colon ∉ ascii "//" ++ rest := by
        rw [List.mem_append, not_or]
        exact ⟨by decide, h⟩
      change rfind colon (ascii "http" ++ colon :: (ascii "//" ++ rest)) = some (ascii "http").length
      exact rfind_last hslashes
    rw [hlast]
    exact if_pos (by decide)

theorem parseUrl_port (h : bare url = host ++ colon :: digits) (hdigits : colon ∉ digits) :
    parseUrl url = (stoi digits).map fun port => ⟨host, port⟩ := by
  obtain ⟨pre, hurl, hstart, -⟩ := exists_start url
  rw [h, ← List.append_assoc] at hurl
  have hlen : (pre ++ host).length = pre.length + host.length := List.length_append
  have hbehind : url.drop ((pre ++ host).length + 1) = digits := by
    rw [hurl, ← List.drop_drop, List.drop_left' rfl]
    rfl
  have hfront : slice url pre.length ((pre ++ host).length - pre.length) = host := by
    rw [hurl, hlen, Nat.add_sub_cancel_left, List.append_assoc, slice, List.drop_left' rfl,
      List.take_left' rfl]
  have hlast : rfind colon url = some (pre ++ host).length := hurl ▸ rfind_last hdigits
  rw [parseUrl, hstart, hlast]
  dsimp only
  rw [if_neg (by omega), hbehind, hfront]
  cases stoi digits <;> rfl

theorem parseUrl_ok (h : bare url = host ++ colon :: digits) (hdigits : colon ∉ digits)
    {server : ParsedUrl} :
    parseUrl url = .ok server ↔ ∃ port, stoi digits = .ok port ∧ server = ⟨host, port⟩ := by
  rw [parseUrl_port h hdigits]
  cases stoi digits with
  | error e => simp [Except.map]
  | ok port => simp [Except.map, eq_comm]

theorem parseUrl_error (h : bare url = host ++ colon :: digits) (hdigits : colon ∉ digits) :
    parseUrl url = .error e ↔ stoi digits = .error e := by
  rw [parseUrl_port h hdigits]
  cases stoi digits with
  | error e' => simp [Except.map]
  | ok port => simp [Except.map]

theorem exists_last (h : c ∈ rest) : ∃ pre suf, rest = pre ++ c :: suf ∧ c ∉ suf := by
  obtain ⟨suf, pre, heq, hsuf⟩ := List.eq_append_cons_of_mem (List.mem_reverse.mpr h)
  refine ⟨pre.reverse, suf.reverse, ?_, by simpa using hsuf⟩
  rw [← List.reverse_reverse rest, heq]
  simp

/-- Every URL names one server, unless what stands behind its last colon is no `int`. -/
theorem parse_url_names (url : Bytes) :
    (∀ host port, parseUrl url = .ok ⟨host, port⟩ ↔
      (colon ∉ bare url ∧ host = bare url ∧ port = 10009) ∨
      ∃ digits, bare url = host ++ colon :: digits ∧ colon ∉ digits ∧ stoi digits = .ok port) ∧
    ∀ e, parseUrl url = .error e ↔
      ∃ host digits, bare url = host ++ colon :: digits ∧ colon ∉ digits ∧
        stoi digits = .error e := by
  by_cases hcolon : colon ∈ bare url
  · obtain ⟨host, digits, hbare, hdigits⟩ := exists_last hcolon
    refine ⟨fun host' port => ⟨fun h => ?_, ?_⟩, fun e => ⟨fun h => ?_, ?_⟩⟩
    · obtain ⟨port', hport, hserver⟩ := (parseUrl_ok hbare hdigits).mp h
      cases hserver
      exact .inr ⟨digits, hbare, hdigits, hport⟩
    · rintro (⟨hno, -⟩ | ⟨digits', hbare', hdigits', hport⟩)
      · exact (hno hcolon).elim
      · exact (parseUrl_ok hbare' hdigits').mpr ⟨port, hport, rfl⟩
    · exact ⟨host, digits, hbare, hdigits, (parseUrl_error hbare hdigits).mp h⟩
    · intro ⟨host', digits', hbare', hdigits', hport⟩
      exact (parseUrl_error hbare' hdigits').mpr hport
  · have hparse := parseUrl_host hcolon
    have hno : ∀ host digits, bare url ≠ host ++ colon :: digits := by
      intro host digits hbare
      exact hcolon (by simp [hbare])
    refine ⟨fun host port => ⟨fun h => ?_, ?_⟩, fun e => ⟨fun h => ?_, ?_⟩⟩
    · cases hparse.symm.trans h
      exact .inl ⟨hcolon, rfl, rfl⟩
    · rintro (⟨-, rfl, rfl⟩ | ⟨digits, hbare, -⟩)
      · exact hparse
      · exact (hno _ _ hbare).elim
    · cases hparse.symm.trans h
    · intro ⟨host, digits, hbare, _⟩
      exact (hno _ _ hbare).elim

end Embr.TrackerClient
