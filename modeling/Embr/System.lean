import Embr.Protocol
import Embr.Lib.Pair
import Mathlib.Logic.Function.Basic

/-!
# The process and the kernel calls it makes

The store of one process: the files it sees, its side of the connection, and a
trace of the lines it printed and the files it opened with `O_TRUNC`. A
descriptor is named by the path it was opened on; no file is opened twice at
the same time, so its offset is kept per path. A call that answers -1 is
`none` (`false` for an open) and leaves its reason in `errno`.
-/

open Octets Interact
namespace Embr.System
open Protocol (FileMeta)

inductive Line
  | pullFile (fileMeta : FileMeta)
  | pullRequesting (needed total : ℕ)
  | pullMismatch (chunk : ℕ)
  | pullReceived (count total : ℕ)
  | pullComplete (out : Path)
  | pullIncomplete (todo : ℕ)
  | pushCached
  | pushHashing (fileName : Bytes) (chunkCount workers : ℕ)
  | pushConnected (token : Bytes)
  | pushSentMeta (fileName : Bytes) (fileSize chunkCount : ℕ)
  | pushSentChunk (chunk total : ℕ)
  | pushComplete (total : ℕ)

inductive Event
  | line (l : Line)
  | truncated (path : Path)

structure World where
  errno : ℕ
  files : Path → Option Bytes
  cursor : Path → ℕ
  pipe : Option Bytes
  out : Bytes
  read : ℕ
  trace : List Event

inductive Op
  | send (buf : Bytes)
  | recv (len : ℕ)
  | sendfile (fd : Path) (offset len : ℕ)
  | pipe
  | spliceIn (len : ℕ)
  | spliceOut (fd : Path) (offset len : ℕ)
  | openRead (path : Path)
  | openReadWrite (path : Path)
  | openTrunc (path : Path)
  | ftruncate (fd : Path) (len : ℕ)
  | stat (path : Path)
  | read (fd : Path) (len : ℕ)
  | write (fd : Path) (buf : Bytes)
  | mmap (fd : Path) (offset len : ℕ)
  | unlink (path : Path)
  | print (l : Line)

abbrev Op.Reply : Op → Type
  | .send _ => Option ℕ
  | .recv _ => Option Bytes
  | .sendfile _ _ _ => Option ℕ
  | .pipe => Bool
  | .spliceIn _ => Option ℕ
  | .spliceOut _ _ _ => Option ℕ
  | .openRead _ => Bool
  | .openReadWrite _ => Bool
  | .openTrunc _ => Bool
  | .ftruncate _ _ => Bool
  | .stat _ => Option ℕ
  | .read _ _ => Option Bytes
  | .write _ _ => Option ℕ
  | .mmap _ _ _ => Option Bytes
  | .unlink _ => Unit
  | .print _ => Unit

abbrev Sys (Store Op : Type) (Reply : Op → Type) : Iface := ⟨Store, Exc, Op, Reply⟩

abbrev Os : Iface := Sys World Op Op.Reply

abbrev sys (o : Op) : Prog Os o.Reply := @Prog.ask Os o

namespace World

/-- Nothing open, nothing sent, nothing read. -/
def init (files : Path → Option Bytes) : World := ⟨0, files, fun _ => 0, none, [], 0, []⟩

def store (s : World) (path : Path) (f : Option Bytes) : World :=
  { s with files := Function.update s.files path f }

def seek (s : World) (path : Path) (pos : ℕ) : World :=
  { s with cursor := Function.update s.cursor path pos }

def log (s : World) (e : Event) : World := { s with trace := e :: s.trace }

def Refused (s s' : World) : Prop := ∃ e, s' = { s with errno := e }

def put (s : World) (bs : Bytes) : World := { s with out := s.out ++ bs }

def skip (s : World) (n : ℕ) : World := { s with read := s.read + n }

def fill (s : World) (bs : Bytes) : World := { s with pipe := some bs }

@[simp] theorem store_self (s : World) (path : Path) (f : Option Bytes) :
    (s.store path f).files path = f := Function.update_self ..
theorem store_of_ne (s : World) {path path' : Path} (f : Option Bytes) (h : path' ≠ path) :
    (s.store path f).files path' = s.files path' := Function.update_of_ne h ..
@[simp] theorem put_nil (s : World) : s.put [] = s := by simp [put]
@[simp] theorem put_put (s : World) (a b : Bytes) : (s.put a).put b = s.put (a ++ b) := by
  simp [put, List.append_assoc]
@[simp] theorem skip_zero (s : World) : s.skip 0 = s := rfl
@[simp] theorem skip_skip (s : World) (m n : ℕ) : (s.skip m).skip n = s.skip (m + n) := by
  simp [skip, Nat.add_assoc]

end World

def retry {σ β : Type} (what : String) (x : σ) : Prog Os (σ ⊕ β) := do
  let s ← .get
  if s.errno = EINTR then pure (.inl x) else .raise (.systemError what s.errno)

def throwErrno {α : Type} (what : String) : Prog Os α := do
  let s ← .get
  .raise (.systemError what s.errno)

def lift {Store Op α : Type} {Reply : Op → Type} : Except Exc α → Prog (Sys Store Op Reply) α
  | .ok a => pure a
  | .error e => .raise e

/-- What the kernel does to files. `net` answers the calls on the socket, and
`fails` says whether a call may be refused without a reason in the model. -/
def kernel (fails : Prop) (net : Env Os) : (o : Op) → World → o.Reply → World → Prop
  | .send buf, s, r, s' => net (.send buf) s r s'
  | .recv len, s, r, s' => net (.recv len) s r s'
  | .sendfile fd offset len, s, r, s' => net (.sendfile fd offset len) s r s'
  | .spliceIn len, s, r, s' => net (.spliceIn len) s r s'
  | .pipe, s, r, s' => (r = true ∧ s' = s.fill []) ∨ (r = false ∧ fails ∧ s.Refused s')
  | .spliceOut fd offset len, s, r, s' =>
      (∃ buf f k, s.pipe = some buf ∧ s.files fd = some f ∧ 0 < k ∧ k ≤ len ∧ k ≤ buf.length ∧
        r = some k ∧
        s' = (s.store fd (some (writeAt f offset (buf.take k)))).fill (buf.drop k)) ∨
      (fails ∧ r = some 0 ∧ s' = s) ∨ (fails ∧ r = none ∧ s.Refused s')
  | .openRead path, s, r, s' =>
      (r = true ∧ (s.files path).isSome ∧ s' = s.seek path 0) ∨
      (r = false ∧ (fails ∨ s.files path = none) ∧ s.Refused s')
  | .openReadWrite path, s, r, s' =>
      (r = true ∧ (s.files path).isSome ∧ s' = s.seek path 0) ∨
      (r = false ∧ (fails ∨ s.files path = none) ∧ s.Refused s')
  | .openTrunc path, s, r, s' =>
      (r = true ∧ s' = ((s.store path (some [])).seek path 0).log (.truncated path)) ∨
      (r = false ∧ fails ∧ s.Refused s')
  | .ftruncate fd len, s, r, s' =>
      (∃ f, s.files fd = some f ∧ r = true ∧ s' = s.store fd (some (resize f len))) ∨
      (r = false ∧ fails ∧ s.Refused s')
  | .stat path, s, r, s' =>
      (∃ f, s.files path = some f ∧ r = some f.length ∧ s' = s) ∨
      (r = none ∧ (fails ∨ s.files path = none) ∧ s.Refused s')
  | .read fd len, s, r, s' =>
      (∃ f bs, s.files fd = some f ∧ bs <+: f.drop (s.cursor fd) ∧ bs.length ≤ len ∧
        (bs = [] → len = 0 ∨ f.length ≤ s.cursor fd) ∧
        r = some bs ∧ s' = s.seek fd (s.cursor fd + bs.length)) ∨
      (r = none ∧ fails ∧ s.Refused s')
  | .write fd buf, s, r, s' =>
      (∃ f k, s.files fd = some f ∧ k ≤ buf.length ∧ (k = 0 → fails) ∧ r = some k ∧
        s' = (s.store fd (some (writeAt f (s.cursor fd) (buf.take k)))).seek fd
          (s.cursor fd + k)) ∨
      (r = none ∧ fails ∧ s.Refused s')
  | .mmap fd offset len, s, r, s' =>
      (∃ f bs, s.files fd = some f ∧ 0 < len ∧ bs.length = len ∧
        (offset + len ≤ f.length → bs = slice f offset len) ∧ r = some bs ∧ s' = s) ∨
      (r = none ∧ (fails ∨ len = 0) ∧ s.Refused s')
  | .unlink path, s, _, s' => s' = s.store path none ∨ (fails ∧ s.Refused s')
  | .print l, s, _, s' => s' = s.log (.line l)

end Embr.System
