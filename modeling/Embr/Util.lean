import Embr.Lib.Bytes

/-!
# Constants, error numbers and exceptions

`util/constants.hpp`, the error numbers the transports look at, and the
exceptions thrown. A `systemError` is a `std::runtime_error` whose text ends in
`std::strerror` of the number it carries.
-/

open Octets
namespace Embr

/-- A `std::string` that names a file. -/
abbrev Path := Bytes

/-- A `std::string` as it appears inside a message. -/
def text (bs : Bytes) : String := String.ofList (bs.map fun b => Char.ofNat b.toNat)

def hashSize : ℕ := 32
def chunkSize : ℕ := 1048576
def tokenSize : ℕ := 16

def ENOENT : ℕ := 2
def EINTR : ℕ := 4
def EIO : ℕ := 5
def EAGAIN : ℕ := 11
def EWOULDBLOCK : ℕ := 11
def ENOMEM : ℕ := 12
def ENOTDIR : ℕ := 20
def EINVAL : ℕ := 22
def EOPNOTSUPP : ℕ := 95
def ENETUNREACH : ℕ := 101
def ECONNABORTED : ℕ := 103
def ENOBUFS : ℕ := 105
def ENOTCONN : ℕ := 107
def ECONNREFUSED : ℕ := 111
def EHOSTUNREACH : ℕ := 113

inductive Exc
  | runtimeError (what : String)
  | systemError (what : String) (errno : ℕ)
  | outOfRange (what : String)
  | logicError (what : String)
  | invalidArgument (what : String)
  deriving DecidableEq, Repr

end Embr
