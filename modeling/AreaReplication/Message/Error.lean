import AreaReplication.Bits.Error
import AreaReplication.Message.Basic

/-!
# Limits of a receiver and faults of messages
-/
namespace AreaReplication

inductive Bound where
  | messageBytes
  | framesPerMessage
  | statesPerFrame
  | acksPerHeader
  deriving DecidableEq, Repr

def Bound.name : Bound → String
  | messageBytes => "message bytes"
  | framesPerMessage => "frames per message"
  | statesPerFrame => "states per frame"
  | acksPerHeader => "acks per header"

inductive DecodeError where
  | empty
  | malformed (cause : BitError)
  | unsupportedVersion (found : Nat)
  | unknownKind (code : Nat)
  | unexpectedKind (expected found : MessageKind)
  | limitExceeded (bound : Bound) (limit actual : Nat)
  /-- A whole byte or more is left after the last field. -/
  | trailingBits (count : Nat)
  deriving DecidableEq, Repr

namespace DecodeError

def message : DecodeError → String
  | empty => "empty message"
  | malformed cause => s!"bitstream error: {cause.message}"
  | unsupportedVersion found => s!"unsupported wire version: {found}"
  | unknownKind code => s!"unknown message kind: {code}"
  | unexpectedKind expected found => s!"expected {expected.name} message, found {found.name}"
  | limitExceeded bound limit actual => s!"{bound.name} limit exceeded: {actual} > {limit}"
  | trailingBits count => s!"{count} trailing bits after message body"

def cause? : DecodeError → Option BitError
  | malformed cause => some cause
  | _ => none

end DecodeError

inductive EncodeError where
  | countOverflow (bound : Bound) (actual : Nat)
  deriving DecidableEq, Repr

def EncodeError.message : EncodeError → String
  | countOverflow bound actual => s!"{bound.name} count {actual} does not fit the wire field"

structure Limits where
  messageBytes : Nat := 64 * 1024
  framesPerMessage : Nat := 256
  statesPerFrame : Nat := 4096
  acksPerHeader : Nat := 1024
  deriving DecidableEq, Repr

namespace Limits

def small : Limits := ⟨4096, 16, 128, 64⟩

def unbounded : Nat := UInt64.size - 1

def unlimited : Limits := ⟨unbounded, unbounded, unbounded, unbounded⟩

def get (limits : Limits) : Bound → Nat
  | .messageBytes => limits.messageBytes
  | .framesPerMessage => limits.framesPerMessage
  | .statesPerFrame => limits.statesPerFrame
  | .acksPerHeader => limits.acksPerHeader

@[simp] theorem get_unlimited (bound : Bound) : unlimited.get bound = unbounded := by
  cases bound <;> rfl

def check (limits : Limits) (bound : Bound) (actual : Nat) : Except DecodeError Unit :=
  if limits.get bound < actual then
    .error (.limitExceeded bound (limits.get bound) actual)
  else
    .ok ()

theorem check_of_le {limits : Limits} {bound : Bound} {actual : Nat}
    (h : actual ≤ limits.get bound) : limits.check bound actual = .ok () :=
  if_neg (Nat.not_lt.2 h)

theorem check_of_lt {limits : Limits} {bound : Bound} {actual : Nat}
    (h : limits.get bound < actual) :
    limits.check bound actual = .error (.limitExceeded bound (limits.get bound) actual) :=
  if_pos h

end Limits

end AreaReplication
