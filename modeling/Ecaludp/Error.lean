import Mathlib

/-!
# Errors

The error object that the receive functions take by reference and assign.
-/

namespace Ecaludp

/-- `Error::ErrorCode`. -/
inductive ErrorCode where
  | ok
  | genericError
  | unsupportedProtocolVersion
  | duplicateDatagram
  | malformedDatagram
  | malformedReassembledMessage
  | npcapNotInitialized
  | notBound
  | socketClosed
  deriving DecidableEq, Repr

/-- `ecaludp::Error`. -/
structure Error where
  errorCode : ErrorCode
  message : String := ""
  deriving DecidableEq, Repr

namespace Error

/-- `operator bool`: anything but `OK` counts as an error. -/
def toBool (e : Error) : Bool := e.errorCode != .ok

/-- `operator=(ErrorCode)` replaces the code and keeps the message that was there. -/
def assign (e : Error) (errorCode : ErrorCode) : Error := { e with errorCode := errorCode }

end Error

end Ecaludp
