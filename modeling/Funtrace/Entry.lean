/-
  Trace entries and their flag bits (`funtrace_flags.h`, and the constants at
  the top of `funtrace2viz/src/main.rs`, which must agree with it).

  A trace entry is 16 bytes: a code address whose three high bits are flags,
  and the value of the timestamp counter.  An entry is a call, a return whose
  address lies in the returning function, a return whose address lies in the
  caller (XRay), or a catch (both return bits set).
-/
import Mathlib.Data.List.Basic

namespace Funtrace

/-- A 16-byte entry: `trace_entry` of the runtime (whose `func` is the
    `address` here), `FunTraceEntry` of the decoder. -/
@[ext] structure FunTraceEntry where
  address : UInt64
  cycle : UInt64
deriving DecidableEq, Repr, Inhabited

/-- `thread_id` of the runtime, `ThreadID` of the decoder. -/
structure ThreadID where
  pid : UInt64
  tid : UInt64
  name : Vector UInt8 16
deriving DecidableEq

/-- What `trace(ptr, flags)` stores. -/
def FunTraceEntry.traced (ptr flags cycle : UInt64) : FunTraceEntry := ⟨ptr ||| flags, cycle⟩

/-! ## Flag bits -/

/-- `FUNTRACE_RETURN_BIT`. -/
def returnBit : UInt64 := 63

/-- `FUNTRACE_RETURN_WITH_CALLER_ADDRESS_BIT`. -/
def returnWithCallerAddressBit : UInt64 := 62

/-- `FUNTRACE_CALL_RETURNING_UPON_THROW_BIT`. -/
def callReturningUponThrowBit : UInt64 := 61

/-- The bit of returns. -/
def returnFlag : UInt64 := 1 <<< returnBit

/-- The bit of returns that know the address of their caller. -/
def returnWithCallerAddressFlag : UInt64 := 1 <<< returnWithCallerAddressBit

/-- Both bits: what a catch is marked with. -/
def catchMask : UInt64 := (1 <<< returnBit) ||| (1 <<< returnWithCallerAddressBit)

/-- The bits of an address. -/
def addressMask : UInt64 := ~~~(catchMask ||| (1 <<< callReturningUponThrowBit))

/-- Is the bit set? -/
def bitSet (n b : UInt64) : Bool := (n >>> b) &&& 1 != 0

namespace FunTraceEntry
variable (e : FunTraceEntry)

/-- `entry.address & ADDRESS_MASK`. -/
def addr : UInt64 := e.address &&& addressMask

/-- `catch` of the decoder's loop. -/
def isCatch : Bool := e.address &&& catchMask == catchMask

/-- `ret_with_caller_addr` of the decoder's loop. -/
def isRetWithCallerAddr : Bool := bitSet e.address returnWithCallerAddressBit && !e.isCatch

/-- `ret` of the decoder's loop. -/
def isRet : Bool := (bitSet e.address returnBit || e.isRetWithCallerAddr) && !e.isCatch

/-- An entry that the decoder pushes on its stack. -/
def isCall : Bool := !e.isCatch && !e.isRet

/-- A call whose function logs a return when an exception unwinds it. -/
def returnsUponThrow : Bool := bitSet e.address callReturningUponThrowBit

/-- The empty entries that `parse_chunks` drops. -/
def isEmpty : Bool := e.cycle == 0 && e.address == 0

variable {e}

theorem isCatch_of_isCall (h : e.isCall) : e.isCatch = false := by
  simp [isCall] at h; exact h.1

theorem isRet_of_isCall (h : e.isCall) : e.isRet = false := by
  simp [isCall] at h; exact h.2

theorem isCatch_of_isRet (h : e.isRet) : e.isCatch = false := by
  simp [isRet] at h; exact h.2

theorem isRet_of_isCatch (h : e.isCatch) : e.isRet = false := by
  simp [isRet, h]

end FunTraceEntry

end Funtrace
