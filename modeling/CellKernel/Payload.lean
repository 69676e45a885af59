import Mathlib.Data.List.Basic

/-
Payloads and work results of crates/cell-core. The fields of a payload are
private and set by RawPayload::new only, so len never exceeds the buffer.
-/
namespace CellCore

structure TraceContext where
  traceId : UInt64
  timestamp : UInt64
  originNode : UInt16
  deriving DecidableEq, Repr

inductive WorkResult where
  | Completed (context : TraceContext)
  | Failed (context : TraceContext) (nodeId : UInt16) (reason : String)
  deriving DecidableEq, Repr

def WorkResult.context : WorkResult → TraceContext
  | .Completed context => context
  | .Failed context _ _ => context

structure ValidatorCapability where
  token : UInt32
  deriving DecidableEq

structure RawPayload where
  context : TraceContext
  data : Vector UInt8 512
  len : Nat
  fits : len ≤ 512
  deriving DecidableEq

structure ValidatedPayload where
  context : TraceContext
  data : Vector UInt8 512
  len : Nat
  fits : len ≤ 512
  token : UInt32
  deriving DecidableEq

def RawPayload.new (context : TraceContext) (input : List UInt8) :
    Except WorkResult RawPayload :=
  if tooLong : input.length > 512 then
    .error (.Failed context 0 "payload exceeds 512 bytes")
  else
    .ok { context := context
          data := Vector.ofFn fun i => input[i.val]?.getD 0
          len := input.length
          fits := Nat.le_of_not_lt tooLong }

def RawPayload.isEmpty (self : RawPayload) : Bool := self.len == 0

def RawPayload.validate (self : RawPayload) (verifier : ValidatorCapability) :
    ValidatedPayload :=
  ⟨self.context, self.data, self.len, self.fits, verifier.token⟩

/-- &self.data[..self.len] -/
def ValidatedPayload.asBytes (self : ValidatedPayload) : List UInt8 :=
  self.data.toList.take self.len

/-- The trait of the nodes of a pipeline; Halt is how a call can fail to
    return. -/
class KernelModule (Halt : outParam Type) (M : Type) where
  Input : Type
  Output : Type
  process : M → Input → Except Halt (Except WorkResult Output × M)
  resetState : M → Except Halt M

theorem new_accepts_iff (context : TraceContext) (input : List UInt8) :
    (∃ raw, RawPayload.new context input = .ok raw) ↔ input.length ≤ 512 := by
  unfold RawPayload.new
  split
  · rename_i tooLong
    simp only [reduceCtorEq, exists_false, false_iff]
    omega
  · rename_i fits
    simp only [Except.ok.injEq, exists_eq', true_iff]
    omega

/-- Validation hands on exactly the input bytes: the zero padding of the buffer
    is never part of the payload. -/
theorem new_keeps_input {context : TraceContext} {input : List UInt8} {raw : RawPayload}
    (built : RawPayload.new context input = .ok raw) (verifier : ValidatorCapability) :
    raw.context = context ∧ (raw.validate verifier).context = context ∧
      (raw.validate verifier).asBytes = input := by
  unfold RawPayload.new at built
  split at built
  · cases built
  · rename_i short
    cases built
    refine ⟨rfl, rfl, ?_⟩
    apply List.ext_getElem?
    intro i
    rw [ValidatedPayload.asBytes, RawPayload.validate, List.getElem?_take]
    by_cases inside : i < input.length
    · have place : i < 512 := by omega
      simp [inside, place]
    · simp [inside]

theorem new_empty_iff {context : TraceContext} {input : List UInt8} {raw : RawPayload}
    (built : RawPayload.new context input = .ok raw) : raw.isEmpty = true ↔ input = [] := by
  unfold RawPayload.new at built
  split at built
  · cases built
  · cases built
    simp [RawPayload.isEmpty]

end CellCore
