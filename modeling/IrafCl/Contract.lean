import IrafCl.Failure

/-!
# Contracts

A contract is a condition that callers or the program itself must keep; a violation is a defect, not
a failure of the input. Checks answer with the violation and never with a failure, so the two cannot
be mixed up.
-/

namespace IrafCl

/-- The three places a condition can belong to. -/
inductive Contract where
  | precondition
  | postcondition
  | invariant
  deriving DecidableEq, Repr

def Contract.name : Contract → Bytes
  | .precondition => "PRECONDITION"
  | .postcondition => "POSTCONDITION"
  | .invariant => "INVARIANT"

/-- A broken condition, or a step into a part of a tree that is not there. -/
inductive Violation where
  | broken (contract : Contract) (text : Bytes)
  | absentNode
  deriving DecidableEq, Repr

def Violation.message : Violation → Bytes
  | .broken c text => c.name ++ " VIOLATION: " ++ text
  | .absentNode => "runtime error: invalid memory address or nil pointer dereference"

namespace Contract

/-- Checks a condition. -/
def check (c : Contract) (holds : Bool) (text : Bytes) : Except Violation Unit :=
  if holds then .ok () else .error (.broken c text)

/-- Checks that a value is there. -/
def present {α : Type} (value : Option α) (name : Bytes) : Except Violation Unit :=
  precondition.check value.isSome (name ++ " must not be nil")

/-- Checks that an integer lies between two bounds, both included. -/
def inRange (value lo hi : Int) (name : Bytes) : Except Violation Unit :=
  precondition.check (lo ≤ value && value ≤ hi)
    (name ++ " must be in range [" ++ Bytes.ofInt lo ++ ", " ++ Bytes.ofInt hi ++ "], got " ++
      Bytes.ofInt value)

/-- Checks that a step that cannot fail did not. -/
def noFailure (f : Option Failure) (name : Bytes) : Except Violation Unit :=
  match f with
  | none => .ok ()
  | some f => postcondition.check false (name ++ " must not fail: " ++ f.text)

theorem check_eq_ok_iff (c : Contract) (holds : Bool) (text : Bytes) :
    c.check holds text = .ok () ↔ holds = true := by
  cases holds <;> simp [check]

end Contract

/-- Why a run stops short of its result: the input is at fault, or the program is. -/
inductive Halt where
  | failure (f : Failure)
  | violation (v : Violation)
  deriving Repr

end IrafCl
