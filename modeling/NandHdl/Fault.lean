-- SUMMARY: Checked table access (`Checked`): an index past the end of a table is a `Fault`, never a default value.

/-!
# Checked access

The passes of this library work on tables that are indexed by signal, gate or word number. An
index that does not exist is not answered with a default. It ends the pass with a `Fault`, so
that a statement about a result is also a statement about every access on the way to it.
-/

namespace NandHdl

/-- A pass asked one of its tables for something the table does not have. -/
inductive Fault where
  /-- An index past the end of a table. -/
  | outOfRange
  /-- A counter that was to be taken below zero. -/
  | belowZero
  deriving Repr, DecidableEq, Inhabited

/-- The sentence that reports a fault. -/
def Fault.message : Fault → String
  | .outOfRange => "index past the end of a table"
  | .belowZero => "counter below zero"

/-- A result, or the fault that kept it from being computed. -/
abbrev Checked (α : Type) := Except Fault α

namespace Checked

/-- Entry `i` of a table. -/
def get {α : Type} (xs : Array α) (i : Nat) : Checked α :=
  match xs[i]? with
  | some a => .ok a
  | none => .error .outOfRange

/-- The table with entry `i` changed by `f`. -/
def modify {α : Type} (xs : Array α) (i : Nat) (f : α → α) : Checked (Array α) :=
  if i < xs.size then .ok (xs.modify i f) else .error .outOfRange

/-- The table with entry `i` replaced. -/
def set {α : Type} (xs : Array α) (i : Nat) (a : α) : Checked (Array α) :=
  modify xs i fun _ => a

/-- A counter less one. -/
def pred : Nat → Checked Nat
  | 0 => .error .belowZero
  | n + 1 => .ok n

end Checked

end NandHdl
