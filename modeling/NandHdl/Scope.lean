-- SUMMARY: Scopes (`Scope`): which signals the names of a module body stand for.
import NandHdl.Names

/-!
# Scopes

A scope belongs to one module body. It maps names to signals. A name that stands for several bits
is a bus: the scope then knows its width, and each bit has a name of its own.

The scope of an inlined body starts with the names of the caller. What is bound in it stays in it.
-/

namespace NandHdl

/-- The names of a module body. -/
structure Scope where
  /-- The signal of a name. For a bus this is its lowest bit. -/
  signals : NameMap SignalId := {}
  /-- The widths of the names that are buses. -/
  buses : NameMap Nat := {}
  /-- What stands before a local name to make it a global one. -/
  namePrefix : String := ""
  /-- The instance that owns the signals made here. -/
  owner : InstanceId := 0
  /-- The module whose body this is. -/
  moduleName : String
  /-- The names that are bound from outside. A body does not declare them. -/
  ports : NameSet := {}

namespace Scope

/-- The empty scope of a top module. -/
def top (moduleName : String) : Scope := { moduleName }

/-- The scope of an inlined body, with the names of the caller and no ports. -/
def child (s : Scope) (moduleName namePrefix : String) (owner : InstanceId) : Scope :=
  { s with moduleName, namePrefix, owner, ports := {} }

/-- Whether a name stands for several bits. -/
def isBus (s : Scope) (name : String) : Bool := s.buses.contains name

/-- The width of a name. A name that is no bus has width 1. -/
def widthOf (s : Scope) (name : String) : Nat := s.buses.getD name 1

/-- The global name of a local one. -/
def globalName (s : Scope) (name : String) : String := s.namePrefix ++ name

/-- The signal of a name. -/
def lookup? (s : Scope) (name : String) : Option SignalId := s.signals[name]?

/-- The bits of a name. -/
def bits? (s : Scope) (name : String) : Option Bits :=
  match s.buses[name]? with
  | some width => (List.range width).mapM fun i => s.lookup? (bitName name i)
  | none => (s.lookup? name).map fun id => [id]

/-- The names of the bits of a bus with their signals, from position `start` on. -/
def bindFrom (name : String) (signals : NameMap SignalId) : Nat → Bits → NameMap SignalId
  | _, [] => signals
  | start, id :: rest => bindFrom name (signals.insert (bitName name start) id) (start + 1) rest

/-- Gives a name its bits. More than one bit makes it a bus. -/
def bind (s : Scope) (name : String) : Bits → Scope
  | [] => { s with buses := s.buses.erase name }
  | [id] => { s with buses := s.buses.erase name, signals := s.signals.insert name id }
  | id :: rest =>
    { s with
      buses := s.buses.insert name (rest.length + 1)
      signals := (bindFrom name s.signals 0 (id :: rest)).insert name id }

/-- Marks a name as bound from outside. -/
def addPort (s : Scope) (name : String) : Scope := { s with ports := s.ports.insert name }

/-- Whether a name is bound from outside. -/
def isPort (s : Scope) (name : String) : Bool := s.ports.contains name

end Scope

end NandHdl
