-- SUMMARY: Why elaboration ends without a netlist (`ElabError`).
import NandHdl.Netlist.Validity

namespace NandHdl

/-- Why a program could not be flattened. -/
inductive ElabError where
  /-- The program has no module of the top's name. -/
  | missingTopModule (name : String)
  /-- A call names no module. -/
  | unknownModule (name caller : String)
  /-- A name is not bound in the body that reads or assigns it. -/
  | unknownSignal (name moduleName : String)
  /-- A call has the wrong number of arguments. -/
  | arityMismatch (callee : String) (expected found : Nat)
  /-- An expression has no meaning. -/
  | malformedExpr (expr reason : String)
  /-- Modules are nested too deep. -/
  | recursionLimit (moduleName : String) (limit : Nat)
  /-- A signal would get a second driver. -/
  | multipleDrivers (name : String)
  /-- The finished netlist is not well formed. -/
  | netlist (e : NetlistError)
  /-- A table of the elaborator does not fit. -/
  | fault (f : Fault)
  deriving Repr, DecidableEq, Inhabited

namespace ElabError

/-- The sentence for an error. -/
def message : ElabError → String
  | .missingTopModule name => "top module '" ++ name ++ "' not found"
  | .unknownModule name caller => "unknown module '" ++ name ++ "' called from '" ++ caller ++ "'"
  | .unknownSignal name moduleName =>
    "unknown signal '" ++ name ++ "' in module '" ++ moduleName ++ "'"
  | .arityMismatch callee expected found =>
    "'" ++ callee ++ "' expects " ++ toString expected ++ " argument(s), found " ++ toString found
  | .malformedExpr expr reason => "malformed expression '" ++ expr ++ "': " ++ reason
  | .recursionLimit moduleName limit =>
    "module inlining exceeded depth " ++ toString limit ++ " while expanding '" ++ moduleName ++
      "'"
  | .multipleDrivers name => "signal '" ++ name ++ "' has more than one driver"
  | .netlist e => e.message
  | .fault f => f.message

end ElabError

end NandHdl
