import LazyLisp.Expr.Basic
import LazyLisp.Number.Rounding

/-!
# Atoms from host values

A program that embeds the language passes in plain values. Each plain value other than a sequence
or a mapping has an atom.
-/

set_option autoImplicit false

namespace LazyLisp

/-- A plain value of an embedding program. -/
inductive HostValue where
  | null
  | boolean (value : Bool)
  | integer (value : Int)
  | float (value : Number)
  | text (value : String)
  | sequence
  | mapping

inductive HostFailure where
  | integerTooLarge
  | sequence
  | mapping
  deriving DecidableEq, Repr

def HostFailure.message : HostFailure → String
  | .integerTooLarge => "int too large to convert to float"
  | .sequence => "Cannot convert list to an atom"
  | .mapping => "Cannot convert dict to an atom"

/-- The atom of the number nearest to an integer. There is none if the integer is too large for a
finite number. -/
def Expr.ofNearest : Number → Except HostFailure Expr
  | .infinite _ => .error .integerTooLarge
  | nearest => .ok (.number nearest)

/-- The atom of a host value. An integer becomes the nearest number, if that is finite, and a text
becomes the payload of a string unchanged. -/
def Expr.ofHost : HostValue → Except HostFailure Expr
  | .null => .ok .nil
  | .boolean value => .ok (.boolean value)
  | .integer value => ofNearest (Number.ofInt value)
  | .float value => .ok (.number value)
  | .text value => .ok (.string value)
  | .sequence => .error .sequence
  | .mapping => .error .mapping

end LazyLisp
