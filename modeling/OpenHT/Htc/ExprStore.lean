import OpenHT.Lib.Unseq
import Mathlib.Data.Int.Notation
import Mathlib.Logic.Function.Basic

/-!
# Expressions of a program

The expressions that the normalizing passes rewrite, and what they do to the variables of a program.

* `Strict`: operators that evaluate all their operands, in any order.
* `CondLabel`: what is known of a conditional expression.
* `Meaning`, `sem`: what the operators and functions of a program do.
-/

namespace OpenHT.Htc

open Unseq

/-- Operators that evaluate their operands in any order. -/
inductive Strict
  | op (name : String)
  | call (function : String)
  | assign (target : String)
deriving DecidableEq, Repr

/-- A conditional expression: whether its type is `void`, and which of the text it is. -/
structure CondLabel where
  isVoid : Bool
  id : ℕ
deriving DecidableEq, Repr

variable {V : Type}

/-- Expressions of a program. -/
abbrev CExpr (V : Type) := Expr V Strict CondLabel String

/-- The variables of a program, and which sides of which conditionals have been evaluated. -/
structure Store (V : Type) where
  vars : String → V
  taken : List (ℕ × Bool)

/-- A program's operators and functions; `none` is undefined behaviour. -/
structure Meaning (V : Type) where
  op : String → List V → Option V
  call : String → List V → (String → V) → Option (V × (String → V))
  truth : V → Bool
  void : V

/-- What an expression does to the store. -/
def sem (m : Meaning V) : Sem V Strict CondLabel String (Store V) where
  read s x := s.vars x
  apply
    | .op name, vs, s => (m.op name vs).map fun v => (v, s)
    | .call function, vs, s => (m.call function vs s.vars).map fun r => (r.1, { s with vars := r.2 })
    | .assign x, [v], s => some (v, { s with vars := Function.update s.vars x v })
    | .assign _, _, _ => none
  truth := m.truth
  enter l side s := { s with taken := s.taken ++ [(l.id, side)] }
  discards l := l.isVoid
  unit := m.void

/-- Operators and functions that give their first operand back. -/
def first : Meaning ℤ where
  op _ vs := vs.head?
  call _ vs s := vs.head?.map fun v => (v, s)
  truth v := v != 0
  void := 0

end OpenHT.Htc
