import Mathlib.Data.List.Basic

/-!
# The syntax trees of MITScript

The tree the parser builds (`AST.h`). The C++ class hierarchy is kept: an `LHS`
is a `Unit` and so an expression; a call target and the base of an index or
field expression are `LHS`s. `ValueConstant<T>`, `StringConstant` and
`NullConstant` are the four constant expressions.

The argument vector of a call, the ordered map of a record and the statement
vector of a block are the list types `Arguments`, `Fields` and `Block` of the
same mutual family, so that every function on trees is structurally recursive.
-/

namespace Beaverc

/-- `BinOpSym` of `Op.h`. -/
inductive BinOpSym where
  | or | and | lt | lte | gt | gte | eq | plus | minus | mul | div
deriving DecidableEq, Repr

/-- `UnOpSym` of `Op.h`. -/
inductive UnOpSym where
  | not | neg
deriving DecidableEq, Repr

mutual
inductive LHS where
  | name (x : String)
  | index (base : LHS) (index : Expression)
  | field (base : LHS) (field : String)

inductive Expression where
  | lhs (l : LHS)
  | call (target : LHS) (arguments : Arguments)
  | function (arguments : List String) (body : Block)
  | record (fields : Fields)
  | boolConst (value : Bool)
  | strConst (value : String)
  | intConst (value : Int)
  | nullConst
  | binaryOp (op : BinOpSym) (left right : Expression)
  | unaryOp (op : UnOpSym) (expr : Expression)

inductive Arguments where
  | nil
  | cons (head : Expression) (tail : Arguments)

/-- The entries of an `OrderedMap<string, Expression*>` in insertion order. -/
inductive Fields where
  | nil
  | cons (key : String) (value : Expression) (tail : Fields)

inductive Statement where
  | assignment (lhs : LHS) (expr : Expression)
  | callStatement (target : LHS) (arguments : Arguments)
  | global (name : String)
  | ifStatement (cond : Expression) (thenBlock elseBlock : Block)
  | whileLoop (cond : Expression) (body : Block)
  | ret (expr : Expression)

inductive Block where
  | nil
  | cons (head : Statement) (tail : Block)
end

/-- A `Program` is one block. -/
abbrev Program := Block

/-- `call.arguments.size()`. -/
def Arguments.size : Arguments → Nat
  | .nil => 0
  | .cons _ tail => tail.size + 1

/-- A function literal: its parameter names and its body. -/
structure Literal where
  arguments : List String
  body : Block

end Beaverc
