import Rulebook.Script.Value

namespace Rulebook.Script

inductive Unary where
  | negate | not | length | invert
deriving DecidableEq, Repr

inductive Binary where
  | add | sub | mul | mod | pow | div | floorDiv | band | bor | bxor | shl | shr | concat
  | eq | ne | lt | le | gt | ge
deriving DecidableEq, Repr

inductive Mark where
  | plain | const | close
deriving DecidableEq, Repr

mutual

/-- Variables are numbered by how many were declared after them: the last declared is number zero.
The outermost variable holds the table of globals. -/
inductive Expr where
  | nil
  | bool (b : Bool)
  | int (n : Int64)
  | float (x : Float)
  | str (s : ByteArray)
  | varargs
  | var (index : Nat)
  | function (f : Body)
  /-- of several values the first -/
  | first (e : Expr)
  | index (table key : Expr) (line : Nat)
  | call (callee : Expr) (args : List Expr) (line : Nat)
  | method (table : Expr) (name : ByteArray) (args : List Expr) (line : Nat)
  | unary (op : Unary) (e : Expr) (line : Nat)
  | binary (op : Binary) (a b : Expr) (line : Nat)
  | and (a b : Expr)
  | or (a b : Expr)
  | table (fields : List Field)

inductive Field where
  | item (e : Expr)
  | pair (key value : Expr) (line : Nat)

inductive Body where
  | mk (parameters : Nat) (variadic : Bool) (block : List Stmt)

inductive Stmt where
  | locals (marks : List Mark) (values : List Expr)
  | assign (targets : List Target) (values : List Expr) (line : Nat)
  | call (e : Expr)
  | block (body : List Stmt)
  | loop (condition : Expr) (body : List Stmt)
  | again (body : List Stmt)
  /-- leaves the loop around it if the condition holds -/
  | leaveIf (condition : Expr)
  | branch (condition : Expr) (yes no : List Stmt)
  | forRange (range : List Expr) (body : List Stmt) (line : Nat)
  | forEach (names : Nat) (source : List Expr) (body : List Stmt) (line : Nat)
  | localFunction (f : Body)
  | give (values : List Expr)
  | leave
  | jump (label : String)
  | label (name : String)

inductive Target where
  | var (index : Nat)
  | member (table key : Expr)

end

instance : Inhabited Expr := ⟨.nil⟩

/-- The fields that are items, one whose number is not known beforehand left out, and the pairs. -/
def Field.counts (fields : List Field) : Nat × Nat :=
  match fields with
  | [] => (0, 0)
  | [.item (.call _ _ _)] | [.item (.method _ _ _ _)] | [.item .varargs] => (0, 0)
  | .item _ :: fs => ((counts fs).1 + 1, (counts fs).2)
  | .pair _ _ _ :: fs => ((counts fs).1, (counts fs).2 + 1)

def Expr.isMany : Expr → Bool
  | varargs | call _ _ _ | method _ _ _ _ => true
  | _ => false

def Expr.one (e : Expr) : Expr := if e.isMany then first e else e

end Rulebook.Script
