import Rulebook.Script.Expr

namespace Rulebook.Script.Jump

inductive Fault where
  | noLabel (name : String)
  | intoScope (name : String)
  | repeated (name : String)
  | noLoop
deriving DecidableEq, Repr

def Fault.message : Fault → String
  | noLabel name => "no visible label '" ++ name ++ "' for goto"
  | intoScope name => "goto '" ++ name ++ "' jumps into the scope of a local"
  | repeated name => "label '" ++ name ++ "' already defined"
  | noLoop => "break outside a loop"

/-- A block around a place: the labels before it and the statements after it. -/
structure Around where
  before : List String
  after : List Stmt

def isLabel : Stmt → Bool
  | .label _ => true
  | _ => false

def declares : Stmt → Bool
  | .locals _ _ | .localFunction _ => true
  | _ => false

/-- Whether the statements that follow hold a label, and if so whether a jump may go there. A label
with nothing but labels after it is past the scope of all variables. -/
def ahead (name : String) (declared : Bool) : List Stmt → Option Bool
  | [] => none
  | .label n :: ss =>
    if n == name then some (!declared || ss.all isLabel) else ahead name declared ss
  | s :: ss => ahead name (declared || declares s) ss

def find (name : String) : List Around → Except Fault Unit
  | [] => .error (.noLabel name)
  | b :: bs =>
    if name ∈ b.before then .ok ()
    else match ahead name false b.after with
      | some true => .ok ()
      | some false => .error (.intoScope name)
      | none => find name bs

mutual

def checkStmt (around : List Around) (inLoop : Bool) : Stmt → Except Fault Unit
  | .block body => checkBlock around inLoop [] body
  | .loop _ body | .again body | .forRange _ body _ | .forEach _ _ body _ =>
    checkBlock around true [] body
  | .branch _ yes no => do
    checkBlock around inLoop [] yes
    checkBlock around inLoop [] no
  | .leave => if inLoop then .ok () else .error .noLoop
  | .jump name => find name around
  | .label name =>
    if around.any (name ∈ ·.before) then .error (.repeated name) else .ok ()
  | _ => .ok ()

def checkBlock (around : List Around) (inLoop : Bool) (before : List String) :
    List Stmt → Except Fault Unit
  | [] => .ok ()
  | s :: ss => do
    checkStmt (⟨before, ss⟩ :: around) inLoop s
    checkBlock around inLoop (match s with
      | .label name => name :: before
      | _ => before) ss

end

/-- A jump goes to a label of a block around it, before or after it, but not past the declaration of
a variable that is in sight at the label; a loop can be left only from within. -/
def check (body : List Stmt) : Except Fault Unit := checkBlock [] false [] body

def declared : Stmt → Nat
  | .locals marks _ => marks.length
  | .localFunction _ => 1
  | _ => 0

/-- The statements after a label of a block, and the number of variables declared before it. -/
def target? (name : String) : List Stmt → Option (List Stmt × Nat)
  | [] => none
  | .label n :: ss =>
    if n == name then some (ss, 0) else target? name ss
  | s :: ss => (target? name ss).map fun (rest, n) => (rest, n + declared s)

end Rulebook.Script.Jump
