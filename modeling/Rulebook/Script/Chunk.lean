import Rulebook.Script.Expr
import Rulebook.Script.Token
import Rulebook.Script.Jump

namespace Rulebook.Script

structure Scope where
  /-- the variables in sight, the last declared first -/
  visible : List (String × Mark)
  /-- how many of them belong to the functions around -/
  outer : Nat
  /-- how deep expressions and statements are nested -/
  level : Nat
  variadic : Bool

namespace Chunk

abbrev Tokens := List Located

def maxLevel : Nat := 200
def maxVariables : Nat := 200

def token (ts : Tokens) : Token :=
  match ts with
  | t :: _ => t.token
  | [] => .finish

def line (ts : Tokens) : Nat :=
  match ts with
  | t :: _ => t.line
  | [] => 0

def unexpected {α : Type} (message : String) (ts : Tokens) : Except ChunkFault α :=
  Token.malformed message (token ts).text

def atSign (s : String) (ts : Tokens) : Bool :=
  match ts with
  | ⟨.sign t, _⟩ :: _ => s == t
  | _ => false

def expect (s : String) (ts : Tokens) : Except ChunkFault Tokens :=
  if atSign s ts then .ok ts.tail else unexpected ("'" ++ s ++ "' expected") ts

def name (ts : Tokens) : Except ChunkFault (String × Tokens) :=
  match ts with
  | ⟨.name s, _⟩ :: r => .ok (s, r)
  | _ => unexpected "name expected" ts

def enter (s : Scope) : Except ChunkFault Scope :=
  if s.level + 1 < maxLevel then .ok { s with level := s.level + 1 } else .error .tooDeep

def declare (s : Scope) (added : List (String × Mark)) : Except ChunkFault Scope :=
  let s' := { s with visible := added.reverse ++ s.visible }
  if s'.visible.length ≤ s.outer + maxVariables then .ok s'
  else .error (.malformed "too many local variables")

def find? (name : String) : List (String × Mark) → Option (Nat × Mark)
  | [] => none
  | (n, m) :: vs => if n == name then some (0, m) else (find? name vs).map fun (i, m) => (i + 1, m)

/-- A variable in sight, or a member of the table of globals. -/
def named (s : Scope) (name : String) (line : Nat) : Expr :=
  match find? name s.visible with
  | some (i, _) => .var i
  | none =>
    match find? "_ENV" s.visible with
    | some (i, _) => .index (.var i) (.str (bytes name)) line
    | none => .nil

def unary? : Token → Option Unary
  | .sign "not" => some .not
  | .sign "-" => some .negate
  | .sign "~" => some .invert
  | .sign "#" => some .length
  | _ => none

/-- An operator between two operands with its ranks; the greater binds. -/
inductive Operator where
  | strict (op : Binary)
  | and
  | or

def operator? : Token → Option (Operator × Nat × Nat)
  | .sign "+" => some (.strict .add, 10, 10)
  | .sign "-" => some (.strict .sub, 10, 10)
  | .sign "*" => some (.strict .mul, 11, 11)
  | .sign "%" => some (.strict .mod, 11, 11)
  | .sign "^" => some (.strict .pow, 14, 13)
  | .sign "/" => some (.strict .div, 11, 11)
  | .sign "//" => some (.strict .floorDiv, 11, 11)
  | .sign "&" => some (.strict .band, 6, 6)
  | .sign "|" => some (.strict .bor, 4, 4)
  | .sign "~" => some (.strict .bxor, 5, 5)
  | .sign "<<" => some (.strict .shl, 7, 7)
  | .sign ">>" => some (.strict .shr, 7, 7)
  | .sign ".." => some (.strict .concat, 9, 8)
  | .sign "==" => some (.strict .eq, 3, 3)
  | .sign "~=" => some (.strict .ne, 3, 3)
  | .sign "<" => some (.strict .lt, 3, 3)
  | .sign "<=" => some (.strict .le, 3, 3)
  | .sign ">" => some (.strict .gt, 3, 3)
  | .sign ">=" => some (.strict .ge, 3, 3)
  | .sign "and" => some (.and, 2, 2)
  | .sign "or" => some (.or, 1, 1)
  | _ => none

def unaryRank : Nat := 12

def Operator.apply (op : Operator) (a b : Expr) (line : Nat) : Expr :=
  match op with
  | strict op => .binary op a b line
  | and => .and a b
  | or => .or a b

def endsBlock (withUntil : Bool) : Token → Bool
  | .sign "else" | .sign "elseif" | .sign "end" | .finish => true
  | .sign "until" => withUntil
  | _ => false

def closing (s opener : String) (start : Nat) (ts : Tokens) : Except ChunkFault Tokens :=
  if atSign s ts then .ok ts.tail
  else if start = line ts then unexpected ("'" ++ s ++ "' expected") ts
  else unexpected ("'" ++ s ++ "' expected (to close '" ++ opener ++ "' at line " ++
    toString start ++ ")") ts

def target (s : Scope) (e : Expr) (ts : Tokens) : Except ChunkFault Target :=
  match e with
  | .var i =>
    match s.visible[i]? with
    | some (name, .const) | some (name, .close) =>
      .error (.malformed ("attempt to assign to const variable '" ++ name ++ "'"))
    | _ => .ok (.var i)
  | .index t k _ => .ok (.member t k)
  | _ => unexpected "syntax error" ts

def mark (ts : Tokens) : Except ChunkFault (Mark × Tokens) :=
  if atSign "<" ts then do
    let (m, ts) ← name ts.tail
    let ts ← expect ">" ts
    match m with
    | "const" => .ok (.const, ts)
    | "close" => .ok (.close, ts)
    | _ => .error (.malformed ("unknown attribute '" ++ m ++ "'"))
  else .ok (.plain, ts)

def names (fuel : Nat) (ts : Tokens) (acc : List String) :
    Except ChunkFault (List String × Tokens) :=
  match fuel with
  | 0 => .error .tooDeep
  | fuel + 1 => do
    let (n, ts) ← name ts
    if atSign "," ts then names fuel ts.tail (n :: acc) else .ok ((n :: acc).reverse, ts)

def markedNames (fuel : Nat) (ts : Tokens) (acc : List (String × Mark)) :
    Except ChunkFault ((List (String × Mark)) × Tokens) :=
  match fuel with
  | 0 => .error .tooDeep
  | fuel + 1 => do
    let (n, ts) ← name ts
    let (m, ts) ← mark ts
    let acc := (n, m) :: acc
    if atSign "," ts then markedNames fuel ts.tail acc
    else if 1 < (acc.filter (·.2 = .close)).length then
      .error (.malformed "multiple to-be-closed variables in local list")
    else .ok (acc.reverse, ts)

def parameters (fuel : Nat) (ts : Tokens) (acc : List String) :
    Except ChunkFault ((List String × Bool) × Tokens) :=
  match fuel with
  | 0 => .error .tooDeep
  | fuel + 1 =>
    if atSign "..." ts then do
      let ts ← expect ")" ts.tail
      .ok ((acc.reverse, true), ts)
    else do
      let (n, ts) ← name ts
      if atSign "," ts then parameters fuel ts.tail (n :: acc)
      else
        let ts ← expect ")" ts
        .ok (((n :: acc).reverse, false), ts)

def checkJumps (body : List Stmt) : Except ChunkFault Unit :=
  (Jump.check body).mapError fun f => .malformed f.message

mutual

/-- An expression whose operators bind stronger than a rank. -/
def expr (fuel : Nat) (s : Scope) (rank : Nat) (ts : Tokens) : Except ChunkFault (Expr × Tokens) :=
  match fuel with
  | 0 => .error .tooDeep
  | fuel + 1 => do
    let s ← enter s
    let (e, ts) ← match unary? (token ts) with
      | some op => do
        let here := line ts
        let (e, ts) ← expr fuel s unaryRank ts.tail
        .ok (.unary op e here, ts)
      | none => simple fuel s ts
    operators fuel s rank e ts

def operators (fuel : Nat) (s : Scope) (rank : Nat) (e : Expr) (ts : Tokens) :
    Except ChunkFault (Expr × Tokens) :=
  match fuel with
  | 0 => .error .tooDeep
  | fuel + 1 =>
    match operator? (token ts) with
    | some (op, left, right) =>
      if rank < left then do
        let here := line ts
        let (b, ts) ← expr fuel s right ts.tail
        operators fuel s rank (op.apply e b here) ts
      else .ok (e, ts)
    | none => .ok (e, ts)

def simple (fuel : Nat) (s : Scope) (ts : Tokens) : Except ChunkFault (Expr × Tokens) :=
  match fuel with
  | 0 => .error .tooDeep
  | fuel + 1 =>
    match ts with
    | ⟨.number (.int n), _⟩ :: r => .ok (.int n, r)
    | ⟨.number (.float x), _⟩ :: r => .ok (.float x, r)
    | ⟨.str t, _⟩ :: r => .ok (.str t, r)
    | ⟨.sign "nil", _⟩ :: r => .ok (.nil, r)
    | ⟨.sign "true", _⟩ :: r => .ok (.bool true, r)
    | ⟨.sign "false", _⟩ :: r => .ok (.bool false, r)
    | ⟨.sign "...", _⟩ :: r =>
      if s.variadic then .ok (.varargs, r)
      else unexpected "cannot use '...' outside a vararg function" ts
    | ⟨.sign "\x7b", here⟩ :: r => do
      let (fs, r) ← fields fuel s here r []
      .ok (.table fs, r)
    | ⟨.sign "function", here⟩ :: r => do
      let (f, r) ← function fuel s false here r
      .ok (.function f, r)
    | _ => do
      let (e, r) ← primary fuel s ts
      suffixes fuel s e r

def primary (fuel : Nat) (s : Scope) (ts : Tokens) : Except ChunkFault (Expr × Tokens) :=
  match fuel with
  | 0 => .error .tooDeep
  | fuel + 1 =>
    match ts with
    | ⟨.name n, here⟩ :: r => .ok (named s n here, r)
    | ⟨.sign "(", here⟩ :: r => do
      let (e, r) ← expr fuel s 0 r
      let r ← closing ")" "(" here r
      .ok (match e with
        | .var _ | .index _ _ _ => .first e
        | e => e.one, r)
    | _ => unexpected "unexpected symbol" ts

def suffixes (fuel : Nat) (s : Scope) (e : Expr) (ts : Tokens) :
    Except ChunkFault (Expr × Tokens) :=
  match fuel with
  | 0 => .error .tooDeep
  | fuel + 1 =>
    match ts with
    | ⟨.sign ".", here⟩ :: r => do
      let (n, r) ← name r
      suffixes fuel s (.index e (.str (bytes n)) here) r
    | ⟨.sign "[", here⟩ :: r => do
      let (k, r) ← expr fuel s 0 r
      let r ← expect "]" r
      suffixes fuel s (.index e k here) r
    | ⟨.sign ":", here⟩ :: r => do
      let (n, r) ← name r
      let (args, r) ← arguments fuel s r
      suffixes fuel s (.method e (bytes n) args here) r
    | ⟨.sign "(", here⟩ :: _ | ⟨.str _, here⟩ :: _ | ⟨.sign "\x7b", here⟩ :: _ => do
      let (args, r) ← arguments fuel s ts
      suffixes fuel s (.call e args here) r
    | _ => .ok (e, ts)

def arguments (fuel : Nat) (s : Scope) (ts : Tokens) : Except ChunkFault (List Expr × Tokens) :=
  match fuel with
  | 0 => .error .tooDeep
  | fuel + 1 =>
    match ts with
    | ⟨.str t, _⟩ :: r => .ok ([.str t], r)
    | ⟨.sign "\x7b", here⟩ :: r => do
      let (fs, r) ← fields fuel s here r []
      .ok ([.table fs], r)
    | ⟨.sign "(", here⟩ :: r =>
      if atSign ")" r then .ok ([], r.tail)
      else do
        let (es, r) ← exprs fuel s r []
        let r ← closing ")" "(" here r
        .ok (es, r)
    | _ => unexpected "function arguments expected" ts

def exprs (fuel : Nat) (s : Scope) (ts : Tokens) (acc : List Expr) :
    Except ChunkFault (List Expr × Tokens) :=
  match fuel with
  | 0 => .error .tooDeep
  | fuel + 1 => do
    let (e, ts) ← expr fuel s 0 ts
    if atSign "," ts then exprs fuel s ts.tail (e :: acc) else .ok ((e :: acc).reverse, ts)

def fields (fuel : Nat) (s : Scope) (start : Nat) (ts : Tokens) (acc : List Field) :
    Except ChunkFault (List Field × Tokens) :=
  match fuel with
  | 0 => .error .tooDeep
  | fuel + 1 =>
    if atSign "\x7d" ts then .ok (acc.reverse, ts.tail)
    else do
      let here := line ts
      let (f, ts) ← match ts with
        | ⟨.name n, _⟩ :: ⟨.sign "=", _⟩ :: r => do
          let (v, r) ← expr fuel s 0 r
          .ok (Field.pair (.str (bytes n)) v here, r)
        | ⟨.sign "[", _⟩ :: r => do
          let (k, r) ← expr fuel s 0 r
          let r ← expect "]" r
          let r ← expect "=" r
          let (v, r) ← expr fuel s 0 r
          .ok (Field.pair k v here, r)
        | _ => do
          let (e, r) ← expr fuel s 0 ts
          .ok (Field.item e, r)
      if atSign "," ts || atSign ";" ts then fields fuel s start ts.tail (f :: acc)
      else do
        let ts ← closing "\x7d" "\x7b" start ts
        .ok ((f :: acc).reverse, ts)

/-- A function from its opening bracket on. A method has a parameter for its table. -/
def function (fuel : Nat) (s : Scope) (isMethod : Bool) (start : Nat) (ts : Tokens) :
    Except ChunkFault (Body × Tokens) :=
  match fuel with
  | 0 => .error .tooDeep
  | fuel + 1 => do
    let ts ← expect "(" ts
    let ((ps, variadic), ts) ←
      if atSign ")" ts then .ok (([], false), ts.tail) else parameters fuel ts []
    let ps := if isMethod then "self" :: ps else ps
    let inner : Scope := { s with outer := s.visible.length, variadic := variadic }
    let inner ← declare inner (ps.map fun p => (p, Mark.plain))
    let (body, _, ts) ← block fuel inner ts []
    let ts ← closing "end" "function" start ts
    checkJumps body
    .ok (.mk ps.length variadic body, ts)

def block (fuel : Nat) (s : Scope) (ts : Tokens) (acc : List Stmt) :
    Except ChunkFault (List Stmt × Scope × Tokens) :=
  match fuel with
  | 0 => .error .tooDeep
  | fuel + 1 =>
    if endsBlock true (token ts) then .ok (acc.reverse, s, ts)
    else if atSign ";" ts then block fuel s ts.tail acc
    else do
      let inner ← enter s
      if atSign "return" ts then
        let (es, ts) ←
          if endsBlock true (token ts.tail) || atSign ";" ts.tail then .ok ([], ts.tail)
          else exprs fuel inner ts.tail []
        let ts := if atSign ";" ts then ts.tail else ts
        .ok ((.give es :: acc).reverse, s, ts)
      else
        let (st, vars, ts) ← statement fuel inner ts
        block fuel { s with visible := vars } ts (st :: acc)

def closedBlock (fuel : Nat) (s : Scope) (opener : String) (start : Nat) (ts : Tokens) :
    Except ChunkFault (List Stmt × Tokens) :=
  match fuel with
  | 0 => .error .tooDeep
  | fuel + 1 => do
    let (body, _, ts) ← block fuel s ts []
    let ts ← closing "end" opener start ts
    .ok (body, ts)

def statement (fuel : Nat) (s : Scope) (ts : Tokens) :
    Except ChunkFault (Stmt × List (String × Mark) × Tokens) :=
  match fuel with
  | 0 => .error .tooDeep
  | fuel + 1 =>
    let vars := s.visible
    match ts with
    | ⟨.sign "if", here⟩ :: r => do
      let (st, r) ← branch fuel s here r
      .ok (st, vars, r)
    | ⟨.sign "while", here⟩ :: r => do
      let (c, r) ← expr fuel s 0 r
      let r ← expect "do" r
      let (body, r) ← closedBlock fuel s "while" here r
      .ok (.loop c body, vars, r)
    | ⟨.sign "do", here⟩ :: r => do
      let (body, r) ← closedBlock fuel s "do" here r
      .ok (.block body, vars, r)
    | ⟨.sign "for", here⟩ :: r => do
      let (st, r) ← forLoop fuel s here r
      .ok (st, vars, r)
    | ⟨.sign "repeat", here⟩ :: r => do
      let (body, inner, r) ← block fuel s r []
      let r ← closing "until" "repeat" here r
      let (c, r) ← expr fuel inner 0 r
      .ok (.again (body ++ [.leaveIf c]), vars, r)
    | ⟨.sign "function", here⟩ :: r => do
      let (n, r) ← name r
      let (e, isMethod, r) ← functionName fuel (named s n here) r
      let (f, r) ← function fuel s isMethod here r
      let t ← target s e r
      .ok (.assign [t] [.function f] here, vars, r)
    | ⟨.sign "local", here⟩ :: ⟨.sign "function", _⟩ :: r => do
      let (n, r) ← name r
      let inner ← declare s [(n, .plain)]
      let (f, r) ← function fuel inner false here r
      .ok (.localFunction f, inner.visible, r)
    | ⟨.sign "local", _⟩ :: r => do
      let (ns, r) ← markedNames fuel r []
      let (es, r) ← if atSign "=" r then exprs fuel s r.tail [] else .ok ([], r)
      let inner ← declare s ns
      .ok (.locals (ns.map (·.2)) es, inner.visible, r)
    | ⟨.sign "::", _⟩ :: r => do
      let (n, r) ← name r
      let r ← expect "::" r
      .ok (.label n, vars, r)
    | ⟨.sign "break", _⟩ :: r => .ok (.leave, vars, r)
    | ⟨.sign "goto", _⟩ :: r => do
      let (n, r) ← name r
      .ok (.jump n, vars, r)
    | _ => do
      let here := line ts
      let (e, r) ← primary fuel s ts
      let (e, r) ← suffixes fuel s e r
      if atSign "=" r || atSign "," r then
        let t ← target s e r
        let (targets, r) ← targets fuel s r [t]
        let r ← expect "=" r
        let (es, r) ← exprs fuel s r []
        .ok (.assign targets es here, vars, r)
      else match e with
        | .call _ _ _ | .method _ _ _ _ => .ok (.call e, vars, r)
        | _ => unexpected "syntax error" r

def targets (fuel : Nat) (s : Scope) (ts : Tokens) (acc : List Target) :
    Except ChunkFault (List Target × Tokens) :=
  match fuel with
  | 0 => .error .tooDeep
  | fuel + 1 =>
    if atSign "," ts then do
      let s ← enter s
      let (e, ts) ← primary fuel s ts.tail
      let (e, ts) ← suffixes fuel s e ts
      let t ← target s e ts
      targets fuel s ts (t :: acc)
    else .ok (acc.reverse, ts)

/-- The members that follow in the name of a function, and whether the last makes it a method. -/
def functionName (fuel : Nat) (e : Expr) (ts : Tokens) :
    Except ChunkFault (Expr × Bool × Tokens) :=
  match fuel with
  | 0 => .error .tooDeep
  | fuel + 1 =>
    match ts with
    | ⟨.sign ".", here⟩ :: r => do
      let (n, r) ← name r
      functionName fuel (.index e (.str (bytes n)) here) r
    | ⟨.sign ":", here⟩ :: r => do
      let (n, r) ← name r
      .ok (.index e (.str (bytes n)) here, true, r)
    | _ => .ok (e, false, ts)

def branch (fuel : Nat) (s : Scope) (start : Nat) (ts : Tokens) :
    Except ChunkFault (Stmt × Tokens) :=
  match fuel with
  | 0 => .error .tooDeep
  | fuel + 1 => do
    let (c, ts) ← expr fuel s 0 ts
    let ts ← expect "then" ts
    let (yes, _, ts) ← block fuel s ts []
    if atSign "elseif" ts then
      let (no, ts) ← branch fuel s start ts.tail
      .ok (.branch c yes [no], ts)
    else if atSign "else" ts then
      let (no, ts) ← closedBlock fuel s "if" start ts.tail
      .ok (.branch c yes no, ts)
    else
      let ts ← closing "end" "if" start ts
      .ok (.branch c yes [], ts)

def forLoop (fuel : Nat) (s : Scope) (start : Nat) (ts : Tokens) :
    Except ChunkFault (Stmt × Tokens) :=
  match fuel with
  | 0 => .error .tooDeep
  | fuel + 1 => do
    let (n, ts) ← name ts
    if atSign "=" ts then
      let (a, ts) ← expr fuel s 0 ts.tail
      let ts ← expect "," ts
      let (b, ts) ← expr fuel s 0 ts
      let (range, ts) ← if atSign "," ts then do
          let (c, ts) ← expr fuel s 0 ts.tail
          .ok ([a, b, c], ts)
        else .ok ([a, b], ts)
      let ts ← expect "do" ts
      let inner ← declare s [(n, .plain)]
      let (body, ts) ← closedBlock fuel inner "for" start ts
      .ok (.forRange range body start, ts)
    else
      let (ns, ts) ← if atSign "," ts then names fuel ts.tail [n] else .ok ([n], ts)
      if !atSign "in" ts then unexpected "'=' or 'in' expected" ts
      else do
        let (es, ts) ← exprs fuel s ts.tail []
        let ts ← expect "do" ts
        let inner ← declare s (ns.map fun n => (n, Mark.plain))
        let (body, ts) ← closedBlock fuel inner "for" start ts
        .ok (.forEach ns.length es body start, ts)

end

/-- What is in sight in a whole chunk: the table of globals. -/
def outermost : Scope := ⟨[("_ENV", .plain)], 1, 0, true⟩

/-- A text as the body of a function that takes any number of arguments. -/
def parse (text : String) : Except ChunkFault Body := do
  let ts ← Token.all text
  let (body, _, ts) ← block (16 * ts.length + 64) outermost ts []
  checkJumps body
  match token ts with
  | .finish => .ok (.mk 0 true body)
  | _ => unexpected "'<eof>' expected" ts

end Chunk

end Rulebook.Script
