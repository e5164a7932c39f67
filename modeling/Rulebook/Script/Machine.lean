import Rulebook.Script.Library.Text
import Rulebook.Script.Library.Numbers
import Rulebook.Script.Library.Codes
import Rulebook.Script.Library.Tables
import Rulebook.Script.Library.Globals
import Rulebook.Script.Chunk

namespace Rulebook.Script

structure Context where
  cells : Env
  more : List Value

inductive Use where
  | first
  | unary (op : Unary) (line : Nat)
  | binary (op : Binary) (line : Nat)
  | and (other : Expr) (ctx : Context)
  | or (other : Expr) (ctx : Context)
  | index (line : Nat)
  | call (line : Nat) (last : Bool)
  | method (name : ByteArray) (args : List Expr) (ctx : Context) (line : Nat) (last : Bool)
  | arguments (callee self : Value) (line : Nat) (last : Bool)
  /-- items of a table that are not in it yet, in reverse, after a number of others -/
  | item (ref : Nat) (items : List Value) (before : Nat) (rest : List Field) (ctx : Context)
  | items (ref : Nat) (items : List Value) (before : Nat)
  | pair (ref : Nat) (items : List Value) (before : Nat) (rest : List Field) (ctx : Context)
    (line : Nat)
  | declare (marks : List Mark)
  | assign (targets : List Target) (ctx : Context) (line : Nat)
  | test (yes no : List Stmt) (ctx : Context)
  | again
  | leaveIf
  | range (body : List Stmt) (ctx : Context) (line : Nat)
  | each (names : Nat) (body : List Stmt) (ctx : Context) (line : Nat)
  | give
  | discard

inductive Range where
  | ints (current step : Int64) (left : Nat)
  | floats (current limit step : Float)

/-- What is done once something has been dealt with. -/
inductive Frame where
  | values (done : List Value) (rest : List Expr) (ctx : Context) (use : Use)
  /-- the statements of a block that are left; `outer` counts the variables around it -/
  | block (all : List Stmt) (outer : Nat) (rest : List Stmt) (ctx : Context)
  | loop (condition : Expr) (body : List Stmt) (ctx : Context)
  | again (body : List Stmt) (ctx : Context)
  | range (r : Range) (body : List Stmt) (ctx : Context)
  | each (f s control : Value) (names : Nat) (body : List Stmt) (ctx : Context) (line : Nat)
  /-- a function that was called on a line, zero if not by a script -/
  | call (line : Nat)
  | protect
  | handle (handler : Value)
  | handled
  | sort (order : Value) (s : Sorting)
  | replace (s : Substitution) (m : Pattern.Found)

inductive Control where
  | eval (done : List Value) (rest : List Expr) (ctx : Context) (use : Use)
  | use (u : Use) (vs : List Value)
  | values (vs : List Value)
  | build (ref : Nat) (items : List Value) (before : Nat) (rest : List Field) (ctx : Context)
  | call (f : Value) (args : List Value) (line : Nat)
  | next
  | leave
  | jump (label : String)
  | give (vs : List Value)
  | tail (f : Value) (args : List Value)
  | raise (v : Value)

/-- The control says what is done next, the frames what is done after it. A step is total; an error
pops frames until one of them deals with it. -/
structure Machine where
  control : Control
  stack : List Frame
  heap : Heap
  /-- instructions that were run -/
  ticks : Nat
  /-- instructions until the clock is looked at -/
  wait : Nat
  /-- the clock was found to have run out -/
  fired : Bool
  /-- functions under way -/
  depth : Nat
  /-- routines under way that call functions -/
  routines : Nat

/-- The time of a script in instructions, and after how many of them the clock is looked at. -/
structure Clock where
  budget : Nat
  interval : Nat

namespace Machine

def maxDepth : Nat := 166000
def maxRoutines : Nat := 196

def place (line : Nat) : String :=
  if line = 0 then "" else "[string \"rule\"]:" ++ toString line ++ ": "

def Raised.value (line : Nat) : Raised → Value
  | .message s => .text (place line ++ s)
  | .value v => v

/-- The member of a value; texts have the routines on texts as members. -/
def member (h : Heap) (texts : Nat) (v k : Value) : Attempt Value :=
  match v with
  | .table r => .ok ((h.table r).get k)
  | .str _ => .ok ((h.table texts).get k)
  | v => Raised.error ("attempt to index a " ++ v.typeName ++ " value")

def setMember (v k x : Value) : Action Unit :=
  match v with
  | .table r =>
    match k.key? with
    | some k => modify (·.setKey r k x)
    | none => Raised.error (if k.isNil then "table index is nil" else "table index is NaN")
  | v => Raised.error ("attempt to index a " ++ v.typeName ++ " value")

def globals : Nat := 0
def texts : Nat := 1

/-- The value of an expression that takes no instruction. -/
def atom? (h : Heap) (ctx : Context) : Expr → Option Value
  | .nil => some .nil
  | .bool b => some (.bool b)
  | .int n => some (.int n)
  | .float x => some (.float x)
  | .str s => some (.str s)
  | .var i => some (match ctx.cells[i]? with
    | some c => h.cell c
    | none => .nil)
  | _ => none

def head (vs : List Value) : Value := vs.headD .nil

def pad : Nat → List Value → List Value
  | 0, _ => []
  | n + 1, [] => .nil :: pad n []
  | n + 1, v :: vs => v :: pad n vs

def declare (h : Heap) (ctx : Context) : List Value → Heap × Context
  | [] => (h, ctx)
  | v :: vs =>
    let (c, h) := h.newCell v
    declare h { ctx with cells := c :: ctx.cells } vs

def enterBlock (body : List Stmt) (ctx : Context) : Frame :=
  .block body ctx.cells.length body ctx

def putItems (h : Heap) (ref before : Nat) (items : List Value) : Heap :=
  h.update ref fun t =>
    let last := before + items.length
    let t := if t.items.size < last then t.resize last t.room else t
    let put := fun (vs, i) v => (Array.setIfInBounds vs i v, i + 1)
    { t with items := (items.foldl put (t.items, before)).1 }

def itemsAtOnce : Nat := 50

/-- The expressions that the targets of an assignment are found by. -/
def prefixes : List Target → List Expr
  | [] => []
  | .var _ :: ts => prefixes ts
  | .member t k :: ts => t :: k :: prefixes ts

/-- Pairs targets with the values they are found by; what is left are the values assigned. -/
def resolve (ctx : Context) : List Target → List Value →
    List (Nat ⊕ (Value × Value)) × List Value
  | [], vs => ([], vs)
  | .var i :: ts, vs =>
    let (rs, vs) := resolve ctx ts vs
    (.inl (ctx.cells.getD i 0) :: rs, vs)
  | .member _ _ :: ts, t :: k :: vs =>
    let (rs, vs) := resolve ctx ts vs
    (.inr (t, k) :: rs, vs)
  | .member _ _ :: ts, vs => resolve ctx ts vs

/-- Assigns from the last target to the first. -/
def assign : List ((Nat ⊕ (Value × Value)) × Value) → Action Unit
  | [] => return
  | (.inl c, v) :: rest => do
    assign rest
    modify (·.setCell c v)
  | (.inr (t, k), x) :: rest => do
    assign rest
    setMember t k x

/-- The limit of a loop over integers, as an integer; none if the loop does not run. -/
def rangeLimit (limit : Value) (step : Int64) : Attempt (Option Int64) :=
  match limit.toNumber? with
  | none => Raised.error "'for' limit must be a number"
  | some (.int n) => .ok (some n)
  | some (.float x) =>
    let r := if step < 0 then x.ceil else x.floor
    if Number.inRange r then .ok (some r.toInt64)
    else if 0 < x then .ok (if step < 0 then none else some Int64.maxValue)
    else .ok (if 0 < step then none else some Int64.minValue)

def rangeNumber (v : Value) (what : String) : Attempt Float :=
  match v.toFloat? with
  | some x => .ok x
  | none => Raised.error ("'for' " ++ what ++ " must be a number")

def range? (first last step : Value) : Attempt (Option Range) :=
  match first, step with
  | .int i, .int s =>
    if s = 0 then Raised.error "'for' step is zero"
    else do
      match ← rangeLimit last s with
      | none => return none
      | some l =>
        if (if 0 < s then l < i else i < l) then return none
        else return some (.ints i s ((l.toInt - i.toInt).natAbs / s.toInt.natAbs))
  | _, _ => do
    let l ← rangeNumber last "limit"
    let s ← rangeNumber step "step"
    let i ← rangeNumber first "initial value"
    if s == 0 then Raised.error "'for' step is zero"
    else if (if 0 < s then l < i else i < l) then return none
    else return some (.floats i l s)

def Range.value : Range → Value
  | .ints i _ _ => .int i
  | .floats x _ _ => .float x

def Range.next : Range → Option Range
  | .ints _ _ 0 => none
  | .ints i s (n + 1) => some (.ints (i + s) s n)
  | .floats x l s =>
    let y := x + s
    if (if 0 < s then y ≤ l else l ≤ y) then some (.floats y l s) else none

/-- The line of the call that is `level` functions further out; the innermost has level one. -/
def lineAt (line : Nat) (stack : List Frame) : Nat → Nat
  | 0 => 0
  | 1 => line
  | level + 2 =>
    let rec go : List Frame → Nat → Nat
      | [], _ => 0
      | .call l :: fs, n => if n = 0 then l else go fs (n - 1)
      | _ :: fs, n => go fs n
    go stack level

def errorValue (c : Call) (line : Nat) (stack : List Frame) : Attempt Value := do
  let level ← c.intOr 2 1
  match c.get 1 with
  | .str s =>
    if 0 < level then return .str (bytes (place (lineAt line stack level.toInt.toNat)) ++ s)
    else return .str s
  | v => return v

def routine (r : Routine) (late : Bool) (c : Call) : Action (List Value) := do
  match r with
  | .global r => Library.global r c
  | .text r => ExceptT.adapt (Library.asSignal r) do
    Library.guardCall r late c
    Library.text r c
  | .number r => Library.number r c
  | .table r => Library.table r c
  | .code r => Library.code r c
  | .rule r => Library.rule r c (← get)
  | .nextItem => Library.nextItem c (← get)
  | .nextCode lax => Library.nextCode lax c

def ofContext (ctx : Context) : List Heap.Ref :=
  ctx.cells.map .cell ++ ctx.more.map .value

def ofUse : Use → List Heap.Ref
  | .and _ ctx | .or _ ctx | .test _ _ ctx | .range _ ctx _ | .each _ _ ctx _
  | .assign _ ctx _ | .method _ _ ctx _ _ => ofContext ctx
  | .arguments f s _ _ => [.value f, .value s]
  | .item r vs _ _ ctx | .pair r vs _ _ ctx _ =>
    .value (.table r) :: vs.map .value ++ ofContext ctx
  | .items r vs _ => .value (.table r) :: vs.map .value
  | _ => []

def ofFrame : Frame → List Heap.Ref
  | .values done _ ctx u => done.map .value ++ ofContext ctx ++ ofUse u
  | .block _ _ _ ctx | .loop _ _ ctx | .again _ ctx | .range _ _ ctx => ofContext ctx
  | .each f s c _ _ ctx _ => [.value f, .value s, .value c] ++ ofContext ctx
  | .handle v => [.value v]
  | .sort v s => [.value v, .value (.table s.table)]
  | .replace s _ => [.value s.replacement, .value (.str s.walk.subject)]
  | .call _ | .protect | .handled => []

def ofControl : Control → List Heap.Ref
  | .eval done _ ctx u => done.map .value ++ ofContext ctx ++ ofUse u
  | .use u vs => ofUse u ++ vs.map .value
  | .values vs | .give vs => vs.map .value
  | .build r vs _ _ ctx => .value (.table r) :: vs.map .value ++ ofContext ctx
  | .call f vs _ | .tail f vs => .value f :: vs.map .value
  | .raise v => [.value v]
  | .next | .leave | .jump _ => []

/-- What can be reached directly: the tables of globals and of routines on texts, and all that the
control and the frames hold. -/
def roots (control : Control) (stack : List Frame) : List Heap.Ref :=
  .value (.table globals) :: .value (.table texts) :: ofControl control ++ stack.flatMap ofFrame

def go (m : Machine) (c : Control) : Machine := { m with control := c }

def push (m : Machine) (f : Frame) (c : Control) : Machine :=
  { m with control := c, stack := f :: m.stack }

def fail (m : Machine) (line : Nat) (e : Raised) : Machine := m.go (.raise (Raised.value line e))

def attempt {α : Type} (m : Machine) (line : Nat) (a : Attempt α) (k : α → Machine) : Machine :=
  match a with
  | .ok x => k x
  | .error e => m.fail line e

def perform {α : Type} (m : Machine) (line : Nat) (a : Action α) (k : Machine → α → Machine) :
    Machine :=
  let (r, h) := a.run.run m.heap
  let m := { m with heap := h }
  match r with
  | .ok x => k m x
  | .error e => m.fail line e

def pushRoutine (m : Machine) (f : Frame) (c : Control) (line : Nat) : Machine :=
  if m.routines < maxRoutines then
    { m with control := c, stack := f :: m.stack, routines := m.routines + 1 }
  else m.fail line (.message "C stack overflow")

def popRoutine (m : Machine) (c : Control) : Machine :=
  { m with control := c, routines := m.routines - 1 }

def isLate (m : Machine) (clock : Clock) : Bool := clock.budget ≤ m.ticks

def replaceNext (m : Machine) (s : Substitution) (line : Nat) : Machine :=
  m.attempt line ((s.next (s.walk.subject.size + 2)).mapError (Library.asSignal .gsub))
    fun (found, s) =>
    match found with
    | none =>
      let (vs, h) := s.result m.heap
      { m with control := .values vs, heap := h, routines := m.routines - 1 }
    | some f =>
      m.attempt line ((s.values f).mapError (Library.asSignal .gsub)) fun vs =>
        m.push (.replace s f) (.call s.replacement vs 0)

def sortNext (m : Machine) (order : Value) (s : Option Sorting) : Machine :=
  match s with
  | none => m.popRoutine (.values [])
  | some s =>
    let (a, b) := s.question m.heap
    m.push (.sort order s) (.call order [a, b] 0)

def isFunction : Value → Bool
  | .closure _ | .routine _ => true
  | _ => false

def callRoutine (clock : Clock) (m : Machine) (r : Routine) (args : List Value) (line : Nat) :
    Machine :=
  let c : Call := ⟨r.name, args.toArray⟩
  match r with
  | .global .pcall =>
    match args with
    | [] => m.fail line (.value (.text "not enough arguments to pcall"))
    | f :: args => m.pushRoutine .protect (.call f args 0) line
  | .global .xpcall =>
    match args with
    | f :: handler :: args => m.pushRoutine (.handle handler) (.call f args 0) line
    | _ => m.fail line (.value (.text "not enough arguments to xpcall"))
  | .global .error =>
    m.attempt line (errorValue c line m.stack) fun v => m.go (.raise v)
  | .text .gsub =>
    if isFunction (c.get 3) then
      let start : Attempt Substitution := do
        Library.guardCall .gsub (m.isLate clock) c
        Library.substitution c
      m.attempt line (start.mapError (Library.asSignal .gsub)) fun s =>
        if m.routines < maxRoutines then
          replaceNext { m with routines := m.routines + 1 } s line
        else m.fail line (.message "C stack overflow")
    else plain m c
  | .table .sort =>
    if isFunction (c.get 2) then
      m.perform line (Library.sorting c) fun m s =>
        if m.routines < maxRoutines then
          sortNext { m with routines := m.routines + 1 } (c.get 2) s
        else m.fail line (.message "C stack overflow")
    else plain m c
  | _ => plain m c
where
  plain (m : Machine) (c : Call) : Machine :=
    m.perform line (routine r (m.isLate clock) c) fun m vs => m.go (.values vs)

def call (clock : Clock) (m : Machine) (f : Value) (args : List Value) (line : Nat) : Machine :=
  match f with
  | .routine r => callRoutine clock m r args line
  | .closure ref =>
    match m.heap.functions[ref]? with
    | some (.script (.mk n variadic body) cells) =>
      if maxDepth ≤ m.depth then m.fail line (.message "stack overflow")
      else
        let more := if variadic then args.drop n else []
        let (h, ctx) := declare (m.heap.charge frameSize) ⟨cells, more⟩ (pad n args)
        { m with
          control := .next
          stack := enterBlock body ctx :: .call line :: m.stack
          heap := h
          depth := m.depth + 1 }
    | some (.walk w) =>
      m.attempt line ((Library.walkStep w).mapError (Library.asSignal .gmatch)) fun (vs, w) =>
        { m with
          control := .values vs
          heap := { m.heap with functions := m.heap.functions.setIfInBounds ref (.walk w) } }
    | none => m.go (.values [])
  | v => m.fail line (.message ("attempt to call a " ++ v.typeName ++ " value"))

def evalExpr (m : Machine) (ctx : Context) (e : Expr) : Machine :=
  match e with
  | .nil => m.go (.values [.nil])
  | .bool b => m.go (.values [.bool b])
  | .int n => m.go (.values [.int n])
  | .float x => m.go (.values [.float x])
  | .str s => m.go (.values [.str s])
  | .var i => m.go (.values [(atom? m.heap ctx (.var i)).getD .nil])
  | .varargs => m.go (.values ctx.more)
  | .function f =>
    let (v, h) := m.heap.newClosure (.script f ctx.cells)
    { m with control := .values [v], heap := h }
  | .first e => m.go (.eval [] [e] ctx .first)
  | .index t k line => m.go (.eval [] [t, k] ctx (.index line))
  | .call f args line => m.go (.eval [] (f.one :: args) ctx (.call line false))
  | .method t name args line => m.go (.eval [] [t] ctx (.method name args ctx line false))
  | .unary op e line => m.go (.eval [] [e] ctx (.unary op line))
  | .binary op a b line => m.go (.eval [] [a, b] ctx (.binary op line))
  | .and a b => m.go (.eval [] [a] ctx (.and b ctx))
  | .or a b => m.go (.eval [] [a] ctx (.or b ctx))
  | .table fields =>
    let (items, pairs) := Field.counts fields
    let (r, h) := m.heap.newTable (.withRoom items pairs)
    { m with control := .build r [] 0 fields ctx, heap := h }

def build (m : Machine) (ref : Nat) (items : List Value) (before : Nat) (rest : List Field)
    (ctx : Context) : Machine :=
  match rest with
  | [] =>
    { m with control := .values [.table ref], heap := putItems m.heap ref before items.reverse }
  | [.item e] =>
    if e.isMany then m.go (.eval [] [e] ctx (.items ref items before))
    else m.go (.eval [] [e] ctx (.item ref items before [] ctx))
  | .item e :: rest => m.go (.eval [] [e] ctx (.item ref items before rest ctx))
  | .pair k v line :: rest => m.go (.eval [] [k, v] ctx (.pair ref items before rest ctx line))

def turn (m : Machine) (r : Range) (body : List Stmt) (ctx : Context) : Machine :=
  let (h, inner) := declare m.heap ctx [Range.value r]
  { m with
    control := .next
    stack := enterBlock body inner :: .range r body ctx :: m.stack
    heap := h }

def use (m : Machine) (u : Use) (vs : List Value) : Machine :=
  match u with
  | .first => m.go (.values [head vs])
  | .unary op line =>
    match op, head vs with
    | .length, .table r =>
      let (n, h) := m.heap.border r
      { m with control := .values [.ofNat n], heap := h }
    | op, v => m.attempt line (Operation.unary op v) fun v => m.go (.values [v])
  | .binary op line =>
    m.attempt line (Operation.binary op (head vs) (head vs.tail)) fun v =>
      match op, v with
      | .concat, .str s => { m with control := .values [v], heap := m.heap.charge (textSize s) }
      | _, _ => m.go (.values [v])
  | .and b ctx =>
    if (head vs).holds then m.go (.eval [] [b] ctx .first) else m.go (.values [head vs])
  | .or b ctx =>
    if (head vs).holds then m.go (.values [head vs]) else m.go (.eval [] [b] ctx .first)
  | .index line =>
    m.attempt line (member m.heap texts (head vs) (head vs.tail)) fun v => m.go (.values [v])
  | .call line last =>
    m.go (if last then .tail (head vs) vs.tail else .call (head vs) vs.tail line)
  | .method name args ctx line last =>
    m.attempt line (member m.heap texts (head vs) (.str name)) fun f =>
      m.go (.eval [] args ctx (.arguments f (head vs) line last))
  | .arguments f self line last =>
    m.go (if last then .tail f (self :: vs) else .call f (self :: vs) line)
  | .item ref items before rest ctx =>
    let items := head vs :: items
    if items.length < itemsAtOnce then m.go (.build ref items before rest ctx)
    else
      { m with
        control := .build ref [] (before + items.length) rest ctx
        heap := putItems m.heap ref before items.reverse }
  | .items ref items before =>
    { m with
      control := .values [.table ref]
      heap := putItems m.heap ref before (items.reverse ++ vs) }
  | .pair ref items before rest ctx line =>
    m.perform line (setMember (.table ref) (head vs) (head vs.tail)) fun m _ =>
      m.go (.build ref items before rest ctx)
  | .declare marks =>
    let vs := pad marks.length vs
    if (marks.zip vs).any fun (mark, v) => mark = .close && v.holds then
      m.fail 0 (.message "variable got a non-closable value")
    else match m with
      | ⟨_, .block all outer rest ctx :: stack, heap, ticks, wait, fired, depth, routines⟩ =>
        let (h, ctx) := declare heap ctx vs
        ⟨.next, .block all outer rest ctx :: stack, h, ticks, wait, fired, depth, routines⟩
      | m => m.go .next
  | .assign targets ctx line =>
    let (rs, vs) := resolve ctx targets vs
    m.perform line (assign (rs.zip (pad rs.length vs))) fun m _ => m.go .next
  | .test yes no ctx => m.push (enterBlock (if (head vs).holds then yes else no) ctx) .next
  | .again =>
    match m.stack with
    | .loop _ body ctx :: _ =>
      if (head vs).holds then m.push (enterBlock body ctx) .next else m.go .leave
    | _ => m.go .next
  | .leaveIf => m.go (if (head vs).holds then .leave else .next)
  | .range body ctx line =>
    let step := match vs with
      | [_, _] => .int 1
      | _ => (vs[2]?).getD .nil
    m.attempt line (range? (head vs) (head vs.tail) step) fun r =>
      match r with
      | some r => m.turn r body ctx
      | none => m.go .next
  | .each n body ctx line =>
    match pad 4 vs with
    | [f, s, c, closing] =>
      if closing.holds then
        m.fail line (.message "variable '(for state)' got a non-closable value")
      else m.push (.each f s c n body ctx line) (.call f [s, c] line)
    | _ => m.go .next
  | .give => m.go (.give vs)
  | .discard => m.go .next

def statement (m : Machine) (ctx : Context) (s : Stmt) : Machine :=
  match s with
  | .locals marks values => m.go (.eval [] values ctx (.declare marks))
  | .assign targets values line =>
    m.go (.eval [] (prefixes targets ++ values) ctx (.assign targets ctx line))
  | .call e => m.go (.eval [] [e] ctx .discard)
  | .block body => m.push (enterBlock body ctx) .next
  | .loop c body => m.push (.loop c body ctx) .next
  | .again body => m.push (.again body ctx) .next
  | .leaveIf c => m.go (.eval [] [c] ctx .leaveIf)
  | .branch c yes no => m.go (.eval [] [c] ctx (.test yes no ctx))
  | .forRange range body line => m.go (.eval [] (range.map Expr.one) ctx (.range body ctx line))
  | .forEach n source body line => m.go (.eval [] source ctx (.each n body ctx line))
  | .localFunction f =>
    match m with
    | ⟨_, .block all outer rest ctx :: stack, heap, ticks, wait, fired, depth, routines⟩ =>
      let (h, ctx) := declare heap ctx [.nil]
      let (v, h) := h.newClosure (.script f ctx.cells)
      let h := match ctx.cells with
        | c :: _ => h.setCell c v
        | [] => h
      ⟨.next, .block all outer rest ctx :: stack, h, ticks, wait, fired, depth, routines⟩
    | m => m.go .next
  | .give [.call f args line] => m.go (.eval [] (f.one :: args) ctx (.call line true))
  | .give [.method t name args line] => m.go (.eval [] [t] ctx (.method name args ctx line true))
  | .give values => m.go (.eval [] values ctx .give)
  | .leave => m.go .leave
  | .jump label => m.go (.jump label)
  | .label _ => m.go .next

def next (m : Machine) : Machine :=
  match m.stack with
  | [] => m.go (.values [])
  | .block _ _ [] _ :: stack => { m with stack := stack }
  | .block all outer (s :: rest) ctx :: stack =>
    statement { m with stack := .block all outer rest ctx :: stack } ctx s
  | .loop c _ ctx :: _ => m.go (.eval [] [c] ctx .again)
  | .again body ctx :: _ => m.push (enterBlock body ctx) .next
  | .range r body ctx :: stack =>
    match Range.next r with
    | some r => turn { m with stack := stack } r body ctx
    | none => { m with stack := stack }
  | .each f s c _ _ _ line :: _ => m.go (.call f [s, c] line)
  | .call _ :: _ => m.go (.give [])
  | _ => m.go (.values [])

def deliver (m : Machine) (vs : List Value) : Machine :=
  match m.stack with
  | [] => m
  | .values done rest ctx u :: stack =>
    match rest with
    | [] => { m with control := .use u (done.reverse ++ vs), stack := stack }
    | rest => { m with control := .eval (head vs :: done) rest ctx u, stack := stack }
  | .each f s _ n body ctx line :: stack =>
    match head vs with
    | .nil => { m with control := .next, stack := stack }
    | c =>
      let (h, inner) := declare m.heap ctx (pad n vs)
      { m with
        control := .next
        stack := enterBlock body inner :: .each f s c n body ctx line :: stack
        heap := h }
  | .protect :: stack | .handle _ :: stack =>
    popRoutine { m with stack := stack } (.values (.bool true :: vs))
  | .handled :: stack => popRoutine { m with stack := stack } (.values [.bool false, head vs])
  | .sort order s :: stack =>
    let m := { m with stack := stack }
    m.perform 0 (s.answer (head vs).holds) fun m s => m.sortNext order s
  | .replace s f :: stack =>
    let m := { m with stack := stack }
    m.attempt 0 ((s.put f (head vs)).mapError (Library.asSignal .gsub)) fun s =>
      m.replaceNext s 0
  | _ => m.go .next

/-- An error passes through the frame on top or is dealt with there. -/
def unwind (m : Machine) (v : Value) : Machine :=
  match m.stack with
  | [] => m
  | .protect :: stack => popRoutine { m with stack := stack } (.values [.bool false, v])
  | .handle handler :: stack =>
    { m with control := .call handler [v] 0, stack := .handled :: stack }
  | .handled :: stack => popRoutine { m with stack := stack } (.values [.bool false, v])
  | .call _ :: stack =>
    { m with stack := stack, depth := m.depth - 1, heap := m.heap.release frameSize }
  | .sort _ _ :: stack => popRoutine { m with stack := stack } (.raise v)
  | .replace _ _ :: stack =>
    let v := match v with
      | .signal s => .signal s
      | v => .signal (.failed (readable v.display))
    popRoutine { m with stack := stack } (.raise v)
  | _ :: stack => { m with stack := stack }

def leave (m : Machine) : Machine :=
  match m.stack with
  | .loop _ _ _ :: stack | .again _ _ :: stack | .range _ _ _ :: stack
  | .each _ _ _ _ _ _ _ :: stack => { m with control := .next, stack := stack }
  | _ :: stack => { m with stack := stack }
  | [] => m.go .next

def jump (m : Machine) (label : String) : Machine :=
  match m.stack with
  | .block all outer _ ctx :: stack =>
    match Jump.target? label all with
    | some (after, n) =>
      let ctx := { ctx with cells := ctx.cells.drop (ctx.cells.length - (outer + n)) }
      { m with control := .next, stack := .block all outer after ctx :: stack }
    | none => { m with stack := stack }
  | _ :: stack => { m with stack := stack }
  | [] => m.go .next

def finish (m : Machine) (k : Nat → Control) : Machine :=
  match m.stack with
  | .call line :: stack =>
    { m with
      control := k line
      stack := stack
      depth := m.depth - 1
      heap := m.heap.release frameSize }
  | _ :: stack => { m with stack := stack }
  | [] => m.go (.values [])

def step (clock : Clock) (m : Machine) : Machine :=
  match m.control with
  | .eval done [] _ u => m.go (.use u done.reverse)
  | .eval done (e :: rest) ctx u =>
    match atom? m.heap ctx e with
    | some v => m.go (.eval (v :: done) rest ctx u)
    | none => evalExpr { m with stack := .values done rest ctx u :: m.stack } ctx e
  | .use u vs => m.use u vs
  | .values vs => m.deliver vs
  | .build ref items before rest ctx => m.build ref items before rest ctx
  | .call f args line => m.call clock f args line
  | .next => m.next
  | .leave => m.leave
  | .jump label => m.jump label
  | .give vs => m.finish fun _ => .values vs
  | .tail f args => m.finish fun line => .call f args line
  | .raise v => m.unwind v

def isInstruction : Control → Bool
  | .use _ _ | .call _ _ _ => true
  | _ => false

/-- Counts an instruction, and raises an error when the clock is looked at and has run out. -/
def tick (clock : Clock) (m : Machine) : Machine :=
  let m := { m with ticks := m.ticks + 1, wait := m.wait - 1 }
  if m.wait = 0 then
    let m := { m with wait := clock.interval }
    if m.isLate clock then { m with control := .raise (.signal .timedOut) } else m
  else m

/-- Drops what is not needed any more, and raises an error if that does not help. -/
def reclaim (m : Machine) : Machine :=
  let h := m.heap.collect (roots m.control m.stack) (frameSize * m.depth)
  if h.isTight then { m with control := .raise Raised.outOfMemory, heap := h }
  else { m with heap := h }

inductive Outcome where
  | values (vs : List Value)
  | error (v : Value)

def outcome? (m : Machine) : Option Outcome :=
  match m.stack, m.control with
  | [], .values vs => some (.values vs)
  | [], .raise v => some (.error v)
  | _, _ => none

def isTimedOut : Control → Bool
  | .raise (.signal .timedOut) => true
  | _ => false

def advance (clock : Clock) (m : Machine) : Machine :=
  let m := if isInstruction m.control then m.tick clock else m
  let m := if isInstruction m.control && m.heap.isFull then m.reclaim else m
  let m := m.step clock
  if isTimedOut m.control then { m with fired := true } else m

/-- Steps until there is an outcome; none if the steps do not suffice. -/
def run (clock : Clock) : Nat → Machine → Option (Outcome × Machine)
  | 0, _ => none
  | fuel + 1, m =>
    match m.outcome? with
    | some o => some (o, m)
    | none => run clock fuel (m.advance clock)

def start (f : Value) (h : Heap) (clock : Clock) : Machine :=
  ⟨.call f [] 0, [], h, 0, clock.interval, false, 0, 0⟩

end Machine

end Rulebook.Script
