import Rulebook.Script.Table
import Rulebook.Script.Expr
import Rulebook.Script.Pattern

namespace Rulebook.Script

/-- The cells of the variables in sight, the last declared first. -/
abbrev Env := List Nat

inductive Closure where
  | script (f : Body) (env : Env)
  | walk (w : Pattern.Walk)

instance : Inhabited Closure := ⟨.script (.mk 0 false []) []⟩

structure Random where
  a : UInt64
  b : UInt64
  c : UInt64
  d : UInt64

/-- Tables, variables and functions are known by their places. When the bytes in use reach a limit,
what cannot be reached any more is dropped. -/
structure Heap where
  tables : Array Table
  cells : Array Value
  functions : Array Closure
  used : Nat
  /-- the bytes that may be in use; zero stands for no limit -/
  limit : Nat
  random : Random

namespace Random

def rotate (x : UInt64) (n : UInt64) : UInt64 := (x <<< n) ||| (x >>> (64 - n))

def next (r : Random) : UInt64 × Random :=
  let x := rotate (r.b * 5) 7 * 9
  let c := r.c ^^^ r.a
  let d := r.d ^^^ r.b
  let b := r.b ^^^ c
  let a := r.a ^^^ d
  (x, ⟨a, b, c ^^^ (r.b <<< 17), rotate d 45⟩)

def skip : Nat → Random → Random
  | 0, r => r
  | n + 1, r => skip n r.next.2

def ofSeed (low high : UInt64) : Random := skip 16 ⟨low, 0xff, high, 0⟩

end Random

/-- Bytes that the interpreter holds before a script starts, and for things of each kind. -/
def baseSize : Nat := 24000
def cellSize : Nat := 40
def closureSize : Nat := 40
def frameSize : Nat := 170
def textSize (s : ByteArray) : Nat := 24 + s.size

def Table.memory (t : Table) : Nat := 56 + 16 * t.items.size + 24 * t.room

namespace Heap

def empty (limit : Nat) : Heap := ⟨#[], #[], #[], baseSize, limit, .ofSeed 1 0⟩

def ceiling : Nat := 1024 * 1024 * 1024

def bound (h : Heap) : Nat := if h.limit = 0 then ceiling else min h.limit ceiling

def isFull (h : Heap) : Bool := h.bound < h.used

def charge (n : Nat) (h : Heap) : Heap := { h with used := h.used + n }

def release (n : Nat) (h : Heap) : Heap := { h with used := h.used - n }

def newTable (h : Heap) (t : Table) : Nat × Heap :=
  (h.tables.size, { h with tables := h.tables.push t, used := h.used + t.memory })

def newCell (h : Heap) (v : Value) : Nat × Heap :=
  (h.cells.size, { h with cells := h.cells.push v, used := h.used + cellSize })

def newClosure (h : Heap) (c : Closure) : Value × Heap :=
  (.closure h.functions.size,
    { h with functions := h.functions.push c, used := h.used + closureSize })

def newText (h : Heap) (s : ByteArray) : Value × Heap := (.str s, h.charge (textSize s))

def table (h : Heap) (ref : Nat) : Table := h.tables.getD ref .empty

def cell (h : Heap) (n : Nat) : Value := h.cells.getD n .nil

def setCell (h : Heap) (n : Nat) (v : Value) : Heap :=
  { h with cells := h.cells.setIfInBounds n v }

def update (h : Heap) (ref : Nat) (f : Table → Table) : Heap :=
  let before := (h.table ref).memory
  let tables := h.tables.modify ref f
  let after := (tables.getD ref .empty).memory
  { h with tables := tables, used := h.used + after - before }

def setKey (h : Heap) (ref : Nat) (k : Key) (v : Value) : Heap := h.update ref fun t => t.setKey k v

def setInt (h : Heap) (ref : Nat) (n : Int64) (v : Value) : Heap := h.setKey ref (.int n) v

def border (h : Heap) (ref : Nat) : Nat × Heap :=
  let (n, t) := (h.table ref).border
  if t.hint = (h.table ref).hint then (n, h)
  else (n, { h with tables := h.tables.modify ref fun u => { u with hint := t.hint } })

def isList (h : Heap) (ref : Nat) : Bool := (h.table ref).isList

inductive Ref where
  | value (v : Value)
  | cell (n : Nat)

structure Marks where
  tables : Array Bool
  cells : Array Bool
  functions : Array Bool
  size : Nat

def Marks.none (h : Heap) : Marks :=
  ⟨Array.replicate h.tables.size false, Array.replicate h.cells.size false,
    Array.replicate h.functions.size false, 0⟩

def pushValues (vs : Array Value) (work : List Ref) : List Ref :=
  vs.foldl (fun work v => .value v :: work) work

def mark (h : Heap) : Nat → List Ref → Marks → Marks
  | 0, _, m | _, [], m => m
  | fuel + 1, .cell n :: work, m =>
    if m.cells.getD n true then mark h fuel work m
    else mark h fuel (.value (h.cell n) :: work)
      { m with cells := m.cells.setIfInBounds n true, size := m.size + cellSize }
  | fuel + 1, .value v :: work, m =>
    match v with
    | .str s => mark h fuel work { m with size := m.size + textSize s }
    | .table r =>
      if m.tables.getD r true then mark h fuel work m
      else
        let t := h.table r
        let work := t.nodes.foldl (fun work (k, v) =>
          if v.isNil then work else .value k.value :: .value v :: work) (pushValues t.items work)
        mark h fuel work
          { m with tables := m.tables.setIfInBounds r true, size := m.size + t.memory }
    | .closure r =>
      if m.functions.getD r true then mark h fuel work m
      else
        let m := { m with
          functions := m.functions.setIfInBounds r true
          size := m.size + closureSize }
        match h.functions[r]? with
        | some (.script _ env) => mark h fuel (env.foldl (fun work n => .cell n :: work) work) m
        | some (.walk w) => mark h fuel work { m with size := m.size + textSize w.subject }
        | none => mark h fuel work m
    | _ => mark h fuel work m

/-- A number of references that is enough to reach everything. -/
def edges (h : Heap) : Nat :=
  let tables := h.tables.foldl (fun n t => n + t.items.size + 2 * t.nodes.size + 1) 0
  let functions := h.functions.foldl (fun n c => match c with
    | .script _ env => n + env.length + 1
    | .walk _ => n + 1) 0
  tables + functions + 2 * h.cells.size

/-- Drops what cannot be reached from the given roots; frames take up bytes of their own. -/
def collect (h : Heap) (roots : List Ref) (frames : Nat) : Heap :=
  let m := h.mark (h.edges + roots.length + 1) roots (.none h)
  { h with
    tables := h.tables.mapIdx fun i t => if m.tables.getD i false then t else .empty
    cells := h.cells.mapIdx fun i v => if m.cells.getD i false then v else .nil
    used := baseSize + m.size + frames }

/-- A collection that frees less than a sixteenth of the bytes does not help. -/
def isTight (h : Heap) : Bool := h.bound - h.bound / 16 < h.used

end Heap

end Rulebook.Script
