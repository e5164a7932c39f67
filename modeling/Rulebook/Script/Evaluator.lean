import Rulebook.Rule.Lowering
import Rulebook.Script.Exchange
import Rulebook.Script.Machine

namespace Rulebook.Script

def libraryOf {α : Type} (all : List α) (name : α → String) (routine : α → Routine) : Table :=
  all.foldl (fun t r => t.setText (name r) (.routine (routine r))) (.withRoom 0 all.length)

def numberLibrary : Table :=
  [("pi", Value.float Library.pi), ("huge", .float Library.huge),
    ("maxinteger", .int Int64.maxValue), ("mininteger", .int Int64.minValue)].foldl
    (fun t (name, v) => t.setText name v) (libraryOf NumberRoutine.all NumberRoutine.name .number)

def codeLibrary : Table :=
  (libraryOf CodeRoutine.all CodeRoutine.name .code).setText "charpattern"
    (.str Library.charPattern)

def Heap.addTable (h : Heap) (t : Table) : Heap := { h with tables := h.tables.push t }

def libraries : List (String × Value) :=
  [("_G", .table Machine.globals), ("_VERSION", .text "Lua 5.4"),
    ("string", .table Machine.texts), ("math", .table 2), ("table", .table 3),
    ("utf8", .table 4), ("rules", .table 5)]

def globalLibrary : Table :=
  libraries.foldl (fun t (name, v) => t.setText name v) (libraryOf Global.all Global.name .global)

def Heap.fresh (limit : Nat) : Heap :=
  [globalLibrary, libraryOf TextRoutine.all TextRoutine.name .text, numberLibrary,
    libraryOf TableRoutine.all TableRoutine.name .table, codeLibrary,
    libraryOf RuleRoutine.all RuleRoutine.name .rule].foldl Heap.addTable (.empty limit)

/-- Copies named values to the heap, where they hide routines of the same names. -/
def Heap.install (h : Heap) : Fields Json → Heap
  | [] => h
  | (name, j) :: rest =>
    let (v, h) := Exchange.value h j
    (h.setKey Machine.globals (.str (bytes name)) v).install rest

/-- Instructions that are run in a millisecond, and the most that any script may run. -/
def ticksPerMs : Nat := 50000
def maxTicks : Nat := 50000000

def clockOf (limits : Limits) : Clock :=
  ⟨min (limits.timeoutMs * ticksPerMs) maxTicks, max limits.interval 1⟩

/-- Steps of the machine that are enough for all the instructions until the clock has run out. -/
def fuelFor (clock : Clock) : Nat := 64 * (clock.budget + clock.interval) + 10000000

def outOfMemoryText : String := "not enough memory"

def isPart (part : List Char) : List Char → Bool
  | [] => part.isEmpty
  | c :: cs => part.isPrefixOf (c :: cs) || isPart part cs

def tellsOfMemory (message : String) : Bool := isPart outOfMemoryText.toList message.toList

/-- The fault that an error is which no script has dealt with. A clock that has run out on the way
goes first. -/
def faultOf (limits : Limits) (fired : Bool) (v : Value) : EvalFault :=
  let message := readable v.display
  if fired then .timeout limits.timeoutMs
  else if tellsOfMemory message then .memory limits.memory
  else match v with
    | .signal (.refused r) => .refused r
    | _ => .raised message

def runChunk (limits : Limits) (chunk : String) (context : Fields Json) : Except EvalFault Json :=
  let h := ((Heap.fresh limits.memory).install context).charge chunk.utf8ByteSize
  if h.isFull then .error (.memory limits.memory)
  else match Chunk.parse chunk with
    | .error .tooDeep => .error (.raised "C stack overflow")
    | .error (.malformed message) =>
      .error (if tellsOfMemory message then .memory limits.memory else .uncompiled message)
    | .ok body =>
      let clock := clockOf limits
      let (cell, h) := h.newCell (.table Machine.globals)
      let (main, h) := h.newClosure (.script body [cell])
      match Machine.run clock (fuelFor clock) (.start main h clock) with
      | none => .error (.timeout limits.timeoutMs)
      | some (.error v, m) => .error (faultOf limits m.fired v)
      | some (.values vs, m) =>
        (Exchange.result m.heap (Machine.head vs)).mapError fun f => .unrepresentable f.message

def evaluate (limits : Limits) : Evaluator := fun expr context =>
  match Rule.lower expr with
  | .error e => .error (.untokenized e)
  | .ok lowered => runChunk limits (Rule.returnChunk lowered) context

end Rulebook.Script
