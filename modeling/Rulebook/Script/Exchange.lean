import Rulebook.Script.Heap

namespace Rulebook.Script.Exchange

def integer (n : Int) : Value :=
  if Json.int64Min ≤ n ∧ n ≤ Json.int64Max then .int (Int64.ofInt n) else .float (Float.ofInt n)

def listOf (vs : List Value) : Table :=
  { Table.withRoom 0 0 with items := vs.toArray, hint := vs.length, isList := true }

mutual

/-- The value that a JSON value is. `null` is `nil`, so a member that is `null` is absent; an array
stays a list even if it is empty. -/
def value (h : Heap) : Json → Value × Heap
  | .null => (.nil, h)
  | .bool b => (.bool b, h)
  | .int n => (integer n, h)
  | .float x => (.float x, h)
  | .str s => h.newText (bytes s)
  | .arr items =>
    let (vs, h) := values h items
    let (r, h) := h.newTable (listOf vs)
    (.table r, h)
  | .obj members =>
    let (t, h) := record h (Table.withRoom 0 members.length) members
    let (r, h) := h.newTable t
    (.table r, h)

def values (h : Heap) : List Json → List Value × Heap
  | [] => ([], h)
  | j :: js =>
    let (v, h) := value h j
    let (vs, h) := values h js
    (v :: vs, h)

def record (h : Heap) (t : Table) : List (String × Json) → Table × Heap
  | [] => (t, h)
  | (name, j) :: rest =>
    let (v, h) := value h j
    record h (t.setText name v) rest

end

def isOpaque : Value → Bool
  | .closure _ | .routine _ | .signal _ => true
  | _ => false

inductive Fault where
  | cycle
  | invalidText
  | invalidKey
deriving DecidableEq, Repr

def Fault.message : Fault → String
  | cycle => "a table contains itself"
  | invalidText => "a text is not valid"
  | invalidKey => "a key is not a text"

def text (s : ByteArray) : Except Fault String :=
  match Source.decodeUtf8? s with
  | some t => .ok t
  | none => .error .invalidText

def number (x : Float) : Json := if x.isNaN || x.isInf then .null else .float x

/-- The JSON value that a value within the tables `above` it is. At most `depth` tables lie within
each other, unless one contains itself. -/
def json (h : Heap) : Nat → List Nat → Value → Except Fault Json
  | _, _, .nil | _, _, .closure _ | _, _, .routine _ | _, _, .signal _ => .ok .null
  | _, _, .bool b => .ok (.bool b)
  | _, _, .int n => .ok (.int n.toInt)
  | _, _, .float x => .ok (number x)
  | _, _, .str s => (text s).map .str
  | 0, _, .table _ => .error .cycle
  | depth + 1, above, .table r =>
    if r ∈ above then .error .cycle
    else
      let t := h.table r
      if 0 < t.border.1 || t.isList then do
        return .arr (← (t.sequence.filter (!isOpaque ·)).mapM (json h depth (r :: above)))
      else do
        let members := t.members.filter fun (k, v) => !isOpaque k && !isOpaque v
        return .obj (Fields.ofList (← members.mapM fun (k, v) =>
          match k with
          | .str s => return (← text s, ← json h depth (r :: above) v)
          | _ => .error .invalidKey))

theorem json_bool (h : Heap) (depth : Nat) (above : List Nat) (b : Bool) :
    json h depth above (.bool b) = .ok (.bool b) := by rw [json]

theorem json_str (h : Heap) (depth : Nat) (above : List Nat) (s : ByteArray) :
    json h depth above (.str s) = (text s).map .str := by rw [json]

def result (h : Heap) (v : Value) : Except Fault Json := json h (h.tables.size + 1) [] v

end Rulebook.Script.Exchange
