namespace Rulebook.Script.PatternCost

abbrev Bytes := List UInt8

def byte (c : Char) : UInt8 := UInt8.ofNat c.toNat

def isQuantifier (b : UInt8) : Bool := b = byte '*' || b = byte '+' || b = byte '-'

def setEnd : Bytes → Bytes
  | [] => []
  | c :: bs =>
    if c = byte ']' then bs
    else if c = byte '%' then
      match bs with
      | [] => []
      | _ :: bs => setEnd bs
    else setEnd bs

/-- What follows a set, given what follows its opening bracket. A bracket that comes first, or
right after a caret, belongs to the set. -/
def afterSet (bs : Bytes) : Bytes :=
  let bs := if bs.head? = some (byte '^') then bs.tail else bs
  let bs := if bs.head? = some (byte ']') then bs.tail else bs
  setEnd bs

theorem setEnd_length (bs : Bytes) : (setEnd bs).length ≤ bs.length := by
  fun_induction setEnd bs <;> simp_all <;> omega

theorem afterSet_length (bs : Bytes) : (afterSet bs).length ≤ bs.length := by
  unfold afterSet
  refine Nat.le_trans (setEnd_length _) ?_
  split <;> split <;> simp <;> omega

/-- The first item of a pattern: what follows it, and whether a quantifier may follow it. -/
def dropItem (c : UInt8) (bs : Bytes) : Bytes × Bool :=
  if c = byte '%' then
    match bs with
    | [] => ([], true)
    | e :: bs =>
      if e = byte 'b' then (bs.drop 2, false)
      else if e = byte 'f' then (afterSet bs.tail, false)
      else (bs, true)
  else if c = byte '[' then (afterSet bs, true)
  else (bs, !(c = byte '(' || c = byte ')'))

theorem dropItem_length (c : UInt8) (bs : Bytes) : (dropItem c bs).1.length ≤ bs.length := by
  unfold dropItem
  split
  · split
    · simp
    · next e bs =>
      split
      · simp; omega
      split
      · have := afterSet_length bs.tail
        simp at this ⊢
        omega
      · simp
  split
  · exact afterSet_length bs
  · simp

def countItems : Bytes → Nat
  | [] => 0
  | c :: bs =>
    let rest := (dropItem c bs).1
    if (dropItem c bs).2 && rest.head?.any isQuantifier then 1 + countItems rest.tail
    else countItems rest
termination_by bs => bs.length
decreasing_by
  all_goals
    have := dropItem_length c bs
    simp only [List.length_cons, List.length_tail]
    omega

/-- The number of items that a quantifier follows; a caret at the start is an anchor. -/
def quantifiers (pattern : Bytes) : Nat :=
  countItems (if pattern.head? = some (byte '^') then pattern.tail else pattern)

def power (x : Float) (n : Nat) : Float := go n 64 x 1
where
  go (n : Nat) : Nat → Float → Float → Float
    | 0, _, r => r
    | fuel + 1, x, r =>
      let r := if n % 2 = 1 then r * x else r
      if n / 2 = 0 then r else go (n / 2) fuel (x * x) r

/-- The estimated steps for a subject of a length in bytes: a start at every place, times the
length for each quantifier. -/
def work (pattern : Bytes) (length : Nat) : Float :=
  power (Float.ofNat (max length 2)) (quantifiers pattern + 1) *
    Float.ofNat (max pattern.length 1)

def maxWork : Float := 10000000
def maxLength : Nat := 512

end Rulebook.Script.PatternCost
