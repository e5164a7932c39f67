import Rulebook.Script.PatternCost

namespace Rulebook.Script.Pattern

open PatternCost (Bytes byte)

inductive Fault where
  | endsWithEscape
  | openSet
  | noArguments
  | noSet
  | tooComplex
  | tooManyCaptures
  | nothingToClose
  | invalidIndex (index : Nat)
  | unfinished
deriving DecidableEq, Repr

def Fault.message : Fault → String
  | endsWithEscape => "malformed pattern (ends with '%')"
  | openSet => "malformed pattern (missing ']')"
  | noArguments => "malformed pattern (missing arguments to '%b')"
  | noSet => "missing '[' after '%f' in pattern"
  | tooComplex => "pattern too complex"
  | tooManyCaptures => "too many captures"
  | nothingToClose => "invalid pattern capture"
  | invalidIndex i => "invalid capture index %" ++ toString i
  | unfinished => "unfinished capture"

/-- A member of a set. A class is known by its letter. -/
inductive Member where
  | kind (letter : UInt8)
  | range (low high : UInt8)
  | byte (b : UInt8)
deriving DecidableEq, Repr

inductive Single where
  | any
  | byte (b : UInt8)
  | kind (letter : UInt8)
  | set (negated : Bool) (members : List Member)
deriving DecidableEq, Repr

inductive Repeat where
  | once | optional | many | atLeastOnce | few
deriving DecidableEq, Repr

inductive Item where
  | single (s : Single) (times : Repeat)
  | openCapture
  | position
  | closeCapture
  | balance (first last : UInt8)
  | frontier (s : Single)
  /-- the text of an earlier capture -/
  | again (digit : UInt8)
  | finish
  | malformed (fault : Fault)
deriving DecidableEq, Repr

/-- Contents of a set, given what follows its opening bracket and caret, and what follows it. The
first byte belongs to the set whatever it is. -/
def setBody (first : Bool) : Bytes → Option (Bytes × Bytes)
  | [] => none
  | c :: bs =>
    if c = byte ']' && !first then some ([], bs)
    else if c = byte '%' then
      match bs with
      | [] => none
      | e :: bs => (setBody false bs).map fun (s, r) => (c :: e :: s, r)
    else (setBody false bs).map fun (s, r) => (c :: s, r)

def members : Bytes → List Member
  | c :: d :: e :: bs =>
    if c = byte '%' then .kind d :: members (e :: bs)
    else if d = byte '-' then .range c e :: members bs
    else .byte c :: members (d :: e :: bs)
  | [c, d] => if c = byte '%' then [.kind d] else [.byte c, .byte d]
  | [c] => [.byte c]
  | [] => []

def set? (bs : Bytes) : Option (Single × Bytes) :=
  let negated := bs.head? = some (byte '^')
  (setBody true (if negated then bs.tail else bs)).map fun (s, r) => (.set negated (members s), r)

theorem setBody_length {first : Bool} {bs s r : Bytes} (h : setBody first bs = some (s, r)) :
    r.length < bs.length := by
  fun_induction setBody first bs generalizing s r with
  | case1 => simp at h
  | case2 => simp_all
  | case3 => simp at h
  | case4 =>
    rename_i ih
    obtain ⟨⟨s', r'⟩, h', he⟩ := Option.map_eq_some_iff.1 h
    have := ih h'
    simp only [Prod.mk.injEq] at he
    simp only [List.length_cons, ← he.2]
    omega
  | case5 =>
    rename_i ih
    obtain ⟨⟨s', r'⟩, h', he⟩ := Option.map_eq_some_iff.1 h
    have := ih h'
    simp only [Prod.mk.injEq] at he
    simp only [List.length_cons, ← he.2]
    omega

theorem set?_length {bs r : Bytes} {s : Single} (h : set? bs = some (s, r)) :
    r.length < bs.length := by
  obtain ⟨⟨s', r'⟩, h', he⟩ := Option.map_eq_some_iff.1 h
  have := setBody_length h'
  simp only [Prod.mk.injEq] at he
  rw [← he.2]
  split at this
  · exact Nat.lt_of_lt_of_le this (by simp)
  · exact this

def repetition : Bytes → Repeat × Bytes
  | [] => (.once, [])
  | c :: bs =>
    if c = byte '*' then (.many, bs)
    else if c = byte '+' then (.atLeastOnce, bs)
    else if c = byte '-' then (.few, bs)
    else if c = byte '?' then (.optional, bs)
    else (.once, c :: bs)

theorem repetition_length (bs : Bytes) : (repetition bs).2.length ≤ bs.length := by
  unfold repetition
  split
  · simp
  · repeat' split
    all_goals simp

def repeated (s : Single) (bs : Bytes) : Item × Bytes :=
  (.single s (repetition bs).1, (repetition bs).2)

def item (c : UInt8) (bs : Bytes) : Item × Bytes :=
  if c = byte '(' then
    if bs.head? = some (byte ')') then (.position, bs.tail) else (.openCapture, bs)
  else if c = byte ')' then (.closeCapture, bs)
  else if c = byte '$' && bs.isEmpty then (.finish, [])
  else if c = byte '.' then repeated .any bs
  else if c = byte '[' then
    match set? bs with
    | some (s, r) => repeated s r
    | none => (.malformed .openSet, [])
  else if c = byte '%' then
    match bs with
    | [] => (.malformed .endsWithEscape, [])
    | e :: bs =>
      if e = byte 'b' then
        match bs with
        | x :: y :: bs => (.balance x y, bs)
        | _ => (.malformed .noArguments, [])
      else if e = byte 'f' then
        match bs with
        | [] => (.malformed .noSet, [])
        | o :: bs =>
          if o = byte '[' then
            match set? bs with
            | some (s, r) => (.frontier s, r)
            | none => (.malformed .openSet, [])
          else (.malformed .noSet, [])
      else if byte '0' ≤ e && e ≤ byte '9' then (.again e, bs)
      else repeated (.kind e) bs
  else repeated (.byte c) bs

theorem item_length (c : UInt8) (bs : Bytes) : (item c bs).2.length ≤ bs.length := by
  have hr := repetition_length
  unfold item repeated
  split
  · split <;> simp
  split
  · simp
  split
  · simp
  split
  · exact hr bs
  split
  · split
    · next h =>
      have := set?_length h
      exact Nat.le_trans (hr _) (by omega)
    · simp
  split
  · split
    · simp
    · next e bs =>
      split
      · split <;> simp <;> omega
      split
      · split
        · simp
        · split
          · split
            · next h =>
              have := set?_length h
              simp only [List.length_cons]
              omega
            · simp
          · simp
      split
      · simp
      · exact Nat.le_trans (hr _) (by simp)
  · exact hr bs

/-- The items of a pattern without anchor. -/
def items : Bytes → List Item
  | [] => []
  | c :: bs => (item c bs).1 :: items (item c bs).2
termination_by bs => bs.length
decreasing_by
  have := item_length c bs
  simp only [List.length_cons]
  omega

/-- A pattern whose caret, if it starts with one, is an anchor. -/
structure Anchored where
  anchor : Bool
  items : List Item

def anchored (bs : Bytes) : Anchored :=
  if bs.head? = some (byte '^') then ⟨true, items bs.tail⟩ else ⟨false, items bs⟩

def isLower (b : UInt8) : Bool := byte 'a' ≤ b && b ≤ byte 'z'
def isUpper (b : UInt8) : Bool := byte 'A' ≤ b && b ≤ byte 'Z'
def isDigit (b : UInt8) : Bool := byte '0' ≤ b && b ≤ byte '9'
def isAlpha (b : UInt8) : Bool := isLower b || isUpper b
def isAlnum (b : UInt8) : Bool := isAlpha b || isDigit b
def isGraph (b : UInt8) : Bool := 33 ≤ b && b ≤ 126
def isControl (b : UInt8) : Bool := b < 32 || b = 127
def isSpace (b : UInt8) : Bool := b = 32 || (9 ≤ b && b ≤ 13)
def isHex (b : UInt8) : Bool :=
  isDigit b || (byte 'a' ≤ b && b ≤ byte 'f') || (byte 'A' ≤ b && b ≤ byte 'F')

def toLower (b : UInt8) : UInt8 := if isUpper b then b + 32 else b
def toUpper (b : UInt8) : UInt8 := if isLower b then b - 32 else b

def class? (letter : UInt8) : Option (UInt8 → Bool) :=
  if letter = byte 'a' then some isAlpha
  else if letter = byte 'c' then some isControl
  else if letter = byte 'd' then some isDigit
  else if letter = byte 'g' then some isGraph
  else if letter = byte 'l' then some isLower
  else if letter = byte 'p' then some fun b => isGraph b && !isAlnum b
  else if letter = byte 's' then some isSpace
  else if letter = byte 'u' then some isUpper
  else if letter = byte 'w' then some isAlnum
  else if letter = byte 'x' then some isHex
  else if letter = byte 'z' then some (· = 0)
  else none

/-- A capital stands for the complement; a byte that names no class stands for itself. -/
def inClass (letter b : UInt8) : Bool :=
  match class? (toLower letter) with
  | some p => p b != isUpper letter
  | none => letter = b

def Member.holds (b : UInt8) : Member → Bool
  | kind letter => inClass letter b
  | range low high => low ≤ b && b ≤ high
  | byte c => c = b

def Single.holds (b : UInt8) : Single → Bool
  | any => true
  | byte c => c = b
  | kind letter => inClass letter b
  | set negated members => members.any (·.holds b) != negated

inductive Extent where
  | unclosed | position | closed (length : Nat)
deriving DecidableEq, Repr

structure Capture where
  start : Nat
  extent : Extent
deriving DecidableEq, Repr

abbrev Captures := List Capture

abbrev Result := Except Fault (Option (Nat × Captures))

def maxDepth : Nat := 199
def maxCaptures : Nat := 32

def holdsAt (s : ByteArray) (c : Single) (i : Nat) : Bool :=
  match s[i]? with
  | some b => c.holds b
  | none => false

def run (s : ByteArray) (c : Single) (i : Nat) : Nat → Nat
  | 0 => 0
  | fuel + 1 => if holdsAt s c i then run s c (i + 1) fuel + 1 else 0

def balanced? (s : ByteArray) (first last : UInt8) (i depth : Nat) : Nat → Option Nat
  | 0 => none
  | fuel + 1 =>
    match s[i]? with
    | none => none
    | some b =>
      if b = last then
        if depth = 1 then some (i + 1) else balanced? s first last (i + 1) (depth - 1) fuel
      else balanced? s first last (i + 1) (if b = first then depth + 1 else depth) fuel

def close? (i : Nat) : Captures → Option Captures
  | [] => none
  | c :: cs =>
    if c.extent = .unclosed then some (⟨c.start, .closed (i - c.start)⟩ :: cs)
    else (close? i cs).map (c :: ·)

def nth? (cs : Captures) (n : Nat) : Option Capture :=
  if n = 0 then none else if n ≤ cs.length then cs[cs.length - n]? else none

abbrev Matcher := Nat → Nat → Captures → Result

/-- A match that can be returned from; there is a limit to how many may be under way. -/
def nested (k : Matcher) (depth i : Nat) (cs : Captures) : Result :=
  match depth with
  | 0 => .error .tooComplex
  | d + 1 => k d i cs

/-- What follows an item is tried after `n` repetitions, then after fewer. -/
def longest (k : Matcher) (depth i : Nat) (cs : Captures) : Nat → Result
  | 0 => nested k depth i cs
  | n + 1 => do
    match ← nested k depth (i + n + 1) cs with
    | some r => return some r
    | none => longest k depth i cs n

/-- What follows an item is tried at once, then after more repetitions. -/
def shortest (s : ByteArray) (c : Single) (k : Matcher) (depth i : Nat) (cs : Captures) :
    Nat → Result
  | 0 => .ok none
  | fuel + 1 => do
    match ← nested k depth i cs with
    | some r => return some r
    | none => if holdsAt s c i then shortest s c k depth (i + 1) cs fuel else return none

def matchItems (s : ByteArray) : List Item → Matcher
  | [], _, i, cs => .ok (some (i, cs))
  | item :: rest, depth, i, cs =>
    let k := matchItems s rest
    match item with
    | .single c .once => if holdsAt s c i then k depth (i + 1) cs else .ok none
    | .single c .optional =>
      if holdsAt s c i then do
        match ← nested k depth (i + 1) cs with
        | some r => return some r
        | none => k depth i cs
      else k depth i cs
    | .single c .many =>
      if holdsAt s c i then longest k depth i cs (run s c i (s.size - i)) else k depth i cs
    | .single c .atLeastOnce =>
      if holdsAt s c i then longest k depth (i + 1) cs (run s c (i + 1) (s.size - i - 1))
      else .ok none
    | .single c .few =>
      if holdsAt s c i then shortest s c k depth i cs (s.size - i + 1) else k depth i cs
    | .openCapture =>
      if maxCaptures ≤ cs.length then .error .tooManyCaptures
      else nested k depth i (⟨i, .unclosed⟩ :: cs)
    | .position =>
      if maxCaptures ≤ cs.length then .error .tooManyCaptures
      else nested k depth i (⟨i, .position⟩ :: cs)
    | .closeCapture =>
      match close? i cs with
      | some cs => nested k depth i cs
      | none => .error .nothingToClose
    | .balance first last =>
      if s[i]? = some first then
        match balanced? s first last (i + 1) 1 (s.size - i) with
        | some j => k depth j cs
        | none => .ok none
      else .ok none
    | .frontier c =>
      let before := if i = 0 then 0 else s[i - 1]?.getD 0
      let here := s[i]?.getD 0
      if !c.holds before && c.holds here then k depth i cs else .ok none
    | .again digit =>
      match nth? cs (digit - byte '0').toNat with
      | none => .error (.invalidIndex (digit - byte '0').toNat)
      | some ⟨_, .unclosed⟩ => .error (.invalidIndex (digit - byte '0').toNat)
      | some ⟨_, .position⟩ => .ok none
      | some ⟨start, .closed n⟩ =>
        if i + n ≤ s.size && s.extract start (start + n) == s.extract i (i + n) then
          k depth (i + n) cs
        else .ok none
    | .finish => if i = s.size then .ok (some (i, cs)) else .ok none
    | .malformed f => .error f

structure Found where
  start : Nat
  stop : Nat
  captures : Captures

def matchAt (s : ByteArray) (items : List Item) (i : Nat) : Except Fault (Option Found) :=
  (matchItems s items maxDepth i []).map fun r => r.map fun (j, cs) => ⟨i, j, cs⟩

def search (s : ByteArray) (p : Anchored) (i : Nat) : Nat → Except Fault (Option Found)
  | 0 => .ok none
  | fuel + 1 => do
    match ← matchAt s p.items i with
    | some m => return some m
    | none => if p.anchor || s.size ≤ i then return none else search s p (i + 1) fuel

/-- What a capture stands for: a part of the subject or a position in it, counted from one. -/
inductive Captured where
  | text (s : ByteArray)
  | position (n : Nat)

def Found.whole (m : Found) (s : ByteArray) : Captured := .text (s.extract m.start m.stop)

def capture (s : ByteArray) (c : Capture) : Except Fault Captured :=
  match c.extent with
  | .unclosed => .error .unfinished
  | .position => .ok (.position (c.start + 1))
  | .closed n => .ok (.text (s.extract c.start (c.start + n)))

/-- A capture of a match by its number. A match without captures has the whole as its first. -/
def Found.nth (m : Found) (s : ByteArray) (n : Nat) : Except Fault Captured :=
  if n = 1 && m.captures.isEmpty then .ok (m.whole s)
  else match nth? m.captures n with
    | some c => capture s c
    | none => .error (.invalidIndex n)

def Found.all (m : Found) (s : ByteArray) : Except Fault (List Captured) :=
  m.captures.reverse.mapM (capture s)

def Found.values (m : Found) (s : ByteArray) : Except Fault (List Captured) :=
  if m.captures.isEmpty then .ok [m.whole s] else m.all s

/-- A walk over the matches in a subject. A match that ends where the one before it ended does not
count. -/
structure Walk where
  subject : ByteArray
  pattern : Anchored
  place : Nat
  last : Option Nat

def Walk.next (w : Walk) : Nat → Except Fault (Option Found × Walk)
  | 0 => .ok (none, w)
  | fuel + 1 => do
    if w.subject.size < w.place then return (none, w)
    match ← matchAt w.subject w.pattern.items w.place with
    | some m =>
      if some m.stop = w.last then Walk.next { w with place := w.place + 1 } fuel
      else return (some m, { w with place := m.stop, last := some m.stop })
    | none => Walk.next { w with place := w.place + 1 } fuel

def isSpecial (b : UInt8) : Bool :=
  "^$*+?.([%-".toList.any fun c => byte c = b

end Rulebook.Script.Pattern
