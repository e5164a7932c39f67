import Rulebook.Text.Blank

namespace Rulebook.Rule

inductive Kind where
  | ident | number | str | punct
deriving DecidableEq, Repr

/-- A piece of text; blanks and comments have no kind. -/
structure Lexeme where
  kind : Option Kind
  text : List Char
deriving DecidableEq

inductive LexCause where
  | openString | openBracket
deriving DecidableEq, Repr

def LexCause.message : LexCause → String
  | openString => "unterminated string literal"
  | openBracket => "unterminated long bracket"

structure LexError where
  cause : LexCause
  offset : Nat
deriving DecidableEq, Repr

def LexError.message (e : LexError) : String :=
  e.cause.message ++ " at offset " ++ toString e.offset

def byteLength : List Char → Nat
  | [] => 0
  | c :: cs => c.utf8Size + byteLength cs

def isMark (hex : Bool) (c : Char) : Bool :=
  if hex then c = 'p' || c = 'P' else c = 'e' || c = 'E'

/-- A numeral and what follows it: letters, digits and points, and a sign right after the mark of
an exponent. -/
def number (hex : Bool) : List Char → List Char × List Char
  | c :: s :: cs =>
    if isMark hex c && (s = '+' || s = '-') then
      let (t, r) := number hex cs
      (c :: s :: t, r)
    else if c.isAlphanum || c = '.' then
      let (t, r) := number hex (s :: cs)
      (c :: t, r)
    else ([], c :: s :: cs)
  | [c] => if c.isAlphanum || c = '.' then ([c], []) else ([], [c])
  | [] => ([], [])

def isHex : List Char → Bool
  | '0' :: x :: _ => x = 'x' || x = 'X'
  | _ => false

/-- The rest of a literal after its opening quote, up to the closing one. A backslash takes the
next character with it; a line break ends all but a literal in back quotes. -/
def quoted (q : Char) : List Char → Option (List Char × List Char)
  | [] => none
  | '\\' :: c :: cs => (quoted q cs).map fun (t, r) => ('\\' :: c :: t, r)
  | c :: cs =>
    if c = '\n' && q != '\x60' then none
    else if c = q then some ([c], cs)
    else (quoted q cs).map fun (t, r) => (c :: t, r)

def level? : List Char → Option Nat
  | '=' :: cs => (level? cs).map (· + 1)
  | '[' :: _ => some 0
  | _ => none

def opener (level : Nat) : List Char := '[' :: List.replicate level '=' ++ ['[']
def closer (level : Nat) : List Char := ']' :: List.replicate level '=' ++ [']']

def through (close : List Char) : List Char → Option (List Char × List Char)
  | [] => none
  | c :: cs =>
    if close.isPrefixOf (c :: cs) then some (close, (c :: cs).drop close.length)
    else (through close cs).map fun (t, r) => (c :: t, r)

def longBracket (cs : List Char) : Option (Option (List Char × List Char)) :=
  (level? cs).map fun n =>
    (through (closer n) (cs.drop (n + 1))).map fun (t, r) => (opener n ++ t, r)

def line : List Char → List Char × List Char
  | [] => ([], [])
  | c :: cs =>
    if c = '\n' then ([c], cs)
    else
      let (t, r) := line cs
      (c :: t, r)

/-- Operators of more than one character, the longer of two with a common start first. -/
def operators : List (List Char) :=
  [['.', '.', '.'], ['=', '=', '='], ['!', '=', '='], ['=', '='], ['~', '='], ['!', '='],
    ['<', '='], ['>', '='], ['&', '&'], ['|', '|'], ['.', '.'], ['/', '/'], [':', ':'],
    ['=', '>'], ['<', '<'], ['>', '>']]

def operator (c : Char) (cs : List Char) : List Char × List Char :=
  match operators.find? (·.isPrefixOf (c :: cs)) with
  | some op => (op, (c :: cs).drop op.length)
  | none => ([c], cs)

def isQuote (c : Char) : Bool := c = '"' || c = '\'' || c = '\x60'

/-- What a long bracket gives: a piece of the text, or the cause at the bracket's own place, which
is `ahead` bytes into the piece. -/
def bracketed (kind : Option Kind) (lead : List Char) (ahead : Nat) :
    Option (List Char × List Char) → Except (LexCause × Nat) (Lexeme × List Char)
  | some (t, r) => .ok (⟨kind, lead ++ t⟩, r)
  | none => .error (.openBracket, ahead)

def comment (cs : List Char) : Except (LexCause × Nat) (Lexeme × List Char) :=
  match cs with
  | '[' :: r =>
    match longBracket r with
    | some b => bracketed none ['-', '-'] 2 b
    | none => .ok (⟨none, '-' :: '-' :: (line cs).1⟩, (line cs).2)
  | _ => .ok (⟨none, '-' :: '-' :: (line cs).1⟩, (line cs).2)

def punct (c : Char) (cs : List Char) : Except (LexCause × Nat) (Lexeme × List Char) :=
  .ok (⟨some .punct, (operator c cs).1⟩, (operator c cs).2)

def startsDigit : List Char → Bool
  | c :: _ => c.isDigit
  | [] => false

def lexeme (c : Char) (cs : List Char) : Except (LexCause × Nat) (Lexeme × List Char) :=
  if Text.isAsciiBlank c then .ok (⟨none, [c]⟩, cs)
  else if c = '-' && cs.head? = some '-' then comment cs.tail
  else if Text.isIdentStart c then
    .ok (⟨some .ident, c :: cs.takeWhile Text.isIdentRest⟩, cs.dropWhile Text.isIdentRest)
  else if c.isDigit || (c = '.' && startsDigit cs) then
    let (t, r) := number (isHex (c :: cs)) (c :: cs)
    .ok (⟨some .number, t⟩, r)
  else if isQuote c then
    match quoted c cs with
    | some (t, r) => .ok (⟨some .str, c :: t⟩, r)
    | none => .error (.openString, 0)
  else if c = '[' then
    match longBracket cs with
    | some b => bracketed (some .str) [] 0 b
    | none => punct c cs
  else punct c cs

theorem number_append (hex : Bool) (cs : List Char) :
    (number hex cs).1 ++ (number hex cs).2 = cs := by
  fun_induction number hex cs <;> simp_all

theorem quoted_append {q : Char} {cs t r : List Char} (h : quoted q cs = some (t, r)) :
    t ++ r = cs := by
  fun_induction quoted q cs generalizing t with
  | case1 => simp at h
  | case2 c cs ih =>
    obtain ⟨⟨t', r'⟩, h', e⟩ := Option.map_eq_some_iff.1 h
    obtain ⟨rfl, rfl⟩ := Prod.mk.inj e
    simp [ih h']
  | case3 => simp at h
  | case4 =>
    obtain ⟨rfl, rfl⟩ := Prod.mk.inj (Option.some.inj h)
    rfl
  | case5 c cs _ _ _ ih =>
    obtain ⟨⟨t', r'⟩, h', e⟩ := Option.map_eq_some_iff.1 h
    obtain ⟨rfl, rfl⟩ := Prod.mk.inj e
    simp [ih h']

theorem drop_append_of_isPrefixOf {p cs : List Char} (h : p.isPrefixOf cs = true) :
    p ++ cs.drop p.length = cs := by
  obtain ⟨r, rfl⟩ := List.isPrefixOf_iff_prefix.1 h
  simp

theorem through_append {close cs t r : List Char} (h : through close cs = some (t, r)) :
    t ++ r = cs := by
  fun_induction through close cs generalizing t with
  | case1 => simp at h
  | case2 c cs hp =>
    obtain ⟨rfl, rfl⟩ := Prod.mk.inj (Option.some.inj h)
    exact drop_append_of_isPrefixOf hp
  | case3 c cs _ ih =>
    obtain ⟨⟨t', r'⟩, h', e⟩ := Option.map_eq_some_iff.1 h
    obtain ⟨rfl, rfl⟩ := Prod.mk.inj e
    simp [ih h']

theorem level?_eq {cs : List Char} {n : Nat} (h : level? cs = some n) :
    cs = List.replicate n '=' ++ '[' :: cs.drop (n + 1) := by
  fun_induction level? cs generalizing n with
  | case1 cs ih =>
    obtain ⟨m, hm, rfl⟩ := Option.map_eq_some_iff.1 h
    simpa [List.replicate_succ] using ih hm
  | case2 =>
    obtain rfl := Option.some.inj h
    simp
  | case3 => simp at h

theorem longBracket_append {cs t r : List Char} (h : longBracket cs = some (some (t, r))) :
    t ++ r = '[' :: cs := by
  obtain ⟨n, hn, h'⟩ := Option.map_eq_some_iff.1 h
  obtain ⟨⟨t', r'⟩, ht, e⟩ := Option.map_eq_some_iff.1 h'
  obtain ⟨rfl, rfl⟩ := Prod.mk.inj e
  have hc := level?_eq hn
  have ha := through_append ht
  simp only [opener, List.append_assoc, List.cons_append, List.nil_append, ha]
  rw [List.cons.injEq]
  exact ⟨rfl, hc.symm⟩

theorem line_append (cs : List Char) : (line cs).1 ++ (line cs).2 = cs := by
  fun_induction line cs <;> simp_all

theorem operator_append (c : Char) (cs : List Char) :
    (operator c cs).1 ++ (operator c cs).2 = c :: cs := by
  unfold operator
  split
  · next op h =>
    have hp : op.isPrefixOf (c :: cs) = true := by
      simpa using List.find?_some h
    exact drop_append_of_isPrefixOf hp
  · rfl

theorem comment_append {cs r : List Char} {l : Lexeme} (h : comment cs = .ok (l, r)) :
    l.text ++ r = '-' :: '-' :: cs := by
  unfold comment at h
  split at h
  · split at h
    · next b hb =>
      match b with
      | some (t, r') =>
        simp only [bracketed, Except.ok.injEq, Prod.mk.injEq] at h
        obtain ⟨rfl, rfl⟩ := h
        simp [longBracket_append hb]
      | none => simp [bracketed] at h
    · simp only [Except.ok.injEq, Prod.mk.injEq] at h
      obtain ⟨rfl, rfl⟩ := h
      simp [line_append]
  · simp only [Except.ok.injEq, Prod.mk.injEq] at h
    obtain ⟨rfl, rfl⟩ := h
    simp [line_append]

theorem punct_append {c : Char} {cs r : List Char} {l : Lexeme} (h : punct c cs = .ok (l, r)) :
    l.text ++ r = c :: cs := by
  simp only [punct, Except.ok.injEq, Prod.mk.injEq] at h
  obtain ⟨rfl, rfl⟩ := h
  exact operator_append c cs

theorem lexeme_append {c : Char} {cs r : List Char} {l : Lexeme} (h : lexeme c cs = .ok (l, r)) :
    l.text ++ r = c :: cs := by
  unfold lexeme at h
  split at h
  · simp only [Except.ok.injEq, Prod.mk.injEq] at h
    obtain ⟨rfl, rfl⟩ := h
    rfl
  split at h
  · next hc =>
    have := comment_append h
    simp only [Bool.and_eq_true, decide_eq_true_eq] at hc
    obtain ⟨rfl, hd⟩ := hc
    cases cs with
    | nil => simp at hd
    | cons d ds => simp_all
  split at h
  · simp only [Except.ok.injEq, Prod.mk.injEq] at h
    obtain ⟨rfl, rfl⟩ := h
    simp
  split at h
  · simp only [Except.ok.injEq, Prod.mk.injEq] at h
    obtain ⟨rfl, rfl⟩ := h
    exact number_append _ _
  split at h
  · split at h
    · next hq =>
      simp only [Except.ok.injEq, Prod.mk.injEq] at h
      obtain ⟨rfl, rfl⟩ := h
      simp [quoted_append hq]
    · simp at h
  split at h
  · next hc =>
    subst hc
    split at h
    · next b hb =>
      match b with
      | some (t, r') =>
        simp only [bracketed, Except.ok.injEq, Prod.mk.injEq] at h
        obtain ⟨rfl, rfl⟩ := h
        simpa using longBracket_append hb
      | none => simp [bracketed] at h
    · exact punct_append h
  · exact punct_append h

theorem number_ne_nil {hex : Bool} {c : Char} (cs : List Char)
    (h : (c.isAlphanum || c = '.') = true) : (number hex (c :: cs)).1 ≠ [] := by
  cases cs with
  | nil => simp_all [number]
  | cons s cs =>
    rw [number]
    split
    · simp
    · simp_all

theorem operator_ne_nil (c : Char) (cs : List Char) : (operator c cs).1 ≠ [] := by
  unfold operator
  split
  · next op h =>
    have := List.mem_of_find?_eq_some h
    intro he
    simp only at he
    subst he
    revert this
    decide
  · simp

theorem comment_ne_nil {cs r : List Char} {l : Lexeme} (h : comment cs = .ok (l, r)) :
    l.text ≠ [] := by
  unfold comment at h
  split at h
  · split at h
    · next b _ =>
      match b with
      | some (t, r') =>
        simp only [bracketed, Except.ok.injEq, Prod.mk.injEq] at h
        simp [← h.1]
      | none => simp [bracketed] at h
    · simp only [Except.ok.injEq, Prod.mk.injEq] at h
      simp [← h.1]
  · simp only [Except.ok.injEq, Prod.mk.injEq] at h
    simp [← h.1]

theorem lexeme_ne_nil {c : Char} {cs r : List Char} {l : Lexeme} (h : lexeme c cs = .ok (l, r)) :
    l.text ≠ [] := by
  unfold lexeme at h
  split at h
  · simp only [Except.ok.injEq, Prod.mk.injEq] at h
    simp [← h.1]
  split at h
  · exact comment_ne_nil h
  split at h
  · simp only [Except.ok.injEq, Prod.mk.injEq] at h
    simp [← h.1]
  split at h
  · next hc =>
    simp only [Except.ok.injEq, Prod.mk.injEq] at h
    rw [← h.1]
    refine number_ne_nil cs ?_
    simp only [Bool.or_eq_true, Bool.and_eq_true] at hc ⊢
    rcases hc with hc | hc
    · exact .inl (by simp [Char.isAlphanum, hc])
    · exact .inr hc.1
  split at h
  · split at h
    · simp only [Except.ok.injEq, Prod.mk.injEq] at h
      simp [← h.1]
    · simp at h
  split at h
  · split at h
    · next b hb =>
      match b with
      | some (t, r') =>
        obtain ⟨n, _, h'⟩ := Option.map_eq_some_iff.1 hb
        obtain ⟨⟨t', _⟩, _, e⟩ := Option.map_eq_some_iff.1 h'
        simp only [bracketed, Except.ok.injEq, Prod.mk.injEq] at h
        obtain ⟨rfl, rfl⟩ := Prod.mk.inj e
        simp [← h.1, opener]
      | none => simp [bracketed] at h
    · simp only [punct, Except.ok.injEq, Prod.mk.injEq] at h
      rw [← h.1]
      exact operator_ne_nil c cs
  · simp only [punct, Except.ok.injEq, Prod.mk.injEq] at h
    rw [← h.1]
    exact operator_ne_nil c cs

theorem lexeme_rest_lt {c : Char} {cs r : List Char} {l : Lexeme}
    (h : lexeme c cs = .ok (l, r)) : r.length < (c :: cs).length := by
  have ha := congrArg List.length (lexeme_append h)
  have := List.length_pos_iff.2 (lexeme_ne_nil h)
  simp only [List.length_append] at ha
  omega

/-- All pieces of a text that begins `offset` bytes into the whole. -/
def lexemes (offset : Nat) : List Char → Except LexError (List Lexeme)
  | [] => .ok []
  | c :: cs =>
    match _ : lexeme c cs with
    | .error (cause, ahead) => .error ⟨cause, offset + ahead⟩
    | .ok (l, r) => (lexemes (offset + byteLength l.text) r).map (l :: ·)
termination_by cs => cs.length
decreasing_by exact lexeme_rest_lt (by assumption)

/-- A token with the bytes of the text that it covers, `start` inclusive and `stop` exclusive. -/
structure Token where
  kind : Kind
  text : String
  start : Nat
  stop : Nat
deriving DecidableEq, Repr

def Lexeme.token? (offset : Nat) (l : Lexeme) : Option Token :=
  l.kind.map fun k => ⟨k, String.ofList l.text, offset, offset + byteLength l.text⟩

def place (offset : Nat) : List Lexeme → List Token
  | [] => []
  | l :: ls => (l.token? offset).toList ++ place (offset + byteLength l.text) ls

def tokens (s : String) : Except LexError (List Token) :=
  (lexemes 0 s.toList).map (place 0)

/-- The contents of a literal, its escapes as they are written; of other tokens the text. -/
def Token.contents (t : Token) : String :=
  if t.kind != .str then t.text
  else
    match t.text.toList with
    | '[' :: cs =>
      match level? cs with
      | some n => String.ofList ((cs.drop (n + 1)).take (cs.length - 2 * n - 3))
      | none => ""
    | _ :: cs => String.ofList cs.dropLast
    | [] => ""

def Token.isPunct (t : Token) (p : String) : Bool := t.kind = .punct && t.text = p
def Token.isIdent (t : Token) (name : String) : Bool := t.kind = .ident && t.text = name

end Rulebook.Rule
