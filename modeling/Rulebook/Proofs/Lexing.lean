import Rulebook.Rule.Token
import Rulebook.Proofs.Except

namespace Rulebook.Rule

def startsNumber : List Char → Bool
  | c :: cs => c.isDigit || (c = '.' && startsDigit cs)
  | [] => false

def bracket? : List Char → Option Nat
  | '[' :: cs => level? cs
  | _ => none

def Lexeme.isLineComment (l : Lexeme) : Bool :=
  match l.kind, l.text with
  | none, '-' :: '-' :: cs => (bracket? cs).isNone
  | _, _ => false

structure StartsOperator (x : List Char) : Prop where
  blank : ∀ c ∈ x.head?, Text.isAsciiBlank c = false
  name : ∀ c ∈ x.head?, Text.isIdentStart c = false
  number : startsNumber x = false
  quote : ∀ c ∈ x.head?, isQuote c = false
  bracket : bracket? x = none
  comment : ¬ ['-', '-'] <+: x

inductive Piece : List Char → Lexeme → List Char → Prop
  | blank {c : Char} {r : List Char} (h : Text.isAsciiBlank c = true) : Piece (c :: r) ⟨none, [c]⟩ r
  | longComment {n : Nat} {x t r : List Char} (h : through (closer n) x = some (t, r)) :
    Piece ('-' :: '-' :: opener n ++ x) ⟨none, '-' :: '-' :: opener n ++ t⟩ r
  | lineComment {x : List Char} (h : bracket? x = none) :
    Piece ('-' :: '-' :: x) ⟨none, '-' :: '-' :: (line x).1⟩ (line x).2
  | name {c : Char} {x : List Char} (h : Text.isIdentStart c = true) :
    Piece (c :: x) ⟨some .ident, c :: x.takeWhile Text.isIdentRest⟩ (x.dropWhile Text.isIdentRest)
  | number {x : List Char} (h : startsNumber x = true) :
    Piece x ⟨some .number, (number (isHex x) x).1⟩ (number (isHex x) x).2
  | quoted {q : Char} {x t r : List Char} (hq : isQuote q = true) (h : quoted q x = some (t, r)) :
    Piece (q :: x) ⟨some .str, q :: t⟩ r
  | bracket {n : Nat} {x t r : List Char} (h : through (closer n) x = some (t, r)) :
    Piece (opener n ++ x) ⟨some .str, opener n ++ t⟩ r
  | punct {c : Char} {x : List Char} (h : StartsOperator (c :: x)) :
    Piece (c :: x) ⟨some .punct, (operator c x).1⟩ (operator c x).2

variable {c d q : Char} {x y z t r : List Char} {l : Lexeme} {ls ms : List Lexeme}

theorem isQuote_iff : isQuote q = true ↔ q = '\'' ∨ q = '"' ∨ q = '\x60' := by
  simp [isQuote, or_assoc, or_left_comm]

theorem isQuote_iff_of_ne (hback : q ≠ '\x60') : isQuote q = true ↔ q = '\'' ∨ q = '"' := by
  simp [isQuote_iff, hback]

theorem isIdentRest_of_isIdentStart (h : Text.isIdentStart c = true) :
    Text.isIdentRest c = true := by
  simp only [Text.isIdentStart, Text.isIdentRest, Char.isAlphanum, Bool.or_eq_true] at h ⊢
  exact h.imp_left .inl

theorem isIdentRest_of_isDigit (h : c.isDigit = true) : Text.isIdentRest c = true := by
  simp [Text.isIdentRest, Char.isAlphanum, h]

theorem not_isIdentStart_of_isDigit (h : c.isDigit = true) : Text.isIdentStart c = false := by
  rw [Bool.eq_false_iff]
  intro hs
  simp only [Text.isIdentStart, Bool.or_eq_true, decide_eq_true_eq] at hs
  rcases hs with hs | rfl
  · simp only [Char.isDigit, Char.isAlpha, Char.isUpper, Char.isLower] at h hs
    grind
  · exact absurd h (by decide)

theorem ne_of_isIdentRest (h : Text.isIdentRest c = true) (hd : Text.isIdentRest d = false) :
    c ≠ d := by
  rintro rfl
  rw [h] at hd
  cases hd

theorem not_isAsciiBlank_of_isIdentRest (h : Text.isIdentRest c = true) :
    Text.isAsciiBlank c = false := by
  rw [Bool.eq_false_iff]
  intro hb
  simp only [Text.isAsciiBlank, Bool.or_eq_true, decide_eq_true_eq] at hb
  rcases hb with (((rfl | rfl) | rfl) | rfl) | rfl <;> exact absurd h (by decide)

theorem level?_replicate (n : Nat) (x : List Char) :
    level? (List.replicate n '=' ++ '[' :: x) = some n := by
  induction n with
  | zero => rfl
  | succ n ih => simp [List.replicate_succ, level?, ih]

theorem opener_append (n : Nat) (x : List Char) :
    opener n ++ x = '[' :: (List.replicate n '=' ++ '[' :: x) := by
  simp [opener]

theorem bracket?_eq_some {n : Nat} : bracket? x = some n ↔ ∃ y, x = opener n ++ y := by
  constructor
  · intro h
    cases x with
    | nil => cases h
    | cons c x =>
      by_cases hc : c = '['
      · subst hc
        exact ⟨x.drop (n + 1), by rw [opener_append, ← level?_eq (show level? x = some n from h)]⟩
      · simp [bracket?, hc] at h
  · rintro ⟨y, rfl⟩
    rw [opener_append]
    exact level?_replicate n y

theorem drop_opener (n : Nat) (x : List Char) :
    (List.replicate n '=' ++ '[' :: x).drop (n + 1) = x := by
  rw [← List.drop_drop, List.drop_left' (by simp)]
  rfl

theorem longBracket_replicate (n : Nat) (x : List Char) :
    longBracket (List.replicate n '=' ++ '[' :: x) =
      some ((through (closer n) x).map fun (t, r) => (opener n ++ t, r)) := by
  simp [longBracket, level?_replicate, drop_opener]

theorem longBracket_eq_none (h : level? x = none) : longBracket x = none := by
  simp [longBracket, h]

theorem comment_eq_line (h : bracket? x = none) :
    comment x = .ok (⟨none, '-' :: '-' :: (line x).1⟩, (line x).2) := by
  unfold comment
  split
  · simp only [bracket?] at h
    rw [longBracket_eq_none h]
  · rfl

theorem comment_eq_bracket {n : Nat} (h : through (closer n) x = some (t, r)) :
    comment (opener n ++ x) = .ok (⟨none, '-' :: '-' :: (opener n ++ t)⟩, r) := by
  have hb := longBracket_replicate n x
  simp only [h, Option.map_some] at hb
  simp [opener_append n x, comment, hb, bracketed]

theorem Piece.of_comment (h : comment x = .ok (l, r)) : Piece ('-' :: '-' :: x) l r := by
  cases hb : bracket? x with
  | none =>
    rw [comment_eq_line hb] at h
    cases h
    exact .lineComment hb
  | some n =>
    obtain ⟨y, rfl⟩ := bracket?_eq_some.1 hb
    cases ht : through (closer n) y with
    | none =>
      rw [opener_append] at h
      simp [comment, longBracket_replicate, ht, bracketed] at h
    | some p =>
      rw [comment_eq_bracket ht] at h
      cases h
      exact .longComment ht

theorem Piece.of_bracketed {n : Nat} (h : bracketed (some .str) [] 0
    ((through (closer n) x).map fun (t, r) => (opener n ++ t, r)) = .ok (l, r)) :
    Piece (opener n ++ x) l r := by
  cases ht : through (closer n) x with
  | none => simp [ht, bracketed] at h
  | some p =>
    simp only [ht, bracketed, Option.map_some, Except.ok.injEq, Prod.mk.injEq] at h
    obtain ⟨rfl, rfl⟩ := h
    exact .bracket ht

theorem Piece.of_lexeme (h : lexeme c x = .ok (l, r)) : Piece (c :: x) l r := by
  unfold lexeme at h
  split at h
  · next hc =>
    cases h
    exact .blank hc
  next hblank =>
  split at h
  · next hc =>
    simp only [Bool.and_eq_true, decide_eq_true_eq, List.head?_eq_some_iff] at hc
    obtain ⟨rfl, y, rfl⟩ := hc
    exact .of_comment h
  next hcomment =>
  split at h
  · next hc =>
    cases h
    exact .name hc
  next hname =>
  split at h
  · next hc =>
    cases h
    exact .number hc
  next hnumber =>
  split at h
  · next hc =>
    split at h
    · next hq =>
      cases h
      exact .quoted hc hq
    · cases h
  next hquote =>
  -- past the tests above only an operator or a bracket is left
  have hop (hb : bracket? (c :: x) = none) : StartsOperator (c :: x) := by
    refine ⟨?_, ?_, by simpa [startsNumber] using hnumber, ?_, hb, ?_⟩
    · simpa using hblank
    · simpa using hname
    · simpa using hquote
    · rintro ⟨y, hy⟩
      simp only [List.cons_append, List.nil_append, List.cons.injEq] at hy
      obtain ⟨rfl, rfl⟩ := hy
      simp at hcomment
  split at h
  · next hc =>
    subst hc
    cases hb : bracket? ('[' :: x) with
    | none =>
      rw [longBracket_eq_none hb] at h
      cases h
      exact .punct (hop hb)
    | some n =>
      obtain ⟨y, hy⟩ := bracket?_eq_some.1 hb
      rw [opener_append, List.cons.injEq] at hy
      obtain ⟨-, rfl⟩ := hy
      simp only [longBracket_replicate] at h
      rw [← opener_append]
      exact .of_bracketed h
  · next hc =>
    cases h
    exact .punct (hop (by simp [bracket?, hc]))

theorem lexeme_comment (x : List Char) : lexeme '-' ('-' :: x) = comment x := by
  simp [lexeme, Text.isAsciiBlank]

theorem lexeme_bracket {n : Nat} (h : through (closer n) x = some (t, r)) :
    lexeme '[' (List.replicate n '=' ++ '[' :: x) = .ok (⟨some .str, opener n ++ t⟩, r) := by
  have h' := longBracket_replicate n x
  simp only [h, Option.map_some] at h'
  simp [lexeme, Text.isAsciiBlank, Text.isIdentStart, isQuote, h', bracketed]

theorem StartsOperator.lexeme_eq (h : StartsOperator (c :: x)) : lexeme c x = punct c x := by
  obtain ⟨hblank, hname, hnumber, hquote, hbracket, hcomment⟩ := h
  have hdash : ¬(c = '-' ∧ x.head? = some '-') := by
    rintro ⟨rfl, hx⟩
    obtain ⟨y, rfl⟩ := List.head?_eq_some_iff.1 hx
    exact hcomment ⟨y, rfl⟩
  simp only [List.head?_cons, Option.mem_def, Option.some.injEq, forall_eq'] at hblank hname hquote
  simp only [startsNumber] at hnumber
  unfold lexeme
  rw [if_neg (by simp [hblank]), if_neg (by simpa using hdash), if_neg (by simp [hname]),
    if_neg (by simp [hnumber]), if_neg (by simp [hquote])]
  split
  · next hc =>
    subst hc
    simp only [bracket?] at hbracket
    rw [longBracket_eq_none hbracket]
  · rfl

theorem Piece.lexeme_eq (h : Piece x l r) : ∃ c y, x = c :: y ∧ lexeme c y = .ok (l, r) := by
  cases h with
  | blank h => exact ⟨_, _, rfl, by simp [lexeme, h]⟩
  | @longComment n x t r h =>
    exact ⟨'-', '-' :: (opener n ++ x), rfl, by rw [lexeme_comment, comment_eq_bracket h]; rfl⟩
  | lineComment h =>
    refine ⟨'-', _, rfl, ?_⟩
    rw [lexeme_comment, comment_eq_line h]
  | @name c x h =>
    refine ⟨_, _, rfl, ?_⟩
    have hr := isIdentRest_of_isIdentStart h
    have hd : c ≠ '-' := ne_of_isIdentRest hr (by decide)
    simp [lexeme, not_isAsciiBlank_of_isIdentRest hr, hd, h]
  | @number x h =>
    cases x with
    | nil => cases h
    | cons c x =>
      refine ⟨_, _, rfl, ?_⟩
      simp only [startsNumber, Bool.or_eq_true, Bool.and_eq_true, decide_eq_true_eq] at h
      have hname : Text.isIdentStart c = false := by
        rcases h with h | ⟨rfl, -⟩
        · exact not_isIdentStart_of_isDigit h
        · decide
      have hblank : Text.isAsciiBlank c = false := by
        rcases h with h | ⟨rfl, -⟩
        · exact not_isAsciiBlank_of_isIdentRest (isIdentRest_of_isDigit h)
        · decide
      have hdash : c ≠ '-' := by
        rcases h with h | ⟨rfl, -⟩
        · exact ne_of_isIdentRest (isIdentRest_of_isDigit h) (by decide)
        · decide
      simp [lexeme, hblank, hdash, hname, h]
  | @quoted q x t r hq h =>
    refine ⟨_, _, rfl, ?_⟩
    rcases isQuote_iff.1 hq with rfl | rfl | rfl <;>
      simp [lexeme, h, Text.isAsciiBlank, Text.isIdentStart, isQuote]
  | @bracket n x t r h =>
    exact ⟨'[', _, by rw [opener_append], lexeme_bracket h⟩
  | punct h => exact ⟨_, _, rfl, by rw [h.lexeme_eq, Rule.punct]⟩

theorem Piece.text_append (h : Piece x l r) : l.text ++ r = x := by
  obtain ⟨c, y, rfl, hl⟩ := h.lexeme_eq
  exact lexeme_append hl

theorem Piece.text_ne_nil (h : Piece x l r) : l.text ≠ [] := by
  obtain ⟨c, y, rfl, hl⟩ := h.lexeme_eq
  exact lexeme_ne_nil hl

theorem Piece.unique {l' : Lexeme} {r' : List Char} (h : Piece x l r) (h' : Piece x l' r') :
    l' = l ∧ r' = r := by
  obtain ⟨c, y, rfl, hl⟩ := h.lexeme_eq
  obtain ⟨c', y', e, hl'⟩ := h'.lexeme_eq
  cases e
  rw [hl] at hl'
  cases hl'
  exact ⟨rfl, rfl⟩

/-- The tokenizer cuts these pieces off a text and leaves the rest. -/
inductive Reads : List Char → List Lexeme → List Char → Prop
  | refl (x : List Char) : Reads x [] x
  | step {x y z : List Char} {l : Lexeme} {ls : List Lexeme} (h : Piece x l y)
    (hs : Reads y ls z) : Reads x (l :: ls) z

theorem lexemes_eq_ok {offset : Nat} : lexemes offset x = .ok ls ↔ Reads x ls [] := by
  fun_induction lexemes offset x generalizing ls with
  | case1 offset =>
    constructor
    · intro h
      cases h
      exact .refl []
    · intro h
      cases h with
      | refl => rfl
      | step h _ => exact absurd h.text_append (by simp [h.text_ne_nil])
  | case2 offset c cs cause ahead hl =>
    constructor
    · intro h
      cases h
    · intro h
      cases h with
      | step h _ =>
        obtain ⟨_, _, e, hl'⟩ := h.lexeme_eq
        cases e
        rw [hl] at hl'
        cases hl'
  | case3 offset c cs l r hl ih =>
    rw [map_eq_ok]
    constructor
    · rintro ⟨ls, h, rfl⟩
      exact .step (.of_lexeme hl) (ih.1 h)
    · intro h
      cases h with
      | step h hs =>
        obtain ⟨rfl, rfl⟩ := (Piece.of_lexeme hl).unique h
        exact ⟨_, ih.2 hs, rfl⟩

theorem Reads.text_append (h : Reads x ls z) : ls.flatMap Lexeme.text ++ z = x := by
  induction h with
  | refl => rfl
  | step h _ ih => rw [List.flatMap_cons, List.append_assoc, ih, h.text_append]

theorem reads_append : Reads x (ls ++ ms) z ↔ ∃ y, Reads x ls y ∧ Reads y ms z := by
  induction ls generalizing x with
  | nil =>
    constructor
    · intro h
      exact ⟨x, .refl x, h⟩
    · rintro ⟨y, h, hs⟩
      cases h
      exact hs
  | cons l ls ih =>
    constructor
    · intro h
      cases h with
      | step h hs =>
        obtain ⟨y, h₁, h₂⟩ := ih.1 hs
        exact ⟨y, .step h h₁, h₂⟩
    · rintro ⟨y, h₁, h₂⟩
      cases h₁ with
      | step h h₁ => exact .step h (ih.2 ⟨y, h₁, h₂⟩)

/-- Whether a literal's last backslash takes the next character, after some characters that leave
the literal open. -/
def inside (q : Char) : Bool → List Char → Option Bool
  | escaped, [] => some escaped
  | true, _ :: cs => inside q false cs
  | false, c :: cs =>
    if c = '\\' then inside q true cs
    else if c = q || (c = '\n' && q != '\x60') then none
    else inside q false cs

theorem inside_append (e : Bool) (x y : List Char) :
    inside q e (x ++ y) = (inside q e x).bind fun e => inside q e y := by
  fun_induction inside q e x <;> simp_all [inside]

theorem quoted_escape (c : Char) (x : List Char) :
    quoted q ('\\' :: c :: x) = (quoted q x).map fun (t, r) => ('\\' :: c :: t, r) := rfl

theorem quoted_cons (h : c ≠ '\\') (x : List Char) :
    quoted q (c :: x) = if c = '\n' && q != '\x60' then none else if c = q then some ([c], x)
      else (quoted q x).map fun (t, r) => (c :: t, r) := by
  rw [quoted]
  intro d y e _
  exact h e

theorem quoted_of_inside (hq : isQuote q = true) (r : List Char) :
    ∀ u, inside q false u = some false → quoted q (u ++ q :: r) = some (u ++ [q], r)
  | [], _ => by
    have hc : q ≠ '\\' ∧ q ≠ '\n' := by
      constructor <;> rintro rfl <;> exact absurd hq (by decide)
    simp [quoted_cons hc.1, hc.2]
  | [c], h => by
    by_cases hc : c = '\\'
    · simp [inside, hc] at h
    · simp only [inside, if_neg hc] at h
      split at h
      · cases h
      · next hs =>
        simp only [Bool.or_eq_true, not_or, decide_eq_true_eq, Bool.not_eq_true] at hs
        have := quoted_of_inside hq r [] rfl
        simp only [List.nil_append] at this
        simp [quoted_cons hc, hs.1, hs.2, this]
  | c :: d :: u, h => by
    by_cases hc : c = '\\'
    · simp only [inside, if_pos hc] at h
      have := quoted_of_inside hq r u h
      simp only [hc, List.cons_append, quoted_escape, this, Option.map_some]
    · simp only [inside, if_neg hc] at h
      split at h
      · cases h
      · next hs =>
        simp only [Bool.or_eq_true, not_or, decide_eq_true_eq, Bool.not_eq_true] at hs
        have := quoted_of_inside hq r (d :: u) h
        simp only [List.cons_append] at this ⊢
        simp [quoted_cons hc, hs.1, hs.2, this]

theorem inside_of_quoted (h : quoted q x = some (t, r)) :
    ∃ u, t = u ++ [q] ∧ inside q false u = some false := by
  fun_induction quoted q x generalizing t with
  | case1 => cases h
  | case2 c x ih =>
    obtain ⟨⟨t', r'⟩, h', e⟩ := Option.map_eq_some_iff.1 h
    cases e
    obtain ⟨u, rfl, hu⟩ := ih h'
    exact ⟨'\\' :: c :: u, rfl, hu⟩
  | case3 => cases h
  | case4 =>
    cases h
    exact ⟨[], rfl, rfl⟩
  | case5 c x ho hn hq ih =>
    obtain ⟨⟨t', r'⟩, h', e⟩ := Option.map_eq_some_iff.1 h
    cases e
    obtain ⟨u, rfl, hu⟩ := ih h'
    have hc : c ≠ '\\' := by
      rintro rfl
      cases x with
      | nil => cases h'
      | cons d x => exact ho d x rfl rfl
    refine ⟨c :: u, rfl, ?_⟩
    simp only [inside, if_neg hc]
    rw [if_neg (by simp_all), hu]

/-- A literal ends at the first quote that no backslash takes. -/
theorem quoted_eq_some (hq : isQuote q = true) :
    quoted q x = some (t, r) ↔
      ∃ u, t = u ++ [q] ∧ x = u ++ q :: r ∧ inside q false u = some false := by
  constructor
  · intro h
    obtain ⟨u, rfl, hu⟩ := inside_of_quoted h
    exact ⟨u, rfl, by rw [← quoted_append h, List.append_assoc]; rfl, hu⟩
  · rintro ⟨u, rfl, rfl, hu⟩
    exact quoted_of_inside hq r u hu

end Rulebook.Rule
