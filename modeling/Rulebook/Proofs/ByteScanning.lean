import Rulebook.Proofs.JsonStrings
import Rulebook.Proofs.Places

namespace Rulebook.Rule

theorem Piece.rest_lt {x r : List Char} {l : Lexeme} (h : Piece x l r) : r.length < x.length := by
  obtain ⟨c, y, rfl, hl⟩ := h.lexeme_eq
  exact lexeme_rest_lt hl

namespace Bytewise

open Source (charBytes textBytes)

/-- The part of a text that begins here. There is none within a character. -/
def part? : List Char → Option (List Char)
  | [] => some []
  | b :: bs => if b.toNat < 128 || 192 ≤ b.toNat then some (b :: bs) else none

def ahead? (n : Nat) (bs : List Char) : Option (List Char) :=
  if n ≤ bs.length then part? (bs.drop n) else none

def width (b : Char) : Nat :=
  if b.toNat < 128 then 1 else if b.toNat < 224 then 2 else if b.toNat < 240 then 3 else 4

/-- The kind of a piece and the bytes behind it, or why it has no end; nothing where a part was to
be taken within a character. -/
abbrev Result := Option (Except (LexCause × Nat) (Option Kind × List Char))

def token (k : Kind) (bs : List Char) (rest : Option (List Char)) : Result := do
  let _ ← part? bs
  return .ok (some k, ← rest)

def bracketed (n ahead : Nat) (bs : List Char) :
    Option (Except (LexCause × Nat) (List Char)) := do
  match through (closer n) (← ahead? (n + 2) bs) with
  | some (_, r) => return .ok r
  | none => return .error (.openBracket, ahead)

def comment (bs : List Char) : Result :=
  match bracket? bs with
  | some n => (bracketed n 2 bs).map fun x => x.map (none, ·)
  | none => (part? bs).map fun bs => .ok (none, (line bs).2)

def punct (b : Char) (bs : List Char) : Result := do
  match operators.find? (·.isPrefixOf (← part? (b :: bs))) with
  | some op => token .punct (b :: bs) (ahead? op.length (b :: bs))
  | none => token .punct (b :: bs) (ahead? (width b) (b :: bs))

def step (b : Char) (bs : List Char) : Result :=
  if Text.isAsciiBlank b then some (.ok (none, bs))
  else do
    let text ← part? (b :: bs)
    if ['-', '-'].isPrefixOf text then comment bs.tail
    else if Text.isIdentStart b then token .ident text (part? (bs.dropWhile Text.isIdentRest))
    else if startsNumber text then token .number text (part? (number (isHex text) text).2)
    else if isQuote b then
      match quoted b bs with
      | some (_, r) => token .str text (part? r)
      | none => return .error (.openString, 0)
    else match bracket? text with
      | some n =>
        match ← bracketed n 0 text with
        | .ok r => token .str text (part? r)
        | .error e => return .error e
      | none => punct b bs

variable {b : Char} {bs r : List Char} {k : Option Kind}

theorem part?_eq_some {r : List Char} (h : part? bs = some r) : r = bs := by
  cases bs with
  | nil =>
    cases h
    rfl
  | cons b bs =>
    rw [part?] at h
    split at h
    · cases h
      rfl
    · cases h

theorem ahead?_eq_some {n : Nat} (h : ahead? n bs = some r) : r = bs.drop n := by
  unfold ahead? at h
  split at h
  · exact part?_eq_some h
  · cases h

theorem token_eq_some {k' : Kind} {rest : Option (List Char)}
    (h : token k' bs rest = some (.ok (k, r))) : rest = some r := by
  simp only [token, Option.bind_eq_bind, Option.bind_eq_some_iff, Option.pure_def,
    Option.some.injEq, Except.ok.injEq, Prod.mk.injEq] at h
  obtain ⟨_, _, r', hr, -, rfl⟩ := h
  exact hr

theorem bracketed_lt {n ahead : Nat} (h : bracketed n ahead bs = some (.ok r)) :
    r.length < bs.length := by
  simp only [bracketed, Option.bind_eq_bind, Option.bind_eq_some_iff] at h
  obtain ⟨text, htext, h⟩ := h
  split at h
  · next t r' ht =>
    cases h
    obtain ⟨u, rfl⟩ := through_eq_some ht
    have hlength := congrArg List.length (through_append ht)
    have hcloser := List.length_pos_iff.2 (closer_ne_nil n)
    rw [ahead?_eq_some htext] at hlength
    simp only [List.length_append, List.length_drop] at hlength
    omega
  · cases h

theorem comment_le (h : comment bs = some (.ok (k, r))) : r.length ≤ bs.length := by
  unfold comment at h
  split at h
  · next n _ =>
    obtain ⟨x, hx, h⟩ := Option.map_eq_some_iff.1 h
    obtain ⟨r', rfl, h⟩ := map_eq_ok.1 h
    cases h
    exact Nat.le_of_lt (bracketed_lt hx)
  · obtain ⟨text, htext, hr⟩ := Option.map_eq_some_iff.1 h
    obtain rfl := part?_eq_some htext
    cases hr
    have hlength := congrArg List.length (line_append text)
    simp only [List.length_append] at hlength
    omega

theorem punct_lt (h : punct b bs = some (.ok (k, r))) : r.length < (b :: bs).length := by
  simp only [punct, Option.bind_eq_bind, Option.bind_eq_some_iff] at h
  obtain ⟨text, htext, h⟩ := h
  obtain rfl := part?_eq_some htext
  split at h
  · next op hop =>
    have hne : op ≠ [] := fun he => absurd (List.mem_of_find?_eq_some hop) (by rw [he]; decide)
    have hpos := List.length_pos_iff.2 hne
    rw [ahead?_eq_some (token_eq_some h), List.length_drop, List.length_cons]
    omega
  · have hpos : 0 < width b := by
      unfold width
      split <;> [skip; split <;> [skip; split]] <;> decide
    rw [ahead?_eq_some (token_eq_some h), List.length_drop, List.length_cons]
    omega

theorem step_lt (h : step b bs = some (.ok (k, r))) : r.length < (b :: bs).length := by
  unfold step at h
  split at h
  · cases h
    exact Nat.lt_succ_self _
  simp only [Option.bind_eq_bind, Option.bind_eq_some_iff] at h
  obtain ⟨text, htext, h⟩ := h
  obtain rfl := part?_eq_some htext
  split at h
  · have hle := comment_le h
    rw [List.length_tail] at hle
    rw [List.length_cons]
    omega
  split at h
  · next hname =>
    rw [part?_eq_some (token_eq_some h)]
    exact (Piece.name hname).rest_lt
  split at h
  · next hnumber =>
    rw [part?_eq_some (token_eq_some h)]
    exact (Piece.number hnumber).rest_lt
  split at h
  · next hquote =>
    split at h
    · next t r' hq =>
      rw [part?_eq_some (token_eq_some h)]
      exact (Piece.quoted hquote hq).rest_lt
    · cases h
  split at h
  · next n _ =>
    simp only [Option.bind_eq_some_iff] at h
    obtain ⟨x, hx, h⟩ := h
    split at h
    · rw [part?_eq_some (token_eq_some h)]
      exact bracketed_lt hx
    · cases h
  · exact punct_lt h

structure Span where
  kind : Kind
  start : Nat
  stop : Nat
deriving DecidableEq, Repr

def spans (offset : Nat) : List Char → Option (Except LexError (List Span))
  | [] => some (.ok [])
  | b :: bs =>
    match _ : step b bs with
    | none => none
    | some (.error (cause, ahead)) => some (.error ⟨cause, offset + ahead⟩)
    | some (.ok (k, r)) =>
      let stop := offset + ((b :: bs).length - r.length)
      (spans stop r).map fun x => x.map ((k.map (⟨·, offset, stop⟩)).toList ++ ·)
termination_by bs => bs.length
decreasing_by exact step_lt (by assumption)

variable {c : Char} {cs : List Char}

theorem textBytes_plain (h : c.toNat < 128) : textBytes (c :: cs) = c :: textBytes cs := by
  rw [Source.textBytes_cons, Source.charBytes_of_lt h]
  rfl

theorem toNat_byteChar (u : UInt8) : (Char.ofNat u.toNat).toNat = u.toNat := by
  have hvalid : u.toNat.isValidChar := .inl (u.toNat_lt.trans (by decide))
  rw [Char.toNat_ofNat, if_pos hvalid]

/-- A character of more bytes than one begins with a byte that tells how many there are. None of
them is that of a character of one byte. -/
theorem charBytes_wide (h : 128 ≤ c.toNat) : ∃ b u, charBytes c = b :: u ∧ 192 ≤ b.toNat ∧
    width b = u.length + 1 ∧ ∀ d ∈ u, 128 ≤ d.toNat := by
  have hwide : ¬ c.val.toNat ≤ 127 := by
    show ¬ c.toNat ≤ 127
    omega
  obtain ⟨b, u, hbu, hb, hwidth⟩ :
      ∃ b u, charBytes c = b :: u ∧ 192 ≤ b.toNat ∧ width b = u.length + 1 := by
    unfold charBytes String.utf8EncodeChar
    simp only [if_neg hwide]
    split
    · refine ⟨_, _, rfl, ?_⟩
      rw [width, toNat_byteChar, UInt8.toNat_ofNat']
      exact ⟨by omega, by rw [if_neg (by omega), if_pos (by omega)]; rfl⟩
    split
    · refine ⟨_, _, rfl, ?_⟩
      rw [width, toNat_byteChar, UInt8.toNat_ofNat']
      exact ⟨by omega, by rw [if_neg (by omega), if_neg (by omega), if_pos (by omega)]; rfl⟩
    · refine ⟨_, _, rfl, ?_⟩
      rw [width, toNat_byteChar, UInt8.toNat_ofNat']
      exact ⟨by omega, by rw [if_neg (by omega), if_neg (by omega), if_neg (by omega)]; rfl⟩
  exact ⟨b, u, hbu, hb, hwidth, fun d hd =>
    Source.le_of_mem_charBytes h (hbu ▸ List.mem_cons_of_mem b hd)⟩

theorem textBytes_cases (c : Char) (cs : List Char) :
    (c.toNat < 128 ∧ textBytes (c :: cs) = c :: textBytes cs) ∨
      128 ≤ c.toNat ∧ ∃ b u, textBytes (c :: cs) = b :: (u ++ textBytes cs) ∧ 192 ≤ b.toNat ∧
        width b = u.length + 1 ∧ ∀ d ∈ u, 128 ≤ d.toNat := by
  rcases Nat.lt_or_ge c.toNat 128 with h | h
  · exact .inl ⟨h, textBytes_plain h⟩
  · obtain ⟨b, u, hbu, hb⟩ := charBytes_wide h
    exact .inr ⟨h, b, u, by rw [Source.textBytes_cons, hbu, List.cons_append], hb⟩

theorem part?_textBytes (cs : List Char) : part? (textBytes cs) = some (textBytes cs) := by
  cases cs with
  | nil => rfl
  | cons c cs =>
    rcases textBytes_cases c cs with ⟨hc, he⟩ | ⟨_, b, u, he, hb, _⟩
    · simp [he, part?, hc]
    · simp [he, part?, hb]

section Wide

variable {d : Char}

theorem ne_of_wide (hc : 128 ≤ c.toNat) (hd : d.toNat < 128) : c ≠ d := by
  rintro rfl
  omega

theorem isAlphanum_wide (hc : 128 ≤ c.toNat) : c.isAlphanum = false := by
  rw [Bool.eq_false_iff]
  intro h
  simp only [Char.isAlphanum, Char.isAlpha, Char.isUpper, Char.isLower, Char.isDigit,
    Bool.or_eq_true, Bool.and_eq_true, decide_eq_true_eq, ge_iff_le, UInt32.le_iff_toNat_le] at h
  have hZ : 'Z'.val.toNat = 90 := rfl
  have hz : 'z'.val.toNat = 122 := rfl
  have h9 : '9'.val.toNat = 57 := rfl
  have hv : c.val.toNat = c.toNat := rfl
  omega

theorem isIdentRest_wide (hc : 128 ≤ c.toNat) : Text.isIdentRest c = false := by
  simp [Text.isIdentRest, isAlphanum_wide hc, ne_of_wide hc (show '_'.toNat < 128 by decide)]

theorem isIdentStart_wide (hc : 128 ≤ c.toNat) : Text.isIdentStart c = false := by
  have h := isAlphanum_wide hc
  simp only [Char.isAlphanum, Bool.or_eq_false_iff] at h
  simp [Text.isIdentStart, h.1, ne_of_wide hc (show '_'.toNat < 128 by decide)]

theorem isNumeral_wide (hc : 128 ≤ c.toNat) : isNumeral c = false := by
  simp [isNumeral, isAlphanum_wide hc, ne_of_wide hc (show '.'.toNat < 128 by decide)]

theorem isDigit_wide (hc : 128 ≤ c.toNat) : c.isDigit = false := by
  have h := isAlphanum_wide hc
  simp only [Char.isAlphanum, Bool.or_eq_false_iff] at h
  exact h.2

theorem isAsciiBlank_wide (hc : 128 ≤ c.toNat) : Text.isAsciiBlank c = false := by
  have hne (d : Char) (hd : d.toNat < 128) : c ≠ d := ne_of_wide hc hd
  simp [Text.isAsciiBlank, hne ' ' (by decide), hne '\t' (by decide), hne '\n' (by decide),
    hne '\x0c' (by decide), hne '\r' (by decide)]

theorem isQuote_wide (hc : 128 ≤ c.toNat) : isQuote c = false := by
  have hne (d : Char) (hd : d.toNat < 128) : c ≠ d := ne_of_wide hc hd
  simp [isQuote, hne '"' (by decide), hne '\'' (by decide), hne '\x60' (by decide)]

end Wide

section Scanners

theorem dropWhile_textBytes {p : Char → Bool} (hp : ∀ c : Char, 128 ≤ c.toNat → p c = false)
    (cs : List Char) : (textBytes cs).dropWhile p = textBytes (cs.dropWhile p) := by
  induction cs with
  | nil => rfl
  | cons c cs ih =>
    rcases textBytes_cases c cs with ⟨hc, he⟩ | ⟨hc, b, u, he, hb, -, -⟩
    · rw [he, List.dropWhile_cons, List.dropWhile_cons]
      split
      · exact ih
      · exact he.symm
    · rw [List.dropWhile_cons, hp c hc, he, List.dropWhile_cons, hp b (by omega)]
      exact he.symm

theorem isPrefixOf_textBytes {p : List Char} (hp : ∀ d ∈ p, d.toNat < 128) (cs : List Char) :
    p.isPrefixOf (textBytes cs) = p.isPrefixOf cs := by
  induction p generalizing cs with
  | nil => simp
  | cons d p ih =>
    rw [List.forall_mem_cons] at hp
    cases cs with
    | nil => rfl
    | cons c cs =>
      rcases textBytes_cases c cs with ⟨hc, he⟩ | ⟨hc, b, u, he, hb, -, -⟩
      · rw [he, List.isPrefixOf, List.isPrefixOf, ih hp.2]
      · have hdc : (d == c) = false := beq_eq_false_iff_ne.2 (ne_of_wide hc hp.1).symm
        have hdb : (d == b) = false :=
          beq_eq_false_iff_ne.2 (ne_of_wide (show 128 ≤ b.toNat by omega) hp.1).symm
        rw [he, List.isPrefixOf, List.isPrefixOf, hdc, hdb]
        rfl

theorem drop_textBytes {p : List Char} (hp : ∀ d ∈ p, d.toNat < 128)
    (h : p.isPrefixOf cs = true) :
    (textBytes cs).drop p.length = textBytes (cs.drop p.length) := by
  obtain ⟨r, rfl⟩ := List.isPrefixOf_iff_prefix.1 h
  rw [Source.textBytes_append, Source.textBytes_of_lt hp, List.drop_left, List.drop_left]

theorem line_skip {u : List Char} (hu : ∀ d ∈ u, 128 ≤ d.toNat) (y : List Char) :
    (line (u ++ y)).2 = (line y).2 := by
  induction u with
  | nil => rfl
  | cons d u ih =>
    rw [List.forall_mem_cons] at hu
    rw [List.cons_append, line, if_neg (ne_of_wide hu.1 (by decide)), ← ih hu.2]

theorem line_textBytes (cs : List Char) : (line (textBytes cs)).2 = textBytes (line cs).2 := by
  induction cs with
  | nil => rfl
  | cons c cs ih =>
    rcases textBytes_cases c cs with ⟨hc, he⟩ | ⟨hc, b, u, he, hb, -, hu⟩
    · rw [he, line, line]
      split
      · rfl
      · exact ih
    · have hwide : ∀ d ∈ b :: u, 128 ≤ d.toNat := List.forall_mem_cons.2 ⟨by omega, hu⟩
      rw [he, ← List.cons_append, line_skip hwide, ih, line,
        if_neg (ne_of_wide hc (by decide))]

theorem level?_textBytes (cs : List Char) : level? (textBytes cs) = level? cs := by
  induction cs with
  | nil => rfl
  | cons c cs ih =>
    rcases textBytes_cases c cs with ⟨hc, he⟩ | ⟨hc, b, u, he, hb, -, -⟩
    · rw [he, level?_cons, level?_cons, ih]
    · have hne {a : Char} (ha : 128 ≤ a.toNat) : a ≠ '=' ∧ a ≠ '[' :=
        ⟨ne_of_wide ha (by decide), ne_of_wide ha (by decide)⟩
      rw [he, level?_cons, level?_cons, if_neg (hne hc).1, if_neg (hne hc).2,
        if_neg (hne (by omega)).1, if_neg (hne (by omega)).2]

theorem bracket?_textBytes (cs : List Char) : bracket? (textBytes cs) = bracket? cs := by
  cases cs with
  | nil => rfl
  | cons c cs =>
    rcases textBytes_cases c cs with ⟨hc, he⟩ | ⟨hc, b, u, he, hb, -, -⟩
    · rw [he]
      by_cases hbracket : c = '['
      · rw [hbracket]
        exact level?_textBytes cs
      · simp [bracket?, hbracket]
    · have hne {a : Char} (ha : 128 ≤ a.toNat) : a ≠ '[' := ne_of_wide ha (by decide)
      simp [he, bracket?, hne hc, hne (show 128 ≤ b.toNat by omega)]

theorem startsDigit_textBytes (cs : List Char) : startsDigit (textBytes cs) = startsDigit cs := by
  cases cs with
  | nil => rfl
  | cons c cs =>
    rcases textBytes_cases c cs with ⟨hc, he⟩ | ⟨hc, b, u, he, hb, -, -⟩
    · rw [he]
      rfl
    · rw [he, startsDigit, startsDigit, isDigit_wide hc, isDigit_wide (by omega)]

theorem startsNumber_textBytes (cs : List Char) :
    startsNumber (textBytes cs) = startsNumber cs := by
  cases cs with
  | nil => rfl
  | cons c cs =>
    rcases textBytes_cases c cs with ⟨hc, he⟩ | ⟨hc, b, u, he, hb, -, -⟩
    · rw [he, startsNumber, startsNumber, startsDigit_textBytes]
    · have hno {a : Char} (ha : 128 ≤ a.toNat) (y : List Char) : startsNumber (a :: y) = false := by
        simp [startsNumber, isDigit_wide ha, ne_of_wide ha (show '.'.toNat < 128 by decide)]
      rw [he, hno hc, hno (by omega)]

theorem isHex_textBytes (cs : List Char) : isHex (textBytes cs) = isHex cs := by
  have hno {a : Char} (ha : 128 ≤ a.toNat) (y : List Char) :
      isHex (a :: y) = false ∧ isHex ('0' :: a :: y) = false := by
    refine ⟨isHex_of_ne (ne_of_wide ha (by decide)) y, ?_⟩
    simp [isHex, ne_of_wide ha (show 'x'.toNat < 128 by decide),
      ne_of_wide ha (show 'X'.toNat < 128 by decide)]
  cases cs with
  | nil => rfl
  | cons c cs =>
    rcases textBytes_cases c cs with ⟨hc, he⟩ | ⟨hc, b, u, he, hb, -, -⟩
    · rw [he]
      by_cases hzero : c = '0'
      · subst hzero
        cases cs with
        | nil => rfl
        | cons d cs =>
          rcases textBytes_cases d cs with ⟨hd, he⟩ | ⟨hd, b, u, he, hb, -, -⟩
          · rw [he]
            rfl
          · rw [he, (hno hd cs).2, (hno (by omega) _).2]
      · rw [isHex_of_ne hzero, isHex_of_ne hzero]
    · rw [he, (hno hc cs).1, (hno (by omega) _).1]

theorem number_textBytes (hex : Bool) :
    ∀ cs, (number hex (textBytes cs)).2 = textBytes (number hex cs).2
  | [] => rfl
  | c :: cs => by
    by_cases hn : isNumeral c = true
    swap
    · rw [Bool.not_eq_true] at hn
      have hhead : ∀ d ∈ (textBytes (c :: cs)).head?, isNumeral d = false := by
        rcases textBytes_cases c cs with ⟨-, he⟩ | ⟨-, b, u, he, hb, -, -⟩
        · simpa [he] using hn
        · simpa [he] using isNumeral_wide (show 128 ≤ b.toNat by omega)
      have hstop : ∀ d ∈ (c :: cs).head?, isNumeral d = false := by simpa using hn
      rw [number_stop hhead, number_stop hstop]
    have hc : c.toNat < 128 := by
      by_contra h
      rw [isNumeral_wide (by omega)] at hn
      cases hn
    rw [textBytes_plain hc]
    match cs with
    | [] =>
      have hone : number hex [c] = ([c], []) := if_pos hn
      rw [Source.textBytes_nil, hone, Source.textBytes_nil]
    | s :: cs =>
      have ih := number_textBytes hex cs
      have ih' := number_textBytes hex (s :: cs)
      rcases textBytes_cases s cs with ⟨-, he⟩ | ⟨hs, b, u, he, hb, -, -⟩
      · rw [he] at ih' ⊢
        rw [number_cons, number_cons, if_pos hn, if_pos hn]
        split
        · exact ih
        · exact ih'
      · have hsign {a : Char} (ha : 128 ≤ a.toNat) :
            ¬ (isMark hex c && (a = '+' || a = '-')) = true := by
          simp [ne_of_wide ha (show '+'.toNat < 128 by decide),
            ne_of_wide ha (show '-'.toNat < 128 by decide)]
        rw [he] at ih' ⊢
        rw [number_cons, number_cons, if_neg (hsign hs), if_neg (hsign (by omega)), if_pos hn,
          if_pos hn]
        exact ih'

theorem quoted_skip {q : Char} (hq : isQuote q = true) {u : List Char}
    (hu : ∀ d ∈ u, 128 ≤ d.toNat) (y : List Char) :
    (quoted q (u ++ y)).map Prod.snd = (quoted q y).map Prod.snd := by
  induction u with
  | nil => rfl
  | cons d u ih =>
    rw [List.forall_mem_cons] at hu
    have hquote : d ≠ q := fun h => by
      rw [← h, isQuote_wide hu.1] at hq
      cases hq
    rw [List.cons_append, quoted_cons (ne_of_wide hu.1 (by decide)), if_neg, if_neg hquote,
      ← ih hu.2, Option.map_map]
    · rfl
    · simp [ne_of_wide hu.1 (show '\n'.toNat < 128 by decide)]

theorem quoted_textBytes {q : Char} (hq : isQuote q = true) : ∀ cs,
    (quoted q (textBytes cs)).map Prod.snd = (quoted q cs).map fun x => textBytes x.2
  | [] => rfl
  | c :: cs => by
    have ih := quoted_textBytes hq cs
    by_cases hescape : c = '\\'
    · subst hescape
      rw [textBytes_plain (by decide)]
      match cs with
      | [] =>
        have hopen : quoted q ['\\'] = none := by
          have hne : '\\' ≠ q := fun h => by
            rw [← h] at hq
            cases hq
          simp [quoted, hne]
        rw [Source.textBytes_nil, hopen]
        rfl
      | c :: cs =>
        have ih := quoted_textBytes hq cs
        rw [quoted_escape, Option.map_map]
        rcases textBytes_cases c cs with ⟨-, he⟩ | ⟨-, b, u, he, -, -, hu⟩
        · rw [he, quoted_escape, Option.map_map]
          exact ih
        -- the backslash takes the first byte, and no other byte ends the literal
        · rw [he, quoted_escape, Option.map_map]
          exact (quoted_skip hq hu _).trans ih
    rcases textBytes_cases c cs with ⟨-, he⟩ | ⟨hc, b, u, he, hb, -, hu⟩
    · rw [he, quoted_cons hescape, quoted_cons hescape]
      split
      · rfl
      split
      · rfl
      · rw [Option.map_map, Option.map_map]
        exact ih
    · have hwide : ∀ d ∈ b :: u, 128 ≤ d.toNat := List.forall_mem_cons.2 ⟨by omega, hu⟩
      have hskip := quoted_skip hq (u := [c]) (List.forall_mem_singleton.2 hc) cs
      rw [he, ← List.cons_append, quoted_skip hq hwide, ih]
      rw [List.singleton_append] at hskip
      have hboth := congrArg (Option.map textBytes) hskip
      rw [Option.map_map, Option.map_map] at hboth
      exact hboth.symm

theorem through_skip (n : Nat) {u : List Char} (hu : ∀ d ∈ u, 128 ≤ d.toNat) (y : List Char) :
    (through (closer n) (u ++ y)).map Prod.snd = (through (closer n) y).map Prod.snd := by
  induction u with
  | nil => rfl
  | cons d u ih =>
    rw [List.forall_mem_cons] at hu
    have hd : (closer n).isPrefixOf (d :: (u ++ y)) = false := by
      have hne : (']' == d) = false := beq_eq_false_iff_ne.2 (ne_of_wide hu.1 (by decide)).symm
      rw [closer, List.cons_append, List.isPrefixOf, hne, Bool.false_and]
    rw [List.cons_append, through, hd, if_neg Bool.false_ne_true, ← ih hu.2, Option.map_map]
    rfl

theorem through_closed {close x : List Char} (hne : close ≠ [])
    (h : close.isPrefixOf x = true) : through close x = some (close, x.drop close.length) := by
  cases x with
  | nil => exact absurd (List.prefix_nil.1 (List.isPrefixOf_iff_prefix.1 h)) hne
  | cons c x => rw [through, if_pos h]

theorem signs_plain {a : Char} (ha : a.toNat < 128) (n : Nat) :
    ∀ d ∈ a :: List.replicate n '=' ++ [a], d.toNat < 128 := by
  intro d hd
  simp only [List.mem_append, List.mem_cons, List.mem_replicate, List.not_mem_nil, or_false] at hd
  rcases hd with (rfl | ⟨-, rfl⟩) | rfl
  · exact ha
  · decide
  · exact ha

theorem opener_plain (n : Nat) : ∀ d ∈ opener n, d.toNat < 128 := signs_plain (by decide) n

theorem closer_plain (n : Nat) : ∀ d ∈ closer n, d.toNat < 128 := signs_plain (by decide) n

theorem through_textBytes (n : Nat) (cs : List Char) :
    (through (closer n) (textBytes cs)).map Prod.snd =
      (through (closer n) cs).map fun x => textBytes x.2 := by
  induction cs with
  | nil => rfl
  | cons c cs ih =>
    by_cases hp : (closer n).isPrefixOf (c :: cs) = true
    · have hbytes := (isPrefixOf_textBytes (closer_plain n) (c :: cs)).trans hp
      rw [through_closed (closer_ne_nil n) hbytes, through_closed (closer_ne_nil n) hp]
      exact congrArg some (drop_textBytes (closer_plain n) hp)
    -- a closer begins with a character of one byte, so with none of the bytes of a wider one
    · rw [through, if_neg hp, Option.map_map]
      rcases textBytes_cases c cs with ⟨-, he⟩ | ⟨-, b, u, he, hb, -, hu⟩
      · have hbytes := isPrefixOf_textBytes (closer_plain n) (c :: cs)
        rw [he] at hbytes ⊢
        rw [through, if_neg (hbytes ▸ hp), Option.map_map]
        exact ih
      · have hwide : ∀ d ∈ b :: u, 128 ≤ d.toNat := List.forall_mem_cons.2 ⟨by omega, hu⟩
        rw [he, ← List.cons_append, through_skip n hwide]
        exact ih

end Scanners

section Steps

def outline (x : Lexeme × List Char) : Option Kind × List Char := (x.1.kind, textBytes x.2)

theorem token_textBytes (k : Kind) (cs r : List Char) :
    token k (textBytes cs) (some (textBytes r)) = some (.ok (some k, textBytes r)) := by
  rw [token, part?_textBytes]
  rfl

theorem ahead?_textBytes {n : Nat} {p : List Char} (hn : p.length = n) (r : List Char) :
    ahead? n (p ++ textBytes r) = some (textBytes r) := by
  rw [ahead?, if_pos (by simp [← hn]), ← hn, List.drop_left, part?_textBytes]

theorem ahead?_prefix {p : List Char} (hp : ∀ d ∈ p, d.toNat < 128) (r : List Char) :
    ahead? p.length (textBytes (p ++ r)) = some (textBytes r) := by
  rw [Source.textBytes_append, Source.textBytes_of_lt hp, ahead?_textBytes rfl]

theorem ahead?_opener (n : Nat) (y : List Char) :
    ahead? (n + 2) (textBytes (opener n ++ y)) = some (textBytes y) := by
  have hlength : (opener n).length = n + 2 := by simp [opener]
  rw [← hlength, ahead?_prefix (opener_plain n)]

theorem bracketed_some {n : Nat} {y t r : List Char} (h : through (closer n) y = some (t, r))
    (ahead : Nat) : bracketed n ahead (textBytes (opener n ++ y)) = some (.ok (textBytes r)) := by
  have hbytes := through_textBytes n y
  rw [h] at hbytes
  obtain ⟨⟨t', r'⟩, ht, rfl⟩ := Option.map_eq_some_iff.1 hbytes
  rw [bracketed, ahead?_opener]
  simp [ht]

theorem bracketed_none {n : Nat} {y : List Char} (h : through (closer n) y = none) (ahead : Nat) :
    bracketed n ahead (textBytes (opener n ++ y)) = some (.error (.openBracket, ahead)) := by
  have hbytes := through_textBytes n y
  rw [h] at hbytes
  rw [bracketed, ahead?_opener]
  simp [Option.map_eq_none_iff.1 hbytes]

theorem comment_textBytes (cs : List Char) :
    comment (textBytes cs) = some ((Rule.comment cs).map outline) := by
  unfold comment
  rw [bracket?_textBytes]
  cases hb : bracket? cs with
  | none =>
    rw [comment_eq_line hb, part?_textBytes]
    simp [Except.map, outline, line_textBytes]
  | some n =>
    obtain ⟨y, rfl⟩ := bracket?_eq_some.1 hb
    dsimp only
    cases ht : through (closer n) y with
    | none =>
      rw [bracketed_none ht, opener_append]
      simp [Rule.comment, longBracket_replicate, ht, Rule.bracketed, Except.map]
    | some x =>
      rw [bracketed_some ht, comment_eq_bracket ht]
      rfl

theorem operators_plain {op : List Char} (h : op ∈ operators) : ∀ d ∈ op, d.toNat < 128 := by
  have hall : operators.all (fun op => op.all fun d => decide (d.toNat < 128)) = true := by decide
  exact fun d hd => of_decide_eq_true (List.all_eq_true.1 (List.all_eq_true.1 hall op h) d hd)

theorem find?_textBytes (cs : List Char) :
    operators.find? (·.isPrefixOf (textBytes cs)) = operators.find? (·.isPrefixOf cs) := by
  refine List.find?_congr fun op hop => ?_
  exact isPrefixOf_textBytes (operators_plain hop) cs

theorem punct_textBytes {b : Char} {bs : List Char} (he : textBytes (c :: cs) = b :: bs)
    (hw : ahead? (width b) (b :: bs) = some (textBytes cs)) :
    punct b bs = some ((Rule.punct c cs).map outline) := by
  rw [punct, ← he, part?_textBytes]
  dsimp only [Option.bind_eq_bind, Option.bind_some]
  rw [find?_textBytes, Rule.punct, operator]
  cases hop : operators.find? (·.isPrefixOf (c :: cs)) with
  | some op =>
    have hprefix : op.isPrefixOf (c :: cs) = true := by simpa using List.find?_some hop
    obtain ⟨r, hr⟩ := List.isPrefixOf_iff_prefix.1 hprefix
    dsimp only
    rw [← hr, ahead?_prefix (operators_plain (List.mem_of_find?_eq_some hop)), token_textBytes,
      List.drop_left]
    rfl
  | none =>
    dsimp only
    rw [he, hw, ← he, token_textBytes]
    rfl

theorem dashes_textBytes (c : Char) (cs : List Char) :
    ['-', '-'].isPrefixOf (textBytes (c :: cs)) = (c = '-' && cs.head? = some '-') := by
  rw [isPrefixOf_textBytes (by simp), Bool.eq_iff_iff, List.isPrefixOf_iff_prefix,
    Bool.and_eq_true, decide_eq_true_eq, decide_eq_true_eq, List.cons_prefix_cons, eq_comm]
  refine and_congr_right fun _ => ?_
  cases cs <;> simp [List.cons_prefix_cons, eq_comm]

theorem step_plain (hc : c.toNat < 128) (cs : List Char) :
    step c (textBytes cs) = some ((lexeme c cs).map outline) := by
  have he : textBytes (c :: cs) = c :: textBytes cs := textBytes_plain hc
  have hpart : part? (c :: textBytes cs) = some (c :: textBytes cs) :=
    he ▸ part?_textBytes (c :: cs)
  -- both scanners ask for the same things in the same order
  unfold step lexeme
  by_cases hblank : Text.isAsciiBlank c = true
  · rw [if_pos hblank, if_pos hblank]
    rfl
  rw [if_neg hblank, if_neg hblank, hpart]
  dsimp only [Option.bind_eq_bind, Option.bind_some]
  rw [← he, dashes_textBytes]
  split
  · next hdash =>
    simp only [Bool.and_eq_true, decide_eq_true_eq, List.head?_eq_some_iff] at hdash
    obtain ⟨-, y, rfl⟩ := hdash
    rw [textBytes_plain (by decide)]
    exact comment_textBytes y
  split
  · rw [dropWhile_textBytes fun _ => isIdentRest_wide, part?_textBytes, token_textBytes]
    rfl
  rw [startsNumber_textBytes, isHex_textBytes, number_textBytes]
  change (if startsNumber (c :: cs) = true then _ else _) =
    some (Except.map outline (if startsNumber (c :: cs) = true then _ else _))
  split
  · rw [part?_textBytes, token_textBytes]
    rfl
  split
  · next hquote =>
    have hq := quoted_textBytes hquote cs
    cases hquoted : quoted c cs with
    | none =>
      rw [hquoted] at hq
      rw [Option.map_eq_none_iff.1 hq]
      rfl
    | some x =>
      rw [hquoted] at hq
      obtain ⟨⟨t, r⟩, hr, rfl⟩ := Option.map_eq_some_iff.1 hq
      rw [hr]
      dsimp only
      rw [part?_textBytes]
      exact token_textBytes _ (c :: cs) x.2
  rw [bracket?_textBytes]
  cases hb : bracket? (c :: cs) with
  | none =>
    have hpunct : punct c (textBytes cs) = some ((Rule.punct c cs).map outline) :=
      punct_textBytes he (ahead?_textBytes (p := [c]) (by rw [width, if_pos hc]; rfl) cs)
    -- a bracket that opens no long bracket is an operator like the others
    by_cases hbracket : c = '['
    · subst hbracket
      rw [longBracket_eq_none hb]
      exact hpunct
    · rw [if_neg hbracket]
      exact hpunct
  | some n =>
    obtain ⟨y, hy⟩ := bracket?_eq_some.1 hb
    rw [hy]
    dsimp only
    rw [opener_append, List.cons.injEq] at hy
    obtain ⟨rfl, rfl⟩ := hy
    simp only [longBracket_replicate]
    cases ht : through (closer n) y with
    | none =>
      rw [bracketed_none ht]
      rfl
    | some x =>
      rw [bracketed_some ht]
      dsimp only [Option.bind_some]
      rw [part?_textBytes]
      exact token_textBytes _ _ x.2

theorem step_wide (hc : 128 ≤ c.toNat) (cs : List Char) : ∃ b bs, textBytes (c :: cs) = b :: bs ∧
    step b bs = some ((lexeme c cs).map outline) := by
  obtain ⟨b, u, hbu, hb, hwidth, -⟩ := charBytes_wide hc
  have he : textBytes (c :: cs) = b :: (u ++ textBytes cs) := by
    rw [Source.textBytes_cons, hbu, List.cons_append]
  have hb : 128 ≤ b.toNat := by omega
  have hwide (cs : List Char) :
      ahead? (width b) (b :: (u ++ textBytes cs)) = some (textBytes cs) :=
    ahead?_textBytes (p := b :: u) hwidth.symm cs
  have hne (a : Char) (ha : 128 ≤ a.toNat) : a ≠ '-' ∧ a ≠ '[' ∧ a ≠ '.' :=
    ⟨ne_of_wide ha (by decide), ne_of_wide ha (by decide), ne_of_wide ha (by decide)⟩
  refine ⟨b, u ++ textBytes cs, he, ?_⟩
  have hpunct : lexeme c cs = Rule.punct c cs := by
    simp [lexeme, isAsciiBlank_wide hc, isIdentStart_wide hc, isDigit_wide hc, isQuote_wide hc,
      hne c hc]
  have hpart := part?_textBytes (c :: cs)
  rw [he] at hpart
  rw [hpunct, ← punct_textBytes he (hwide cs)]
  simp [step, isAsciiBlank_wide hb, isIdentStart_wide hb, isQuote_wide hb, hpart, startsNumber,
    isDigit_wide hb, hne b hb, (hne b hb).1.symm, bracket?]

theorem step_textBytes (c : Char) (cs : List Char) : ∃ b bs, textBytes (c :: cs) = b :: bs ∧
    step b bs = some ((lexeme c cs).map outline) := by
  rcases Nat.lt_or_ge c.toNat 128 with hc | hc
  · exact ⟨c, textBytes cs, textBytes_plain hc, step_plain hc cs⟩
  · exact step_wide hc cs

end Steps

def span (t : Token) : Span := ⟨t.kind, t.start, t.stop⟩

theorem length_textBytes (cs : List Char) : (textBytes cs).length = byteLength cs := by
  induction cs with
  | nil => rfl
  | cons c cs ih =>
    rw [Source.textBytes_cons, List.length_append, ih, byteLength, charBytes, List.length_map,
      String.length_utf8EncodeChar]

theorem spans_textBytes (offset : Nat) (cs : List Char) :
    spans offset (textBytes cs) =
      some ((lexemes offset cs).map fun ls => (place offset ls).map span) := by
  fun_induction lexemes offset cs with
  | case1 offset =>
    rw [Source.textBytes_nil, spans]
    rfl
  | case2 offset c cs cause ahead hl =>
    obtain ⟨b, bs, he, hs⟩ := step_textBytes c cs
    rw [hl] at hs
    rw [he, spans]
    split
    · next h => cases h.symm.trans hs
    · next h =>
      cases h.symm.trans hs
      rfl
    · next h => cases h.symm.trans hs
  | case3 offset c cs l r hl ih =>
    obtain ⟨b, bs, he, hs⟩ := step_textBytes c cs
    rw [hl] at hs
    have hstop : offset + ((b :: bs).length - (textBytes r).length) =
        offset + byteLength l.text := by
      rw [← he, length_textBytes, length_textBytes, ← lexeme_append hl, byteLength_append,
        Nat.add_sub_cancel]
    rw [he, spans]
    split
    · next h => cases h.symm.trans hs
    · next h => cases h.symm.trans hs
    · next h =>
      cases h.symm.trans hs
      dsimp only
      rw [hstop, ih]
      cases lexemes (offset + byteLength l.text) r with
      | error e => rfl
      | ok ls =>
        simp only [Except.map, Option.map_some, place, Lexeme.token?, List.map_append]
        cases l.kind <;> rfl

/-- No part of a text is taken within a character, and the bytes have the tokens of the text. -/
theorem spans_eq (s : String) :
    spans 0 (Source.byteChars s.toUTF8) = some ((tokens s).map fun ts => ts.map span) := by
  rw [Source.byteChars_toUTF8, spans_textBytes, tokens]
  cases lexemes 0 s.toList <;> rfl

end Bytewise

end Rulebook.Rule
