import Rulebook.Proofs.ByteScanning

namespace Rulebook.Rule

open Source (byteChars)

/-- The token has its text from its place in the rule, where characters begin or the rule ends. -/
structure Token.StandsIn (s : String) (t : Token) : Prop where
  nonempty : t.start < t.stop
  starts : String.Pos.Raw.IsValid s ⟨t.start⟩
  stops : String.Pos.Raw.IsValid s ⟨t.stop⟩
  text : s.toUTF8.extract t.start t.stop = t.text.toUTF8

/-- Two dashes and a long bracket up to its first end, or two dashes and the rest of the line. -/
inductive IsComment : List Char → Prop
  | long {n : Nat} {t : List Char} (h : ¬ closer n <:+: (t ++ closer n).dropLast) :
    IsComment ('-' :: '-' :: opener n ++ (t ++ closer n))
  | line {t : List Char} (hb : bracket? t = none) (h : '\n' ∉ t) :
    IsComment ('-' :: '-' :: (t ++ ['\n']))
  | last {t : List Char} (hb : bracket? t = none) (h : '\n' ∉ t) : IsComment ('-' :: '-' :: t)

def BlankAt (s : String) (i : Nat) : Prop :=
  ∃ b, (byteChars s.toUTF8)[i]? = some b ∧ Text.isAsciiBlank b = true

def CommentAt (s : String) (i : Nat) : Prop :=
  ∃ l, LiesIn s i l ∧ l.kind = none ∧ IsComment l.text

/-- The tokens are parts of the rule in their order, and what is between them means nothing. -/
structure Tiles (s : String) (ts : List Token) : Prop where
  standing : ∀ t ∈ ts, t.StandsIn s
  apart : ts.Pairwise fun t u => t.stop ≤ u.start
  between : ∀ i < s.utf8ByteSize, (∀ t ∈ ts, ¬ t.Covers i) → BlankAt s i ∨ CommentAt s i

def Escaped (u : List Char) : Prop := (u.reverse.takeWhile (· = '\\')).length % 2 = 1

/-- Every quote in the text is escaped or, unless it is a back quote, comes after the end of the
line. A line break that is escaped does not end the line. -/
def Unclosed (q : Char) (y : List Char) : Prop :=
  ∀ u r, y = u ++ q :: r →
    Escaped u ∨ q ≠ '\x60' ∧ ∃ v w, u = v ++ '\n' :: w ∧ ¬ Escaped v

/-- The rule is left off where the tokenizer has come to a quote or to a bracket that does not
end. -/
inductive Unfinished (s : String) : LexError → Prop
  | string {ls : List Lexeme} {q : Char} {y : List Char} (h : Reads s.toList ls (q :: y))
    (hq : isQuote q = true) (hy : Unclosed q y) :
    Unfinished s ⟨.openString, byteLength (ls.flatMap Lexeme.text)⟩
  | bracket {ls : List Lexeme} {n : Nat} {y : List Char} (h : Reads s.toList ls (opener n ++ y))
    (hy : ¬ closer n <:+: y) : Unfinished s ⟨.openBracket, byteLength (ls.flatMap Lexeme.text)⟩
  | comment {ls : List Lexeme} {n : Nat} {y : List Char}
    (h : Reads s.toList ls ('-' :: '-' :: opener n ++ y)) (hy : ¬ closer n <:+: y) :
    Unfinished s ⟨.openBracket, byteLength (ls.flatMap Lexeme.text) + 2⟩

def Accounts (s : String) : Except LexError (List Token) → Prop
  | .ok ts => Tiles s ts
  | .error e => Unfinished s e

variable {s : String} {ls : List Lexeme} {l : Lexeme} {q c : Char} {x y z u r : List Char}

section Tokens

theorem byteLength_eq (cs : List Char) : byteLength cs = (String.ofList cs).utf8ByteSize := by
  rw [String.utf8ByteSize_ofList]
  induction cs with
  | nil => rfl
  | cons c cs ih => rw [byteLength, ih, String.utf8Len_cons, Nat.add_comm]

theorem eq_append (hs : s.toList = u ++ r) : s = String.ofList u ++ String.ofList r := by
  rw [← String.ofList_append, ← hs, String.ofList_toList]

theorem valid_of_append (hs : s.toList = u ++ r) : String.Pos.Raw.IsValid s ⟨byteLength u⟩ := by
  rw [String.Pos.Raw.isValid_iff_exists_append]
  exact ⟨_, _, eq_append hs, String.Pos.Raw.ext (by rw [byteLength_eq, String.byteIdx_rawEndPos])⟩

theorem extract_of_append {v : List Char} (hs : s.toList = u ++ (x ++ v)) :
    s.toUTF8.extract (byteLength u) (byteLength u + byteLength x) = (String.ofList x).toUTF8 := by
  have hsize (cs : List Char) : (String.ofList cs).toByteArray.size = byteLength cs := by
    rw [String.size_toByteArray, byteLength_eq]
  rw [eq_append hs, String.ofList_append, String.toUTF8_eq_toByteArray, String.toByteArray_append,
    String.toByteArray_append, ByteArray.extract_append, hsize, Nat.sub_self,
    Nat.add_sub_cancel_left, ByteArray.extract_append_eq_left (hsize x).symm]
  have hempty : (String.ofList u).toByteArray.extract (byteLength u) (byteLength u + byteLength x) =
      ByteArray.empty := by
    rw [ByteArray.extract_eq_empty_iff, hsize]
    exact Nat.min_le_right _ _
  rw [hempty, ByteArray.empty_append, String.toUTF8_eq_toByteArray]

theorem place_pairwise (offset : Nat) (ls : List Lexeme) :
    (place offset ls).Pairwise fun t u => t.stop ≤ u.start := by
  induction ls generalizing offset with
  | nil => exact .nil
  | cons l ls ih =>
    rw [place, List.pairwise_append]
    refine ⟨?_, ih _, fun t ht u hu => ?_⟩
    · cases l.token? offset <;> simp
    · obtain ⟨k, -, rfl⟩ := Option.map_eq_some_iff.1 (Option.mem_toList.1 ht)
      exact (place_bounds hu).1

theorem exists_piece_at {i : Nat} (h : i < byteLength (ls.flatMap Lexeme.text)) :
    ∃ ls₁ l ls₂, ls = ls₁ ++ l :: ls₂ ∧ byteLength (ls₁.flatMap Lexeme.text) ≤ i ∧
      i < byteLength (ls₁.flatMap Lexeme.text ++ l.text) := by
  induction ls generalizing i with
  | nil => cases h
  | cons l ls ih =>
    rw [List.flatMap_cons, byteLength_append] at h
    by_cases hl : i < byteLength l.text
    · exact ⟨[], l, ls, rfl, Nat.zero_le _, hl⟩
    · obtain ⟨ls₁, l', ls₂, rfl, hle, hlt⟩ := ih (i := i - byteLength l.text) (by omega)
      refine ⟨l :: ls₁, l', ls₂, rfl, ?_⟩
      simp only [List.flatMap_cons, byteLength_append] at hlt ⊢
      omega

theorem through_first {close t : List Char} (hne : close ≠ []) (h : through close x = some (t, r)) :
    ¬ close <:+: t.dropLast := by
  fun_induction through close x generalizing t with
  | case1 => cases h
  | case2 c x hp =>
    cases h
    intro hin
    have hlength := hin.length_le
    have hpos := List.length_pos_iff.2 hne
    rw [List.length_dropLast] at hlength
    omega
  | case3 c x hp ih =>
    obtain ⟨⟨t', y⟩, ht, he⟩ := Option.map_eq_some_iff.1 h
    cases he
    obtain ⟨u, hu⟩ := through_eq_some ht
    have ht' : t' ≠ [] := by simp [hu, hne]
    rw [List.dropLast_cons_of_ne_nil ht', List.infix_cons_iff]
    rintro (hin | hin)
    · refine hp (List.isPrefixOf_iff_prefix.2 (hin.trans ?_))
      rw [← through_append ht, List.cons_prefix_cons]
      exact ⟨rfl, (List.dropLast_prefix t').trans (List.prefix_append t' _)⟩
    · exact ih ht hin

theorem bracket?_of_append (h : bracket? (u ++ r) = none) : bracket? u = none := by
  cases hb : bracket? u with
  | none => rfl
  | some n =>
    obtain ⟨y, rfl⟩ := bracket?_eq_some.1 hb
    rw [List.append_assoc, bracket?_eq_some.2 ⟨y ++ r, rfl⟩] at h
    cases h

theorem isComment_of_piece (h : Piece x l r) (hk : l.kind = none) :
    (∃ c, l.text = [c] ∧ Text.isAsciiBlank c = true) ∨ IsComment l.text := by
  cases h with
  | @blank c _ hc => exact .inl ⟨c, rfl, hc⟩
  | @longComment n x t r ht =>
    obtain ⟨u, rfl⟩ := through_eq_some ht
    exact .inr (.long (through_first (closer_ne_nil n) ht))
  | @lineComment x hb =>
    refine .inr ?_
    rcases line_cases x with ⟨hx, hl⟩ | ⟨u, r, hu, rfl, hl⟩
    · rw [hl]
      exact .last hb hx
    · rw [hl]
      exact .line (bracket?_of_append hb) hu
  | name | number | quoted | bracket | punct => cases hk

theorem piece_of_reads {ls₁ ls₂ : List Lexeme} (h : Reads x (ls₁ ++ l :: ls₂) z) :
    ∃ r, Piece (l.text ++ r) l r ∧ x = ls₁.flatMap Lexeme.text ++ (l.text ++ r) := by
  obtain ⟨y, hfirst, hsecond⟩ := reads_append.1 h
  cases hsecond with
  | @step _ r _ _ _ hpiece _ =>
    obtain rfl := hpiece.text_append
    exact ⟨r, hpiece, hfirst.text_append.symm⟩

theorem blank_at {i : Nat} (hs : s.toList = u ++ ([c] ++ r)) (hc : Text.isAsciiBlank c = true)
    (hle : byteLength u ≤ i) (hlt : i < byteLength (u ++ [c])) :
    (byteChars s.toUTF8)[i]? = some c := by
  have hplain : c.toNat < 128 := by
    by_contra hwide
    rw [Bytewise.isAsciiBlank_wide (by omega)] at hc
    cases hc
  have hsize : byteLength [c] = 1 := by
    rw [← Bytewise.length_textBytes, Bytewise.textBytes_plain hplain]
    rfl
  rw [byteLength_append, hsize] at hlt
  obtain rfl : i = byteLength u := by omega
  rw [Source.byteChars_toUTF8, hs, Source.textBytes_append, ← Bytewise.length_textBytes,
    List.getElem?_append_right (Nat.le_refl _), Nat.sub_self, List.singleton_append,
    Bytewise.textBytes_plain hplain]
  rfl

theorem tiles_of_tokens {ts : List Token} (h : tokens s = .ok ts) : Tiles s ts := by
  obtain ⟨ls, hls, rfl⟩ := map_eq_ok.1 h
  have hreads := lexemes_eq_ok.1 hls
  refine ⟨fun t ht => ?_, place_pairwise 0 ls, fun i hi hfree => ?_⟩
  · obtain ⟨ls₁, l, ls₂, rfl, hl⟩ := mem_place_iff.1 ht
    obtain ⟨k, -, rfl⟩ := Option.map_eq_some_iff.1 hl
    obtain ⟨r, hpiece, hs⟩ := piece_of_reads hreads
    rw [Nat.zero_add]
    refine ⟨?_, valid_of_append hs, ?_, extract_of_append hs⟩
    · have hpos := Nat.pos_of_ne_zero (mt byteLength_eq_zero.1 hpiece.text_ne_nil)
      exact Nat.lt_add_of_pos_right hpos
    · rw [← byteLength_append]
      rw [← List.append_assoc] at hs
      exact valid_of_append hs
  · have hsize : s.utf8ByteSize = byteLength (ls.flatMap Lexeme.text) := by
      have htext : ls.flatMap Lexeme.text ++ [] = s.toList := hreads.text_append
      rw [byteLength_eq, ← List.append_nil (ls.flatMap Lexeme.text), htext, String.ofList_toList]
    obtain ⟨ls₁, l, ls₂, rfl, hle, hlt⟩ := exists_piece_at (hsize ▸ hi)
    have hlies : LiesIn s i l := ⟨ls₁, ls₂, hls, hle, hlt⟩
    obtain ⟨r, hpiece, hs⟩ := piece_of_reads hreads
    -- a piece that has a kind is a token that covers the byte
    have hkind : l.kind = none := by
      by_contra hk
      obtain ⟨k, hk⟩ := Option.ne_none_iff_exists'.1 hk
      obtain ⟨t, ht, hcovers, -⟩ :=
        (exists_token_iff (P := fun _ _ => True) h).2 ⟨l, hlies, k, hk, trivial⟩
      exact hfree t ht hcovers
    rcases isComment_of_piece hpiece hkind with ⟨c, hc, hblank⟩ | hcomment
    · refine .inl ⟨c, ?_, hblank⟩
      rw [hc] at hs hlt
      exact blank_at hs hblank hle hlt
    · exact .inr ⟨l, hlies, hkind, hcomment⟩

end Tokens

section Failures

theorem through_eq_none {close : List Char} (hne : close ≠ []) (h : through close x = none) :
    ¬ close <:+: x := by
  induction x with
  | nil => exact fun hx => hne (List.infix_nil.1 hx)
  | cons c x ih =>
    rw [through] at h
    split at h
    · cases h
    · next hp =>
      rw [List.infix_cons_iff]
      rintro (hx | hx)
      · exact hp (List.isPrefixOf_iff_prefix.2 hx)
      · exact ih (Option.map_eq_none_iff.1 h) hx

theorem escaped_concat (u : List Char) (c : Char) :
    Escaped (u ++ [c]) ↔ c = '\\' ∧ ¬ Escaped u := by
  rw [Escaped, Escaped, List.reverse_append, List.reverse_singleton, List.singleton_append,
    List.takeWhile_cons]
  by_cases hc : c = '\\'
  · simp only [hc, decide_true, if_true, List.length_cons, true_and]
    omega
  · simp [hc]

/-- A backslash takes the next character if it is not taken itself. -/
theorem escaped_of_inside {e : Bool} (h : inside q false u = some e) : e = true ↔ Escaped u := by
  induction u using List.reverseRecOn generalizing e with
  | nil =>
    cases h
    simp [Escaped]
  | append_singleton u c ih =>
    rw [inside_append] at h
    obtain ⟨d, hd, hc⟩ := Option.bind_eq_some_iff.1 h
    rw [escaped_concat, ← ih hd]
    cases d with
    | true =>
      cases hc
      simp
    | false =>
      rw [inside] at hc
      split at hc
      · next hc' =>
        cases hc
        simp [hc']
      · next hc' =>
        split at hc
        · cases hc
        · cases hc
          simp [hc']

theorem inside_eq_none {e : Bool} (h : inside q e u = none) :
    ∃ v d w, u = v ++ d :: w ∧ inside q e v = some false ∧ (d = q ∨ d = '\n' ∧ q ≠ '\x60') := by
  fun_induction inside q e u with
  | case1 => cases h
  | case2 c u ih =>
    obtain ⟨v, d, w, rfl, hv, hd⟩ := ih h
    exact ⟨c :: v, d, w, rfl, hv, hd⟩
  | case3 u ih =>
    obtain ⟨v, d, w, rfl, hv, hd⟩ := ih h
    exact ⟨'\\' :: v, d, w, rfl, by simpa [inside] using hv, hd⟩
  | case4 c u hc hstop => exact ⟨[], c, u, rfl, rfl, by simpa using hstop⟩
  | case5 c u hc hstop ih =>
    obtain ⟨v, d, w, rfl, hv, hd⟩ := ih h
    exact ⟨c :: v, d, w, rfl, by simpa [inside, hc, hstop] using hv, hd⟩

theorem unclosed_of_quoted (hq : isQuote q = true) (h : quoted q x = none) : Unclosed q x := by
  rintro u r rfl
  have hopen {v w : List Char} (hx : u ++ q :: r = v ++ q :: w) : inside q false v ≠ some false :=
    fun hv => by
      rw [hx, quoted_of_inside hq w v hv] at h
      cases h
  -- the literal has no end, so before the quote it is escaped or has met a break of the line
  cases hu : inside q false u with
  | none =>
    obtain ⟨v, d, w, rfl, hv, rfl | ⟨rfl, hd⟩⟩ := inside_eq_none hu
    · have hx : v ++ d :: w ++ d :: r = v ++ d :: (w ++ d :: r) := by
        rw [List.append_assoc, List.cons_append]
      exact absurd hv (hopen hx)
    · refine .inr ⟨hd, v, w, rfl, fun he => ?_⟩
      cases (escaped_of_inside hv).2 he
  | some e =>
    cases e with
    | true => exact .inl ((escaped_of_inside hu).1 rfl)
    | false => exact absurd hu (hopen rfl)

theorem comment_eq_error {e : LexCause × Nat} (h : comment x = .error e) :
    ∃ n y, x = opener n ++ y ∧ through (closer n) y = none ∧ e = (.openBracket, 2) := by
  cases hb : bracket? x with
  | none =>
    rw [comment_eq_line hb] at h
    cases h
  | some n =>
    obtain ⟨y, rfl⟩ := bracket?_eq_some.1 hb
    cases ht : through (closer n) y with
    | none =>
      rw [opener_append] at h
      simp only [comment, longBracket_replicate, ht, Option.map_none, bracketed] at h
      cases h
      exact ⟨n, y, rfl, ht, rfl⟩
    | some p =>
      rw [comment_eq_bracket ht] at h
      cases h

theorem lexeme_eq_error {e : LexCause × Nat} (h : lexeme c x = .error e) :
    (isQuote c = true ∧ quoted c x = none ∧ e = (.openString, 0)) ∨
      (∃ n y, c :: x = opener n ++ y ∧ through (closer n) y = none ∧ e = (.openBracket, 0)) ∨
      ∃ n y, c :: x = '-' :: '-' :: opener n ++ y ∧ through (closer n) y = none ∧
        e = (.openBracket, 2) := by
  unfold lexeme at h
  split at h
  · cases h
  split at h
  · next hdash =>
    simp only [Bool.and_eq_true, decide_eq_true_eq, List.head?_eq_some_iff] at hdash
    obtain ⟨rfl, y, rfl⟩ := hdash
    obtain ⟨n, y, rfl, hy⟩ := comment_eq_error h
    exact .inr (.inr ⟨n, y, rfl, hy⟩)
  split at h
  · cases h
  split at h
  · cases h
  split at h
  · next hquote =>
    split at h
    · cases h
    · next hq =>
      cases h
      exact .inl ⟨hquote, hq, rfl⟩
  split at h
  · next hbracket =>
    subst hbracket
    cases hb : bracket? ('[' :: x) with
    | none =>
      rw [longBracket_eq_none hb] at h
      cases h
    | some n =>
      obtain ⟨y, hy⟩ := bracket?_eq_some.1 hb
      refine .inr (.inl ⟨n, y, hy, ?_⟩)
      rw [opener_append, List.cons.injEq] at hy
      obtain ⟨-, rfl⟩ := hy
      rw [longBracket_replicate] at h
      cases ht : through (closer n) y with
      | none =>
        rw [ht] at h
        cases h
        exact ⟨rfl, rfl⟩
      | some p =>
        rw [ht] at h
        cases h
  · cases h

/-- The pieces before the one that has no end. -/
theorem lexemes_eq_error {offset : Nat} {e : LexError} (h : lexemes offset x = .error e) :
    ∃ ls c y cause ahead, Reads x ls (c :: y) ∧ lexeme c y = .error (cause, ahead) ∧
      e = ⟨cause, offset + byteLength (ls.flatMap Lexeme.text) + ahead⟩ := by
  fun_induction lexemes offset x with
  | case1 => cases h
  | case2 offset c cs cause ahead hl =>
    cases h
    exact ⟨[], c, cs, cause, ahead, .refl _, hl, rfl⟩
  | case3 offset c cs l r hl ih =>
    obtain ⟨ls, d, y, cause, ahead, hreads, hd, rfl⟩ := ih (map_eq_error.1 h)
    refine ⟨l :: ls, d, y, cause, ahead, .step (.of_lexeme hl) hreads, hd, ?_⟩
    rw [List.flatMap_cons, byteLength_append, Nat.add_assoc offset]

theorem unfinished_of_tokens {e : LexError} (h : tokens s = .error e) : Unfinished s e := by
  obtain ⟨ls, c, y, cause, ahead, hreads, hl, rfl⟩ := lexemes_eq_error (map_eq_error.1 h)
  rw [Nat.zero_add]
  rcases lexeme_eq_error hl with ⟨hq, hy, he⟩ | ⟨n, z, hz, hclose, he⟩ | ⟨n, z, hz, hclose, he⟩
  · cases he
    exact .string hreads hq (unclosed_of_quoted hq hy)
  · cases he
    exact .bracket (hz ▸ hreads) (through_eq_none (closer_ne_nil n) hclose)
  · cases he
    exact .comment (hz ▸ hreads) (through_eq_none (closer_ne_nil n) hclose)

end Failures

/-- A rule's bytes are never taken apart within a character, and have the tokens of its characters.
If there are tokens they tile the rule; if not, it is left off at something that does not end. -/
theorem tokens_account (s : String) :
    Bytewise.spans 0 (byteChars s.toUTF8) = some ((tokens s).map fun ts => ts.map Bytewise.span) ∧
      Accounts s (tokens s) := by
  refine ⟨Bytewise.spans_eq s, ?_⟩
  cases h : tokens s with
  | error e => exact unfinished_of_tokens h
  | ok ts => exact tiles_of_tokens h

def accented : String := "é == 'né' -- où"

theorem tokens_account_accented :
    (∃ ts, tokens accented = .ok ts ∧
      ts.map (fun t => (t.start, t.stop)) = [(0, 2), (3, 5), (6, 11)] ∧ Tiles accented ts ∧
      Bytewise.spans 0 (byteChars accented.toUTF8) = some (.ok (ts.map Bytewise.span))) ∧
    Unfinished "é == [[où" ⟨.openBracket, 6⟩ := by
  constructor
  · have hplaces : (tokens accented).toOption.any (fun ts =>
        ts.map (fun t => (t.start, t.stop)) == [(0, 2), (3, 5), (6, 11)]) = true := by
      decide +kernel
    obtain ⟨ts, hts, hplaces⟩ := exists_of_toOption_any hplaces
    obtain ⟨hspans, haccounts⟩ := tokens_account accented
    rw [hts] at hspans haccounts
    exact ⟨ts, hts, beq_iff_eq.1 hplaces, haccounts, hspans⟩
  · have hfail : tokens "é == [[où" = .error ⟨.openBracket, 6⟩ := by cbv
    obtain ⟨-, haccounts⟩ := tokens_account "é == [[où"
    rwa [hfail] at haccounts

end Rulebook.Rule
