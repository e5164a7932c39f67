import Rulebook.Rule.Lowering
import Rulebook.Proofs.Seams
import Rulebook.Proofs.ChunkTokens

namespace Rulebook.Script.Token

open Rule (Lexeme Piece StartsOperator)

variable {c q : Char} {x y t r : List Char} {l : Lexeme} {line line' : Nat} {k : Option Token}

def word? : Token → Option String
  | name s => some s
  | sign s => if s ∈ reserved then some s else none
  | _ => none

def words (ts : List Token) : List String := ts.filterMap word?

theorem level?_eq (x : List Char) : level? x = Rule.level? x := by
  induction x with
  | nil => rfl
  | cons c x ih =>
    rw [Rule.level?_cons]
    split
    · next h => simp [h, level?, ih]
    · split
      · next h => simp [h, level?]
      · simp [level?, *]

theorem word?_word (w : List Char) : word? (word w) = some (String.ofList w) := by
  unfold word
  split
  · next h => simp [word?, h]
  · rfl

theorem not_isSpace_of_isIdentRest (h : Text.isIdentRest c = true) : Number.isSpace c = false := by
  rw [Bool.eq_false_iff]
  intro hb
  simp only [Number.isSpace, Bool.or_eq_true, decide_eq_true_eq] at hb
  rcases hb with ((((rfl | rfl) | rfl) | rfl) | rfl) | rfl <;> exact absurd h (by decide)

theorem not_isBreak_of_isIdentRest (h : Text.isIdentRest c = true) : isBreak c = false := by
  rw [Bool.eq_false_iff]
  intro hb
  simp only [isBreak, Bool.or_eq_true, decide_eq_true_eq] at hb
  rcases hb with rfl | rfl <;> exact absurd h (by decide)

theorem step_name (h : Text.isIdentStart c = true) :
    step c x line = .ok (some (word (c :: x.takeWhile Text.isIdentRest)),
      x.dropWhile Text.isIdentRest, line) := by
  have hr := Rule.isIdentRest_of_isIdentStart h
  rw [step.eq_def, if_neg (by simp [not_isBreak_of_isIdentRest hr]),
    if_neg (by simp [not_isSpace_of_isIdentRest hr]), if_pos h]

theorem startsNumber_cons (c : Char) (x : List Char) :
    (c.isDigit || (c = '.' && (x.head?.any Char.isDigit))) = Rule.startsNumber (c :: x) := by
  cases x <;> rfl

theorem step_number (h : Rule.startsNumber (c :: x) = true) :
    step c x line = (readNumber (c :: x)).map fun (n, r) => (some (number n), r, line) := by
  have hc : c.isDigit = true ∨ c = '.' := by
    simp only [Rule.startsNumber, Bool.or_eq_true, Bool.and_eq_true, decide_eq_true_eq] at h
    exact h.imp_right And.left
  have hb : isBreak c = false := by
    rcases hc with hc | rfl
    · exact not_isBreak_of_isIdentRest (Rule.isIdentRest_of_isDigit hc)
    · decide
  have hs : Number.isSpace c = false := by
    rcases hc with hc | rfl
    · exact not_isSpace_of_isIdentRest (Rule.isIdentRest_of_isDigit hc)
    · decide
  have hi : Text.isIdentStart c = false := by
    rcases hc with hc | rfl
    · exact Rule.not_isIdentStart_of_isDigit hc
    · decide
  rw [step.eq_def, if_neg (by simp [hb]), if_neg (by simp [hs]), if_neg (by simp [hi]),
    startsNumber_cons, if_pos h]

theorem step_quoted (h : q = '"' ∨ q = '\'') :
    step q x line = (quoted (x.length + 1) q x [] line).map fun (t, r, line) =>
      (some (str ⟨t.reverse.toArray⟩), r, line) := by
  rcases h with rfl | rfl <;> rfl

theorem step_comment : step '-' ('-' :: x) line = stepComment x line := rfl

theorem stepComment_eq (h : Rule.bracket? x = none) (line : Nat) :
    stepComment x line = .ok (none, x.dropWhile (!isBreak ·), line) := by
  unfold stepComment
  split
  · have hl : Rule.level? _ = none := h
    rw [if_neg (by rw [level?_eq, hl]; simp)]
  · rfl

theorem step_bracket : step '[' x line = stepBracket x line := rfl

theorem closes_iff (n : Nat) (x : List Char) :
    closes n x = true ↔ List.replicate n '=' ++ [']'] <+: x := by
  induction n generalizing x with
  | zero =>
    cases x with
    | nil => simp [closes]
    | cons c x =>
      by_cases hc : c = ']'
      · simp [closes, hc]
      · have hc' : ']' ≠ c := fun h => hc h.symm
        simp [closes, hc, hc']
  | succ n ih =>
    cases x with
    | nil => simp [closes]
    | cons c x =>
      by_cases hc : c = '='
      · simp [closes, hc, ih, List.replicate_succ]
      · have hc' : '=' ≠ c := fun h => hc h.symm
        simp [closes, hc, hc', List.replicate_succ]

theorem closer_prefix_iff (n : Nat) (c : Char) (x : List Char) :
    (c = ']' && closes n x) = (Rule.closer n).isPrefixOf (c :: x) := by
  rw [Bool.eq_iff_iff, List.isPrefixOf_iff_prefix]
  simp only [Bool.and_eq_true, decide_eq_true_eq, closes_iff, Rule.closer, List.cons_append,
    List.cons_prefix_cons]
  constructor
  · rintro ⟨rfl, h⟩
    exact ⟨rfl, h⟩
  · rintro ⟨h, h'⟩
    exact ⟨h.symm, h'⟩

theorem through_skip {n : Nat} {u z t : List Char} (hu : ∀ d ∈ u, isBreak d = true)
    (h : Rule.through (Rule.closer n) (u ++ z) = some (t, r)) :
    ∃ t', Rule.through (Rule.closer n) z = some (t', r) := by
  induction u generalizing t with
  | nil => exact ⟨t, h⟩
  | cons c u ih =>
    have hc : c ≠ ']' := by
      rintro rfl
      exact absurd (hu _ List.mem_cons_self) (by decide)
    rw [List.cons_append, Rule.through, ← closer_prefix_iff] at h
    simp only [hc, decide_false, Bool.false_and, Bool.false_eq_true, if_false,
      Option.map_eq_some_iff] at h
    obtain ⟨⟨t', r'⟩, h, e⟩ := h
    cases e
    exact ih (fun d hd => hu d (List.mem_cons_of_mem _ hd)) h

theorem long_of_through {n fuel : Nat} {acc : List Char} (hf : x.length < fuel)
    (h : Rule.through (Rule.closer n) x = some (t, r)) :
    ∃ acc' line', long fuel n x acc line = some (acc', r, line') := by
  induction fuel generalizing x t acc line with
  | zero => omega
  | succ fuel ih =>
    cases x with
    | nil => cases h
    | cons c x =>
      rw [Rule.through, ← closer_prefix_iff] at h
      rw [long]
      split at h
      · next hc =>
        rw [if_pos hc]
        cases h
        exact ⟨acc, line, by simp [Rule.closer]⟩
      · next hc =>
        rw [if_neg hc]
        obtain ⟨⟨t', r'⟩, h, e⟩ := Option.map_eq_some_iff.1 h
        cases e
        simp only [List.length_cons] at hf
        split
        · obtain ⟨u, hu, hb⟩ := dropBreak_eq c x
          have hlen := dropBreak_length c x
          rw [hu] at h
          obtain ⟨t'', h⟩ := through_skip hb h
          exact ih (by omega) h
        · exact ih (by omega) h

theorem longText?_of_through {n : Nat} (h : Rule.through (Rule.closer n) x = some (t, r))
    (line : Nat) : ∃ s line', longText? (List.replicate n '=' ++ '[' :: x) line =
      some (s, r, line') := by
  obtain ⟨u, hu, hb⟩ := skipBreak_eq x
  have h' := h
  rw [hu] at h'
  obtain ⟨t', h'⟩ := through_skip hb h'
  obtain ⟨acc, line', hl⟩ : ∃ acc line', long ((skipBreak x).1.length + 1) n (skipBreak x).1 []
      (line + (skipBreak x).2) = some (acc, r, line') :=
    long_of_through (Nat.lt_succ_self _) h'
  refine ⟨acc.reverse, line', longText?_eq_some.2 ⟨n, ?_, ?_⟩⟩
  · rw [level?_eq, Rule.level?_replicate]
  · rw [Rule.drop_opener, hl, List.reverse_reverse]

theorem step_longComment {n : Nat} (h : Rule.through (Rule.closer n) x = some (t, r)) :
    ∃ line', step '-' ('-' :: (Rule.opener n ++ x)) 0 = .ok (none, r, line') := by
  obtain ⟨s, line', hs⟩ := longText?_of_through h 0
  have hn : level? (List.replicate n '=' ++ '[' :: x) = some n := by
    rw [level?_eq, Rule.level?_replicate]
  refine ⟨line', ?_⟩
  rw [step_comment, Rule.opener_append]
  simp only [stepComment, hn, Option.isSome_some, if_true, hs]

theorem step_longText {n line' : Nat} {s : List Char}
    (h : longText? (List.replicate n '=' ++ '[' :: x) line = some (s, r, line')) :
    step '[' (List.replicate n '=' ++ '[' :: x) line =
      .ok (some (str (bytes (String.ofList s))), r, line') := by
  have hn : level? (List.replicate n '=' ++ '[' :: x) = some n := by
    rw [level?_eq, Rule.level?_replicate]
  rw [step_bracket]
  simp only [stepBracket, hn, Option.isSome_some, if_true, h]

theorem inside_soft {u w : List Char} {e : Bool} (hw : ∀ d ∈ w, Soft d)
    (h : Rule.inside q false (w ++ u) = some e) : Rule.inside q false u = some e := by
  induction w with
  | nil => exact h
  | cons c w ih =>
    rw [List.cons_append, Rule.inside, if_neg (hw c List.mem_cons_self).1] at h
    split at h
    · cases h
    · exact ih (fun d hd => hw d (List.mem_cons_of_mem _ hd)) h

/-- A literal ends at the quote where it ends in a rule. -/
theorem quoted_of_inside {fuel : Nat} {acc b : List UInt8} {u : List Char}
    (hq : q = '"' ∨ q = '\'') (hu : Rule.inside q false u = some false)
    (h : quoted fuel q (u ++ q :: r) acc line = .ok (b, y, line')) : y = r := by
  induction fuel generalizing u acc line with
  | zero => cases h
  | succ fuel ih =>
    have hqb : q ≠ '\\' := by rcases hq with rfl | rfl <;> decide
    cases u with
    | nil =>
      rw [List.nil_append, quoted_plain fuel q q hqb, if_pos rfl] at h
      cases h
      rfl
    | cons c u =>
      by_cases hc : c = '\\'
      · subst hc
        rw [List.cons_append, quoted_escape, bind_eq_ok] at h
        obtain ⟨⟨b', z, n⟩, he, h⟩ := h
        cases u with
        | nil => cases hu
        | cons d u =>
          obtain ⟨c', w, hw, hs⟩ := escape_eq_ok he
          rw [List.cons_append, List.cons_append, List.cons.injEq] at hw
          have hmem : q ∉ w := by
            intro hm
            rcases hq with rfl | rfl
            · exact (hs _ hm).2.1 rfl
            · exact (hs _ hm).2.2 rfl
          obtain ⟨v, rfl, rfl⟩ := Rule.append_eq_append_of_not_mem hmem hw.2.symm
          exact ih (inside_soft hs hu) h
      · rw [Rule.inside, if_neg hc] at hu
        rw [List.cons_append, quoted_plain fuel q c hc] at h
        split at hu
        · cases hu
        · next hn =>
          rw [if_neg (by simp_all)] at h
          split at h
          · cases h
          · exact ih hu h

theorem isNumeral_of_isHexDigit (h : Number.isHexDigit c = true) : Rule.isNumeral c = true := by
  unfold Number.isHexDigit Number.hexDigit? at h
  simp only [Rule.isNumeral, Char.isAlphanum, Char.isAlpha, Char.isUpper, Char.isLower,
    Bool.or_eq_true, Bool.and_eq_true, decide_eq_true_eq]
  split at h
  · next hd => exact .inl (.inr hd)
  split at h
  · next hl =>
    simp only [Bool.and_eq_true, decide_eq_true_eq, Char.le_def] at hl
    exact .inl (.inl (.inr ⟨hl.1, Nat.le_trans hl.2 (by decide)⟩))
  split at h
  · next hu =>
    simp only [Bool.and_eq_true, decide_eq_true_eq, Char.le_def] at hu
    exact .inl (.inl (.inl ⟨hu.1, Nat.le_trans hu.2 (by decide)⟩))
  · cases h

theorem not_isNumeral (hx : Number.isHexDigit c = false) (hdot : c ≠ '.')
    (hi : Text.isIdentStart c = false) : Rule.isNumeral c = false := by
  rw [Bool.eq_false_iff]
  intro hn
  simp only [Rule.isNumeral, Char.isAlphanum, Bool.or_eq_true, decide_eq_true_eq] at hn
  rcases hn with (ha | hd) | rfl
  · simp [Text.isIdentStart, ha] at hi
  · simp [Number.isHexDigit, Number.hexDigit?, hd] at hx
  · exact hdot rfl

theorem number_of_numeral {hex : Bool}
    (hy : ∀ d ∈ (numeral hex x).2.head?, Text.isIdentStart d = false) :
    (Rule.number hex x).2 = (numeral hex x).2 := by
  have htakes {c : Char} (h : (Rule.isMark hex c || Number.isHexDigit c || c = '.') = true) :
      Rule.isNumeral c = true := by
    simp only [Bool.or_eq_true, decide_eq_true_eq] at h
    rcases h with (hm | hx) | rfl
    · exact Rule.isNumeral_of_isMark hm
    · exact isNumeral_of_isHexDigit hx
    · rfl
  have hstops {c : Char} (h : ¬(Rule.isMark hex c || Number.isHexDigit c || c = '.') = true)
      (hi : Text.isIdentStart c = false) : Rule.isNumeral c = false := by
    simp only [Bool.not_eq_true, Bool.or_eq_false_iff, decide_eq_false_iff_not] at h
    exact not_isNumeral h.1.2 h.2 hi
  fun_induction numeral hex x with
  | case1 c s cs mark hm t r e ih =>
    have hm : (Rule.isMark hex c && (s = '+' || s = '-')) = true := hm
    rw [e] at ih
    rw [Rule.number_cons, if_pos hm]
    exact ih hy
  | case2 c s cs mark hm hc t r e ih =>
    have hm : ¬(Rule.isMark hex c && (s = '+' || s = '-')) = true := hm
    rw [Rule.number_cons, if_neg hm, if_pos (htakes hc)]
    rw [e] at ih
    exact ih hy
  | case3 c s cs mark hm hc =>
    rw [Rule.number_stop]
    rintro d ⟨⟩
    exact hstops hc (hy _ rfl)
  | case4 c mark hc => rw [Rule.number_keep (htakes hc) (by simp), Rule.number_stop (by simp)]
  | case5 c mark hc =>
    rw [Rule.number_stop]
    rintro d ⟨⟩
    exact hstops hc (hy _ rfl)
  | case6 => rfl

theorem isHex_eq (x : List Char) : isHex x = Rule.isHex x := by
  unfold isHex Rule.isHex
  rfl

theorem readNumber_eq {n : Number} (hx : Rule.startsNumber x = true)
    (h : readNumber x = .ok (n, y)) : y = (Rule.number (Rule.isHex x) x).2 := by
  obtain ⟨rfl, hy⟩ := readNumber_eq_ok h
  rw [isHex_eq] at hy ⊢
  rw [← number_of_numeral hy]
  cases x with
  | nil => cases hx
  | cons c x =>
    simp only [Rule.startsNumber, Bool.or_eq_true, Bool.and_eq_true, decide_eq_true_eq] at hx
    have hc : c.isDigit = true ∨ c = '.' := hx.imp_right And.left
    have hn : Rule.isNumeral c = true := by
      rcases hc with hc | rfl
      · exact Rule.isNumeral_of_isDigit hc
      · rfl
    rw [Rule.number_keep hn (by simp [Rule.not_isMark hc])]
    split
    · next hhex =>
      -- the letter after the first digit is no mark
      unfold Rule.isHex at hhex ⊢
      split at hhex
      · next s r e =>
        cases e
        simp only [Bool.or_eq_true, decide_eq_true_eq] at hhex
        rcases hhex with rfl | rfl <;>
          rw [Rule.number_keep (by decide) (by simp [Rule.isMark])] <;> rfl
      · cases hhex
    · rfl

/-- Where the longer of two operators comes first, the longest is found. -/
theorem find?_longest {ops : List (List Char)} {p : List Char}
    (ho : ops.Pairwise fun a b => a <+: b → b.length ≤ a.length)
    (h : ops.find? (·.isPrefixOf x) = some p) : ∀ o ∈ ops, o <+: x → o.length ≤ p.length := by
  intro o hm hx
  obtain ⟨hp, as, bs, rfl, has⟩ := List.find?_eq_some_iff_append.1 h
  rcases List.mem_append.1 hm with hm | hm
  · have := has o hm
    simp [List.isPrefixOf_iff_prefix.2 hx] at this
  rcases List.mem_cons.1 hm with rfl | hm
  · exact Nat.le_refl _
  · have hlater := (List.pairwise_cons.1 (List.pairwise_append.1 ho).2.1).1 o hm
    rcases List.prefix_or_prefix_of_prefix (List.isPrefixOf_iff_prefix.1 hp) hx with hpo | hop
    · exact hlater hpo
    · exact hop.length_le

theorem longSigns_subset : ∀ s ∈ longSigns, s ∈ Rule.operators := by decide

theorem operators_pairwise :
    Rule.operators.Pairwise fun a b => a <+: b → b.length ≤ a.length := by decide

theorem longSigns_pairwise : longSigns.Pairwise fun a b => a <+: b → b.length ≤ a.length := by
  decide

theorem sign?_of_operator {w : List Char} (h : Rule.operator c x = (w, r))
    (hw : w ∈ longSigns ∨ w = [c]) :
    stepSign c x line = .ok (some (sign (String.ofList w)), r, line) := by
  unfold Rule.operator at h
  split at h
  · next p hp =>
    cases h
    have hmem := List.mem_of_find?_eq_some hp
    have hpx : w <+: c :: x := by simpa using List.find?_some hp
    have hw : w ∈ longSigns := by
      refine hw.resolve_right ?_
      rintro rfl
      exact absurd (Rule.operators_shape _ hmem).1 (by simp)
    cases hs : sign? (c :: x) with
    | none =>
      have := List.find?_eq_none.1 hs w hw
      simp [List.isPrefixOf_iff_prefix.2 hpx] at this
    | some s =>
      have hsx : s <+: c :: x := by simpa using List.find?_some hs
      have h₁ := find?_longest operators_pairwise hp s
        (longSigns_subset s (List.mem_of_find?_eq_some hs)) hsx
      have h₂ := find?_longest longSigns_pairwise hs w hw hpx
      obtain rfl : s = w := (List.prefix_of_prefix_length_le hsx hpx h₁).eq_of_length_le h₂
      simp [stepSign, hs]
  · next hp =>
    cases h
    have hs : sign? (c :: x) = none := by
      refine List.find?_eq_none.2 fun s hs => ?_
      exact List.find?_eq_none.1 hp s (longSigns_subset s hs)
    unfold stepSign
    rw [hs, String.singleton_eq_ofList]

theorem word?_longSign {w : List Char} (h : w ∈ longSigns) :
    word? (sign (String.ofList w)) = none := by
  have hall : ∀ w ∈ longSigns, word? (sign (String.ofList w)) = none := by decide
  exact hall w h

theorem word?_single (c : Char) : word? (sign (String.ofList [c])) = none := by
  have hall : ∀ s ∈ reserved, 2 ≤ s.toList.length := by decide
  have hc : String.ofList [c] ∉ reserved := by
    intro hm
    have := hall _ hm
    simp at this
  exact if_neg hc

theorem operator_alone {w : List Char} (h : Rule.operator c x = (w, r))
    (hc : ∀ p ∈ Rule.operators, p.head? ≠ some c) : w = [c] ∧ r = x := by
  obtain ⟨u, r', ho, rfl⟩ := Rule.operator_cons c x
  rw [ho] at h
  cases h
  rcases Rule.operator_tail ho with rfl | hm
  · exact ⟨rfl, rfl⟩
  · exact absurd rfl (hc _ hm)

theorem kept_operator {w : List Char} (h : Rule.operator c x = (w, r))
    (hs : Rule.spelling .punct w = w) (hne : w ≠ ['=', '>']) : w ∈ longSigns ∨ w = [c] := by
  obtain ⟨u, r', ho, rfl⟩ := Rule.operator_cons c x
  rw [ho] at h
  cases h
  rcases Rule.operator_tail ho with rfl | hm
  · exact .inr rfl
  · have hall : ∀ p ∈ Rule.operators, Rule.spelling .punct p = p → p ≠ ['=', '>'] →
      p ∈ longSigns := by decide
    exact .inl (hall _ hm hs hne)

/-- An operator is the same sign for both tokenizers, save a vertical tab, which is a blank to the
tokenizer of scripts. -/
theorem step_punct {w : List Char} (h : StartsOperator (c :: x))
    (hw : Rule.operator c x = (w, r)) (hs : Rule.spelling .punct w = w) (hne : w ≠ ['=', '>'])
    (hstep : step c x line = .ok (k, y, line')) : y = r ∧
      (k = none ∧ w = ['\x0b'] ∨
        k = some (sign (String.ofList w)) ∧ word? (sign (String.ofList w)) = none) := by
  have hblank := h.blank c rfl
  have hb : isBreak c = false := by
    rw [Bool.eq_false_iff]
    intro hb
    simp only [isBreak, Bool.or_eq_true, decide_eq_true_eq] at hb
    rcases hb with rfl | rfl <;> exact absurd hblank (by decide)
  rw [step.eq_def, if_neg (by simp [hb])] at hstep
  split at hstep
  · next hsp =>
    -- the vertical tab is a blank to one of the two
    have hc : c = '\x0b' := by
      simp only [Number.isSpace, Bool.or_eq_true, decide_eq_true_eq] at hsp
      rcases hsp with ((((rfl | rfl) | rfl) | rfl) | rfl) | rfl <;>
        first | rfl | exact absurd hblank (by decide)
    subst hc
    cases hstep
    obtain ⟨rfl, rfl⟩ := operator_alone hw (by decide)
    exact ⟨rfl, .inl ⟨rfl, rfl⟩⟩
  have hquote := h.quote c rfl
  rw [if_neg (by simp [h.name c rfl]), startsNumber_cons, if_neg (by simp [h.number]),
    if_neg (by intro hq; simp_all [Rule.isQuote])] at hstep
  split at hstep
  · exact absurd ⟨_, rfl⟩ h.comment
  · have hbr : level? x = none := by
      rw [level?_eq]
      exact h.bracket
    simp only [stepBracket, hbr, Option.isSome_none, Bool.false_eq_true, if_false] at hstep
    split at hstep
    · cases hstep
    · cases hstep
      obtain ⟨rfl, rfl⟩ := operator_alone hw (by decide)
      exact ⟨rfl, .inr ⟨rfl, rfl⟩⟩
  · have hk := kept_operator hw hs hne
    rw [sign?_of_operator hw hk] at hstep
    cases hstep
    refine ⟨rfl, .inr ⟨rfl, ?_⟩⟩
    rcases hk with hk | rfl
    · exact word?_longSign hk
    · exact word?_single c

def spoken (l : Lexeme) : List String :=
  match l.kind, l.text with
  | some .ident, _ => [String.ofList l.lowered]
  | some .punct, ['&', '&'] => ["and"]
  | some .punct, ['|', '|'] => ["or"]
  | some .punct, ['!'] => ["not"]
  | _, _ => []

theorem words_append (ts us : List Token) : words (ts ++ us) = words ts ++ words us :=
  List.filterMap_append

/-- The tokenizer of scripts takes these tokens off a text and leaves the rest. Of two line breaks
that count as one it may leave the second. -/
inductive Cuts : List Char → List Token → List Char → Prop
  | refl (x : List Char) : Cuts x [] x
  | blank {c : Char} {x r : List Char} {ts : List Token}
    (h : isBreak c = true ∨ Number.isSpace c = true) (hs : Cuts x ts r) : Cuts (c :: x) ts r
  | step {c : Char} {x y r : List Char} {t : Option Token} {ts : List Token} {line line' : Nat}
    (h : step c x line = .ok (t, y, line')) (hs : Cuts y ts r) : Cuts (c :: x) (t.toList ++ ts) r

theorem Cuts.trans {ts ts' : List Token} (h : Cuts x ts y) (h' : Cuts y ts' r) :
    Cuts x (ts ++ ts') r := by
  induction h with
  | refl => exact h'
  | blank hb _ ih => exact .blank hb (ih h')
  | step hs _ ih =>
    rw [List.append_assoc]
    exact .step hs (ih h')

/-- What the tokenizer of scripts finds in front of the rest of a text. -/
def Yields (x : List Char) (ws : List String) (r : List Char) : Prop :=
  ∀ us, Scans x us → (∀ t ∈ us, Chunk.Known t) →
    ∃ vs, Scans r vs ∧ words us = ws ++ words vs ∧ ∃ ks, us = ks ++ vs ∧ Cuts x ks r

theorem Yields.trans {ws ws' : List String} (h : Yields x ws y) (h' : Yields y ws' r) :
    Yields x (ws ++ ws') r := by
  intro us hus hk
  obtain ⟨vs, hvs, hw, ks, rfl, hks⟩ := h us hus hk
  obtain ⟨vs', hvs', hw', ks', rfl, hks'⟩ := h' vs hvs fun t ht => hk t (List.mem_append_right _ ht)
  exact ⟨vs', hvs', by rw [hw, hw', List.append_assoc], ks ++ ks', (List.append_assoc ..).symm,
    hks.trans hks'⟩

theorem yields_blank (h : isBreak c = true ∨ Number.isSpace c = true) : Yields (c :: r) [] r := by
  intro us hus _
  exact ⟨us, (scans_blank h us).1 hus, rfl, [], rfl, .blank h (.refl r)⟩

theorem yields_step {ws : List String}
    (h : ∀ k y line', step c x 0 = .ok (k, y, line') → (∀ t ∈ k, Chunk.Known t) →
      y = r ∧ words k.toList = ws) : Yields (c :: x) ws r := by
  intro us hus hk
  cases hus with
  | @step _ _ y line line' t vs hstep hvs =>
    obtain ⟨line'', hstep⟩ := (stable_step c x).other 0 hstep
    have hkt : ∀ u ∈ t, Chunk.Known u := fun u hu =>
      hk u (List.mem_append_left _ (Option.mem_toList.2 hu))
    obtain ⟨rfl, hw⟩ := h t y line'' hstep hkt
    refine ⟨vs, hvs, by rw [words_append, hw], t.toList, rfl, ?_⟩
    rw [← List.append_nil t.toList]
    exact .step hstep (.refl y)

theorem isSpace_of_isAsciiBlank (h : Text.isAsciiBlank c = true) : Number.isSpace c = true := by
  simp only [Text.isAsciiBlank, Bool.or_eq_true, decide_eq_true_eq] at h
  rcases h with (((rfl | rfl) | rfl) | rfl) | rfl <;> rfl

theorem spoken_punct {w : List Char} (h : Rule.spelling .punct w = w) :
    spoken ⟨some .punct, w⟩ = [] := by
  have hand : w ≠ ['&', '&'] := by
    rintro rfl
    exact absurd h (by decide)
  have hor : w ≠ ['|', '|'] := by
    rintro rfl
    exact absurd h (by decide)
  have hnot : w ≠ ['!'] := by
    rintro rfl
    exact absurd h (by decide)
  simp [spoken, hand, hor, hnot]

theorem yields_quoted (hq : Rule.isQuote q = true) (h : Rule.quoted q x = some (t, r)) :
    Yields (q :: x) [] r := by
  refine yields_step fun k y line' hstep hk => ?_
  by_cases hb : q = '\x60'
  · subst hb
    cases hstep
    exact absurd (hk _ rfl) (by decide : String.singleton '\x60' ∉ Chunk.signs)
  · have hq' : q = '"' ∨ q = '\'' := ((Rule.isQuote_iff_of_ne hb).1 hq).symm
    obtain ⟨u, rfl, rfl, hu⟩ := (Rule.quoted_eq_some hq).1 h
    rw [step_quoted hq'] at hstep
    obtain ⟨⟨b, z, l⟩, hs, e⟩ := map_eq_ok.1 hstep
    cases e
    exact ⟨quoted_of_inside hq' hu hs, rfl⟩

theorem yields_piece (h : Piece x l r) (hl : l.lowered = l.text) (hc : l.isLineComment = false)
    (hne : l ≠ ⟨some .punct, ['=', '>']⟩) : Yields x (spoken l) r := by
  cases h with
  | blank h => exact yields_blank (.inr (isSpace_of_isAsciiBlank h))
  | @longComment n x t r h =>
    change Yields ('-' :: '-' :: (Rule.opener n ++ x)) [] r
    refine yields_step fun k y line' hstep _ => ?_
    obtain ⟨l', hs⟩ := step_longComment h
    rw [hs] at hstep
    cases hstep
    exact ⟨rfl, rfl⟩
  | @lineComment x h =>
    simp [Lexeme.isLineComment, Rule.bracket?_of_line, h] at hc
  | @name c x h =>
    refine yields_step fun k y line' hstep _ => ?_
    rw [step_name h] at hstep
    cases hstep
    refine ⟨rfl, ?_⟩
    simp only [spoken, hl]
    simp [words, word?_word]
  | @number x h =>
    cases x with
    | nil => cases h
    | cons c x =>
      refine yields_step fun k y line' hstep _ => ?_
      rw [step_number h] at hstep
      obtain ⟨⟨n, z⟩, hn, e⟩ := map_eq_ok.1 hstep
      cases e
      exact ⟨readNumber_eq h hn, rfl⟩
  | quoted hq h => exact yields_quoted hq h
  | @bracket n x t r h =>
    rw [Rule.opener_append]
    refine yields_step fun k y line' hstep _ => ?_
    obtain ⟨s, l', hs⟩ := longText?_of_through h 0
    rw [step_longText hs] at hstep
    cases hstep
    exact ⟨rfl, rfl⟩
  | @punct c x h =>
    refine yields_step fun k y line' hstep _ => ?_
    have hne' : (Rule.operator c x).1 ≠ ['=', '>'] := fun he => hne (by rw [he])
    obtain ⟨rfl, hw⟩ := step_punct h rfl hl hne' hstep
    refine ⟨rfl, ?_⟩
    rw [spoken_punct hl]
    rcases hw with ⟨rfl, -⟩ | ⟨rfl, hw⟩
    · rfl
    · simp [words, hw]

theorem yields_word {v z : List Char} (hc : Text.isIdentStart c = true)
    (hv : v.all Text.isIdentRest = true) (hz : ∀ d ∈ z.head?, Text.isIdentRest d = false) :
    Yields (c :: (v ++ z)) [String.ofList (c :: v)] z := by
  refine yields_step fun k y line' hstep _ => ?_
  have hv' := List.all_eq_true.1 hv
  rw [step_name hc, List.takeWhile_append_of_pos hv', List.dropWhile_append_of_pos hv',
    Rule.takeWhile_head hz, Rule.dropWhile_head hz, List.append_nil] at hstep
  cases hstep
  exact ⟨rfl, by simp [words, word?_word]⟩

theorem yields_spaced {ws : List String} {z : List Char} (h : Yields x ws (' ' :: z)) :
    Yields (' ' :: x) ws z := by
  have hblank (y : List Char) : Yields (' ' :: y) [] y := yields_blank (.inr rfl)
  have := (hblank _).trans (h.trans (hblank z))
  rwa [List.append_nil] at this

theorem yields_unequal (z : List Char) : Yields ('~' :: '=' :: ' ' :: z) [] (' ' :: z) :=
  yields_step fun _ _ _ hstep _ => by
    cases hstep
    exact ⟨rfl, rfl⟩

theorem yields_equal (z : List Char) : Yields ('=' :: '=' :: ' ' :: z) [] (' ' :: z) :=
  yields_step fun _ _ _ hstep _ => by
    cases hstep
    exact ⟨rfl, rfl⟩

/-- A lowered piece yields its words and leaves what follows it. -/
theorem yields_lowered {z : List Char} (h : Piece x l r) (hz : Rule.Seam r z)
    (hb : l.text = ['['] → Rule.bracket? ('[' :: z) = none) (hc : l.isLineComment = false)
    (hne : l ≠ ⟨some .punct, ['=', '>']⟩) : Yields (l.lowered ++ z) (spoken l) z := by
  by_cases hl : l.lowered = l.text
  · rw [hl]
    exact yields_piece (h.seam hz (by simp [hc]) hb) hl hc hne
  · have hspace : ∀ d ∈ (' ' :: z).head?, Text.isIdentRest d = false := by
      rintro d ⟨⟩
      rfl
    have hname {t : List Char} (h : Piece x ⟨some .ident, t⟩ r) :
        ∀ d ∈ z.head?, Text.isIdentRest d = false := by
      cases h
      exact hz.not_isIdentRest (Rule.head_dropWhile _)
    obtain ⟨kind, text⟩ := l
    cases kind with
    | none => exact absurd rfl hl
    | some k =>
      simp only [Lexeme.lowered] at hl ⊢
      unfold Rule.spelling at hl ⊢
      split at hl
      · exact yields_spaced (yields_word (c := 'a') (v := ['n', 'd']) rfl rfl hspace)
      · exact yields_spaced (yields_word (c := 'o') (v := ['r']) rfl rfl hspace)
      · exact yields_spaced (yields_unequal z)
      · exact yields_spaced (yields_unequal z)
      · exact yields_spaced (yields_equal z)
      · exact yields_spaced (yields_word (c := 'n') (v := ['o', 't']) rfl rfl hspace)
      · exact yields_word (c := 'n') (v := ['i', 'l']) rfl rfl (hname h)
      · exact yields_word (c := 'n') (v := ['i', 'l']) rfl rfl (hname h)
      · exact absurd rfl hl

end Rulebook.Script.Token
