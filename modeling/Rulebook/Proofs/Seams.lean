import Rulebook.Proofs.Lexing

namespace Rulebook.Rule

variable {c d q : Char} {x y z t r : List Char} {l : Lexeme} {ls ms : List Lexeme}

def Seam (r z : List Char) : Prop :=
  ∀ d ∈ z.head?, d ∈ r.head? ∨ d = ' ' ∨ d = '\n' ∨ d = 'n' ∧ 'u' ∈ r.head?

theorem Seam.refl (r : List Char) : Seam r r := fun _ hd => .inl hd

theorem Seam.of_head (h : c ∈ r.head?) : Seam r (c :: z) := by
  rintro d hd
  cases hd
  exact .inl h

/-- What does not begin `r` does not begin `z`, but for blanks and an `n`. -/
theorem Seam.head (h : Seam r z) (hd : d ∈ z.head?)
    (hne : d ≠ ' ' ∧ d ≠ '\n' ∧ d ≠ 'n') : d ∈ r.head? := by
  rcases h d hd with h | h | h | ⟨h, -⟩
  · exact h
  · exact absurd h hne.1
  · exact absurd h hne.2.1
  · exact absurd h hne.2.2

theorem Seam.not_isIdentRest (h : Seam r z) (hr : ∀ d ∈ r.head?, Text.isIdentRest d = false) :
    ∀ d ∈ z.head?, Text.isIdentRest d = false := by
  intro d hd
  rcases h d hd with h | rfl | rfl | ⟨-, h⟩
  · exact hr d h
  · decide
  · decide
  · exact absurd (hr _ h) (by decide)

theorem takeWhile_head {p : Char → Bool} (hz : ∀ d ∈ z.head?, p d = false) :
    z.takeWhile p = [] := by
  cases z with
  | nil => rfl
  | cons d z => simp [hz d rfl]

theorem dropWhile_head {p : Char → Bool} (hz : ∀ d ∈ z.head?, p d = false) :
    z.dropWhile p = z := by
  cases z with
  | nil => rfl
  | cons d z => simp [hz d rfl]

theorem head_dropWhile {p : Char → Bool} (x : List Char) :
    ∀ d ∈ (x.dropWhile p).head?, p d = false := by
  intro d hd
  have := List.head?_dropWhile_not p x
  simp_all

theorem takeWhile_seam {p : Char → Bool} (x : List Char) (hz : ∀ d ∈ z.head?, p d = false) :
    (x.takeWhile p ++ z).takeWhile p = x.takeWhile p := by
  rw [List.takeWhile_append_of_pos (List.all_eq_true.1 List.all_takeWhile), takeWhile_head hz,
    List.append_nil]

theorem dropWhile_seam {p : Char → Bool} (x : List Char) (hz : ∀ d ∈ z.head?, p d = false) :
    (x.takeWhile p ++ z).dropWhile p = z := by
  rw [List.dropWhile_append_of_pos (List.all_eq_true.1 List.all_takeWhile), dropWhile_head hz]

theorem quoted_seam (hq : isQuote q = true) (h : quoted q x = some (t, r)) (z : List Char) :
    quoted q (t ++ z) = some (t, z) := by
  obtain ⟨u, rfl, -, hu⟩ := (quoted_eq_some hq).1 h
  exact (quoted_eq_some hq).2 ⟨u, rfl, by simp, hu⟩

theorem append_eq_append_of_not_mem {u w : List Char} (hw : q ∉ w)
    (h : w ++ z = u ++ q :: r) : ∃ v, u = w ++ v ∧ z = v ++ q :: r := by
  rcases List.append_eq_append_iff.1 h with ⟨v, hu, hz⟩ | ⟨v, rfl, hz⟩
  · exact ⟨v, hu, hz⟩
  · cases v with
    | nil => exact ⟨[], by simp, by simpa using hz.symm⟩
    | cons d v =>
      cases hz
      exact absurd (by simp) hw

theorem isPrefixOf_append {p : List Char} (h : p.length ≤ t.length) :
    p.isPrefixOf (t ++ r) = p.isPrefixOf t := by
  rw [Bool.eq_iff_iff, List.isPrefixOf_iff_prefix, List.isPrefixOf_iff_prefix]
  constructor
  · intro hp
    exact List.prefix_of_prefix_length_le hp (List.prefix_append t r) h
  · intro hp
    exact hp.trans (List.prefix_append t r)

theorem through_eq_some {close : List Char} (h : through close x = some (t, r)) :
    ∃ u, t = u ++ close := by
  fun_induction through close x generalizing t with
  | case1 => cases h
  | case2 c x hp =>
    cases h
    exact ⟨[], rfl⟩
  | case3 c x hp ih =>
    obtain ⟨⟨t', r'⟩, h', e⟩ := Option.map_eq_some_iff.1 h
    cases e
    obtain ⟨u, rfl⟩ := ih h'
    exact ⟨c :: u, rfl⟩

/-- A long bracket ends at the same place whatever follows it. -/
theorem through_seam {close : List Char} (hne : close ≠ []) (h : through close x = some (t, r))
    (z : List Char) : through close (t ++ z) = some (t, z) := by
  fun_induction through close x generalizing t with
  | case1 => cases h
  | case2 c x hp =>
    cases h
    cases close with
    | nil => exact absurd rfl hne
    | cons d close =>
      rw [List.cons_append, through, if_pos]
      · simp
      · rw [List.isPrefixOf_iff_prefix]
        exact List.prefix_append (d :: close) z
  | case3 c x hp ih =>
    obtain ⟨⟨t', r'⟩, h', e⟩ := Option.map_eq_some_iff.1 h
    cases e
    obtain ⟨u, rfl⟩ := through_eq_some h'
    have hx : c :: x = (c :: (u ++ close)) ++ r := by
      rw [← through_append h']
      rfl
    have hl : close.length ≤ (c :: (u ++ close)).length := by simp; omega
    rw [hx, isPrefixOf_append hl, ← isPrefixOf_append (r := z) hl] at hp
    rw [List.cons_append] at hp ⊢
    rw [through, if_neg hp, ih h']
    rfl

theorem closer_ne_nil (n : Nat) : closer n ≠ [] := by simp [closer]

theorem line_cases (x : List Char) :
    ('\n' ∉ x ∧ line x = (x, [])) ∨
      ∃ u r, '\n' ∉ u ∧ x = u ++ '\n' :: r ∧ line x = (u ++ ['\n'], r) := by
  induction x with
  | nil => exact .inl ⟨by simp, rfl⟩
  | cons c x ih =>
    by_cases hc : c = '\n'
    · exact .inr ⟨[], x, by simp, by simp [hc], by simp [line, hc]⟩
    · have hc' : '\n' ≠ c := fun h => hc h.symm
      rcases ih with ⟨hx, hl⟩ | ⟨u, r, hu, rfl, hl⟩
      · exact .inl ⟨by simp [hc', hx], by simp [line, hc, hl]⟩
      · exact .inr ⟨c :: u, r, by simp [hc', hu], rfl, by simp [line, hc, hl]⟩

theorem line_break {u : List Char} (hu : '\n' ∉ u) (r : List Char) :
    line (u ++ '\n' :: r) = (u ++ ['\n'], r) := by
  induction u with
  | nil => simp [line]
  | cons c u ih =>
    simp only [List.mem_cons, not_or] at hu
    have hc : ¬c = '\n' := fun h => hu.1 h.symm
    simp [line, hc, ih hu.2]

theorem not_mem_of_line (h : (line z).1 = x ++ c :: y) : '\n' ∉ x := by
  induction z generalizing x with
  | nil => simp [line] at h
  | cons d z ih =>
    cases x with
    | nil => exact List.not_mem_nil
    | cons e x =>
      rw [line] at h
      split at h
      · simp at h
      · next hd =>
        obtain ⟨rfl, hx⟩ := List.cons.inj h
        exact List.not_mem_cons_of_ne_of_not_mem (Ne.symm hd) (ih hx)

theorem level?_cons (c : Char) (x : List Char) :
    level? (c :: x) =
      if c = '=' then (level? x).map (· + 1) else if c = '[' then some 0 else none := by
  by_cases h₁ : c = '='
  · simp [h₁, level?]
  · by_cases h₂ : c = '['
    · simp [h₂, level?]
    · simp [level?, h₁, h₂]

theorem level?_line (u z : List Char) : level? (u ++ '\n' :: z) = level? u := by
  induction u with
  | nil => rfl
  | cons c u ih => rw [List.cons_append, level?_cons, level?_cons, ih]

theorem bracket?_line (u z : List Char) : bracket? (u ++ '\n' :: z) = bracket? u := by
  cases u with
  | nil => rfl
  | cons c u =>
    by_cases hc : c = '['
    · subst hc
      exact level?_line u z
    · simp [bracket?, hc]

theorem bracket?_of_line (x : List Char) : bracket? (line x).1 = bracket? x := by
  rcases line_cases x with ⟨-, hl⟩ | ⟨u, r, -, rfl, hl⟩
  · rw [hl]
  · rw [hl, bracket?_line, bracket?_line]

theorem level?_append (x y z : List Char) (h : ∀ n, level? y = some n → level? z = some n) :
    ∀ n, level? (x ++ y) = some n → level? (x ++ z) = some n := by
  induction x with
  | nil => exact h
  | cons c x ih =>
    intro n hn
    rw [List.cons_append, level?_cons] at hn ⊢
    split at hn
    · next hc =>
      rw [if_pos hc]
      obtain ⟨m, hm, rfl⟩ := Option.map_eq_some_iff.1 hn
      simp [ih m hm]
    · next hc => rw [if_neg hc, hn]

def isNumeral (c : Char) : Bool := c.isAlphanum || c = '.'

theorem number_cons (hex : Bool) (c s : Char) (x : List Char) :
    number hex (c :: s :: x) =
      if isMark hex c && (s = '+' || s = '-') then
        (c :: s :: (number hex x).1, (number hex x).2)
      else if isNumeral c then (c :: (number hex (s :: x)).1, (number hex (s :: x)).2)
      else ([], c :: s :: x) := rfl

theorem isMark_cases {hex : Bool} (h : isMark hex c = true) : c ∈ ['p', 'P', 'e', 'E'] := by
  unfold isMark at h
  split at h
  · have : c = 'p' ∨ c = 'P' := by simpa using h
    rcases this with rfl | rfl <;> decide
  · have : c = 'e' ∨ c = 'E' := by simpa using h
    rcases this with rfl | rfl <;> decide

theorem isNumeral_of_isMark {hex : Bool} (h : isMark hex c = true) : isNumeral c = true := by
  have hall : ∀ d ∈ ['p', 'P', 'e', 'E'], isNumeral d = true := List.all_eq_true.1 (by decide)
  exact hall c (isMark_cases h)

theorem number_stop {hex : Bool} (hz : ∀ d ∈ z.head?, isNumeral d = false) :
    number hex z = ([], z) := by
  match z with
  | [] => rfl
  | [c] => simp_all [number, isNumeral]
  | c :: s :: z =>
    have hc := hz c rfl
    have hm : isMark hex c = false := by
      rw [Bool.eq_false_iff]
      intro h
      rw [isNumeral_of_isMark h] at hc
      cases hc
    simp [number_cons, hm, hc]

theorem number_rest (hex : Bool) (x : List Char) :
    ∀ d ∈ (number hex x).2.head?, isNumeral d = false := by
  fun_induction number hex x with
  | case1 => simp_all
  | case2 => simp_all
  | case3 c s cs hm hc => simp_all [isNumeral]
  | case4 => simp
  | case5 c hc => simp_all [isNumeral]
  | case6 => simp

theorem mem_number {hex : Bool} (hc : c ∈ (number hex x).1) :
    isNumeral c = true ∨ c = '+' ∨ c = '-' := by
  fun_induction number hex x with
  | case1 d s cs hm t r heq ih =>
    simp only [Bool.and_eq_true, Bool.or_eq_true, decide_eq_true_eq] at hm
    rcases List.mem_cons.1 hc with rfl | hc
    · exact .inl (isNumeral_of_isMark hm.1)
    · rcases List.mem_cons.1 hc with rfl | hc
      · exact .inr hm.2
      · exact ih (by rwa [heq])
  | case2 d s cs hm hd t r heq ih =>
    rcases List.mem_cons.1 hc with rfl | hc
    · exact .inl hd
    · exact ih (by rwa [heq])
  | case4 d hd =>
    obtain rfl := List.mem_singleton.1 hc
    exact .inl hd
  | case3 | case5 | case6 => cases hc

theorem Seam.not_isNumeral (h : Seam r z) (hr : ∀ d ∈ r.head?, isNumeral d = false) :
    ∀ d ∈ z.head?, isNumeral d = false := by
  intro d hd
  rcases h d hd with h | rfl | rfl | ⟨-, h⟩
  · exact hr d h
  · decide
  · decide
  · exact absurd (hr _ h) (by decide)

theorem number_keep {hex : Bool} (hc : isNumeral c = true)
    (hs : isMark hex c = true → ∀ d ∈ x.head?, d ≠ '+' ∧ d ≠ '-') :
    number hex (c :: x) = (c :: (number hex x).1, (number hex x).2) := by
  cases x with
  | nil => simp_all [number, isNumeral]
  | cons d x =>
    rw [number_cons, if_neg, if_pos hc]
    intro h
    simp only [Bool.and_eq_true, Bool.or_eq_true, decide_eq_true_eq] at h
    have := hs h.1 d rfl
    rcases h.2 with h | h
    · exact this.1 h
    · exact this.2 h

theorem number_before {hex : Bool} (h : number hex x = (t, r))
    (hr : ∀ d ∈ z.head?, isNumeral d = false)
    (hz : ∀ d ∈ z.head?, d = '+' ∨ d = '-' → d ∈ r.head?) : number hex (t ++ z) = (t, z) := by
  fun_induction number hex x generalizing t with
  | case1 c s cs hm t' r' heq ih =>
    cases h
    rw [List.cons_append, List.cons_append, number_cons, if_pos hm, ih heq]
  | case2 c s cs hm hc t' r' heq ih =>
    cases h
    have hn := ih heq
    have hx : t' ++ r = s :: cs := by simpa [heq] using number_append hex (s :: cs)
    have hs : isMark hex c = true → s ≠ '+' ∧ s ≠ '-' := by simp_all
    -- a sign stands before `z` only where one stood before `r`
    have hd (hc : isMark hex c = true) : ∀ d ∈ (t' ++ z).head?, d ≠ '+' ∧ d ≠ '-' := by
      intro d hd
      cases t' with
      | nil =>
        obtain rfl : r = s :: cs := hx
        constructor
        · rintro rfl
          cases hz _ hd (.inl rfl)
          exact (hs hc).1 rfl
        · rintro rfl
          cases hz _ hd (.inr rfl)
          exact (hs hc).2 rfl
      | cons =>
        cases hd
        cases hx
        exact hs hc
    rw [List.cons_append, number_keep hc hd, hn]
  | case3 c s cs hm hc =>
    cases h
    exact number_stop hr
  | case4 c hc =>
    cases h
    rw [List.singleton_append, number_keep hc, number_stop hr]
    intro _ d hd
    constructor
    · rintro rfl
      cases hz _ hd (.inl rfl)
    · rintro rfl
      cases hz _ hd (.inr rfl)
  | case5 c hc =>
    cases h
    exact number_stop hr
  | case6 =>
    cases h
    exact number_stop hr

def goesOn (c : Char) : Bool := c ∈ ['.', '=', '&', '|', '/', ':', '>', '<']

theorem number_head {hex : Bool} (h : number hex x = (t, r))
    (hz : ∀ d ∈ z.head?, isNumeral d = false)
    (hd : isNumeral d = true) : d ∈ (t ++ z).head? ↔ d ∈ x.head? := by
  have hr : ∀ d ∈ r.head?, isNumeral d = false := by simpa [h] using number_rest hex x
  have hx : t ++ r = x := by simpa [h] using number_append hex x
  subst hx
  cases t with
  | cons => rfl
  | nil =>
    constructor
    · intro hm
      rw [hz d hm] at hd
      cases hd
    · intro hm
      rw [hr d hm] at hd
      cases hd

theorem isHex_zero (x : List Char) :
    isHex ('0' :: x) = true ↔ 'x' ∈ x.head? ∨ 'X' ∈ x.head? := by
  cases x <;> simp [isHex]

theorem isHex_of_ne (h : c ≠ '0') (x : List Char) : isHex (c :: x) = false := by
  unfold isHex
  split
  · next heq => simp_all
  · rfl

theorem startsDigit_iff : startsDigit x = true ↔ ∃ d ∈ x.head?, d.isDigit = true := by
  cases x <;> simp [startsDigit]

theorem isNumeral_of_isDigit (h : c.isDigit = true) : isNumeral c = true := by
  simp [isNumeral, Char.isAlphanum, h]

theorem not_isMark {hex : Bool} (h : c.isDigit = true ∨ c = '.') : isMark hex c = false := by
  rw [Bool.eq_false_iff]
  intro hm
  have hall : ∀ d ∈ ['p', 'P', 'e', 'E'], (!(d.isDigit || d = '.')) = true :=
    List.all_eq_true.1 (by decide)
  have := hall c (isMark_cases hm)
  simp_all

theorem number_piece_before (h : startsNumber x = true) (hn : number (isHex x) x = (t, r))
    (hz : ∀ d ∈ z.head?, isNumeral d = false) :
    startsNumber (t ++ z) = true ∧ isHex (t ++ z) = isHex x := by
  cases x with
  | nil => cases h
  | cons c x =>
    simp only [startsNumber, Bool.or_eq_true, Bool.and_eq_true, decide_eq_true_eq] at h
    have hc : c.isDigit = true ∨ c = '.' := h.imp_right And.left
    have hk : number (isHex (c :: x)) (c :: x) =
        (c :: (number (isHex (c :: x)) x).1, (number (isHex (c :: x)) x).2) := number_keep
      (by rcases hc with hc | rfl; exact isNumeral_of_isDigit hc; rfl)
      (by simp [not_isMark hc])
    cases hn' : number (isHex (c :: x)) x with
    | mk t' r' =>
      rw [hk, hn'] at hn
      cases hn
      have hh (d : Char) (hd : isNumeral d = true) := number_head (d := d) hn' hz hd
      constructor
      · simp only [List.cons_append, startsNumber, Bool.or_eq_true, Bool.and_eq_true,
          decide_eq_true_eq]
        refine h.imp_right fun hdot => ⟨hdot.1, ?_⟩
        obtain ⟨d, hd, hdig⟩ := startsDigit_iff.1 hdot.2
        exact startsDigit_iff.2 ⟨d, (hh d (isNumeral_of_isDigit hdig)).2 hd, hdig⟩
      · rw [List.cons_append]
        by_cases h0 : c = '0'
        · subst h0
          rw [Bool.eq_iff_iff, isHex_zero, isHex_zero, hh 'x' (by decide), hh 'X' (by decide)]
        · rw [isHex_of_ne h0, isHex_of_ne h0]

theorem operators_shape : ∀ p ∈ operators,
    2 ≤ p.length ∧ p.length ≤ 3 ∧ p.take 2 ∈ operators ∧ ∀ d ∈ p.tail, goesOn d = true := by
  have hall : operators.all (fun p => decide (2 ≤ p.length ∧ p.length ≤ 3 ∧ p.take 2 ∈ operators) &&
      p.tail.all goesOn) = true := by decide
  intro p hp
  have := List.all_eq_true.1 hall p hp
  rw [Bool.and_eq_true, decide_eq_true_eq, List.all_eq_true] at this
  exact ⟨this.1.1, this.1.2.1, this.1.2.2, this.2⟩

theorem operator_before {p : List Char} (hp : p ∈ operators)
    (hz : ∀ d ∈ z.head?, goesOn d = true → d ∈ r.head?) (h : p <+: c :: (y ++ z)) :
    p <+: c :: (y ++ r) ∨ y = [] ∧ ∃ o ∈ operators, o <+: c :: r := by
  obtain ⟨h₂, h₃, ht, hg⟩ := operators_shape p hp
  by_cases hl : p.length ≤ (c :: y).length
  · have := List.prefix_of_prefix_length_le h (List.prefix_append (c :: y) z) hl
    exact .inl (this.trans (List.prefix_append (c :: y) r))
  · obtain ⟨u, rfl⟩ := List.prefix_of_prefix_length_le (List.prefix_append (c :: y) z) h
      (Nat.le_of_not_le hl)
    cases u with
    | nil => simp at hl
    | cons d u =>
      obtain ⟨v, hv⟩ := h
      have hz' : z = d :: (u ++ v) := by simpa using hv.symm
      have hd : d ∈ r.head? := hz d (by simp [hz']) (hg d (by simp))
      obtain ⟨r', rfl⟩ : ∃ r', r = d :: r' := List.head?_eq_some_iff.1 hd
      cases u with
      | nil => exact .inl ⟨r', by simp⟩
      | cons e u =>
        have hy : y = [] := by
          simp only [List.length_append, List.length_cons] at h₃
          exact List.eq_nil_of_length_eq_zero (by omega)
        subst hy
        exact .inr ⟨rfl, [c, d], by simpa using ht, r', rfl⟩

theorem operator_keep {y : List Char} (h : operator c (y ++ r) = (c :: y, r))
    (hz : ∀ d ∈ z.head?, goesOn d = true → d ∈ r.head?) : operator c (y ++ z) = (c :: y, z) := by
  cases hf : operators.find? (·.isPrefixOf (c :: (y ++ r))) with
  | none =>
    have hn : operators.find? (·.isPrefixOf (c :: (y ++ z))) = none := by
      rw [List.find?_eq_none] at hf ⊢
      intro p hp hx
      rcases operator_before hp hz (List.isPrefixOf_iff_prefix.1 hx) with h | ⟨rfl, o, ho, h⟩
      · exact hf p hp (List.isPrefixOf_iff_prefix.2 h)
      · exact hf o ho (List.isPrefixOf_iff_prefix.2 h)
    simp only [operator, hf, Prod.mk.injEq, List.cons.injEq] at h
    obtain rfl : y = [] := h.1.2.symm
    unfold operator
    rw [hn]
    rfl
  | some p =>
    simp only [operator, hf, Prod.mk.injEq] at h
    obtain rfl := h.1
    obtain ⟨-, as, bs, hs, ha⟩ := List.find?_eq_some_iff_append.1 hf
    have hl := (operators_shape _ (List.mem_of_find?_eq_some hf)).1
    have hn : operators.find? (·.isPrefixOf (c :: (y ++ z))) = some (c :: y) := by
      refine List.find?_eq_some_iff_append.2 ⟨?_, as, bs, hs, ?_⟩
      · exact List.isPrefixOf_iff_prefix.2 (List.prefix_append (c :: y) z)
      · intro p hp
        rw [Bool.not_eq_true', Bool.eq_false_iff]
        intro hx
        have hmem : p ∈ operators := by
          rw [hs]
          exact List.mem_append_left _ hp
        rcases operator_before hmem hz (List.isPrefixOf_iff_prefix.1 hx) with h | ⟨rfl, -⟩
        · have := ha p hp
          simp [List.isPrefixOf_iff_prefix.2 h] at this
        · simp at hl
    unfold operator
    rw [hn]
    simp

theorem operator_cons (c : Char) (x : List Char) :
    ∃ y r, operator c x = (c :: y, r) ∧ x = y ++ r := by
  have h := operator_append c x
  cases hp : (operator c x).1 with
  | nil => exact absurd hp (operator_ne_nil c x)
  | cons d y =>
    rw [hp, List.cons_append, List.cons.injEq] at h
    obtain ⟨rfl, hx⟩ := h
    exact ⟨y, _, Prod.ext hp rfl, hx.symm⟩

theorem operator_tail {y : List Char} (h : operator c x = (c :: y, r)) :
    y = [] ∨ c :: y ∈ operators := by
  unfold operator at h
  split at h
  · next p hp =>
    cases h
    exact .inr (List.mem_of_find?_eq_some hp)
  · cases h
    exact .inl rfl

/-- In front of `z` the piece ends as it did in front of `r`. -/
structure Ends (l : Lexeme) (r z : List Char) : Prop where
  name : l.kind = some .ident → ∀ d ∈ z.head?, Text.isIdentRest d = false
  number : l.kind = some .number →
    ∀ d ∈ z.head?, isNumeral d = false ∧ (d = '+' ∨ d = '-' → d ∈ r.head?)
  punct : l.kind = some .punct → ∀ d ∈ z.head?,
    goesOn d = true ∨ d = '-' ∨ d.isDigit = true ∧ l.text = ['.'] → d ∈ r.head?

theorem StartsOperator.before {y : List Char} (h : StartsOperator (c :: (y ++ r)))
    (ho : operator c (y ++ r) = (c :: y, r)) (hz : Ends ⟨some .punct, c :: y⟩ r z)
    (hb : c :: y = ['['] → bracket? ('[' :: z) = none) : StartsOperator (c :: (y ++ z)) := by
  rcases operator_tail ho with rfl | ho
  · refine ⟨h.blank, h.name, ?_, h.quote, ?_, ?_⟩
    · have hn := h.number
      simp only [startsNumber, List.nil_append, Bool.or_eq_false_iff, Bool.and_eq_false_imp,
        decide_eq_true_eq] at hn ⊢
      refine ⟨hn.1, fun hc => Bool.eq_false_iff.2 fun hs => ?_⟩
      obtain ⟨d, hd, hdig⟩ := startsDigit_iff.1 hs
      have hdr : d ∈ r.head? := hz.punct rfl d hd (.inr (.inr ⟨hdig, by rw [hc]⟩))
      have := startsDigit_iff.2 ⟨d, hdr, hdig⟩
      rw [hn.2 hc] at this
      cases this
    · by_cases hc : c = '['
      · subst hc
        exact hb rfl
      · simp [bracket?, hc]
    · rintro ⟨w, hw⟩
      simp only [List.cons_append, List.nil_append, List.cons.injEq] at hw
      obtain ⟨rfl, rfl⟩ := hw
      have hdr : '-' ∈ r.head? := hz.punct rfl '-' rfl (.inr (.inl rfl))
      obtain ⟨v, rfl⟩ := List.head?_eq_some_iff.1 hdr
      exact h.comment ⟨v, rfl⟩
  · have hall : ∀ p ∈ operators, p.head? ≠ some '[' ∧ p.head? ≠ some '-' ∧ p.tail ≠ [] := by
      decide
    obtain ⟨hbr, hdash, hne⟩ := hall _ ho
    cases y with
    | nil => exact absurd rfl hne
    | cons e y =>
      have hn : startsNumber (c :: (e :: y ++ z)) = startsNumber (c :: (e :: y ++ r)) := rfl
      refine ⟨h.blank, h.name, hn ▸ h.number, h.quote, ?_, ?_⟩
      · have hc : c ≠ '[' := fun hc => hbr (by rw [hc]; rfl)
        simp [bracket?, hc]
      · rintro ⟨w, hw⟩
        simp only [List.cons_append, List.cons.injEq] at hw
        exact hdash (by rw [← hw.1]; rfl)

/-- A piece stays a piece in front of another text. A comment at the end of a text stays there,
and a bracket must not become a long one. -/
theorem Piece.before (h : Piece x l r) (hz : Ends l r z)
    (hend : l.isLineComment = true → r = [] → z = [])
    (hb : l.text = ['['] → bracket? ('[' :: z) = none) : Piece (l.text ++ z) l z := by
  cases h with
  | blank h => exact .blank h
  | @longComment n x t r h =>
    have ht := through_seam (closer_ne_nil n) h z
    simpa using Piece.longComment ht
  | @lineComment x h =>
    rcases line_cases x with ⟨hx, hl⟩ | ⟨u, r, hu, rfl, hl⟩
    · rw [hl] at hend ⊢
      obtain rfl := hend (by simp [Lexeme.isLineComment, h]) rfl
      have := Piece.lineComment h
      rw [hl] at this
      simpa using this
    · rw [hl] at hz ⊢
      have hu' : bracket? (u ++ '\n' :: z) = none := by
        rw [bracket?_line] at h ⊢
        exact h
      have := Piece.lineComment hu'
      rw [line_break hu] at this
      simpa using this
  | @name c x h =>
    have hr := hz.name rfl
    have := Piece.name (x := x.takeWhile Text.isIdentRest ++ z) h
    rwa [takeWhile_seam x hr, dropWhile_seam x hr] at this
  | @number x h =>
    have hr d hd := (hz.number rfl d hd).1
    obtain ⟨hs, hx⟩ := number_piece_before h rfl hr
    have := Piece.number hs
    rwa [hx, number_before rfl hr fun d hd => (hz.number rfl d hd).2] at this
  | @quoted q x t r hq h =>
    exact .quoted hq (quoted_seam hq h z)
  | @bracket n x t r h =>
    have ht := through_seam (closer_ne_nil n) h z
    simpa using Piece.bracket ht
  | @punct c x h =>
    obtain ⟨y, r, ho, rfl⟩ := operator_cons c x
    rw [ho] at hz hb ⊢
    have := Piece.punct (h.before ho hz hb)
    rwa [operator_keep ho fun d hd hg => hz.punct rfl d hd (.inl hg)] at this

theorem Piece.ends (h : Piece x l r) (hz : Seam r z) : Ends l r z := by
  refine ⟨fun hk => hz.not_isIdentRest ?_, fun hk d hd => ⟨?_, fun hs => ?_⟩, fun hk d hd hs => ?_⟩
  · cases h with
    | name h => exact head_dropWhile _
    | blank | longComment | lineComment | number | quoted | bracket | punct => cases hk
  · refine hz.not_isNumeral ?_ d hd
    cases h with
    | number h => exact number_rest _ _
    | blank | longComment | lineComment | name | quoted | bracket | punct => cases hk
  · exact hz.head hd (by rcases hs with rfl | rfl <;> decide)
  · refine hz.head hd ⟨?_, ?_, ?_⟩ <;> rintro rfl <;> revert hs <;> simp [goesOn]

theorem Piece.seam (h : Piece x l r) (hz : Seam r z)
    (hend : l.isLineComment = true → r = [] → z = [])
    (hb : l.text = ['['] → bracket? ('[' :: z) = none) : Piece (l.text ++ z) l z :=
  h.before (h.ends hz) hend hb

theorem Piece.bracket_alone (h : Piece x l r) (ht : l.text = ['[']) :
    bracket? ('[' :: r) = none := by
  have hx : x = '[' :: r := by rw [← h.text_append, ht]; rfl
  cases h with
  | punct h => exact hx ▸ h.bracket
  | blank h =>
    cases ht
    exact absurd h (by decide)
  | longComment h => cases ht
  | lineComment h => cases ht
  | name h =>
    obtain ⟨rfl, -⟩ := List.cons.inj hx
    exact absurd h (by decide)
  | number h =>
    rw [hx] at h
    simp [startsNumber] at h
  | quoted hq h =>
    obtain ⟨rfl, -⟩ := List.cons.inj hx
    exact absurd hq (by decide)
  | bracket h => simp [opener] at ht

theorem Piece.bracket_before (h : Piece x l r)
    (hz : ∀ n, level? z = some n → level? r = some n) (ht : l.text = ['[']) :
    bracket? ('[' :: z) = none := by
  have hr : level? r = none := h.bracket_alone ht
  refine Option.eq_none_iff_forall_ne_some.2 fun n hn => ?_
  rw [hz n hn] at hr
  cases hr

theorem Piece.line_comment (h : Piece x l r) (hc : l.isLineComment = true) :
    ∃ u, x = '-' :: '-' :: u ∧ bracket? u = none ∧ l = ⟨none, '-' :: '-' :: (line u).1⟩ ∧
      r = (line u).2 := by
  cases h with
  | lineComment h => exact ⟨_, rfl, h, rfl, rfl⟩
  | blank h => simp [Lexeme.isLineComment] at hc
  | @longComment n x t r h =>
    have hb : bracket? (opener n ++ t) = some n := bracket?_eq_some.2 ⟨t, rfl⟩
    simp [Lexeme.isLineComment, hb] at hc
  | name h => simp [Lexeme.isLineComment] at hc
  | number h => simp [Lexeme.isLineComment] at hc
  | quoted hq h => simp [Lexeme.isLineComment] at hc
  | bracket h => simp [Lexeme.isLineComment] at hc
  | punct h => simp [Lexeme.isLineComment] at hc

/-- What may take the place of a piece: the same text, or one that begins so that the piece before
it does not go on. -/
inductive Mild (l : Lexeme) : List Char → Prop
  | same : Mild l l.text
  | fresh {d : Char} {u : List Char} (h : Seam l.text [d]) (hd : d ≠ '=' ∧ d ≠ '[') :
    Mild l (d :: u)

theorem Piece.head (h : Piece x l r) : x.head? = l.text.head? := by
  rw [← h.text_append]
  cases hl : l.text with
  | nil => exact absurd hl h.text_ne_nil
  | cons => rfl

theorem head?_append_of_ne_nil (h : x ≠ []) (y : List Char) : (x ++ y).head? = x.head? := by
  cases x with
  | nil => exact absurd rfl h
  | cons => rfl

section Exchange

variable {f : Lexeme → List Char}

/-- A text whose pieces are exchanged still ends a piece that stood before it. -/
theorem Reads.seam (h : Reads x ls r) (hf : ∀ l ∈ ls, Mild l (f l)) (hz : Seam r z) :
    Seam x (ls.flatMap f ++ z) := by
  cases h with
  | refl => exact hz
  | @step _ y _ l ls h hs =>
    have hl := hf l List.mem_cons_self
    rw [List.flatMap_cons, List.append_assoc]
    generalize f l = w at hl
    intro d hd
    rw [h.head]
    cases hl with
    | same =>
      rw [head?_append_of_ne_nil h.text_ne_nil] at hd
      exact .inl hd
    | fresh hm hne => exact hm d hd

/-- A text whose pieces are exchanged goes on with no long bracket that was not there. -/
theorem Reads.seam_level (h : Reads x ls r) (hf : ∀ l ∈ ls, Mild l (f l))
    (hz : ∀ n, level? z = some n → level? r = some n) :
    ∀ n, level? (ls.flatMap f ++ z) = some n → level? x = some n := by
  induction h with
  | refl => exact hz
  | @step x y _ l ls h hs ih =>
    have hl := hf l List.mem_cons_self
    rw [List.flatMap_cons, List.append_assoc, ← h.text_append]
    generalize f l = w at hl
    intro n hn
    cases hl with
    | same => exact level?_append _ _ _ (ih (fun l hm => hf l (List.mem_cons_of_mem _ hm)) hz) n hn
    | fresh hm hne =>
      rw [List.cons_append, level?_cons, if_neg hne.1, if_neg hne.2] at hn
      cases hn

end Exchange

def leavesOpen : List Lexeme → Bool
  | [] => false
  | l :: ls => l.text = ['['] && (ls.flatMap Lexeme.text).all (· = '=') || leavesOpen ls

theorem level?_append_of_not_all (hx : x.all (· = '=') = false) (y z : List Char) :
    level? (x ++ y) = level? (x ++ z) := by
  induction x with
  | nil => cases hx
  | cons c x ih =>
    rw [List.cons_append, List.cons_append, level?_cons, level?_cons]
    split
    · next hc => rw [ih (by simpa [hc] using hx)]
    · rfl

theorem Reads.last (h : Reads x ls r) : ∀ l ∈ ls.getLast?, ∃ y, Piece y l r := by
  induction h with
  | refl => simp
  | @step x y r l ls h hs ih =>
    cases hs with
    | refl =>
      rintro l' ⟨⟩
      exact ⟨x, h⟩
    | step => simpa [List.getLast?_cons_cons] using ih

theorem Reads.before (h : Reads x ls r) (hlast : ∀ l ∈ ls.getLast?, Ends l r z)
    (hlevel : leavesOpen ls = true → ∀ n, level? z = some n → level? r = some n)
    (hend : r = [] → z = []) : Reads (ls.flatMap Lexeme.text ++ z) ls z := by
  induction h with
  | refl => exact .refl z
  | @step x y r l ls h hs ih =>
    have hy := hs.text_append
    have hends : Ends l y (ls.flatMap Lexeme.text ++ z) := by
      cases hs with
      | refl => exact hlast l rfl
      | step h' _ =>
        -- the next piece begins as it did
        refine h.ends fun d hd => .inl ?_
        rw [List.flatMap_cons, List.append_assoc, head?_append_of_ne_nil h'.text_ne_nil] at hd
        rwa [h'.head]
    have hbr (ht : l.text = ['[']) : bracket? ('[' :: (ls.flatMap Lexeme.text ++ z)) = none := by
      have hy' : level? y = none := h.bracket_alone ht
      rw [← hy] at hy'
      by_cases ho : (ls.flatMap Lexeme.text).all (· = '=') = true
      · refine Option.eq_none_iff_forall_ne_some.2 fun n hn => ?_
        have := level?_append _ _ _ (hlevel (by simp [leavesOpen, ht, ho])) n hn
        rw [hy'] at this
        cases this
      · rwa [level?_append_of_not_all (by simpa using ho) r z] at hy'
    have hnil (_ : l.isLineComment = true) (he : y = []) : ls.flatMap Lexeme.text ++ z = [] := by
      rw [he, List.append_eq_nil_iff] at hy
      rw [hy.1, hend hy.2, List.append_nil]
    rw [List.flatMap_cons, List.append_assoc]
    refine .step (h.before hends hnil hbr) (ih (fun l' hl => ?_) (fun ho => ?_) hend)
    · cases hs with
      | refl => cases hl
      | step => exact hlast l' (by simpa [List.getLast?_cons_cons] using hl)
    · exact hlevel (by simp [leavesOpen, ho])

theorem Reads.follow (h : Reads x ls r) (hz : Seam r z)
    (hlevel : ∀ n, level? z = some n → level? r = some n) (hend : r = [] → z = []) :
    Reads (ls.flatMap Lexeme.text ++ z) ls z := by
  refine h.before (fun l hl => ?_) (fun _ => hlevel) hend
  obtain ⟨y, hl⟩ := h.last l hl
  exact hl.ends hz

end Rulebook.Rule
