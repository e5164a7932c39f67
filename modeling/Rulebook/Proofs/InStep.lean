import Rulebook.Proofs.Positions

namespace Rulebook.Template

open Rule (Lexeme Piece Reads StartsOperator isNumeral inside isQuote through closer opener)

variable {c d q : Char} {x y z r t u v w : List Char} {n : String} {k : Nat} {p : Position}
variable {l : Lexeme} {ls : List Lexeme}

/-- The scanner falls out of step with the tokenizer over the piece. -/
def misleads (l : Lexeme) (r : List Char) : Bool :=
  match l.kind with
  | some .str => l.text.head? = some '\x60'
  | some .number => l.text.getLast? = some '-' && r.head? = some '-'
  | _ => false

theorem next_code (hq : isQuote c = false) (hd : c = '-' → x.head? ≠ some '-')
    (hb : Rule.bracket? (c :: x) = none) : Position.code.next x c = (.code, 0) := by
  have hc : c ≠ '"' ∧ c ≠ '\'' ∧ c ≠ '\x60' := by simpa [isQuote, and_assoc] using hq
  have hx : ¬(c = '-' ∧ x.head? = some '-') := fun h => hd h.1 h.2
  rw [← bracket?_eq] at hb
  rw [Position.next, if_neg (by simp [hc]), if_neg (by simpa using hx), hb]

theorem scan_skip (x z : List Char) : scan (p, x.length) x z = (p, 0) := by
  induction x with
  | nil => rfl
  | cons c x ih => exact ih

theorem scan_inside (hq : q = '\'' ∨ q = '"') {e e' : Bool} (h : inside q e u = some e')
    (z : List Char) : scan (.quoted q, e.toNat) u z = (.quoted q, e'.toNat) := by
  fun_induction inside q e u with
  | case1 e =>
    cases h
    rfl
  | case2 c u ih => exact ih h
  | case3 u ih =>
    rw [scan]
    simpa [advance, Position.next] using ih h
  | case4 c u hc hs => cases h
  | case5 c u hc hs ih =>
    have hs' : ¬(c = q ∨ c = '\n') := by
      rcases hq with rfl | rfl <;> simpa using hs
    rw [scan]
    simpa [advance, Position.next, hc, not_or.1 hs'] using ih h

theorem next_quote (hq : q = '\'' ∨ q = '"') (x : List Char) :
    Position.code.next x q = (.quoted q, 0) := by
  rcases hq with rfl | rfl <;> rfl

theorem next_unquote (hq : q = '\'' ∨ q = '"') (x : List Char) :
    (Position.quoted q).next x q = (.code, 0) := by
  rcases hq with rfl | rfl <;> rfl

theorem scan_quoted (hq : q = '\'' ∨ q = '"') {e : Bool} (h : inside q false u = some e)
    (z : List Char) : scan (.code, 0) (q :: u) z = (.quoted q, e.toNat) := by
  rw [scan, advance, next_quote hq]
  exact scan_inside hq h z

theorem scan_line (hu : '\n' ∉ u) (z : List Char) :
    scan (.lineComment, 0) u z = (.lineComment, 0) := by
  induction u with
  | nil => rfl
  | cons c u ih =>
    simp only [List.mem_cons, not_or] at hu
    rw [scan, advance, Position.next, if_neg (Ne.symm hu.1), ih hu.2]

theorem scan_through (h : through (closer k) x = some (t, r)) :
    scan (.longBracket k, 0) t r = (.code, 0) := by
  fun_induction through (closer k) x generalizing t with
  | case1 => cases h
  | case2 c x hp =>
    cases h
    obtain ⟨y, hy⟩ := List.isPrefixOf_iff_prefix.1 hp
    have hx : closer k = ']' :: (List.replicate k '=' ++ [']']) := rfl
    rw [← hy, List.drop_left, hx, scan, advance, Position.next, if_pos]
    · simpa using scan_skip (p := .code) (List.replicate k '=' ++ [']']) y
    · rw [List.isPrefixOf_iff_prefix]
      exact List.prefix_append _ _
  | case3 c x hp ih =>
    obtain ⟨⟨t', r'⟩, h', e⟩ := Option.map_eq_some_iff.1 h
    cases e
    have hx : t' ++ r = x := Rule.through_append h'
    rw [scan, advance, Position.next, hx, if_neg hp]
    exact ih h'

theorem scan_opener (k : Nat) (x : List Char) :
    scan (.code, 0) (opener k) x = (.longBracket k, 0) := by
  have hb : bracket? (opener k ++ x) = some k := by
    rw [bracket?_eq]
    exact Rule.bracket?_eq_some.2 ⟨x, rfl⟩
  have ho : opener k = '[' :: (List.replicate k '=' ++ ['[']) := rfl
  rw [ho, List.cons_append] at hb
  have hn : Position.code.next ((List.replicate k '=' ++ ['[']) ++ x) '[' =
      (.longBracket k, k + 1) := by
    rw [Position.next, if_neg (by decide), if_neg (by simp), hb]
  rw [ho, scan, advance, hn]
  simpa using scan_skip (p := .longBracket k) (List.replicate k '=' ++ ['[']) x

theorem scan_comment (h : Rule.bracket? x = none) (z : List Char) (hx : x = y ++ z) :
    scan (.code, 0) ('-' :: '-' :: y) z = scan (.lineComment, 0) y z := by
  have hb : bracket? (y ++ z) = none := by rw [bracket?_eq, ← hx, h]
  simp [scan, advance, Position.next, hb]

theorem scan_longComment (k : Nat) (x : List Char) :
    scan (.code, 0) ('-' :: '-' :: opener k) x = (.longBracket k, 0) := by
  have hb : bracket? (opener k ++ x) = some k := by
    rw [bracket?_eq]
    exact Rule.bracket?_eq_some.2 ⟨x, rfl⟩
  have hn : Position.code.next ('-' :: opener k ++ x) '-' = (.longBracket k, k + 3) := by
    simp [Position.next, hb]
  rw [scan, advance, hn]
  simpa [opener] using scan_skip (p := .longBracket k) ('-' :: opener k) x

theorem isIdle_of_isNumeral (h : isNumeral c = true) : isIdle c = true := by
  simp only [isIdle, decide_eq_true_eq]
  intro hc
  have hall : ∀ d ∈ ['\'', '"', '-', '[', ']', '\\', '\n'], (!isNumeral d) = true :=
    List.all_eq_true.1 rfl
  have := hall c hc
  rw [h] at this
  cases this

theorem isNumeral_of_number {hex : Bool} (h : Rule.number hex x = (d :: t, r)) :
    isNumeral d = true := by
  revert h
  fun_cases Rule.number hex x with
  | case1 c s cs hm =>
    rintro ⟨⟩
    exact Rule.isNumeral_of_isMark (Bool.and_eq_true_iff.1 hm).1
  | case2 c s cs _ hc =>
    rintro ⟨⟩
    exact hc
  | case4 c hc =>
    rintro ⟨⟩
    exact hc
  | case3 | case5 | case6 => rintro ⟨⟩

theorem scan_number {hex : Bool} (h : Rule.number hex x = (t, r))
    (hr : t.getLast? = some '-' → r.head? ≠ some '-') : scan (.code, 0) t r = (.code, 0) := by
  have hcode : ∀ q, Position.code = .quoted q → q = '\'' ∨ q = '"' := by simp
  fun_induction Rule.number hex x generalizing t with
  | case1 c s cs hm t' r' heq ih =>
    cases h
    simp only [Bool.and_eq_true, Bool.or_eq_true, decide_eq_true_eq] at hm
    have hc := isIdle_of_isNumeral (Rule.isNumeral_of_isMark hm.1)
    have hs : Position.code.next (t' ++ r) s = (.code, 0) := by
      refine next_code ?_ ?_ ?_
      · rcases hm.2 with rfl | rfl <;> decide
      · rintro rfl
        cases t' with
        | nil => exact hr rfl
        | cons d t' =>
          rintro ⟨⟩
          exact absurd (isNumeral_of_number heq) (by decide)
      · rcases hm.2 with rfl | rfl <;> rfl
    rw [scan, advance, next_idle hcode hc, scan, advance, hs]
    refine ih heq fun hl => ?_
    cases t' with
    | nil => cases hl
    | cons d t' => exact hr (by simpa [List.getLast?_cons_cons] using hl)
  | case2 c s cs hm hc t' r' heq ih =>
    cases h
    have hc' : isNumeral c = true := hc
    rw [scan, advance, next_idle hcode (isIdle_of_isNumeral hc')]
    refine ih heq fun hl => ?_
    cases t' with
    | nil => cases hl
    | cons d t' => exact hr (by simpa [List.getLast?_cons_cons] using hl)
  | case3 => cases h; rfl
  | case4 c hc =>
    cases h
    have hc' : isNumeral c = true := hc
    rw [scan, advance, next_idle hcode (isIdle_of_isNumeral hc')]
    rfl
  | case5 => cases h; rfl
  | case6 => cases h; rfl

theorem scan_operator {y : List Char} (h : StartsOperator (c :: (y ++ r)))
    (ho : Rule.operator c (y ++ r) = (c :: y, r)) : scan (.code, 0) (c :: y) r = (.code, 0) := by
  have hcode : ∀ q, Position.code = .quoted q → q = '\'' ∨ q = '"' := by simp
  rcases Rule.operator_tail ho with rfl | hy
  · refine next_code (h.quote c rfl) ?_ h.bracket
    rintro rfl hd
    obtain ⟨x, rfl⟩ := List.head?_eq_some_iff.1 hd
    exact h.comment ⟨x, rfl⟩
  · have hall : ∀ o ∈ Rule.operators, o.all isIdle = true := List.all_eq_true.1 rfl
    exact scan_idle hcode (List.all_eq_true.1 (hall _ hy)) r

theorem next_blank (h : Text.isAsciiBlank c = true) (x : List Char) :
    Position.code.next x c = (.code, 0) := by
  have hne {d : Char} (hd : Text.isAsciiBlank d = false) : c ≠ d := by
    rintro rfl
    exact absurd h (by simp [hd])
  refine next_code ?_ (fun hc => absurd hc (hne rfl)) ?_
  · rw [Bool.eq_false_iff, ne_eq, Rule.isQuote_iff]
    rintro (rfl | rfl | rfl) <;> cases h
  · simp [Rule.bracket?, hne (d := '[') rfl]

theorem scan_piece (h : Piece x l r) (hl : misleads l r = false)
    (hend : l.isLineComment = true → r ≠ []) : scan (.code, 0) l.text r = (.code, 0) := by
  have hcode : ∀ q, Position.code = .quoted q → q = '\'' ∨ q = '"' := by simp
  cases h with
  | @blank c r h => exact next_blank h r
  | @longComment k x t r h =>
    have hs := scan_longComment k (t ++ r)
    have ho : '-' :: '-' :: opener k ++ t = ('-' :: '-' :: opener k) ++ t := rfl
    rw [ho, scan_append, hs, scan_through h]
  | @lineComment x h =>
    have hc : (⟨none, '-' :: '-' :: (Rule.line x).1⟩ : Lexeme).isLineComment = true := by
      simpa [Lexeme.isLineComment, Rule.bracket?_of_line] using h
    have hne := hend hc
    rcases Rule.line_cases x with ⟨-, hx⟩ | ⟨u, r, hu, rfl, hx⟩
    · exact absurd (by rw [hx]) hne
    · rw [hx] at hne ⊢
      rw [scan_comment h r (by simp), scan_append, scan_line hu]
      rfl
  | @name c x h =>
    have hall : ∀ d ∈ c :: x.takeWhile Text.isIdentRest, isIdle d = true := by
      intro d hd
      rcases List.mem_cons.1 hd with rfl | hd
      · exact isIdle_of_isIdentRest (Rule.isIdentRest_of_isIdentStart h)
      · exact isIdle_of_isIdentRest (List.all_eq_true.1 List.all_takeWhile d hd)
    exact scan_idle hcode hall _
  | number h =>
    refine scan_number rfl fun ht hr => ?_
    simp [misleads, ht, hr] at hl
  | @quoted q x t r hq h =>
    obtain ⟨u, rfl, rfl, hu⟩ := (Rule.quoted_eq_some hq).1 h
    have hq' := (Rule.isQuote_iff_of_ne (by simpa [misleads] using hl)).1 hq
    rw [← List.cons_append, scan_append, scan_quoted hq' hu]
    exact next_unquote hq' r
  | @bracket k x t r h =>
    rw [scan_append, scan_opener, scan_through h]
  | @punct c x h =>
    obtain ⟨y, r, ho, rfl⟩ := Rule.operator_cons c x
    rw [ho]
    exact scan_operator h ho

def steady : List Lexeme → List Char → Bool
  | [], _ => true
  | l :: ls, r => !misleads l (ls.flatMap Lexeme.text ++ r) && steady ls r

/-- Behind some pieces of a rule the scanner stands in code. -/
theorem scan_reads (h : Reads x ls r) (hs : steady ls r = true) (hr : r ≠ []) :
    scan (.code, 0) (ls.flatMap Lexeme.text) r = (.code, 0) := by
  induction h with
  | refl => rfl
  | @step x y r l ls h hls ih =>
    simp only [steady, Bool.and_eq_true, Bool.not_eq_true'] at hs
    have hy := hls.text_append
    have hne : y ≠ [] := by
      rintro rfl
      exact hr (List.append_eq_nil_iff.1 hy).2
    rw [hy] at hs
    rw [List.flatMap_cons, scan_append, hy, scan_piece h hs.1 fun _ => hne, ih hs.2 hr]

end Rulebook.Template
