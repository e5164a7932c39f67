import Rulebook.Proofs.CodeArguments

namespace Rulebook.Rule

open Decimal (Numeral)

variable {c d : Char} {u x z r m : List Char} {l : Lexeme} {ls : List Lexeme}

theorem not_goesOn_of_isDigit (h : d.isDigit = true) : goesOn d = false ∧ d ≠ '-' := by
  refine ⟨Bool.eq_false_iff.2 fun hg => ?_, ?_⟩
  · simp only [goesOn, List.mem_cons, List.not_mem_nil, or_false, decide_eq_true_eq] at hg
    rcases hg with rfl | rfl | rfl | rfl | rfl | rfl | rfl | rfl <;> cases h
  · rintro rfl
    cases h

theorem isIdentRest_of_name (h : Piece x l r) (hk : l.kind = some .ident) :
    ∀ c ∈ l.text, Text.isIdentRest c = true := by
  cases h with
  | name h =>
    intro c hc
    rcases List.mem_cons.1 hc with rfl | hc
    · exact isIdentRest_of_isIdentStart h
    · exact List.all_eq_true.1 List.all_takeWhile c hc
  | blank | longComment | lineComment | number | quoted | bracket | punct => cases hk

theorem Piece.startsNumber_eq (h : Piece x l r) (hk : l.kind = some .number) :
    startsNumber x = true := by
  cases h with
  | number h => exact h
  | blank | longComment | lineComment | name | quoted | bracket | punct => cases hk

theorem rest_of_number (h : Piece x l r) (hk : l.kind = some .number) :
    ∀ d ∈ r.head?, isNumeral d = false := by
  cases h with
  | number h => exact number_rest _ _
  | blank | longComment | lineComment | name | quoted | bracket | punct => cases hk

theorem ends_of_digit (h : Piece x l r) (hl : ∀ c ∈ l.text.getLast?, isJoint c = false)
    (hk : l.kind ≠ some .number) (hd : d.isDigit = true) (z : List Char) : Ends l r (d :: z) := by
  refine ⟨fun hi => ?_, fun hn => absurd hn hk, fun _ => ?_⟩
  · have hlast := List.getLast?_eq_some_getLast h.text_ne_nil
    have := hl _ hlast
    rw [isJoint, isIdentRest_of_name h hi _ (List.getLast_mem _)] at this
    cases this
  · obtain ⟨hgoes, hdash⟩ := not_goesOn_of_isDigit hd
    rintro e ⟨⟩ (hg | rfl | ⟨-, ht⟩)
    · rw [hgoes] at hg
      cases hg
    · exact absurd rfl hdash
    · rw [ht] at hl
      cases hl '.' rfl

theorem getLast?_flatMap (hu : ls.flatMap Lexeme.text = u) (hl : l ∈ ls.getLast?)
    (hne : l.text ≠ []) : u.getLast? = l.text.getLast? := by
  obtain ⟨ms, rfl⟩ := List.getLast?_eq_some_iff.1 hl
  rw [← hu, List.flatMap_append, List.flatMap_singleton, List.getLast?_append_of_ne_nil _ hne]

/-- A number's text goes on with a numeral in front of it, and with nothing else. -/
theorem reads_numeral_iff (hm : Numeral m) (hu : ls.flatMap Lexeme.text = u)
    (hread : Reads (u ++ r) ls r) (hlast : ∀ c ∈ u.getLast?, isJoint c = false) (hr : r ≠ [])
    (z : List Char) :
    Reads (u ++ (m ++ z)) ls (m ++ z) ↔ ∀ l ∈ ls.getLast?, l.kind ≠ some .number := by
  obtain ⟨d, t, rfl, hd⟩ := numeral_cons hm
  constructor
  · intro h l hl hk
    obtain ⟨y, hp⟩ := h.last l hl
    have := rest_of_number hp hk d rfl
    rw [isNumeral_of_isDigit hd] at this
    cases this
  · intro hk
    rw [← hu]
    refine hread.before (fun l hl => ?_) (fun _ n hn => ?_) fun he => absurd he hr
    · obtain ⟨y, hp⟩ := hread.last l hl
      rw [getLast?_flatMap hu hl hp.text_ne_nil] at hlast
      exact ends_of_digit hp hlast (hk l hl) hd _
    · have hne : d ≠ '=' ∧ d ≠ '[' := by constructor <;> rintro rfl <;> cases hd
      rw [List.cons_append, level?_cons, if_neg hne.1, if_neg hne.2] at hn
      cases hn

end Rulebook.Rule

namespace Rulebook.Template

open Rule (Lexeme Reads Exchanges punctPiece isJoint)

variable {x z u v : List Char} {b : Bindings} {name : String} {value : Json}

def numberPieces (value : Json) : List Lexeme :=
  let text := value.render.toList
  if isNegative value then
    [punctPiece '(', punctPiece '-', ⟨some .number, text.tail⟩, punctPiece ')']
  else [⟨some .number, text⟩]

/-- Between the two texts a placeholder stands next to no other one, and next to nothing that
stands in names or numerals. -/
structure Apart (x z : List Char) : Prop where
  before : ∀ s ∈ (segments x).getLast?, ∃ c, s = .char c ∧ isJoint c = false
  behind : ∀ s ∈ (segments z).head?, ∃ c, s = .char c ∧ isJoint c = false

theorem marks_concat (z : List Char) (s : Stand) (ss : List Segment) (c : Char) :
    ∃ ps, marks z s (ss ++ [Segment.char c]) = ps ++ [.text c] := by
  induction ss generalizing s with
  | nil => exact ⟨[], rfl⟩
  | cons t ss ih =>
    cases t with
    | hole n =>
      obtain ⟨ps, h⟩ := ih (s.1, 0)
      exact ⟨.hole n s.1 :: ps, by rw [List.cons_append, marks, h, List.cons_append]⟩
    | char d =>
      obtain ⟨ps, h⟩ := ih (advance ((ss ++ [Segment.char c]).flatMap Segment.text ++ z) d s)
      exact ⟨.text d :: ps, by rw [List.cons_append, marks, h, List.cons_append]⟩

theorem Apart.last_text (h : Apart x z) : ∀ c ∈ x.getLast?, isJoint c = false := by
  rw [← segments_text x]
  cases hl : (segments x).getLast? with
  | none =>
    rw [List.getLast?_eq_none_iff.1 hl]
    simp
  | some s =>
    obtain ⟨c, rfl, hc⟩ := h.before s hl
    obtain ⟨ss, hss⟩ := List.getLast?_eq_some_iff.1 hl
    rw [hss]
    simpa [Segment.text] using hc

theorem Apart.head_text (h : Apart x z) : ∀ c ∈ z.head?, isJoint c = false := by
  rw [← segments_text z]
  cases hs : segments z with
  | nil => simp
  | cons s ss =>
    obtain ⟨c, rfl, hc⟩ := h.behind s (by rw [hs]; rfl)
    simpa [Segment.text] using hc

theorem Apart.last (h : Apart x z) {a r : List Char} (hu : Becomes b a x r u) :
    ∀ c ∈ u.getLast?, isJoint c = false := by
  rw [Becomes, image, map_eq_ok] at hu
  obtain ⟨ws, hws, rfl⟩ := hu
  cases hl : (segments x).getLast? with
  | none =>
    rw [List.getLast?_eq_none_iff.1 hl] at hws
    cases hws
    simp
  | some s =>
    obtain ⟨c, rfl, hc⟩ := h.before s hl
    obtain ⟨ss, hss⟩ := List.getLast?_eq_some_iff.1 hl
    obtain ⟨ps, hps⟩ := marks_concat r (scan (.code, 0) a (x ++ r)) ss c
    rw [hss, hps, List.mapM_append] at hws
    simp only [bind_eq_ok, List.mapM_cons, List.mapM_nil, Part.fill, pure, Except.pure,
      Except.ok.injEq] at hws
    obtain ⟨us, -, _, ⟨_, rfl, _, rfl, rfl⟩, rfl⟩ := hws
    simpa using hc

theorem Apart.head (h : Apart x z)
    (hv : substituteRule (String.ofList z) b = .ok (String.ofList v)) :
    ∀ c ∈ v.head?, isJoint c = false := by
  rw [substituteRule_eq_ok, String.toList_ofList, String.toList_ofList, image, map_eq_ok] at hv
  obtain ⟨ws, hws, rfl⟩ := hv
  cases hs : segments z with
  | nil =>
    rw [hs] at hws
    cases hws
    simp
  | cons s ss =>
    obtain ⟨c, rfl, hc⟩ := h.behind s (by rw [hs]; rfl)
    rw [hs, marks] at hws
    simp only [List.mapM_cons, bind_eq_ok, Part.fill, pure, Except.pure, Except.ok.injEq] at hws
    obtain ⟨_, rfl, _, -, rfl⟩ := hws
    simpa using hc

theorem render_of_isNumber (hv : value.IsNumber) : value.render.toList = value.compact := by
  cases value with
  | int | float => exact String.toList_ofList
  | null | bool | str | arr | obj => exact hv.elim

theorem hasSign_of_isNegative (hv : value.IsNumber) (h : isNegative value = true) :
    value.hasSign = true := by
  cases value with
  | int n => exact h
  | float y => exact Decimal.isNegative_of_lt (by simpa [isNegative] using h)
  | null | bool | str | arr | obj => exact hv.elim

theorem eq_minusZero_of_hasSign (hv : value.IsNumber) (h : isNegative value = false)
    (hs : value.hasSign = true) : value = .float (-0.0) := by
  cases value with
  | int n =>
    rw [show isNegative (.int n) = Json.hasSign (.int n) from rfl, hs] at h
    cases h
  | float y => rw [Decimal.eq_minusZero hv (by simpa [isNegative] using h) hs]
  | null | bool | str | arr | obj => exact hv.elim

theorem numberPieces_below (hv : value.IsNumber) (h : isNegative value = true) :
    numberPieces value = punctPiece '(' :: value.numeralPieces ++ [punctPiece ')'] := by
  simp [numberPieces, Json.numeralPieces, h, hasSign_of_isNegative hv h, render_of_isNumber hv]

theorem numberPieces_other (h : isNegative value = false) :
    numberPieces value = [⟨some .number, value.render.toList⟩] := by
  simp [numberPieces, h]

theorem fill_number (hv : value.IsNumber) (hroot : name ∉ reservedRoots)
    (hget : b.get? name = some value) :
    (Part.hole name .code).fill b = .ok ((numberPieces value).flatMap Lexeme.text) := by
  have hfill : codeText value = .ok (if isNegative value then '(' :: value.render.toList ++ [')']
      else value.render.toList) := by
    cases value with
    | int | float => rfl
    | null | bool | str | arr | obj => exact hv.elim
  have htext : (numberPieces value).flatMap Lexeme.text =
      if isNegative value then '(' :: value.render.toList ++ [')'] else value.render.toList := by
    split
    · next h =>
      rw [numberPieces_below hv h, List.flatMap_append, List.flatMap_cons,
        Json.text_numeralPieces hv, render_of_isNumber hv]
      rfl
    · next h => simp [numberPieces_other (Bool.not_eq_true _ ▸ h)]
  rw [htext]
  simp only [Part.fill, if_neg hroot, hget, Position.write, hfill]

/-- A number is cut into its pieces in front of what does not stand in numerals, unless it is minus
zero. -/
theorem reads_number_iff (hv : value.IsNumber) (hz : ∀ d ∈ v.head?, isJoint d = false) :
    Reads ((numberPieces value).flatMap Lexeme.text ++ v) (numberPieces value) v ↔
      isNegative value = true ∨ value ≠ .float (-0.0) := by
  obtain ⟨m, hm, hc⟩ := Json.numeral_compact hv
  rw [← render_of_isNumber hv] at hc
  have hzn : ∀ d ∈ v.head?, Rule.isNumeral d = false := fun d hd =>
    Rule.isNumeral_of_not_isJoint (hz d hd)
  cases hneg : isNegative value with
  | true =>
    rw [numberPieces_below hv hneg]
    simp only [true_or, iff_true]
    have hread := Rule.reads_enclosed (Json.cutsOff_numeral hv) rfl rfl
      (Rule.piece_lone (c := '(') rfl (value.compact ++ ')' :: v))
    simpa [punctPiece, Json.text_numeralPieces hv] using hread
  | false =>
    rw [numberPieces_other hneg]
    simp only [Bool.false_eq_true, false_or, List.flatMap_singleton]
    cases hs : value.hasSign with
    | true =>
      rw [hs, if_pos rfl, List.singleton_append] at hc
      constructor
      · intro h
        rw [hc] at h
        cases h with
        | step hp _ =>
          have := hp.startsNumber_eq rfl
          cases this
      · intro h
        exact absurd (eq_minusZero_of_hasSign hv hneg hs) h
    | false =>
      rw [hs, if_neg (by decide), List.nil_append] at hc
      rw [hc]
      constructor
      · rintro - rfl
        cases hs
      · intro _
        exact .step (Rule.piece_numeral hm hzn) (.refl v)

theorem reads_before_number {ls : List Lexeme} {r : List Char} (hv : value.IsNumber)
    (hsome : isNegative value = true ∨ value ≠ .float (-0.0))
    (hu : ls.flatMap Lexeme.text = u) (hread : Reads (u ++ r) ls r)
    (hlast : ∀ c ∈ u.getLast?, isJoint c = false) (hr : r ≠ []) :
    Reads (u ++ ((numberPieces value).flatMap Lexeme.text ++ v)) ls
        ((numberPieces value).flatMap Lexeme.text ++ v) ↔
      isNegative value = true ∨ ∀ l ∈ ls.getLast?, l.kind ≠ some .number := by
  obtain ⟨m, hm, hc⟩ := Json.numeral_compact hv
  rw [← render_of_isNumber hv] at hc
  cases hneg : isNegative value with
  | true =>
    rw [numberPieces_below hv hneg, ← hu]
    simp only [true_or, iff_true]
    exact hread.before_fresh hr (by decide) (by simp) _
  | false =>
    have hs : value.hasSign = false := by
      rw [Bool.eq_false_iff]
      intro hs
      rcases hsome with h | h
      · rw [hneg] at h
        cases h
      · exact h (eq_minusZero_of_hasSign hv hneg hs)
    rw [hs, if_neg (by decide), List.nil_append] at hc
    rw [numberPieces_other hneg, hc]
    simp only [Bool.false_eq_true, false_or, List.flatMap_singleton]
    exact Rule.reads_numeral_iff hm hu hread hlast hr v

theorem exchanges_number_iff (hv : value.IsNumber) (hlast : ∀ c ∈ u.getLast?, isJoint c = false)
    (hhead : ∀ c ∈ v.head?, isJoint c = false) :
    Exchanges u (holePieces name) (numberPieces value) v ↔ ∃ ls₁ ls₂,
      ls₁.flatMap Lexeme.text = u ∧
      Rule.lexemes 0 (u ++ (Segment.hole name).text ++ v) = .ok (ls₁ ++ holePieces name ++ ls₂) ∧
      (isNegative value = true ∨
        value ≠ .float (-0.0) ∧ ∀ l ∈ ls₁.getLast?, l.kind ≠ some .number) := by
  rw [Rule.exchanges_iff, holePieces_text]
  refine exists₂_congr fun ls₁ ls₂ => and_congr_right fun htext => and_congr_right fun hmid => ?_
  rw [← holePieces_text, Rule.lexemes_between htext] at hmid
  obtain ⟨hread, -, -⟩ := hmid
  have hne : (holePieces name).flatMap Lexeme.text ++ v ≠ [] := by simp [holePieces, punctPiece]
  rw [reads_number_iff hv hhead, or_and_left, and_comm]
  exact and_congr_right fun hsome => reads_before_number hv hsome htext hread hlast hne

/-- A number in code takes the place of the pieces of its placeholder and changes no others exactly
if it is below zero, or if it is not minus zero and no numeral stands in front of it, whether the
other arguments are put in or not. -/
theorem number_exchanged_iff {text out : String} (hv : value.IsNumber)
    (hname : Text.isIdent name = true) (hroot : name ∉ reservedRoots)
    (hget : b.get? name = some value)
    (htext : text.toList = x ++ (Segment.hole name).text ++ z)
    (hcode : (scan (.code, 0) x ((Segment.hole name).text ++ z)).1 = .code) (hapart : Apart x z)
    (hout : substituteRule text b = .ok out) :
    ∃ u v, Becomes b [] x ((Segment.hole name).text ++ z) u ∧
      substituteRule (String.ofList z) b = .ok (String.ofList v) ∧
      out.toList = u ++ (numberPieces value).flatMap Lexeme.text ++ v ∧
      (∀ s t, s = x ∨ s = u → t = z ∨ t = v →
        (Exchanges s (holePieces name) (numberPieces value) t ↔ ∃ ls₁ ls₂,
          ls₁.flatMap Lexeme.text = s ∧
          Rule.lexemes 0 (s ++ (Segment.hole name).text ++ t) =
            .ok (ls₁ ++ holePieces name ++ ls₂) ∧
          (isNegative value = true ∨
            value ≠ .float (-0.0) ∧ ∀ l ∈ ls₁.getLast?, l.kind ≠ some .number))) ∧
      (Exchanges u (holePieces name) (numberPieces value) v → ∃ ws ws',
        Rule.wording (String.ofList (u ++ (Segment.hole name).text ++ v)) =
          .ok (ws ++ (holePieces name).filterMap Lexeme.word? ++ ws') ∧
        Rule.wording out = .ok (ws ++ (numberPieces value).filterMap Lexeme.word? ++ ws')) := by
  obtain ⟨u, w, v, hu, hw, hv', ho⟩ := becomes_code hname htext hcode hout
  have hfill := fill_number hv hroot hget
  rw [hw] at hfill
  obtain rfl := Except.ok.inj hfill
  refine ⟨u, v, hu, hv', ho, fun s t hs ht => exchanges_number_iff hv ?_ ?_, fun h => ?_⟩
  · rcases hs with rfl | rfl
    · exact hapart.last_text
    · exact hapart.last hu
  · rcases ht with rfl | rfl
    · exact hapart.head_text
    · exact hapart.head hv'
  · exact h.wording (by rw [String.toList_ofList, holePieces_text]) ho

theorem number_exchanged_below_zero :
    Exchanges "10 -".toList (holePieces "n") (numberPieces (.int (-3))) [] := by
  have hcode : (scan (.code, 0) "10 -".toList ((Segment.hole "n").text ++ [])).1 = .code := by
    decide
  have hbefore : ∀ s ∈ (segments "10 -".toList).getLast?, ∃ c, s = .char c ∧ isJoint c = false := by
    rw [show segments "10 -".toList = [.char '1', .char '0', .char ' ', .char '-'] by cbv]
    rintro _ ⟨⟩
    exact ⟨'-', rfl, by decide⟩
  have hbehind : ∀ s ∈ (segments []).head?, ∃ c, s = .char c ∧ isJoint c = false := by
    simp [segments]
  obtain ⟨u, v, hu, hv, -, hiff, -⟩ := number_exchanged_iff
    (show Json.IsNumber (.int (-3)) from trivial) (show Text.isIdent "n" = true by decide)
    (by decide) rfl (by decide) hcode ⟨hbefore, hbehind⟩
    (show substituteRule "10 -\x7bn\x7d" [("n", .int (-3))] = .ok "10 -(-3)" by cbv)
  have hu' : u = "10 -".toList := (becomes_plain (by decide)).1 hu
  have hv' : v = [] := rule_of_holeless (holeless_of_not_mem (by simp)) hv
  subst hu' hv'
  exact (hiff _ _ (.inl rfl) (.inl rfl)).2
    ⟨[⟨some .number, ['1', '0']⟩, ⟨none, [' ']⟩, ⟨some .punct, ['-']⟩], [], rfl, by cbv,
      .inl (by decide)⟩

/-- The sign of minus zero and the one in front of it open a comment. -/
theorem minusZero_opens_comment :
    Rule.tokens "10 -{x} > y" = .ok [⟨.number, "10", 0, 2⟩, ⟨.punct, "-", 3, 4⟩,
      ⟨.punct, "\x7b", 4, 5⟩, ⟨.ident, "x", 5, 6⟩, ⟨.punct, "\x7d", 6, 7⟩, ⟨.punct, ">", 8, 9⟩,
      ⟨.ident, "y", 10, 11⟩] ∧
    substituteRule "10 -{x} > y" [("x", .float (-0.0))] = .ok "10 --0.0 > y" ∧
    Rule.tokens "10 --0.0 > y" = .ok [⟨.number, "10", 0, 2⟩] := by
  refine ⟨by cbv, ?_, by cbv⟩
  have hparts : parts "10 -{x} > y" = [.text '1', .text '0', .text ' ', .text '-', .hole "x" .code,
      .text ' ', .text '>', .text ' ', .text 'y'] := by cbv
  rw [substituteRule, hparts]
  rfl

end Rulebook.Template
