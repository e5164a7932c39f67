import Rulebook.Proofs.Numerals
import Rulebook.Proofs.Positions
import Rulebook.Proofs.Places

namespace Rulebook.Rule

variable {c d : Char} {t u v w x y z r : List Char} {l : Lexeme} {ls ps qs : List Lexeme}

def isJoint (c : Char) : Bool := Text.isIdentRest c || c = '.'

theorem isNumeral_of_not_isJoint (h : isJoint c = false) : isNumeral c = false := by
  simp only [isJoint, Text.isIdentRest, isNumeral, Bool.or_eq_false_iff] at h ⊢
  exact ⟨h.1.1, h.2⟩

def punctPiece (c : Char) : Lexeme := ⟨some .punct, [c]⟩

def isDelimiter (c : Char) : Bool := c ∈ ['(', ')', '\x7b', '\x7d', ']', ',', '[', '-', ':']

theorem piece_delimiter (hc : isDelimiter c = true) (hbr : c = '[' → level? x = none)
    (hdash : c = '-' → x.head? ≠ some '-') (hcolon : c = ':' → x.head? ≠ some ':') :
    Piece (c :: x) (punctPiece c) x := by
  have hchar : Text.isAsciiBlank c = false ∧ Text.isIdentStart c = false ∧ c.isDigit = false ∧
      c ≠ '.' ∧ isQuote c = false ∧
      operators.all (fun p => p.head? ≠ some c || p = [':', ':']) = true := by
    simp only [isDelimiter, List.mem_cons, List.not_mem_nil, or_false, decide_eq_true_eq] at hc
    rcases hc with rfl | rfl | rfl | rfl | rfl | rfl | rfl | rfl | rfl <;> decide
  obtain ⟨hblank, hname, hdigit, hdot, hquote, hop⟩ := hchar
  have hs : StartsOperator (c :: x) := by
    refine ⟨by simpa using hblank, by simpa using hname, by simp [startsNumber, hdigit, hdot],
      by simpa using hquote, ?_, ?_⟩
    · by_cases h : c = '['
      · rw [h]
        exact hbr h
      · simp [bracket?, h]
    · rintro ⟨y, hy⟩
      obtain ⟨rfl, rfl⟩ := List.cons.inj hy
      exact hdash rfl rfl
  obtain ⟨y, r, ho, rfl⟩ := operator_cons c x
  have hy : y = [] := by
    rcases operator_tail ho with rfl | hy
    · rfl
    · have := List.all_eq_true.1 hop _ hy
      obtain ⟨rfl, rfl⟩ : c = ':' ∧ y = [':'] := by simpa using this
      exact absurd rfl (hcolon rfl)
  subst hy
  have := Piece.punct hs
  rwa [ho] at this

def isLone (c : Char) : Bool := c ∈ ['(', ')', '\x7b', '\x7d', ']', ',']

theorem piece_lone (hc : isLone c = true) (x : List Char) : Piece (c :: x) (punctPiece c) x := by
  simp only [isLone, List.mem_cons, List.not_mem_nil, or_false, decide_eq_true_eq] at hc
  refine piece_delimiter ?_ ?_ ?_ ?_ <;>
    rcases hc with rfl | rfl | rfl | rfl | rfl | rfl <;> simp [isDelimiter]

theorem piece_minus (hx : x.head? ≠ some '-') : Piece ('-' :: x) (punctPiece '-') x :=
  piece_delimiter rfl (by simp) (fun _ => hx) (by simp)

theorem piece_bracket (hx : level? x = none) : Piece ('[' :: x) (punctPiece '[') x :=
  piece_delimiter rfl (fun _ => hx) (by simp) (by simp)

theorem piece_colon (hx : x.head? ≠ some ':') : Piece (':' :: x) (punctPiece ':') x :=
  piece_delimiter rfl (by simp) (by simp) fun _ => hx

theorem piece_name {w : List Char} (hne : w ≠ []) (hw : ∀ c ∈ w.head?, Text.isIdentStart c = true)
    (hrest : ∀ c ∈ w, Text.isIdentRest c = true) (hz : ∀ d ∈ z.head?, Text.isIdentRest d = false) :
    Piece (w ++ z) ⟨some .ident, w⟩ z := by
  obtain ⟨c, cs, rfl⟩ := List.exists_cons_of_ne_nil hne
  have hcs : ∀ d ∈ cs, Text.isIdentRest d = true := fun d hd => hrest d (List.mem_cons_of_mem _ hd)
  have := Piece.name (x := cs ++ z) (hw c rfl)
  rwa [List.takeWhile_append_of_pos hcs, List.dropWhile_append_of_pos hcs, takeWhile_head hz,
    dropWhile_head hz, List.append_nil] at this

theorem piece_word (hc : Text.isIdentStart c = true) (hw : w.all Text.isIdentRest = true)
    (hz : ∀ d ∈ z.head?, Text.isIdentRest d = false) :
    Piece (c :: w ++ z) ⟨some .ident, c :: w⟩ z :=
  piece_name (by simp) (by simpa using hc)
    (List.forall_mem_cons.2 ⟨isIdentRest_of_isIdentStart hc, List.all_eq_true.1 hw⟩) hz

theorem ends_of_fresh (hd : Text.isIdentRest d = false ∧ isNumeral d = false ∧ goesOn d = false ∧
    d ≠ '+' ∧ d ≠ '-' ∧ d.isDigit = false) (l : Lexeme) (r z : List Char) : Ends l r (d :: z) := by
  obtain ⟨hr, hn, hg, hplus, hdash, hdig⟩ := hd
  refine ⟨fun _ => by simpa using hr, fun _ => ?_, fun _ => ?_⟩
  · rintro e ⟨⟩
    refine ⟨hn, ?_⟩
    rintro (rfl | rfl)
    · exact absurd rfl hplus
    · exact absurd rfl hdash
  · rintro e ⟨⟩ (h | rfl | ⟨h, -⟩)
    · rw [hg] at h
      cases h
    · exact absurd rfl hdash
    · rw [hdig] at h
      cases h

theorem level?_append_of_all (hx : x.all (· = '=') = true) (y : List Char) :
    level? (x ++ y) = (level? y).map (· + x.length) := by
  induction x with
  | nil => simp
  | cons c x ih =>
    simp only [List.all_cons, Bool.and_eq_true, decide_eq_true_eq] at hx
    rw [List.cons_append, level?_cons, if_pos hx.1, ih hx.2, Option.map_map]
    rfl

/-- Behind an open bracket no second one follows. -/
theorem not_open_of_reads (h : Reads x ls r) (ho : leavesOpen ls = true) : level? r = none := by
  induction h with
  | refl => cases ho
  | @step x y r l ls h hs ih =>
    simp only [leavesOpen, Bool.or_eq_true, Bool.and_eq_true, decide_eq_true_eq] at ho
    rcases ho with ⟨ht, hall⟩ | ho
    · have hy : level? y = none := h.bracket_alone ht
      rw [← hs.text_append] at hy
      refine Option.eq_none_iff_forall_ne_some.2 fun n hn => ?_
      -- only equality signs stand between the bracket and `r`
      rw [level?_append_of_all hall, hn] at hy
      cases hy
    · exact ih ho

/-- What begins with such a character changes no piece before it, but a bracket there must not be
the second one. -/
theorem Reads.before_fresh (h : Reads x ls r) (hr : r ≠ [])
    (hd : Text.isIdentRest d = false ∧ isNumeral d = false ∧ goesOn d = false ∧
      d ≠ '+' ∧ d ≠ '-' ∧ d.isDigit = false) (ho : d = '[' → leavesOpen ls = false)
    (z : List Char) : Reads (ls.flatMap Lexeme.text ++ d :: z) ls (d :: z) := by
  refine h.before (fun l _ => ends_of_fresh hd l r z) (fun hl n hn => ?_) fun he => absurd he hr
  have heq : d ≠ '=' := by
    rintro rfl
    exact absurd hd.2.2.1 (by decide)
  have hbr : d ≠ '[' := fun hbr => by
    rw [ho hbr] at hl
    cases hl
  rw [level?_cons, if_neg heq, if_neg hbr] at hn
  cases hn

/-- In front of what does not go on with it a text is cut into the pieces. -/
def CutsOff (t : List Char) (ls : List Lexeme) : Prop :=
  ∀ z : List Char, (∀ d ∈ z.head?, isJoint d = false) → Reads (t ++ z) ls z

theorem cutsOff_word {c : Char} (hc : Text.isIdentStart c = true)
    (hw : w.all Text.isIdentRest = true) : CutsOff (c :: w) [⟨some .ident, c :: w⟩] := by
  intro z hz
  have hz' : ∀ d ∈ z.head?, Text.isIdentRest d = false := fun d hd => by
    have := hz d hd
    rw [isJoint, Bool.or_eq_false_iff] at this
    exact this.1
  exact .step (piece_word hc hw hz') (.refl z)

theorem reads_enclosed {o c : Char} (h : CutsOff t ls) (hc : isLone c = true)
    (hj : isJoint c = false) (ho : Piece (o :: (t ++ c :: z)) (punctPiece o) (t ++ c :: z)) :
    Reads (o :: t ++ [c] ++ z) (punctPiece o :: ls ++ [punctPiece c]) z := by
  have hread := reads_append.2
    ⟨_, h (c :: z) (by simpa using hj), .step (piece_lone hc z) (.refl z)⟩
  simpa using Reads.step ho hread

/-- Between the same two texts the pieces of one text are exchanged for those of another, and the
pieces before and behind stay. -/
def Exchanges (u : List Char) (ps qs : List Lexeme) (v : List Char) : Prop :=
  ∃ ls₁ ls₂, ls₁.flatMap Lexeme.text = u ∧
    lexemes 0 (u ++ ps.flatMap Lexeme.text ++ v) = .ok (ls₁ ++ ps ++ ls₂) ∧
    lexemes 0 (u ++ qs.flatMap Lexeme.text ++ v) = .ok (ls₁ ++ qs ++ ls₂)

abbrev Word := Kind × String

def Lexeme.word? (l : Lexeme) : Option Word := l.kind.map fun k => (k, String.ofList l.text)

def wording (s : String) : Except LexError (List Word) :=
  (tokens s).map (List.map fun t => (t.kind, t.text))

theorem word_place (offset : Nat) (ls : List Lexeme) :
    (place offset ls).map (fun t => (t.kind, t.text)) = ls.filterMap Lexeme.word? := by
  induction ls generalizing offset with
  | nil => rfl
  | cons l ls ih =>
    rw [place, List.map_append, ih]
    cases hk : l.kind <;> simp [Lexeme.token?, Lexeme.word?, hk]

theorem wording_of_lexemes {s : String} (h : lexemes 0 s.toList = .ok ls) :
    wording s = .ok (ls.filterMap Lexeme.word?) := by
  rw [wording, tokens, h]
  exact congrArg Except.ok (word_place 0 ls)

theorem Exchanges.wording {s t : String} (h : Exchanges u ps qs v)
    (hs : s.toList = u ++ ps.flatMap Lexeme.text ++ v)
    (ht : t.toList = u ++ qs.flatMap Lexeme.text ++ v) : ∃ ws ws',
      Rule.wording s = .ok (ws ++ ps.filterMap Lexeme.word? ++ ws') ∧
      Rule.wording t = .ok (ws ++ qs.filterMap Lexeme.word? ++ ws') := by
  obtain ⟨ls₁, ls₂, -, hp, hq⟩ := h
  rw [← hs] at hp
  rw [← ht] at hq
  refine ⟨ls₁.filterMap Lexeme.word?, ls₂.filterMap Lexeme.word?, ?_, ?_⟩
  · rw [wording_of_lexemes hp, List.filterMap_append, List.filterMap_append]
  · rw [wording_of_lexemes hq, List.filterMap_append, List.filterMap_append]

theorem lexemes_between {ls₁ ls₂ : List Lexeme} (hu : ls₁.flatMap Lexeme.text = u) :
    lexemes 0 (u ++ ps.flatMap Lexeme.text ++ v) = .ok (ls₁ ++ ps ++ ls₂) ↔
      Reads (u ++ (ps.flatMap Lexeme.text ++ v)) ls₁ (ps.flatMap Lexeme.text ++ v) ∧
        Reads (ps.flatMap Lexeme.text ++ v) ps v ∧ Reads v ls₂ [] := by
  rw [lexemes_eq_ok, List.append_assoc, List.append_assoc, reads_append]
  constructor
  · rintro ⟨y, h₁, h⟩
    obtain ⟨w, h₂, h₃⟩ := reads_append.1 h
    have hy : y = ps.flatMap Lexeme.text ++ v := by
      have := h₁.text_append
      rw [hu] at this
      exact List.append_cancel_left this
    subst hy
    have hw : w = v := List.append_cancel_left h₂.text_append
    subst hw
    exact ⟨h₁, h₂, h₃⟩
  · rintro ⟨h₁, h₂, h₃⟩
    exact ⟨_, h₁, reads_append.2 ⟨_, h₂, h₃⟩⟩

/-- Pieces are exchanged if the piece before ends in front of the new ones and those are cut off
what follows them. -/
theorem exchanges_iff : Exchanges u ps qs v ↔ ∃ ls₁ ls₂, ls₁.flatMap Lexeme.text = u ∧
    lexemes 0 (u ++ ps.flatMap Lexeme.text ++ v) = .ok (ls₁ ++ ps ++ ls₂) ∧
    Reads (u ++ (qs.flatMap Lexeme.text ++ v)) ls₁ (qs.flatMap Lexeme.text ++ v) ∧
    Reads (qs.flatMap Lexeme.text ++ v) qs v := by
  constructor
  · rintro ⟨ls₁, ls₂, hu, hp, hq⟩
    obtain ⟨h₁, h₂, -⟩ := (lexemes_between hu).1 hq
    exact ⟨ls₁, ls₂, hu, hp, h₁, h₂⟩
  · rintro ⟨ls₁, ls₂, hu, hp, h₁, h₂⟩
    obtain ⟨-, -, h₃⟩ := (lexemes_between hu).1 hp
    exact ⟨ls₁, ls₂, hu, hp, (lexemes_between hu).2 ⟨h₁, h₂, h₃⟩⟩

end Rulebook.Rule

namespace Rulebook.Json

open Rule (Lexeme CutsOff punctPiece)

variable {v : Json}

def numeralPieces (v : Json) : List Lexeme :=
  if v.hasSign then [punctPiece '-', ⟨some .number, v.compact.tail⟩]
  else [⟨some .number, v.compact⟩]

theorem text_numeralPieces (hv : v.IsNumber) :
    (numeralPieces v).flatMap Lexeme.text = v.compact := by
  obtain ⟨m, -, hc⟩ := numeral_compact hv
  unfold numeralPieces
  split
  · next hs =>
    rw [hc, hs]
    simp [punctPiece]
  · simp

theorem cutsOff_numeral (hv : v.IsNumber) : CutsOff v.compact (numeralPieces v) := by
  intro z hz
  obtain ⟨m, hm, hc⟩ := numeral_compact hv
  have hzn : ∀ d ∈ z.head?, Rule.isNumeral d = false := fun d hd =>
    Rule.isNumeral_of_not_isJoint (hz d hd)
  have hread := Rule.piece_numeral hm hzn
  unfold numeralPieces
  cases hs : v.hasSign with
  | true =>
    rw [hs, if_pos rfl, List.singleton_append] at hc
    have hdash : (m ++ z).head? ≠ some '-' := by
      obtain ⟨d, t, rfl, hd⟩ := Rule.numeral_cons hm
      rintro ⟨⟩
      cases hd
    rw [hc]
    exact .step (Rule.piece_minus hdash) (.step hread (.refl z))
  | false =>
    rw [hs, if_neg (by decide), List.nil_append] at hc
    rw [hc]
    exact .step hread (.refl z)

end Rulebook.Json

namespace Rulebook.Template

open Rule (Lexeme punctPiece)

variable {x z u v w : List Char} {b : Bindings} {name : String}

def holePieces (name : String) : List Lexeme :=
  [punctPiece '\x7b', ⟨some .ident, name.toList⟩, punctPiece '\x7d']

theorem holePieces_text (name : String) :
    (holePieces name).flatMap Lexeme.text = (Segment.hole name).text := by
  simp [holePieces, punctPiece, Segment.text]

theorem hole?_of_isIdent (h : Text.isIdent name = true) (z : List Char) :
    hole? (name.toList ++ '\x7d' :: z) = some (name, z) := by
  unfold Text.isIdent at h
  refine hole?_eq_some.2 ?_
  cases hn : name.toList with
  | nil => simp [hn] at h
  | cons c cs =>
    simp only [hn, Bool.and_eq_true, List.all_eq_true] at h
    refine ⟨⟨by simp [hn], ?_⟩, by simpa using h.1, rfl⟩
    rw [hn]
    intro d hd
    rcases List.mem_cons.1 hd with rfl | hd
    · exact Rule.isIdentRest_of_isIdentStart h.1
    · exact h.2 d hd

theorem segments_of_isIdent (h : Text.isIdent name = true) (z : List Char) :
    segments ((Segment.hole name).text ++ z) = .hole name :: segments z := by
  have := segments_hole (hole?_of_isIdent h z)
  simpa [Segment.text] using this

theorem segments_hole_text (h : Text.isIdent name = true) :
    segments (Segment.hole name).text = [.hole name] := by
  have := segments_of_isIdent h []
  rwa [List.append_nil, show segments [] = [] by rw [segments]] at this

theorem image_hole (h : Text.isIdent name = true) (s : Stand) (z : List Char) :
    image b s (Segment.hole name).text z = (Part.hole name s.1).fill b := by
  rw [image, segments_hole_text h, marks, marks, List.mapM_cons, List.mapM_nil]
  cases (Part.hole name s.1).fill b with
  | error => rfl
  | ok w => exact congrArg Except.ok (List.append_nil w)

/-- A placeholder becomes what its value is written as, and what follows it is a rule of its own. -/
theorem becomes_code {text out : String} (hname : Text.isIdent name = true)
    (htext : text.toList = x ++ (Segment.hole name).text ++ z)
    (hcode : (scan (.code, 0) x ((Segment.hole name).text ++ z)).1 = .code)
    (hout : substituteRule text b = .ok out) :
    ∃ u w v, Becomes b [] x ((Segment.hole name).text ++ z) u ∧
      (Part.hole name .code).fill b = .ok w ∧
      substituteRule (String.ofList z) b = .ok (String.ofList v) ∧ out.toList = u ++ w ++ v := by
  have hx : Cuts x ((Segment.hole name).text ++ z) := cuts_before (by decide) (by decide) x _
  have hz : Cuts (Segment.hole name).text z := by
    rw [Cuts, segments_of_isIdent hname, segments_hole_text hname]
    rfl
  have h := becomes_rule.1 hout
  rw [htext, List.append_assoc] at h
  obtain ⟨u, _, hu, h, ho⟩ := (becomes_append hx).1 h
  obtain ⟨w, v, hw, hv, rfl⟩ := (becomes_append hz).1 h
  have hdue : Due (scan (.code, 0) x ((Segment.hole name).text ++ z))
      ((Segment.hole name).text ++ z) := due_scan (due_code _)
  generalize hs : scan (.code, 0) x ((Segment.hole name).text ++ z) = s at hcode hdue
  obtain ⟨p, k⟩ := s
  obtain rfl : p = .code := hcode
  have hisName : IsName name := (hole?_eq_some.1 (hole?_of_isIdent hname [])).1
  have hover : scan (.code, k) (Segment.hole name).text z = (.code, 0) :=
    scan_hole hisName (by simpa [Segment.text] using hdue)
  refine ⟨u, w, v, by simpa using hu, ?_, ?_, by rw [ho, List.append_assoc]⟩
  · rwa [Becomes, List.append_nil, List.nil_append, hs, image_hole hname] at hw
  · refine (becomes_end ?_).1 hv
    rw [List.nil_append, scan_append, hs, hover]

theorem rule_of_holeless (hz : Holeless z)
    (hv : substituteRule (String.ofList z) b = .ok (String.ofList v)) : v = z := by
  rw [substituteRule_eq_ok, String.toList_ofList, String.toList_ofList, image_holeless hz] at hv
  exact (Except.ok.inj hv).symm

end Rulebook.Template
