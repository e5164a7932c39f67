import Rulebook.Proofs.InStep
import Rulebook.Proofs.Places

namespace Rulebook.Rule

def Lexeme.comment? (l : Lexeme) : Option Nat :=
  match l.kind, l.text with
  | none, '-' :: '-' :: x => bracket? x
  | _, _ => none

end Rulebook.Rule

namespace Rulebook.Template

open Rule (Lexeme Piece Token LiesIn inside isQuote through closer opener byteLength tokens lexemes)

variable {x y z r t u w w' : List Char} {n : String} {k : Nat} {p : Position}
variable {l : Lexeme} {ls : List Lexeme} {ss₁ ss₂ : List Segment}

theorem segments_beginning (h : segments y = ss₁ ++ ss₂) :
    segments (ss₁.flatMap Segment.text) = ss₁ := by
  induction y using segments_induction generalizing ss₁ with
  | nil =>
    rw [segments] at h
    obtain ⟨rfl, -⟩ := List.append_eq_nil_iff.1 h.symm
    simp [segments]
  | hole n r hn hs ih =>
    rw [segments_hole hs] at h
    cases ss₁ with
    | nil => simp [segments]
    | cons t ss₁ =>
      obtain ⟨rfl, hr⟩ := List.cons.inj h
      obtain ⟨-, hstart, -⟩ := hole?_eq_some.1 hs
      have hx : hole? (n.toList ++ '\x7d' :: ss₁.flatMap Segment.text) =
          some (n, ss₁.flatMap Segment.text) := hole?_eq_some.2 ⟨hn, hstart, rfl⟩
      have := segments_hole hx
      rw [ih hr] at this
      simpa [Segment.text] using this
  | char c x hs hb ih =>
    rw [hs] at h
    cases ss₁ with
    | nil => simp [segments]
    | cons t ss₁ =>
      obtain ⟨rfl, hx⟩ := List.cons.inj h
      have htext : ss₁.flatMap Segment.text ++ ss₂.flatMap Segment.text = x := by
        rw [← List.flatMap_append, ← segments_text x, hx]
        rfl
      rw [List.flatMap_cons, Segment.text, List.singleton_append]
      by_cases hc : c = '\x7b'
      · subst hc
        have hnone : hole? (ss₁.flatMap Segment.text) = none := by
          rw [Option.eq_none_iff_forall_ne_some]
          rintro ⟨n, r⟩ hn
          have := hole?_append hn (ss₂.flatMap Segment.text)
          rw [htext, hb rfl] at this
          cases this
        rw [segments_brace hnone, ih hx]
      · rw [segments_char hc, ih hx]

def Part.segment : Part → Segment
  | text c => .char c
  | hole n _ => .hole n

theorem segment_marks (z : List Char) (s : Stand) (ss : List Segment) :
    (marks z s ss).map Part.segment = ss := by
  induction ss generalizing s with
  | nil => rfl
  | cons t ss ih =>
    cases t with
    | char c => rw [marks, List.map_cons, ih, Part.segment]
    | hole n => rw [marks, List.map_cons, ih, Part.segment]

theorem parts_hole {text : String} (h : segments text.toList = ss₁ ++ .hole n :: ss₂) :
    ∃ ps qs, parts text = ps ++ .hole n (scan (.code, 0) (ss₁.flatMap Segment.text)
        (Segment.text (.hole n) ++ ss₂.flatMap Segment.text)).1 :: qs ∧
      ps.map Part.segment = ss₁ ∧ qs.map Part.segment = ss₂ := by
  have hmarks := marks_append (y := []) (z := Segment.text (.hole n) ++ ss₂.flatMap Segment.text)
    (due_code (ss₁.flatMap Segment.text ++ _)) (.hole n :: ss₂) (by simp)
  rw [segments_beginning h] at hmarks
  rw [parts, annotate_eq_marks, h, hmarks, marks]
  exact ⟨_, _, rfl, segment_marks _ _ ss₁, segment_marks _ _ ss₂⟩

theorem scan_open (h : through (closer k) x = some (u ++ '\x7b' :: w, r)) :
    scan (.longBracket k, 0) u ('\x7b' :: w ++ r) = (.longBracket k, 0) := by
  generalize ht : u ++ '\x7b' :: w = t at h
  fun_induction through (closer k) x generalizing t u with
  | case1 => cases h
  | case2 c x hp =>
    cases h
    have hmem : '\x7b' ∈ closer k := by simp [← ht]
    rcases mem_closer hmem with h | h <;> cases h
  | case3 c x hp ih =>
    obtain ⟨⟨t', r'⟩, h', e⟩ := Option.map_eq_some_iff.1 h
    cases e
    cases u with
    | nil => rfl
    | cons d u =>
      obtain ⟨rfl, rfl⟩ := List.cons.inj ht
      have hx : u ++ ('\x7b' :: w ++ r) = x := by
        rw [← Rule.through_append h', ← List.append_assoc]
        rfl
      rw [scan, advance, Position.next, hx, if_neg hp]
      exact ih _ rfl h'

/-- The pieces in which a brace can stand, with what stands before it and behind it in the piece,
and behind the piece. -/
inductive Braced : Lexeme → List Char → List Char → List Char → Prop
  | alone (r : List Char) : Braced ⟨some .punct, ['\x7b']⟩ [] [] r
  | quoted {q : Char} {u v r : List Char} {e : Bool} (hq : isQuote q = true)
    (h : inside q false u = some e) :
    Braced ⟨some .str, q :: (u ++ '\x7b' :: (v ++ [q]))⟩ (q :: u) (v ++ [q]) r
  | bracket {k : Nat} {u v x r : List Char}
    (h : through (closer k) x = some (u ++ '\x7b' :: v, r)) :
    Braced ⟨some .str, opener k ++ (u ++ '\x7b' :: v)⟩ (opener k ++ u) v r
  | longComment {k : Nat} {u v x r : List Char}
    (h : through (closer k) x = some (u ++ '\x7b' :: v, r)) :
    Braced ⟨none, '-' :: '-' :: opener k ++ (u ++ '\x7b' :: v)⟩ ('-' :: '-' :: opener k ++ u) v r
  | lineComment {u v r : List Char} (hu : '\n' ∉ u)
    (h : Rule.bracket? (u ++ '\x7b' :: v ++ r) = none) :
    Braced ⟨none, '-' :: '-' :: (u ++ '\x7b' :: v)⟩ ('-' :: '-' :: u) v r

theorem before_brace {y z w : List Char} (hy : '\x7b' ∉ y) (he : y ++ z = w ++ '\x7b' :: w') :
    ∃ u, w = y ++ u ∧ z = u ++ '\x7b' :: w' :=
  Rule.append_eq_append_of_not_mem hy he

theorem braced_of_quoted {t : List Char} (hq : isQuote q = true)
    (h : Rule.quoted q x = some (t, r)) (ht : q :: t = w ++ '\x7b' :: w') :
    Braced ⟨some .str, q :: t⟩ w w' r := by
  obtain ⟨y, rfl, -, hy⟩ := (Rule.quoted_eq_some hq).1 h
  have hbrace : '\x7b' ≠ q := by
    rintro rfl
    exact absurd hq (by decide)
  obtain ⟨u, rfl, hu⟩ := before_brace (y := [q]) (by simpa using hbrace) ht
  rcases List.append_eq_append_iff.1 hu with ⟨v, -, hv⟩ | ⟨v, rfl, hv⟩
  · cases v <;> simp [Ne.symm hbrace] at hv
  · cases v with
    | nil => exact absurd (List.cons.inj hv).1 hbrace
    | cons d v =>
      obtain ⟨rfl, rfl⟩ := List.cons.inj hv
      rw [Rule.inside_append] at hy
      obtain ⟨e, he, -⟩ := Option.bind_eq_some_iff.1 hy
      have htext : u ++ '\x7b' :: v ++ [q] = u ++ '\x7b' :: (v ++ [q]) := by simp
      rw [htext]
      exact .quoted hq he

theorem braced_of_piece (h : Piece x l r) (ht : l.text = w ++ '\x7b' :: w') : Braced l w w' r := by
  have hmem : '\x7b' ∈ l.text := by simp [ht]
  cases h with
  | @blank c r h =>
    obtain rfl := List.mem_singleton.1 hmem
    exact absurd h (by decide)
  | @longComment k x t r h =>
    obtain ⟨u, rfl, rfl⟩ := before_brace (by simp [not_mem_opener]) ht
    exact .longComment h
  | @lineComment x h =>
    obtain ⟨u, rfl, hu⟩ := before_brace (y := ['-', '-']) (by simp) ht
    have hx : u ++ '\x7b' :: w' ++ (Rule.line x).2 = x := by rw [← hu, Rule.line_append]
    rw [hu]
    refine .lineComment (Rule.not_mem_of_line hu) ?_
    rwa [hx]
  | @name c x h =>
    rcases List.mem_cons.1 hmem with rfl | hm
    · exact absurd h (by decide)
    · exact absurd (List.all_eq_true.1 List.all_takeWhile _ hm) (by decide)
  | @number x h =>
    rcases Rule.mem_number hmem with h | h | h <;> exact absurd h (by decide)
  | quoted hq h => exact braced_of_quoted hq h ht
  | @bracket k x t r h =>
    obtain ⟨u, rfl, rfl⟩ := before_brace not_mem_opener ht
    exact .bracket h
  | @punct c x h =>
    obtain ⟨y, r, ho, rfl⟩ := Rule.operator_cons c x
    rw [ho] at ht hmem ⊢
    rcases Rule.operator_tail ho with rfl | hy
    · obtain rfl := List.mem_singleton.1 hmem
      cases w with
      | nil =>
        cases ht
        exact .alone r
      | cons d w => simp at ht
    · have hall : ∀ o ∈ Rule.operators, '\x7b' ∉ o := by decide
      exact absurd hmem (hall _ hy)

structure Fits (l : Lexeme) (p : Position) : Prop where
  quoted : ∀ q, p = .quoted q ↔ l.kind = some .str ∧ ∃ w, l.text = q :: (w ++ [q])
  longBracket : ∀ k, p = .longBracket k ↔
    l.kind = some .str ∧ Rule.bracket? l.text = some k ∨ l.comment? = some k
  lineComment : p = .lineComment ↔ l.isLineComment = true
  code : p = .code ↔ l = ⟨some .punct, ['\x7b']⟩

theorem fits_quoted (hq : isQuote q = true) (u : List Char) :
    Fits ⟨some .str, q :: (u ++ [q])⟩ (.quoted q) := by
  have hbracket : Rule.bracket? (q :: (u ++ [q])) = none := by
    have hne : q ≠ '[' := by
      rintro rfl
      exact absurd hq (by decide)
    simp [Rule.bracket?, hne]
  constructor
  · intro q'
    constructor
    · rintro ⟨⟩
      exact ⟨rfl, u, rfl⟩
    · rintro ⟨-, w, hw⟩
      rw [(List.cons.inj hw).1]
  · simp [hbracket, Lexeme.comment?]
  · simp [Lexeme.isLineComment]
  · simp

theorem fits_bracket (h : through (closer k) x = some (t, r)) :
    Fits ⟨some .str, opener k ++ t⟩ (.longBracket k) := by
  have hbracket : Rule.bracket? (opener k ++ t) = some k := Rule.bracket?_eq_some.2 ⟨t, rfl⟩
  have hlast : (opener k ++ t).getLast? = some ']' := by
    obtain ⟨u, rfl⟩ := Rule.through_eq_some h
    have hcloser : closer k = ']' :: List.replicate k '=' ++ [']'] := rfl
    rw [hcloser, ← List.append_assoc, ← List.append_assoc, List.getLast?_concat]
  constructor
  · intro q
    simp only [reduceCtorEq, true_and, false_iff]
    rintro ⟨w, hw⟩
    -- the first character is a bracket that opens, the last one closes
    have hfirst : '[' = q := by
      rw [Rule.opener_append] at hw
      exact (List.cons.inj hw).1
    rw [hw, ← hfirst, ← List.cons_append, List.getLast?_concat] at hlast
    cases hlast
  · simp [hbracket, Lexeme.comment?]
  · simp [Lexeme.isLineComment]
  · simp

theorem fits_longComment (k : Nat) (t : List Char) :
    Fits ⟨none, '-' :: '-' :: opener k ++ t⟩ (.longBracket k) := by
  have hbracket : Rule.bracket? (opener k ++ t) = some k := Rule.bracket?_eq_some.2 ⟨t, rfl⟩
  constructor <;> simp [Lexeme.comment?, Lexeme.isLineComment, hbracket]

theorem fits_lineComment (h : Rule.bracket? t = none) :
    Fits ⟨none, '-' :: '-' :: t⟩ .lineComment := by
  constructor <;> simp [Lexeme.comment?, Lexeme.isLineComment, h]

theorem fits_alone : Fits ⟨some .punct, ['\x7b']⟩ .code := by
  constructor <;> simp [Lexeme.comment?, Lexeme.isLineComment]

/-- In front of a brace in a piece the scanner has the position that fits the piece. -/
theorem Braced.fits (h : Braced l w w' r) (hl : l.text.head? ≠ some '\x60') :
    Fits l (scan (.code, 0) w ('\x7b' :: w' ++ r)).1 := by
  cases h with
  | alone => exact fits_alone
  | @quoted q u v r e hq h =>
    have hq' := (Rule.isQuote_iff_of_ne (by simpa using hl)).1 hq
    rw [scan_quoted hq' h]
    simpa using fits_quoted hq (u ++ '\x7b' :: v)
  | @bracket k u v x r h =>
    rw [scan_append, scan_opener, scan_open h]
    exact fits_bracket h
  | @longComment k u v x r h =>
    rw [scan_append, scan_longComment, scan_open h]
    exact fits_longComment k _
  | @lineComment u _ _ hu h =>
    have hbracket : Rule.bracket? (u ++ '\x7b' :: w') = none := by
      refine Option.eq_none_iff_forall_ne_some.2 fun n hn => ?_
      obtain ⟨y, hy⟩ := Rule.bracket?_eq_some.1 hn
      rw [hy, List.append_assoc, Rule.bracket?_eq_some.2 ⟨_, rfl⟩] at h
      cases h
    rw [scan_comment h ('\x7b' :: w' ++ r) (by simp), scan_line hu]
    exact fits_lineComment hbracket

theorem steady_of_forall (h : ∀ l ∈ ls, ∀ r, misleads l r = false) (r : List Char) :
    steady ls r = true := by
  induction ls with
  | nil => rfl
  | cons l ls ih =>
    rw [steady, h l List.mem_cons_self, ih fun m hm => h m (List.mem_cons_of_mem _ hm)]
    rfl

/-- Where the scanner is not led astray, its position in front of a brace fits the piece in which
the brace stands. -/
theorem fits_brace {text : String} (hls : lexemes 0 text.toList = .ok ls)
    (hsteady : ∀ l ∈ ls, ∀ r, misleads l r = false) (hback : '\x60' ∉ text.toList)
    (hx : text.toList = x ++ '\x7b' :: z) :
    ∃ l, LiesIn text (byteLength x) l ∧ Fits l (scan (.code, 0) x ('\x7b' :: z)).1 := by
  have hreads := Rule.lexemes_eq_ok.1 hls
  have htext : ls.flatMap Lexeme.text = x ++ '\x7b' :: z := by
    rw [← hx, ← hreads.text_append, List.append_nil]
  obtain ⟨ls₁, l, ls₂, w, w', rfl, rfl, hl, rfl⟩ := Rule.exists_piece htext
  obtain ⟨y, h₁, h₂⟩ := Rule.reads_append.1 hreads
  cases h₂ with
  | @step _ r _ _ _ hp hr =>
    have hrest : ls₂.flatMap Lexeme.text = r := by simpa using hr.text_append
    have hy : y = w ++ '\x7b' :: (w' ++ r) := by
      rw [← hp.text_append, hl, List.append_assoc, List.cons_append]
    have hcode : scan (.code, 0) (ls₁.flatMap Lexeme.text) y = (.code, 0) :=
      scan_reads h₁ (steady_of_forall (fun m hm => hsteady m (List.mem_append_left _ hm)) y)
        (by simp [hy])
    have hhead : l.text.head? ≠ some '\x60' := by
      intro h
      obtain ⟨v, hv⟩ := List.head?_eq_some_iff.1 h
      refine hback ?_
      rw [← hreads.text_append]
      simp [hv]
    refine ⟨l, ⟨ls₁, ls₂, hls, ?_, ?_⟩, ?_⟩
    · rw [Rule.byteLength_append]
      exact Nat.le_add_right _ _
    · have := Char.utf8Size_pos '\x7b'
      simp only [hl, Rule.byteLength_append, byteLength]
      omega
    · rw [scan_append, hrest, ← hy, hcode]
      exact (braced_of_piece hp hl).fits hhead

/-- Scanner and tokenizer agree on the position of a placeholder that begins at the byte. -/
structure Agrees (text : String) (ts : List Token) (i : Nat) (p : Position) : Prop where
  quoted : ∀ q, p = .quoted q ↔
    ∃ t ∈ ts, t.Covers i ∧ t.kind = .str ∧ ∃ w, t.text.toList = q :: (w ++ [q])
  longBracket : ∀ k, p = .longBracket k ↔
    (∃ t ∈ ts, t.Covers i ∧ t.kind = .str ∧ Rule.bracket? t.text.toList = some k) ∨
      ∃ l, LiesIn text i l ∧ l.comment? = some k
  lineComment : p = .lineComment ↔ ∃ l, LiesIn text i l ∧ l.isLineComment = true
  code : p = .code ↔ ⟨.punct, "\x7b", i, i + 1⟩ ∈ ts

theorem agrees_of_fits {text : String} {ts : List Token} {i : Nat} (hts : tokens text = .ok ts)
    (hc : LiesIn text i l) (h : Fits l p) : Agrees text ts i p := by
  have hstr (P : List Char → Prop) :
      (∃ t ∈ ts, t.Covers i ∧ t.kind = .str ∧ P t.text.toList) ↔
        l.kind = some .str ∧ P l.text := by
    rw [Rule.exists_token_iff hts (P := fun k x => k = .str ∧ P x), Rule.exists_liesIn_iff hc]
    simp
  constructor
  · intro q
    rw [h.quoted, hstr fun x => ∃ w, x = q :: (w ++ [q])]
  · intro k
    rw [h.longBracket, hstr fun x => Rule.bracket? x = some k, Rule.exists_liesIn_iff hc]
  · rw [h.lineComment, Rule.exists_liesIn_iff hc]
  · rw [h.code]
    constructor
    · rintro rfl
      obtain ⟨ls₁, ls₂, hls, hstart, hstop⟩ := hc
      obtain ⟨ls, hls', rfl⟩ := map_eq_ok.1 hts
      obtain rfl := Except.ok.inj (hls'.symm.trans hls)
      have hlength : byteLength ['\x7b'] = 1 := by decide
      rw [Rule.byteLength_append, hlength] at hstop
      obtain rfl : i = byteLength (ls₁.flatMap Lexeme.text) := by omega
      refine Rule.mem_place_iff.2 ⟨ls₁, _, ls₂, rfl, ?_⟩
      rw [Nat.zero_add, Lexeme.token?, hlength]
      rfl
    · intro ht
      have hbrace : ∃ t ∈ ts, t.Covers i ∧ t.kind = .punct ∧ t.text.toList = ['\x7b'] :=
        ⟨_, ht, ⟨le_rfl, Nat.lt_succ_self i⟩, rfl, by simp⟩
      rw [Rule.exists_token_iff hts (P := fun k x => k = .punct ∧ x = ['\x7b']),
        Rule.exists_liesIn_iff hc] at hbrace
      obtain ⟨k, hk, rfl, htext⟩ := hbrace
      obtain ⟨kind, text⟩ := l
      cases hk
      cases htext
      rfl

theorem misleads_eq_false {text : String} {ts : List Token} (hts : tokens text = .ok ts)
    (hback : '\x60' ∉ text.toList)
    (hsign : ∀ t ∈ ts, t.kind = .number → ∀ c ∈ t.text.toList.getLast?, c ≠ '+' ∧ c ≠ '-')
    (hls : lexemes 0 text.toList = .ok ls) : ∀ l ∈ ls, ∀ r, misleads l r = false := by
  intro l hl r
  rw [tokens, hls] at hts
  cases hts
  unfold misleads
  split
  · next hk =>
    rw [decide_eq_false_iff_not]
    intro hhead
    obtain ⟨v, hv⟩ := List.head?_eq_some_iff.1 hhead
    refine hback ?_
    rw [← (Rule.lexemes_eq_ok.1 hls).text_append, List.append_nil]
    exact List.mem_flatMap.2 ⟨l, hl, by simp [hv]⟩
  · next hk =>
    obtain ⟨t, ht, hkind, htext⟩ := Rule.mem_place hl hk
    rw [Bool.and_eq_false_iff, decide_eq_false_iff_not]
    refine .inl fun hlast => ?_
    have := hsign t ht hkind '-'
    rw [htext, String.toList_ofList] at this
    exact (this hlast).2 rfl
  · rfl

/-- A placeholder has the position that the tokenizer gives to its first brace. Left out are
literals in back quotes and numerals that end in a sign, over which the two fall out of step. -/
theorem hole_position_agrees {text name : String} {ts : List Token} (hts : tokens text = .ok ts)
    (hback : '\x60' ∉ text.toList)
    (hsign : ∀ t ∈ ts, t.kind = .number → ∀ c ∈ t.text.toList.getLast?, c ≠ '+' ∧ c ≠ '-')
    (hhole : segments text.toList = ss₁ ++ .hole name :: ss₂) :
    ∃ p ps qs, parts text = ps ++ .hole name p :: qs ∧
      ps.map Part.segment = ss₁ ∧ qs.map Part.segment = ss₂ ∧
      Agrees text ts (byteLength (ss₁.flatMap Segment.text)) p := by
  obtain ⟨ls, hls, -⟩ := map_eq_ok.1 hts
  obtain ⟨ps, qs, hparts, hps, hqs⟩ := parts_hole hhole
  have htext : text.toList = ss₁.flatMap Segment.text ++
      '\x7b' :: (name.toList ++ ['\x7d'] ++ ss₂.flatMap Segment.text) := by
    rw [← segments_text text.toList, hhole]
    simp [Segment.text]
  obtain ⟨l, hc, hfits⟩ := fits_brace hls (misleads_eq_false hts hback hsign hls) hback htext
  exact ⟨_, ps, qs, hparts, hps, hqs, agrees_of_fits hts hc hfits⟩

theorem hole_position_agrees_quoted :
    tokens "n ~= '\x7bn\x7d'" = .ok [⟨.ident, "n", 0, 1⟩, ⟨.punct, "~=", 2, 4⟩,
      ⟨.str, "'\x7bn\x7d'", 5, 10⟩] ∧
    ∃ ps qs, parts "n ~= '\x7bn\x7d'" = ps ++ .hole "n" (.quoted '\'') :: qs ∧
      ps.map Part.segment =
        [.char 'n', .char ' ', .char '~', .char '=', .char ' ', .char '\''] := by
  have htokens : tokens "n ~= '\x7bn\x7d'" = .ok [⟨.ident, "n", 0, 1⟩, ⟨.punct, "~=", 2, 4⟩,
      ⟨.str, "'\x7bn\x7d'", 5, 10⟩] := by cbv
  have hhole : segments "n ~= '\x7bn\x7d'".toList =
      [.char 'n', .char ' ', .char '~', .char '=', .char ' ', .char '\''] ++
        .hole "n" :: [.char '\''] := by cbv
  obtain ⟨p, ps, qs, hparts, hps, -, hagrees⟩ :=
    hole_position_agrees htokens (by decide) (by simp) hhole
  have hquoted : p = .quoted '\'' := (hagrees.quoted '\'').2
    ⟨⟨.str, "'\x7bn\x7d'", 5, 10⟩, by simp, by decide, rfl, ['\x7b', 'n', '\x7d'], by decide⟩
  exact ⟨htokens, ps, qs, hquoted ▸ hparts, hps⟩

end Rulebook.Template
