import Rulebook.Proofs.QuotedTexts
import Rulebook.Proofs.SafeWords
import Rulebook.Proofs.ScriptSeams

namespace Rulebook.Script.Token

def isSign (s : String) : Token → Bool
  | sign t => t = s
  | _ => false

def text? : Token → Option ByteArray
  | str s => some s
  | _ => none

variable {q : Char} {x r t u : List Char} {fuel n line line' : Nat}

/-- A quoted text without a backslash is read as it is written. -/
theorem quoted_verbatim {acc b : List UInt8} (hq : q ≠ '\\') (hu : '\\' ∉ u)
    (hin : Rule.inside q false u = some false)
    (h : quoted fuel q (u ++ q :: r) acc line = .ok (b, x, line')) :
    b = (u.flatMap String.utf8EncodeChar).reverse ++ acc := by
  induction u generalizing fuel acc with
  | nil =>
    cases fuel with
    | zero => cases h
    | succ fuel =>
      rw [List.nil_append, quoted_plain fuel q q hq, if_pos rfl] at h
      cases h
      rfl
  | cons c u ih =>
    cases fuel with
    | zero => cases h
    | succ fuel =>
      obtain ⟨hc, hu⟩ := not_or.1 (mt List.mem_cons.2 hu)
      have hc : c ≠ '\\' := Ne.symm hc
      rw [Rule.inside, if_neg hc] at hin
      rw [List.cons_append, quoted_plain fuel q c hc] at h
      split at hin
      · cases hin
      · next hn =>
        rw [if_neg (by simp_all)] at h
        split at h
        · cases h
        · rw [ih hu hin h, utf8_eq, List.flatMap_cons, List.reverse_append, List.append_assoc]

theorem long_verbatim {acc : List Char} (hr : '\r' ∉ x) (hf : x.length < fuel)
    (h : Rule.through (Rule.closer n) x = some (u ++ Rule.closer n, r)) :
    ∃ line', long fuel n x acc line = some (u.reverse ++ acc, r, line') := by
  induction fuel generalizing x u acc line with
  | zero => omega
  | succ fuel ih =>
    cases x with
    | nil => cases h
    | cons c x =>
      obtain ⟨hc, hx⟩ := not_or.1 (mt List.mem_cons.2 hr)
      rw [Rule.through, ← closer_prefix_iff] at h
      rw [long]
      split at h
      · next hclose =>
        rw [if_pos hclose]
        simp only [Option.some.injEq, Prod.mk.injEq] at h
        obtain ⟨hu, rfl⟩ := h
        obtain rfl : u = [] := List.append_left_eq_self.1 hu.symm
        exact ⟨line, by simp [Rule.closer]⟩
      · next hclose =>
        rw [if_neg hclose]
        obtain ⟨⟨t, r'⟩, ht, e⟩ := Option.map_eq_some_iff.1 h
        obtain ⟨v, rfl⟩ := Rule.through_eq_some ht
        simp only [Prod.mk.injEq] at e
        obtain ⟨e, rfl⟩ := e
        obtain rfl : c :: v = u := List.append_cancel_right e
        simp only [List.length_cons] at hf
        have hkeep (line : Nat) :
            ∃ line', long fuel n x (c :: acc) line = some (v.reverse ++ c :: acc, r', line') :=
          ih hx (by omega) ht
        split
        · next hb =>
          have hc : c = '\n' := by
            simpa [isBreak, Ne.symm hc] using hb
          subst hc
          have hdrop : dropBreak ('\n' :: x) = x := by
            cases x with
            | nil => rfl
            | cons d x =>
              have hd : d ≠ '\r' := fun h => hx (h ▸ List.mem_cons_self)
              simp [dropBreak, hd]
          rw [hdrop]
          simpa using hkeep (line + 1)
        · simpa using hkeep line

theorem longText?_verbatim (hr : '\r' ∉ x) (hn : x.head? ≠ some '\n')
    (h : Rule.through (Rule.closer n) x = some (u ++ Rule.closer n, r)) :
    ∃ line', longText? (List.replicate n '=' ++ '[' :: x) line = some (u, r, line') := by
  have hskip : skipBreak x = (x, 0) := by
    cases x with
    | nil => rfl
    | cons c x =>
      have hc : c ≠ '\r' := fun h => hr (h ▸ List.mem_cons_self)
      have hc' : c ≠ '\n' := fun h => hn (h ▸ rfl)
      simp [skipBreak, isBreak, hc, hc']
  obtain ⟨line', hl⟩ : ∃ line', long (x.length + 1) n x [] line =
      some (u.reverse ++ [], r, line') :=
    long_verbatim hr (Nat.lt_succ_self _) h
  refine ⟨line', longText?_eq_some.2 ⟨n, ?_, ?_⟩⟩
  · rw [level?_eq, Rule.level?_replicate]
  · rw [Rule.drop_opener, hskip]
    simpa using hl

end Rulebook.Script.Token

namespace Rulebook.Rule

open Script (bytes)
open Script.Token (Scans)

variable {x y r : List Char} {l : Lexeme} {ls : List Lexeme} {ks us : List Script.Token} {n : Nat}

def Lexeme.spelled (l : Lexeme) : List Script.Token :=
  match Script.Token.all (String.ofList l.lowered) with
  | .ok ts => (ts.map Script.Located.token).dropLast
  | .error _ => []

theorem spelled_of_scans (h : Scans l.lowered (ks ++ [.finish])) : l.spelled = ks := by
  rw [← String.toList_ofList (l := l.lowered)] at h
  obtain ⟨ts, hts, hmap⟩ := (Script.Token.all_eq_ok _).2 h
  rw [Lexeme.spelled, hts]
  simp only [hmap, List.dropLast_concat]

theorem Piece.alone (h : Piece x l r) : Piece l.text l [] := by
  have := h.seam (z := []) nofun (fun _ _ => rfl) (fun _ => rfl)
  rwa [List.append_nil] at this

def heardTokens : List Lexeme → List Script.Token
  | [] => []
  | l :: ls => if l.breaksEarly then [] else l.spelled ++ heardTokens ls

theorem scans_early (hp : Piece x l y) (hs : Reads y ls []) (hb : l.breaksEarly = true)
    (hus : Scans (l.lowered ++ closed ls) us) :
    Scans (l.text.dropWhile (· ≠ '\r') ++ closed ls) us := by
  obtain ⟨hc, hr⟩ := Bool.and_eq_true_iff.1 hb
  obtain ⟨u, rfl, hu, rfl, rfl⟩ := hp.line_comment hc
  have hr : '\r' ∈ (line u).1 := by simpa using hr
  have hstep := step_line hu (closed_of_nil hs) 0
  rw [dropWhile_line hr] at hstep
  obtain ⟨vs, rfl, hvs⟩ := (Script.Token.scans_step hstep).1 hus
  simpa using hvs

structure Lexeme.Stands (l : Lexeme) : Prop where
  piece : Piece l.text l []
  scans : Scans l.lowered (l.spelled ++ [.finish])
  known : ∀ t ∈ l.spelled, Script.Chunk.Known t

/-- The tokens that the interpreter finds: those of the pieces that the filter has read, each read
on its own, and those of what it has not. -/
theorem scans_rule (h : Reads x ls []) (hne : ∀ l ∈ ls, l ≠ ⟨some .punct, ['=', '>']⟩)
    (hus : Scans (closed ls) us) (hknown : ∀ t ∈ us, Script.Chunk.Known t) :
    ∃ vs, Scans (unread ls ++ ['\n', ')']) vs ∧ us = heardTokens ls ++ vs ∧
      ((∀ l ∈ ls, l.breaksEarly = false) → ∀ l ∈ ls, l.Stands) := by
  generalize hr : [] = r at h
  induction h generalizing us with
  | refl =>
    subst hr
    exact ⟨us, hus, rfl, nofun⟩
  | @step x y r l ls hp hs ih =>
    subst hr
    rw [closed_cons] at hus
    rw [heardTokens, unread]
    split
    · next hb =>
      refine ⟨us, ?_, rfl, fun hl => by simp [hl l List.mem_cons_self] at hb⟩
      rw [List.append_assoc]
      exact scans_early hp hs hb hus
    · next hb =>
      have hb : l.breaksEarly = false := by simpa using hb
      obtain ⟨vs, hvs, -, ks, rfl, hks⟩ :=
        yields_first hp hs hb (hne l List.mem_cons_self) us hus hknown
      obtain ⟨vs', hvs', rfl, hstands⟩ := ih (fun l hl => hne l (List.mem_cons_of_mem _ hl)) hvs
        (fun t ht => hknown t (List.mem_append_right _ ht)) rfl
      obtain rfl := spelled_of_scans hks.trim.scans
      refine ⟨vs', hvs', by rw [List.append_assoc], fun hl => List.forall_mem_cons.2 ⟨?_, ?_⟩⟩
      · exact ⟨hp.alone, hks.trim.scans, fun t ht => hknown t (List.mem_append_left _ ht)⟩
      · exact hstands fun l' hl' => hl l' (List.mem_cons_of_mem _ hl')

def Lexeme.contents (l : Lexeme) : String := Token.contents ⟨.str, String.ofList l.text, 0, 0⟩

def Lexeme.isOpening (l : Lexeme) : Bool := l = ⟨some .punct, ['[']⟩

/-- A piece that both read alike: a comment is not left early, no escape is written in a quoted
literal and no line break that counts otherwise in a long bracket, and no blank is an operator. -/
def Lexeme.isPlain (l : Lexeme) : Bool :=
  match l.kind, l.text with
  | none, _ => !l.breaksEarly
  | some .str, '[' :: cs =>
    !cs.contains '\r' && (cs.drop ((level? cs).getD 0 + 1)).head? != some '\n'
  | some .str, cs => !cs.contains '\\'
  | some .punct, cs => cs != ['\x0b']
  | _, _ => true

theorem breaksEarly_of_isPlain (h : l.isPlain = true) : l.breaksEarly = false := by
  obtain ⟨kind, text⟩ := l
  cases kind with
  | none => simpa [Lexeme.isPlain] using h
  | some => rfl

theorem isPlain_quoted {q : Char} (hq : isQuote q = true)
    (h : (⟨some .str, q :: x⟩ : Lexeme).isPlain = true) : '\\' ∉ x := by
  have hcontains : (!(q :: x).contains '\\') = true := by
    rcases isQuote_iff.1 hq with rfl | rfl | rfl <;> exact h
  intro hm
  simp [hm] at hcontains

theorem isPlain_bracket (h : (⟨some .str, opener n ++ x⟩ : Lexeme).isPlain = true) :
    '\r' ∉ x ∧ x.head? ≠ some '\n' := by
  rw [opener_append] at h
  simp only [Lexeme.isPlain, level?_replicate, Option.getD_some, drop_opener, Bool.and_eq_true] at h
  obtain ⟨hr, hn⟩ := h
  refine ⟨fun hm => ?_, by simpa using hn⟩
  simp [hm] at hr

theorem scans_whole {c : Char} (h : Scans (c :: x) us) {P : Option Script.Token → Prop}
    (hstep : ∀ k y n, Script.Token.step c x 0 = .ok (k, y, n) → y = [] ∧ P k) :
    ∃ k, us = k.toList ++ [.finish] ∧ P k := by
  cases h with
  | @step _ _ y n n' k vs hs hvs =>
    obtain ⟨n'', hs⟩ := (Script.Token.stable_step c x).other 0 hs
    obtain ⟨rfl, hk⟩ := hstep k y n'' hs
    cases hvs
    exact ⟨k, rfl, hk⟩

/-- The token of a piece, if it is one: a text if the piece is a literal, and then the one that the
filter compares if the literal is plain. -/
structure Lexeme.Denotes (l : Lexeme) (k : Option Script.Token) : Prop where
  none : k = none ↔ l.kind = none
  opening : k.any (·.isSign "[") = l.isOpening
  text : ∀ t ∈ k, ∀ s ∈ t.text?, l.kind = some .str ∧ s = bytes l.contents

theorem contents_quoted {q : Char} (hq : isQuote q = true) (u : List Char) :
    (⟨some .str, q :: (u ++ [q])⟩ : Lexeme).contents = String.ofList u := by
  rcases isQuote_iff.1 hq with rfl | rfl | rfl <;> simp [Lexeme.contents, Token.contents]

theorem contents_bracket (n : Nat) (u : List Char) :
    (⟨some .str, opener n ++ (u ++ closer n)⟩ : Lexeme).contents = String.ofList u := by
  have hlen : (List.replicate n '=' ++ '[' :: (u ++ closer n)).length - 2 * n - 3 = u.length := by
    simp [closer]
    omega
  rw [opener_append]
  simp only [Lexeme.contents, Token.contents, String.toList_ofList]
  simp only [level?_replicate, drop_opener, hlen, List.take_left]
  simp

/-- A plain literal is the text that the filter compares. -/
theorem denotes_literal (hp : Piece x l r) (hx : l.text = x) (hr : r = []) (hk : l.kind = some .str)
    (hplain : l.isPlain = true) (hscan : Scans x us) (hknown : ∀ t ∈ us, Script.Chunk.Known t) :
    us = [.str (bytes l.contents), .finish] := by
  cases hp with
  | @quoted q x t r hq h =>
    obtain ⟨u, rfl, rfl, hin⟩ := (quoted_eq_some hq).1 h
    subst hr
    have hu : '\\' ∉ u := fun hm => isPlain_quoted hq hplain (List.mem_append_left _ hm)
    by_cases hb : q = '\x60'
    · subst hb
      have hstep : Script.Token.step '\x60' (u ++ ['\x60']) 0 =
        .ok (some (.sign (String.singleton '\x60')), u ++ ['\x60'], 0) := rfl
      obtain ⟨vs, rfl, -⟩ := (Script.Token.scans_step hstep).1 hscan
      exact absurd (hknown _ List.mem_cons_self)
        (by decide : String.singleton '\x60' ∉ Script.Chunk.signs)
    have hq' : q = '"' ∨ q = '\'' := ((isQuote_iff_of_ne hb).1 hq).symm
    obtain ⟨k, rfl, rfl⟩ := scans_whole hscan (P := (· = some (.str (bytes (String.ofList u)))))
      fun k y n hstep => by
        rw [Script.Token.step_quoted hq'] at hstep
        obtain ⟨⟨b, z, l⟩, hs, e⟩ := map_eq_ok.1 hstep
        cases e
        refine ⟨Script.Token.quoted_of_inside hq' hin hs, ?_⟩
        have hne : q ≠ '\\' := by rcases hq' with rfl | rfl <;> decide
        rw [Script.Token.quoted_verbatim hne hu hin hs, List.append_nil, List.reverse_reverse,
          Script.Token.bytes_ofList]
    rw [contents_quoted hq]
    rfl
  | @bracket n x t r h =>
    obtain ⟨u, rfl⟩ := through_eq_some h
    subst hr
    obtain rfl : u ++ closer n = x := List.append_cancel_left hx
    obtain ⟨hr, hn⟩ := isPlain_bracket hplain
    rw [opener_append] at hscan
    obtain ⟨line', hl⟩ : ∃ line', Script.Token.longText?
        (List.replicate n '=' ++ '[' :: (u ++ closer n)) 0 = some (u, [], line') :=
      Script.Token.longText?_verbatim hr hn h
    obtain ⟨vs, rfl, hvs⟩ := (Script.Token.scans_step (Script.Token.step_longText hl)).1 hscan
    cases hvs
    rw [contents_bracket]
    rfl
  | blank | longComment | lineComment | name | number | punct => cases hk

theorem not_isOpening (hk : l.kind ≠ some .punct) : l.isOpening = false := by
  rw [Lexeme.isOpening, decide_eq_false_iff_not]
  rintro rfl
  exact hk rfl

theorem denotes_none (hk : l.kind = none) : l.Denotes none :=
  ⟨by simp [hk], by rw [not_isOpening (by simp [hk])]; rfl, nofun⟩

theorem denotes_other {t : Script.Token} (hk : l.kind ≠ none) (ht : t.text? = none)
    (ho : t.isSign "[" = l.isOpening) : l.Denotes (some t) := by
  refine ⟨by simp [hk], by simp [ho], ?_⟩
  rintro t ⟨⟩ s hs
  rw [ht] at hs
  cases hs

theorem denotes_text {s : ByteArray} (hk : l.kind = some .str) (hs : s = bytes l.contents) :
    l.Denotes (some (.str s)) := by
  refine ⟨by simp [hk], by rw [not_isOpening (by simp [hk])]; rfl, ?_⟩
  rintro t ⟨⟩ u ⟨⟩
  exact ⟨hk, hs⟩

theorem lowered_ident {c : Char} (hc : Text.isIdentStart c = true)
    (hx : x.all Text.isIdentRest = true) :
    ∃ d w, (⟨some .ident, c :: x⟩ : Lexeme).lowered = d :: w ∧ Text.isIdentStart d = true ∧
      w.all Text.isIdentRest = true := by
  simp only [Lexeme.lowered]
  unfold spelling
  split
  case h_7 | h_8 => exact ⟨'n', ['i', 'l'], rfl, rfl, rfl⟩
  case h_9 => exact ⟨c, x, rfl, hc, hx⟩
  all_goals simp_all

theorem scans_word {c : Char} (hc : Text.isIdentStart c = true) (hx : x.all Text.isIdentRest = true)
    (h : Scans (c :: x) us) : us = [Script.Token.word (c :: x), .finish] := by
  have hx' := List.all_eq_true.1 hx
  have hstep : Script.Token.step c x 0 = .ok (_, _, 0) := Script.Token.step_name hc
  rw [List.takeWhile_eq_self_iff.2 hx', List.dropWhile_eq_nil_iff.2 hx'] at hstep
  obtain ⟨vs, rfl, hvs⟩ := (Script.Token.scans_step hstep).1 h
  cases hvs
  rfl

theorem denotes_word (hk : l.kind = some .ident) (w : List Char) :
    l.Denotes (some (Script.Token.word w)) := by
  refine denotes_other (by simp [hk]) ?_ ?_
  · unfold Script.Token.word
    split <;> rfl
  · rw [not_isOpening (by simp [hk])]
    unfold Script.Token.word
    split
    · next hw =>
      rw [Script.Token.isSign, decide_eq_false_iff_not]
      intro he
      rw [he] at hw
      exact absurd hw (by decide)
    · rfl

theorem denotes_sign {w : List Char} :
    (⟨some .punct, w⟩ : Lexeme).Denotes (some (.sign (String.ofList w))) := by
  refine denotes_other nofun rfl ?_
  have hw : String.ofList w = "[" ↔ w = ['['] := by
    rw [show "[" = String.ofList ['['] from rfl, String.ofList_inj]
  simp [Script.Token.isSign, Lexeme.isOpening, hw]

theorem scans_spelled (h : Scans l.lowered us) : us = l.spelled ++ [.finish] := by
  obtain ⟨vs, rfl, -⟩ := h.finish
  rw [spelled_of_scans h]

theorem scans_line (h : bracket? x = none) (hx : (line x).1 = x) (hr : '\r' ∉ x)
    (hscan : Scans ('-' :: '-' :: x) us) : us = [.finish] := by
  have hstep : Script.Token.step '-' ('-' :: x) 0 =
      .ok (none, x.dropWhile (!Script.Token.isBreak ·), 0) := by
    rw [Script.Token.step_comment, Script.Token.stepComment_eq h]
  obtain ⟨vs, rfl, hvs⟩ := (Script.Token.scans_step hstep).1 hscan
  rcases line_cases x with ⟨hn, -⟩ | ⟨u, r, hn, rfl, hl⟩
  · rw [List.dropWhile_eq_nil_iff.2 (not_isBreak hn hr)] at hvs
    cases hvs
    rfl
  · have hu : '\r' ∉ u := fun hm => hr (List.mem_append_left _ hm)
    rw [List.dropWhile_append_of_pos (not_isBreak hn hu)] at hvs
    rw [hl] at hx
    obtain rfl : r = [] := by simpa using hx
    have hend := (Script.Token.scans_blank (c := '\n') (.inl rfl) _).1 hvs
    cases hend
    rfl

theorem denotes_punct {c : Char} {w : List Char} (h : StartsOperator (c :: x))
    (hw : w = (operator c x).1) (hx : w = c :: x) (hr : (operator c x).2 = [])
    (hplain : (⟨some .punct, w⟩ : Lexeme).isPlain = true) (hne : w ≠ ['=', '>'])
    (hscan : Scans (spelling .punct w) us) :
    ∃ k, us = k.toList ++ [.finish] ∧ (⟨some .punct, w⟩ : Lexeme).Denotes k := by
  by_cases hl : spelling .punct w = w
  · rw [hl, hx] at hscan
    obtain ⟨k, rfl, hk⟩ := scans_whole hscan
      (P := fun k => k = none ∧ w = ['\x0b'] ∨ k = some (.sign (String.ofList w)))
      fun k y line' hstep => by
        obtain ⟨hy, hk⟩ := Script.Token.step_punct h (Prod.ext hw.symm hr) hl hne hstep
        exact ⟨hy, hk.imp_right And.left⟩
    rcases hk with ⟨-, rfl⟩ | rfl
    · exact absurd hplain (by decide)
    · exact ⟨_, rfl, denotes_sign⟩
  · have hspelled {s : String} (hs : (⟨some .punct, w⟩ : Lexeme).spelled = [.sign s]) (hb : s ≠ "[")
        (ho : (⟨some .punct, w⟩ : Lexeme).isOpening = false) :
        ∃ k, us = k.toList ++ [.finish] ∧ (⟨some .punct, w⟩ : Lexeme).Denotes k := by
      refine ⟨some (.sign s), ?_, denotes_other nofun rfl ?_⟩
      · rw [scans_spelled (l := ⟨some .punct, w⟩) hscan, hs]
        rfl
      · rw [ho]
        exact decide_eq_false hb
    clear hw hx
    unfold spelling at hl
    split at hl
    · exact hspelled (s := "and") (by cbv) (by decide) (by decide)
    · exact hspelled (s := "or") (by cbv) (by decide) (by decide)
    · exact hspelled (s := "~=") (by cbv) (by decide) (by decide)
    · exact hspelled (s := "~=") (by cbv) (by decide) (by decide)
    · exact hspelled (s := "==") (by cbv) (by decide) (by decide)
    · exact hspelled (s := "not") (by cbv) (by decide) (by decide)
    · simp_all
    · simp_all
    · exact absurd rfl hl

theorem denotes_piece (hp : Piece x l r) (hx : l.text = x) (hr : r = [])
    (hplain : l.isPlain = true) (hne : l ≠ ⟨some .punct, ['=', '>']⟩)
    (hscan : Scans l.lowered us) (hknown : ∀ t ∈ us, Script.Chunk.Known t) :
    ∃ k, us = k.toList ++ [.finish] ∧ l.Denotes k := by
  have hp' := hp
  cases hp with
  | @blank c r h =>
    have := (Script.Token.scans_blank (.inr (Script.Token.isSpace_of_isAsciiBlank h)) us).1 hscan
    cases this
    exact ⟨none, rfl, denotes_none rfl⟩
  | @longComment n x t r h =>
    subst hr
    have htext : '-' :: '-' :: opener n ++ t = '-' :: '-' :: opener n ++ x := hx
    obtain rfl : t = x := List.append_cancel_left htext
    obtain ⟨l', hstep⟩ := Script.Token.step_longComment h
    obtain ⟨vs, rfl, hvs⟩ := (Script.Token.scans_step hstep).1 hscan
    cases hvs
    exact ⟨none, rfl, denotes_none rfl⟩
  | @lineComment x h =>
    obtain ⟨-, hx⟩ : '-' = '-' ∧ '-' :: (line x).1 = '-' :: x := List.cons.inj hx
    have hx : (line x).1 = x := (List.cons.inj hx).2
    rw [hx] at hplain hscan
    have hr : '\r' ∉ x := by
      simpa [Lexeme.isPlain, Lexeme.breaksEarly, Lexeme.isLineComment, h] using hplain
    exact ⟨none, scans_line h hx hr hscan, denotes_none rfl⟩
  | @name c x h =>
    obtain ⟨d, w, hl, hd, hw⟩ := lowered_ident h (x := x.takeWhile Text.isIdentRest)
      List.all_takeWhile
    rw [hl] at hscan
    exact ⟨some _, scans_word hd hw hscan, denotes_word rfl _⟩
  | @number x h =>
    cases x with
    | nil => cases h
    | cons c x =>
      change Scans (number (isHex (c :: x)) (c :: x)).1 us at hscan
      rw [show (number (isHex (c :: x)) (c :: x)).1 = c :: x from hx] at hscan
      obtain ⟨k, rfl, n, rfl⟩ := scans_whole hscan (P := fun k => ∃ n, k = some (.number n))
        fun k y line' hstep => by
          rw [Script.Token.step_number h] at hstep
          obtain ⟨⟨n, z⟩, hn, e⟩ := map_eq_ok.1 hstep
          cases e
          exact ⟨(Script.Token.readNumber_eq h hn).trans hr, n, rfl⟩
      exact ⟨some _, rfl, denotes_other (by simp) rfl (not_isOpening (by simp)).symm⟩
  | quoted | bracket =>
    exact ⟨some _, denotes_literal hp' hx hr rfl hplain (hx ▸ hscan) hknown, denotes_text rfl rfl⟩
  | @punct c x h => exact denotes_punct h rfl hx hr hplain (fun he => hne (by rw [he])) hscan

theorem Lexeme.Stands.denotes (h : l.Stands) (hplain : l.isPlain = true)
    (hne : l ≠ ⟨some .punct, ['=', '>']⟩) : ∃ k, l.spelled = k.toList ∧ l.Denotes k := by
  obtain ⟨k, hk, hd⟩ := denotes_piece h.piece rfl rfl hplain hne h.scans fun t ht => by
    rcases List.mem_append.1 ht with ht | ht
    · exact h.known t ht
    · obtain rfl := List.mem_singleton.1 ht
      trivial
  exact ⟨k, List.append_cancel_right hk, hd⟩

end Rulebook.Rule
