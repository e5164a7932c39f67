import Rulebook.Proofs.CodeArguments
import Rulebook.Proofs.SafeWords

namespace Rulebook.Rule

variable {x y z r : List Char} {l : Lexeme} {ls : List Lexeme}

def respell : Word → Word
  | (.punct, "&&") => (.ident, "and")
  | (.punct, "||") => (.ident, "or")
  | (.punct, "!") => (.ident, "not")
  | (.punct, "!=") => (.punct, "~=")
  | (.punct, "!==") => (.punct, "~=")
  | (.punct, "===") => (.punct, "==")
  | (.ident, "null") => (.ident, "nil")
  | (.ident, "undefined") => (.ident, "nil")
  | w => w

def space : Lexeme := ⟨none, [' ']⟩

def respelling (kind : Kind) (text : List Char) : List Lexeme :=
  match kind, text with
  | .punct, ['&', '&'] => [space, ⟨some .ident, ['a', 'n', 'd']⟩, space]
  | .punct, ['|', '|'] => [space, ⟨some .ident, ['o', 'r']⟩, space]
  | .punct, ['!', '='] | .punct, ['!', '=', '='] => [space, ⟨some .punct, ['~', '=']⟩, space]
  | .punct, ['=', '=', '='] => [space, ⟨some .punct, ['=', '=']⟩, space]
  | .punct, ['!'] => [space, ⟨some .ident, ['n', 'o', 't']⟩, space]
  | .ident, ['n', 'u', 'l', 'l'] => [⟨some .ident, ['n', 'i', 'l']⟩]
  | .ident, ['u', 'n', 'd', 'e', 'f', 'i', 'n', 'e', 'd'] => [⟨some .ident, ['n', 'i', 'l']⟩]
  | k, t => [⟨some k, t⟩]

def Lexeme.recut (l : Lexeme) : List Lexeme :=
  match l.kind with
  | none => [l]
  | some k => respelling k l.text

/-- What may become of a piece: it stays, another takes its place between blanks, or it is a name
and becomes `nil`. -/
inductive Recuts (l : Lexeme) : List Lexeme → Prop
  | same (text : l.lowered = l.text) (word : l.word?.map respell = l.word?) : Recuts l [l]
  | spaced {new : Lexeme} (piece : ∀ z, Piece (new.text ++ ' ' :: z) new (' ' :: z))
    (text : l.lowered = ' ' :: (new.text ++ [' '])) (word : l.word?.map respell = new.word?)
    (stays : new.lowered = new.text) : Recuts l [space, new, space]
  | named (kind : l.kind = some .ident) (text : l.lowered = ['n', 'i', 'l'])
    (word : l.word?.map respell = some (.ident, "nil")) : Recuts l [⟨some .ident, ['n', 'i', 'l']⟩]

theorem piece_spaced_word {c : Char} {w : List Char} (hc : Text.isIdentStart c = true)
    (hw : w.all Text.isIdentRest = true) (z : List Char) :
    Piece (c :: w ++ ' ' :: z) ⟨some .ident, c :: w⟩ (' ' :: z) :=
  piece_word hc hw (by rintro d ⟨⟩; rfl)

theorem piece_spaced_equality {c : Char} (hc : c = '~' ∨ c = '=') (z : List Char) :
    Piece ([c, '='] ++ ' ' :: z) ⟨some .punct, [c, '=']⟩ (' ' :: z) := by
  have hop : operator c ('=' :: ' ' :: z) = ([c, '='], ' ' :: z) := by
    rcases hc with rfl | rfl <;> rfl
  have hs : StartsOperator (c :: '=' :: ' ' :: z) := by
    rcases hc with rfl | rfl <;> constructor <;>
      simp [Text.isAsciiBlank, Text.isIdentStart, startsNumber, isQuote, bracket?]
  have := Piece.punct hs
  rwa [hop] at this

theorem recuts (l : Lexeme) : Recuts l l.recut := by
  obtain ⟨kind, text⟩ := l
  cases kind with
  | none => exact .same rfl rfl
  | some k =>
    simp only [Lexeme.recut]
    unfold respelling
    split
    · exact .spaced (piece_spaced_word rfl rfl) rfl (by decide) rfl
    · exact .spaced (piece_spaced_word rfl rfl) rfl (by decide) rfl
    · exact .spaced (piece_spaced_equality (.inl rfl)) rfl (by decide) rfl
    · exact .spaced (piece_spaced_equality (.inl rfl)) rfl (by decide) rfl
    · exact .spaced (piece_spaced_equality (.inr rfl)) rfl (by decide) rfl
    · exact .spaced (piece_spaced_word rfl rfl) rfl (by decide) rfl
    · exact .named rfl rfl (by decide)
    · exact .named rfl rfl (by decide)
    · next h₁ h₂ h₃ h₄ h₅ h₆ h₇ h₈ =>
      refine .same ?_ (congrArg some ?_)
      · simp only [Lexeme.lowered]
        unfold spelling
        split <;> simp_all
      · unfold respell
        split
        case h_9 => rfl
        all_goals
          next heq =>
          obtain ⟨rfl, ht⟩ := Prod.mk.inj heq
          have htext := congrArg String.toList ht
          rw [String.toList_ofList] at htext
          simp_all

namespace Recuts

variable {ms : List Lexeme}

theorem text (h : Recuts l ms) : ms.flatMap Lexeme.text = l.lowered := by
  cases h with
  | same text => simp [text]
  | spaced piece text => simp [text, space]
  | named kind text => simp [text]

theorem words (h : Recuts l ms) : ms.filterMap Lexeme.word? = (l.word?.map respell).toList := by
  cases h with
  | same text word =>
    rw [word]
    cases hl : l.word? <;> simp [hl]
  | @spaced new piece text word =>
    rw [word]
    have hspace : space.word? = none := rfl
    cases hn : new.word? <;> simp [hspace, hn]
  | named kind text word =>
    rw [word]
    rfl

theorem stays (h : Recuts l ms) : ∀ m ∈ ms, m.lowered = m.text := by
  cases h with
  | same text => simpa using text
  | spaced piece text word stays => simpa [space, Lexeme.lowered] using stays
  | named => simp [Lexeme.lowered, spelling]

theorem reads (hr : Recuts l ms) (h : Piece x l r) (hz : Seam r z)
    (hend : l.isLineComment = true → r = [] → z = [])
    (hb : l.text = ['['] → bracket? ('[' :: z) = none) : Reads (l.lowered ++ z) ms z := by
  cases hr with
  | same text =>
    rw [text]
    exact .step (h.seam hz hend hb) (.refl z)
  | spaced piece text =>
    rw [text]
    have hspace (y : List Char) : Piece (' ' :: y) space y := .blank rfl
    simpa using Reads.step (hspace _) (.step (piece z) (.step (hspace z) (.refl z)))
  | named kind text =>
    rw [text]
    exact .step (piece_word rfl rfl ((h.ends hz).name kind)) (.refl z)

end Recuts

/-- A lowered text is cut into what becomes of the pieces. -/
theorem reads_lowered (h : Reads x ls []) :
    Reads (ls.flatMap Lexeme.lowered) (ls.flatMap Lexeme.recut) [] := by
  generalize hr : [] = r at h
  induction h with
  | refl =>
    subst hr
    exact .refl []
  -- the lowered pieces behind begin as the pieces did, or with a blank: no piece goes on
  | @step x y r l ls hp hs ih =>
    subst hr
    have hm : ∀ l ∈ ls, Mild l l.lowered := fun l _ => mild_lowered l
    have hseam : Seam y (ls.flatMap Lexeme.lowered) := by
      simpa using hs.seam hm (Seam.refl [])
    have hlevel : ∀ n, level? (ls.flatMap Lexeme.lowered) = some n → level? y = some n := by
      simpa using hs.seam_level hm (z := []) (fun _ => id)
    have hend (he : y = []) : ls.flatMap Lexeme.lowered = [] := by
      subst he
      cases hs with
      | refl => rfl
      | step hp' _ => exact absurd hp'.text_append (by simp [hp'.text_ne_nil])
    rw [List.flatMap_cons, List.flatMap_cons]
    have hpieces := (recuts l).reads hp hseam (fun _ => hend) (hp.bracket_before hlevel)
    exact reads_append.2 ⟨_, hpieces, ih rfl⟩

theorem lowered_recut (ls : List Lexeme) :
    (ls.flatMap Lexeme.recut).flatMap Lexeme.lowered = ls.flatMap Lexeme.lowered := by
  rw [List.flatMap_assoc]
  refine List.flatMap_congr fun l _ => ?_
  rw [List.flatMap_congr (recuts l).stays, (recuts l).text]

theorem words_recut (ls : List Lexeme) : (ls.flatMap Lexeme.recut).filterMap Lexeme.word? =
    (ls.filterMap Lexeme.word?).map respell := by
  induction ls with
  | nil => rfl
  | cons l ls ih =>
    rw [List.flatMap_cons, List.filterMap_append, ih, (recuts l).words]
    cases hl : l.word? <;> simp [hl]

theorem lexemes_lowered {e : String} (h : lexemes 0 e.toList = .ok ls) :
    lower e = .ok (String.ofList (ls.flatMap Lexeme.lowered)) ∧
      lexemes 0 (String.ofList (ls.flatMap Lexeme.lowered)).toList =
        .ok (ls.flatMap Lexeme.recut) := by
  refine ⟨map_eq_ok.2 ⟨ls, h, rfl⟩, ?_⟩
  rw [String.toList_ofList, lexemes_eq_ok]
  exact reads_lowered (lexemes_eq_ok.1 h)

theorem wording_lowered {e : String} (h : lexemes 0 e.toList = .ok ls) :
    wording (String.ofList (ls.flatMap Lexeme.lowered)) =
      .ok ((ls.filterMap Lexeme.word?).map respell) := by
  rw [wording_of_lexemes (lexemes_lowered h).2, words_recut]

theorem lower_lowered {e : String} (h : lexemes 0 e.toList = .ok ls) :
    lower (String.ofList (ls.flatMap Lexeme.lowered)) =
      .ok (String.ofList (ls.flatMap Lexeme.lowered)) := by
  refine map_eq_ok.2 ⟨_, (lexemes_lowered h).2, ?_⟩
  rw [lowered_recut]

section Safety

variable {t u : Token} {ts us : List Token}

def Token.word (t : Token) : Word := (t.kind, t.text)

/-- The second tokens are the first ones, respelled. -/
abbrev Respelled (ts us : List Token) : Prop :=
  List.Forall₂ (fun t u => u.word = respell t.word) ts us

def replaced : List Word :=
  [(.punct, "&&"), (.punct, "||"), (.punct, "!"), (.punct, "!="), (.punct, "!=="),
    (.punct, "==="), (.ident, "null"), (.ident, "undefined")]

def replacements : List Word :=
  [(.ident, "and"), (.ident, "or"), (.ident, "not"), (.punct, "~="), (.punct, "=="),
    (.ident, "nil")]

theorem respell_of_not_mem {w : Word} (h : w ∉ replaced) : respell w = w := by
  unfold respell
  split <;> simp_all [replaced]

theorem respell_mem {w : Word} (h : w ∈ replaced) : respell w ∈ replacements := by
  have hall : ∀ w ∈ replaced, respell w ∈ replacements := by decide
  exact hall w h

theorem respell_eq_iff {v w : Word} (hv : v ∉ replaced ++ replacements) :
    respell w = v ↔ w = v := by
  rw [List.mem_append, not_or] at hv
  by_cases hw : w ∈ replaced
  · constructor
    · rintro rfl
      exact absurd (respell_mem hw) hv.2
    · rintro rfl
      exact absurd hw hv.1
  · rw [respell_of_not_mem hw]

theorem isPunct_iff {p : String} : t.isPunct p = true ↔ t.word = (.punct, p) := by
  simp [Token.isPunct, Token.word]

theorem isIdent_iff {n : String} : t.isIdent n = true ↔ t.word = (.ident, n) := by
  simp [Token.isIdent, Token.word]

theorem isPunct_respelled (h : u.word = respell t.word) {p : String}
    (hp : (.punct, p) ∉ replaced ++ replacements) : u.isPunct p = t.isPunct p := by
  rw [Bool.eq_iff_iff, isPunct_iff, isPunct_iff, h, respell_eq_iff hp]

theorem isIdent_respelled (h : u.word = respell t.word) {n : String}
    (hn : (.ident, n) ∉ replaced ++ replacements) : u.isIdent n = t.isIdent n := by
  rw [Bool.eq_iff_iff, isIdent_iff, isIdent_iff, h, respell_eq_iff hn]

theorem ident_respelled (h : u.word = respell t.word) (hk : t.kind = .ident) :
    u.kind = .ident := by
  have hkind {w : Word} (hw : w.1 = .ident) : (respell w).1 = .ident := by
    unfold respell
    split <;> simp_all
  exact (congrArg Prod.fst h).trans (hkind hk)

theorem number_respelled (h : u.word = respell t.word) (hk : t.kind = .number) :
    u.kind = .number ∧ u.text = t.text := by
  have hw : t.word ∉ replaced := by
    rw [Token.word, hk]
    simp [replaced]
  rw [respell_of_not_mem hw, Token.word, Token.word, hk] at h
  exact Prod.mk.inj h

theorem literal?_respelled (h : Respelled ts us) {x : Float} {rest : List Token}
    (hx : literal? ts = some (x, rest)) :
    ∃ rest', literal? us = some (x, rest') ∧ Respelled rest rest' := by
  cases h with
  | nil => cases hx
  | @cons t u ts us ht hts =>
    have hminus : u.isPunct "-" = t.isPunct "-" := isPunct_respelled ht (by decide)
    simp only [literal?, hminus] at hx ⊢
    split at hx
    · next hm =>
      rw [if_pos hm]
      cases hts with
      | nil => cases hx
      | @cons t u ts us ht hts =>
        simp only [Option.ite_none_right_eq_some, Option.map_eq_some_iff, Prod.mk.injEq] at hx
        obtain ⟨hk, y, hy, rfl, rfl⟩ := hx
        obtain ⟨hk', htext⟩ := number_respelled ht hk
        exact ⟨us, by simp [hk', htext, hy], hts⟩
    · next hm =>
      rw [if_neg hm]
      simp only [Option.ite_none_right_eq_some, Option.map_eq_some_iff, Prod.mk.injEq] at hx
      obtain ⟨hk, y, hy, rfl, rfl⟩ := hx
      obtain ⟨hk', htext⟩ := number_respelled ht hk
      exact ⟨us, by simp [hk', htext, hy], hts⟩

theorem literals?_respelled {n : Nat} (h : Respelled ts us) {xs : List Float} {rest : List Token}
    (hx : literals? n ts = some (xs, rest)) :
    ∃ rest', literals? n us = some (xs, rest') ∧ Respelled rest rest' := by
  induction n generalizing ts us xs with
  | zero => cases hx
  | succ n ih =>
    rw [literals?, Option.bind_eq_bind, Option.bind_eq_some_iff] at hx
    obtain ⟨⟨x, after⟩, hlit, hx⟩ := hx
    obtain ⟨after', hlit', hafter⟩ := literal?_respelled h hlit
    rw [literals?, hlit']
    cases hafter with
    | nil =>
      cases hx
      exact ⟨[], rfl, .nil⟩
    | @cons t u ts us ht hts =>
      have hcomma : u.isPunct "," = t.isPunct "," := isPunct_respelled ht (by decide)
      simp only [Option.bind_eq_bind, Option.bind_some, hcomma] at hx ⊢
      split at hx
      · next hmore =>
        obtain ⟨⟨ys, rest'⟩, hys, hx⟩ := Option.bind_eq_some_iff.1 hx
        cases hx
        obtain ⟨rest'', hys', hrest⟩ := ih hts hys
        refine ⟨rest'', ?_, hrest⟩
        rw [if_pos hmore, hys']
        rfl
      · next hlast =>
        cases hx
        refine ⟨u :: us, ?_, .cons ht hts⟩
        rw [if_neg hlast]
        rfl

theorem isCountedLoop_respelled (h : Respelled ts us) (hc : isCountedLoop ts = true) :
    isCountedLoop us = true := by
  cases h with
  | nil => exact hc
  | @cons name name' ts us hname h =>
    cases h with
    | nil => exact hc
    | @cons sign sign' ts us hsign h =>
      have hequal : sign'.isPunct "=" = sign.isPunct "=" := isPunct_respelled hsign (by decide)
      simp only [isCountedLoop, Bool.and_eq_true, decide_eq_true_eq, hequal] at hc ⊢
      refine ⟨⟨ident_respelled hname hc.1.1, hc.1.2⟩, ?_⟩
      replace hc := hc.2
      split at hc
      · next a b t rest hlits =>
        obtain ⟨rest', hlits', hrest⟩ := literals?_respelled h hlits
        cases hrest with
        | cons ht hrest =>
          have hdo := isIdent_respelled ht (n := "do") (by decide)
          simpa only [hlits', hdo] using hc
      · next a b c t rest hlits =>
        obtain ⟨rest', hlits', hrest⟩ := literals?_respelled h hlits
        cases hrest with
        | cons ht hrest =>
          have hdo := isIdent_respelled ht (n := "do") (by decide)
          simpa only [hlits', hdo] using hc
      · cases hc

theorem danger?_of_replacement (h : t.word ∈ replacements) (before : Option Token)
    (after : List Token) : t.danger? before after = none := by
  have hall : ∀ w ∈ replacements, w.1 = .ident ∧ w.2 ≠ "for" ∧ Rule.danger? w.2 = none ∨
      w.1 = .punct ∧ w.2 ≠ "=>" := by decide
  rcases hall t.word h with ⟨hk, hfor, hd⟩ | ⟨hk, harrow⟩
  · rw [Token.danger?, show t.kind = .ident from hk]
    exact (if_neg hfor).trans hd
  · rw [Token.danger?, show t.kind = .punct from hk]
    exact if_neg harrow

/-- A token that the filter lets pass is let pass when it is respelled. -/
theorem danger?_respelled {before before' : Option Token}
    (hb : before'.any (·.isPunct "[") = before.any (·.isPunct "["))
    (ht : u.word = respell t.word) (h : Respelled ts us) (hd : t.danger? before ts = none) :
    u.danger? before' us = none := by
  by_cases hw : t.word ∈ replaced
  · exact danger?_of_replacement (ht ▸ respell_mem hw) before' us
  · rw [respell_of_not_mem hw] at ht
    obtain ⟨hk, hx⟩ : u.kind = t.kind ∧ u.text = t.text := Prod.mk.inj ht
    have hcontents : u.contents = t.contents := by rw [Token.contents, Token.contents, hk, hx]
    rw [Token.danger?] at hd ⊢
    rw [hk, hx, hb, hcontents]
    split at hd
    · split at hd
      · next hfor =>
        have hloop : isCountedLoop ts = true := by simpa using hd
        rw [if_pos hfor, if_pos (isCountedLoop_respelled h hloop)]
      · next hfor => rwa [if_neg hfor]
    · exact hd
    · exact hd
    · rfl

theorem violationsFrom_respelled {before before' : Option Token}
    (hb : before'.any (·.isPunct "[") = before.any (·.isPunct "[")) (h : Respelled ts us)
    (hv : violationsFrom before ts = []) : violationsFrom before' us = [] := by
  induction h generalizing before before' with
  | nil => rfl
  | @cons t u ts us ht hts ih =>
    simp only [violationsFrom, List.append_eq_nil_iff, Option.toList_eq_nil_iff,
      Option.map_eq_none_iff] at hv ⊢
    have hbracket : u.isPunct "[" = t.isPunct "[" := isPunct_respelled ht (by decide)
    exact ⟨danger?_respelled hb ht hts hv.1, ih (by simpa using hbracket) hv.2⟩

theorem respelled_of_words (h : us.map Token.word = ts.map fun t => respell t.word) :
    Respelled ts us := by
  induction ts generalizing us with
  | nil =>
    obtain rfl := List.map_eq_nil_iff.1 h
    exact .nil
  | cons t ts ih =>
    obtain ⟨u, us, rfl, hu, hus⟩ := List.map_eq_cons_iff.1 h
    exact .cons hu (ih hus)

theorem isSafe_lowered {e : String} (h : lexemes 0 e.toList = .ok ls) (hsafe : isSafe e = true) :
    isSafe (String.ofList (ls.flatMap Lexeme.lowered)) = true := by
  have hwords (ls : List Lexeme) : (place 0 ls).map Token.word = ls.filterMap Lexeme.word? :=
    word_place 0 ls
  have hrespelled : Respelled (place 0 ls) (place 0 (ls.flatMap Lexeme.recut)) := by
    refine respelled_of_words ?_
    rw [hwords, words_recut, ← hwords, List.map_map]
    rfl
  have hv : violationsFrom none (place 0 ls) = [] := by
    simpa [isSafe, violations, tokens, h, Except.map] using hsafe
  have htokens : tokens (String.ofList (ls.flatMap Lexeme.lowered)) =
      .ok (place 0 (ls.flatMap Lexeme.recut)) := map_eq_ok.2 ⟨_, (lexemes_lowered h).2, rfl⟩
  rw [isSafe, violations, htokens]
  exact List.isEmpty_iff.2 (violationsFrom_respelled rfl hrespelled hv)

end Safety

/-- The tokens of a lowered rule are those of the rule, each respelled. It stays when it is lowered
again, and passes the filter if the rule does. -/
theorem lowered_token_by_token {e : String} {ws : List Word} (h : wording e = .ok ws) :
    ∃ low, lower e = .ok low ∧ wording low = .ok (ws.map respell) ∧ lower low = .ok low ∧
      (isSafe e = true → isSafe low = true) := by
  obtain ⟨ts, hts, rfl⟩ := map_eq_ok.1 h
  obtain ⟨ls, hls, rfl⟩ := map_eq_ok.1 hts
  have hws := Except.ok.inj ((wording_of_lexemes hls).symm.trans h)
  exact ⟨_, (lexemes_lowered hls).1, hws ▸ wording_lowered hls, lower_lowered hls,
    isSafe_lowered hls⟩

theorem lowered_token_by_token_inequality :
    ∃ low, lower "!a!==null&&b--c" = .ok low ∧
      wording low = .ok [(.ident, "not"), (.ident, "a"), (.punct, "~="), (.ident, "nil"),
        (.ident, "and"), (.ident, "b")] ∧
      lower low = .ok low ∧ isSafe low = true := by
  have hwords : wording "!a!==null&&b--c" = .ok [(.punct, "!"), (.ident, "a"), (.punct, "!=="),
      (.ident, "null"), (.punct, "&&"), (.ident, "b")] := by cbv
  have hsafe : isSafe "!a!==null&&b--c" = true := by cbv
  obtain ⟨low, hlow, hwords', hagain, hpass⟩ := lowered_token_by_token hwords
  exact ⟨low, hlow, hwords', hagain, hpass hsafe⟩

end Rulebook.Rule
