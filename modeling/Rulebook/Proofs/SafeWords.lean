import Rulebook.Rule.Safety
import Rulebook.Proofs.PieceTokens
import Rulebook.Proofs.Places

namespace Rulebook.Rule

open Script.Token (words spoken Yields)

variable {x y z r : List Char} {l : Lexeme} {ls : List Lexeme}

def Lexeme.breaksEarly (l : Lexeme) : Bool := l.isLineComment && l.text.contains '\r'

/-- What the interpreter reads of a rule's pieces and the filter does not: from the first carriage
return in a line comment on, all that follows. -/
def unread : List Lexeme → List Char
  | [] => []
  | l :: ls =>
    if l.breaksEarly then l.text.dropWhile (· ≠ '\r') ++ ls.flatMap Lexeme.lowered
    else unread ls

def heard : List Lexeme → List String
  | [] => []
  | l :: ls => if l.breaksEarly then [] else spoken l ++ heard ls

theorem bracket?_comment (h : bracket? x = none) (hz : (line x).2 = [] → ∃ y, z = '\n' :: y) :
    bracket? ((line x).1 ++ z) = none := by
  rcases line_cases x with ⟨-, hl⟩ | ⟨u, r, -, rfl, hl⟩
  · obtain ⟨y, rfl⟩ := hz (by rw [hl])
    rw [hl, bracket?_line, h]
  · rw [hl, List.append_assoc, List.singleton_append, bracket?_line]
    rwa [bracket?_line] at h

theorem step_line (h : bracket? x = none) (hz : (line x).2 = [] → ∃ y, z = '\n' :: y) (n : Nat) :
    Script.Token.step '-' ('-' :: ((line x).1 ++ z)) n =
      .ok (none, ((line x).1 ++ z).dropWhile (!Script.Token.isBreak ·), n) := by
  rw [Script.Token.step_comment, Script.Token.stepComment_eq (bracket?_comment h hz)]

theorem yields_comment (h : bracket? x = none) (hz : (line x).2 = [] → ∃ y, z = '\n' :: y) :
    Yields ('-' :: '-' :: ((line x).1 ++ z)) []
      (((line x).1 ++ z).dropWhile (!Script.Token.isBreak ·)) := by
  refine Script.Token.yields_step fun k y line' hstep _ => ?_
  rw [step_line h hz] at hstep
  cases hstep
  exact ⟨rfl, rfl⟩

theorem not_isBreak {u : List Char} (hn : '\n' ∉ u) (hr : '\r' ∉ u) :
    ∀ c ∈ u, (!Script.Token.isBreak c) = true := by
  intro c hc
  simp only [Script.Token.isBreak, Bool.not_eq_true', Bool.or_eq_false_iff,
    decide_eq_false_iff_not]
  constructor <;> rintro rfl <;> contradiction

/-- A comment without a carriage return is a comment to the interpreter. -/
theorem yields_line (h : bracket? x = none) (hr : '\r' ∉ (line x).1)
    (hz : (line x).2 = [] → ∃ y, z = '\n' :: y) :
    Yields ('-' :: '-' :: ((line x).1 ++ z)) [] z := by
  have hc := yields_comment h hz
  rcases line_cases x with ⟨hn, hl⟩ | ⟨u, r, hn, rfl, hl⟩
  · obtain ⟨y, rfl⟩ := hz (by rw [hl])
    rw [hl] at hc hr ⊢
    rwa [List.dropWhile_append_of_pos (not_isBreak hn hr)] at hc
  · rw [hl] at hc hr ⊢
    have hu : '\r' ∉ u := fun hm => hr (List.mem_append_left _ hm)
    rw [List.append_assoc, List.dropWhile_append_of_pos (not_isBreak hn hu)] at hc
    have := hc.trans (Script.Token.yields_blank (.inl rfl))
    simpa using this

theorem dropWhile_return {u : List Char} (hr : '\r' ∈ u) (y : List Char) :
    (u ++ y).dropWhile (· ≠ '\r') = u.dropWhile (· ≠ '\r') ++ y := by
  induction u with
  | nil => cases hr
  | cons c u ih =>
    by_cases hc : c = '\r'
    · simp [hc]
    · have hu : '\r' ∈ u := by simpa [Ne.symm hc] using hr
      have := ih hu
      simp_all

theorem dropWhile_break {u : List Char} (hn : '\n' ∉ u) (hr : '\r' ∈ u) (y : List Char) :
    (u ++ y).dropWhile (!Script.Token.isBreak ·) = u.dropWhile (· ≠ '\r') ++ y := by
  induction u with
  | nil => cases hr
  | cons c u ih =>
    simp only [List.mem_cons, not_or] at hn
    by_cases hc : c = '\r'
    · simp [hc, Script.Token.isBreak]
    · have hu : '\r' ∈ u := by simpa [Ne.symm hc] using hr
      have hb : Script.Token.isBreak c = false := by
        simp [Script.Token.isBreak, hc, Ne.symm hn.1]
      have := ih hn.2 hu
      simp_all

theorem dropWhile_line (hr : '\r' ∈ (line x).1) (z : List Char) :
    ((line x).1 ++ z).dropWhile (!Script.Token.isBreak ·) =
      (line x).1.dropWhile (· ≠ '\r') ++ z := by
  rcases line_cases x with ⟨hn, hl⟩ | ⟨u, r, hn, rfl, hl⟩
  · rw [hl] at hr ⊢
    exact dropWhile_break hn hr z
  · rw [hl] at hr ⊢
    have hu : '\r' ∈ u := by simpa using hr
    rw [dropWhile_return hu, List.append_assoc, List.append_assoc]
    exact dropWhile_break hn hu _

/-- A carriage return ends a comment for the interpreter. -/
theorem yields_return (h : bracket? x = none) (hr : '\r' ∈ (line x).1)
    (hz : (line x).2 = [] → ∃ y, z = '\n' :: y) :
    Yields ('-' :: '-' :: ((line x).1 ++ z)) [] ((line x).1.dropWhile (· ≠ '\r') ++ z) := by
  rw [← dropWhile_line hr]
  exact yields_comment h hz

theorem mild_lowered (l : Lexeme) : Mild l l.lowered := by
  obtain ⟨kind, text⟩ := l
  cases kind with
  | none => exact .same
  | some k =>
    have hspace (u : List Char) (t : List Char) : Mild ⟨some k, t⟩ (' ' :: u) := by
      refine .fresh ?_ (by decide)
      rintro d ⟨⟩
      exact .inr (.inl rfl)
    simp only [Lexeme.lowered]
    unfold spelling
    split
    · exact hspace _ _
    · exact hspace _ _
    · exact hspace _ _
    · exact hspace _ _
    · exact hspace _ _
    · exact hspace _ _
    · exact .fresh (.of_head rfl) (by decide)
    · refine .fresh ?_ (by decide)
      rintro d ⟨⟩
      exact .inr (.inr (.inr ⟨rfl, rfl⟩))
    · exact .same

def closed (ls : List Lexeme) : List Char := ls.flatMap Lexeme.lowered ++ ['\n', ')']

theorem closed_cons (l : Lexeme) (ls : List Lexeme) :
    closed (l :: ls) = l.lowered ++ closed ls := by
  simp [closed]

theorem closed_of_nil (h : Reads y ls []) : y = [] → ∃ u, closed ls = '\n' :: u := by
  rintro rfl
  cases h with
  | refl => exact ⟨[')'], rfl⟩
  | step h _ => exact absurd h.text_append (by simp [h.text_ne_nil])

/-- A lowered piece yields its words. The lowered pieces behind it begin as the pieces did, or with
a blank: the piece does not go on. -/
theorem yields_first (hp : Piece x l y) (hs : Reads y ls []) (hb : l.breaksEarly = false)
    (hne : l ≠ ⟨some .punct, ['=', '>']⟩) :
    Yields (l.lowered ++ closed ls) (spoken l) (closed ls) := by
  by_cases hc : l.isLineComment = true
  · obtain ⟨u, rfl, hu, rfl, rfl⟩ := hp.line_comment hc
    have hr : '\r' ∉ (line u).1 := by simpa [Lexeme.breaksEarly, hc] using hb
    exact yields_line hu hr (closed_of_nil hs)
  · have hm : ∀ l ∈ ls, Mild l l.lowered := fun l _ => mild_lowered l
    have hseam : Seam y (closed ls) := by
      refine hs.seam hm ?_
      rintro d ⟨⟩
      exact .inr (.inr (.inl rfl))
    have hlevel := hs.seam_level hm (z := ['\n', ')']) (by intro n hn; cases hn)
    exact Script.Token.yields_lowered hp hseam (hp.bracket_before hlevel) (by simpa using hc) hne

theorem yields_early (hp : Piece x l y) (hs : Reads y ls []) (hb : l.breaksEarly = true) :
    Yields (l.lowered ++ closed ls) [] (l.text.dropWhile (· ≠ '\r') ++ closed ls) := by
  obtain ⟨hc, hr⟩ := Bool.and_eq_true_iff.1 hb
  obtain ⟨u, rfl, hu, rfl, rfl⟩ := hp.line_comment hc
  have hr : '\r' ∈ (line u).1 := by simpa using hr
  simpa [Lexeme.lowered] using yields_return hu hr (closed_of_nil hs)

/-- The words that the interpreter finds: those of the pieces that the filter has read, and those
of what it has not. -/
theorem yields_rule (h : Reads x ls []) (hne : ∀ l ∈ ls, l ≠ ⟨some .punct, ['=', '>']⟩) :
    Yields (closed ls) (heard ls) (unread ls ++ ['\n', ')']) := by
  generalize hr : [] = r at h
  induction h with
  | refl =>
    subst hr
    exact fun us hus _ => ⟨us, hus, rfl, [], rfl, .refl _⟩
  | @step x y r l ls hp hs ih =>
    subst hr
    rw [closed_cons, heard, unread]
    split
    · next hb =>
      rw [List.append_assoc]
      exact yields_early hp hs hb
    · next hb =>
      have hl := hne l List.mem_cons_self
      exact (yields_first hp hs (by simpa using hb) hl).trans
        (ih (fun l hl => hne l (List.mem_cons_of_mem _ hl)) rfl)

theorem danger?_of_violations {before : Option Token} {ts : List Token}
    (h : violationsFrom before ts = []) :
    ∀ t ∈ ts, ∃ before after, t.danger? before after = none := by
  induction ts generalizing before with
  | nil => simp
  | cons t ts ih =>
    simp only [violationsFrom, List.append_eq_nil_iff, Option.toList_eq_nil_iff,
      Option.map_eq_none_iff] at h
    intro u hu
    rcases List.mem_cons.1 hu with rfl | hu
    · exact ⟨before, ts, h.1⟩
    · exact ih h.2 u hu

/-- What the filter has seen of the pieces of a rule that passes it. -/
theorem pieces_of_isSafe {e : String} (h : isSafe e = true) (hls : lexemes 0 e.toList = .ok ls) :
    (∀ l ∈ ls, l.kind = some .ident → danger? (String.ofList l.text) = none) ∧
      ∀ l ∈ ls, l ≠ ⟨some .punct, ['=', '>']⟩ := by
  have hv : violationsFrom none (place 0 ls) = [] := by
    simpa [isSafe, violations, tokens, hls, Except.map] using h
  constructor
  · intro l hl hk
    obtain ⟨t, ht, hkind, htext⟩ := mem_place hl hk
    obtain ⟨before, after, hd⟩ := danger?_of_violations hv t ht
    simp only [Token.danger?, hkind, htext] at hd
    split at hd
    · next hfor =>
      rw [hfor]
      decide
    · exact hd
  · rintro l hl rfl
    obtain ⟨t, ht, hkind, htext⟩ := mem_place hl rfl
    obtain ⟨before, after, hd⟩ := danger?_of_violations hv t ht
    rw [Token.danger?, hkind] at hd
    simp only [htext] at hd
    exact absurd hd (by decide)

theorem danger?_spoken {w : String}
    (h : l.kind = some .ident → danger? (String.ofList l.text) = none) (hw : w ∈ spoken l) :
    danger? w = none := by
  obtain ⟨kind, text⟩ := l
  unfold spoken at hw
  split at hw
  · next hk =>
    obtain rfl : kind = some .ident := hk
    obtain rfl := List.mem_singleton.1 hw
    simp only [Lexeme.lowered]
    unfold spelling
    split
    case h_7 => decide
    case h_8 => decide
    case h_9 => exact h rfl
    all_goals simp_all
  · obtain rfl := List.mem_singleton.1 hw
    decide
  · obtain rfl := List.mem_singleton.1 hw
    decide
  · obtain rfl := List.mem_singleton.1 hw
    decide
  · cases hw

theorem danger?_heard
    (h : ∀ l ∈ ls, l.kind = some .ident → danger? (String.ofList l.text) = none) :
    ∀ w ∈ heard ls, danger? w = none := by
  induction ls with
  | nil => simp [heard]
  | cons l ls ih =>
    intro w hw
    rw [heard] at hw
    split at hw
    · cases hw
    · rcases List.mem_append.1 hw with hw | hw
      · exact danger?_spoken (h l List.mem_cons_self) hw
      · exact ih (fun l hl => h l (List.mem_cons_of_mem _ hl)) w hw

theorem unread_eq_nil : unread ls = [] ↔ ∀ l ∈ ls, l.breaksEarly = false := by
  induction ls with
  | nil => simp [unread]
  | cons l ls ih =>
    rw [unread]
    by_cases hb : l.breaksEarly = true
    · rw [if_pos hb]
      have hr : '\r' ∈ l.text := by
        have := (Bool.and_eq_true_iff.1 hb).2
        simpa using this
      have hne : l.text.dropWhile (· ≠ '\r') ≠ [] := by
        intro he
        have := List.dropWhile_eq_nil_iff.1 he _ hr
        simp at this
      constructor
      · intro he
        exact absurd (List.append_eq_nil_iff.1 he).1 hne
      · intro h
        rw [h l List.mem_cons_self] at hb
        cases hb
    · rw [if_neg hb, ih]
      simp [hb]

def hidden (e : String) : List Char :=
  match lexemes 0 e.toList with
  | .ok ls => unread ls
  | .error _ => []

def wordsOf (ts : List Script.Located) : List String := words (ts.map Script.Located.token)

theorem yields_returnChunk (z : List Char) :
    Yields ("return (\n".toList ++ z) ["return"] z := by
  have hword : Yields ("return (\n".toList ++ z) ["return"] (' ' :: '(' :: '\n' :: z) :=
    Script.Token.yields_word (c := 'r') (v := ['e', 't', 'u', 'r', 'n']) rfl rfl
      (by rintro d ⟨⟩; rfl)
  have hbracket : Yields ('(' :: '\n' :: z) [] ('\n' :: z) :=
    Script.Token.yields_step fun _ _ _ hstep _ => by
      cases hstep
      exact ⟨rfl, rfl⟩
  have hspace : Yields (' ' :: '(' :: '\n' :: z) [] ('(' :: '\n' :: z) :=
    Script.Token.yields_blank (.inr rfl)
  have hbreak : Yields ('\n' :: z) [] z := Script.Token.yields_blank (.inl rfl)
  exact hword.trans (hspace.trans (hbracket.trans hbreak))

theorem scans_returnChunk {us : List Script.Token} :
    Script.Token.Scans ("return (\n".toList ++ z) us ↔
      ∃ vs, us = .sign "return" :: .sign "(" :: vs ∧ Script.Token.Scans z vs := by
  have hreturn : Script.Token.step 'r'
      ('e' :: 't' :: 'u' :: 'r' :: 'n' :: ' ' :: '(' :: '\n' :: z) 0 =
      .ok (some (.sign "return"), ' ' :: '(' :: '\n' :: z, 0) := rfl
  have hbracket : Script.Token.step '(' ('\n' :: z) 0 = .ok (some (.sign "("), '\n' :: z, 0) := rfl
  refine (Script.Token.scans_step hreturn).trans ⟨?_, ?_⟩
  · rintro ⟨us, rfl, h⟩
    rw [Script.Token.scans_blank (.inr rfl), Script.Token.scans_step hbracket] at h
    obtain ⟨vs, rfl, h⟩ := h
    exact ⟨vs, rfl, (Script.Token.scans_blank (.inl rfl) vs).1 h⟩
  · rintro ⟨vs, rfl, h⟩
    refine ⟨_, rfl, ?_⟩
    rw [Script.Token.scans_blank (.inr rfl), Script.Token.scans_step hbracket]
    exact ⟨vs, rfl, (Script.Token.scans_blank (.inl rfl) vs).2 h⟩

theorem starts_returnChunk {us : List Script.Token}
    (h : Script.Token.Scans ("return (\n".toList ++ z) us) :
    ∃ vs, us = .sign "return" :: vs := by
  obtain ⟨vs, rfl, -⟩ := scans_returnChunk.1 h
  exact ⟨_, rfl⟩

theorem scans_closing {us : List Script.Token} :
    Script.Token.Scans ['\n', ')'] us ↔ us = [.sign ")", .finish] := by
  have hstep : Script.Token.step ')' [] 0 = .ok (some (.sign ")"), [], 0) := rfl
  rw [Script.Token.scans_blank (.inl rfl), Script.Token.scans_step hstep]
  constructor
  · rintro ⟨vs, rfl, h⟩
    cases h
    rfl
  · rintro rfl
    exact ⟨_, rfl, .nil⟩

theorem words_closing {us : List Script.Token} (h : Script.Token.Scans ['\n', ')'] us) :
    words us = [] := by
  rw [scans_closing.1 h]
  decide

theorem plain_of_words {low : String} {body : Script.Body} {ts : List Script.Located}
    (hchunk : Script.Chunk.parse (returnChunk low) = .ok body)
    (hts : Script.Token.all (returnChunk low) = .ok ts)
    (hfine : ∀ w ∈ wordsOf ts, danger? w = none) :
    ∃ es, body = .mk 0 true [.give es] ∧ ∀ e ∈ es, Script.Chunk.Plain e := by
  have hscan := (Script.Token.all_eq_ok _).1 ⟨ts, hts, rfl⟩
  have htext : (returnChunk low).toList = "return (\n".toList ++ (low.toList ++ ['\n', ')']) := by
    simp [returnChunk]
  rw [htext] at hscan
  obtain ⟨ws, hws⟩ := starts_returnChunk hscan
  cases ts with
  | nil => cases hws
  | cons t ts =>
    obtain ⟨token, line⟩ := t
    obtain rfl : token = .sign "return" := (List.cons.inj hws).1
    refine Script.Chunk.give_of_parse hchunk hts fun t ht hfunction => ?_
    have hmem : "function" ∈ wordsOf (⟨.sign "return", line⟩ :: ts) := by
      refine List.mem_filterMap.2 ⟨.sign "function", ?_, by decide⟩
      exact List.mem_map.2 ⟨t, List.mem_cons_of_mem _ ht, hfunction⟩
    exact absurd (hfine _ hmem) (by decide)

/-- A rule that passes the filter and compiles has no dangerous word for the interpreter, unless it
hides one behind a carriage return in a comment. Without such a word it is one statement that
returns values, and there is no function in it and no loop. -/
theorem words_of_isSafe {e low : String} {body : Script.Body} (hsafe : isSafe e = true)
    (hlow : lower e = .ok low) (hchunk : Script.Chunk.parse (returnChunk low) = .ok body) :
    ∃ ts us, Script.Token.all (returnChunk low) = .ok ts ∧
      Script.Token.all (String.ofList (hidden e ++ ['\n', ')'])) = .ok us ∧
      ((∀ w ∈ wordsOf ts, danger? w = none) ↔ ∀ w ∈ wordsOf us, danger? w = none) ∧
      (hidden e = [] → ∀ w ∈ wordsOf ts, danger? w = none) ∧
      ((∀ w ∈ wordsOf ts, danger? w = none) →
        ∃ es, body = .mk 0 true [.give es] ∧ ∀ e ∈ es, Script.Chunk.Plain e) := by
  obtain ⟨ls, hls, rfl⟩ := map_eq_ok.1 hlow
  obtain ⟨hnames, hne⟩ := pieces_of_isSafe hsafe hls
  obtain ⟨ts, _, _, _, hts, -⟩ := Script.Chunk.parse_eq_ok hchunk
  have hknown := Script.Chunk.known_of_parse hchunk hts
  have hscan := (Script.Token.all_eq_ok _).1 ⟨ts, hts, rfl⟩
  have htext : (returnChunk (String.ofList (ls.flatMap Lexeme.lowered))).toList =
      "return (\n".toList ++ (ls.flatMap Lexeme.lowered ++ ['\n', ')']) := by
    simp [returnChunk]
  rw [htext] at hscan
  have hhidden : hidden e = unread ls := by rw [hidden, hls]
  have hyields := (yields_returnChunk _).trans (yields_rule (lexemes_eq_ok.1 hls) hne)
  obtain ⟨vs, hvs, hwords, -⟩ := hyields _ hscan (by simpa using hknown)
  obtain ⟨us, hus, hmap⟩ :=
    (Script.Token.all_eq_ok vs).2
      (show Script.Token.Scans (String.ofList (hidden e ++ ['\n', ')'])).toList vs by
        rwa [String.toList_ofList, hhidden])
  have hread : ∀ w ∈ ["return"] ++ heard ls, danger? w = none := by
    intro w hw
    rcases List.mem_append.1 hw with hw | hw
    · obtain rfl := List.mem_singleton.1 hw
      decide
    · exact danger?_heard hnames w hw
  have hiff : (∀ w ∈ wordsOf ts, danger? w = none) ↔ ∀ w ∈ wordsOf us, danger? w = none := by
    rw [wordsOf, wordsOf, hmap, hwords]
    constructor
    · intro h w hw
      exact h w (List.mem_append_right _ hw)
    · intro h w hw
      rcases List.mem_append.1 hw with hw | hw
      · exact hread w hw
      · exact h w hw
  refine ⟨ts, us, hts, hus, hiff, ?_, plain_of_words hchunk hts⟩
  intro hnil
  rw [hiff, wordsOf, hmap]
  rw [← hhidden, hnil] at hvs
  simp [words_closing hvs]

theorem words_of_conjunction :
    ∃ body ts, Script.Chunk.parse (returnChunk "a  and  b") = .ok body ∧
      Script.Token.all (returnChunk "a  and  b") = .ok ts ∧
      (∀ w ∈ wordsOf ts, danger? w = none) ∧
      ∃ es, body = .mk 0 true [.give es] ∧ ∀ e ∈ es, Script.Chunk.Plain e := by
  have hlow : lower "a && b" = .ok "a  and  b" := by cbv
  have hhidden : hidden "a && b" = [] := by cbv
  obtain ⟨body, hbody⟩ : ∃ body, Script.Chunk.parse (returnChunk "a  and  b") = .ok body :=
    isOk_iff.1 (by decide +kernel)
  obtain ⟨ts, -, hts, -, -, hfine, hplain⟩ := words_of_isSafe (by cbv) hlow hbody
  exact ⟨body, ts, hbody, hts, hfine hhidden, hplain (hfine hhidden)⟩

/-- Behind a carriage return in a comment a rule that passes the filter reaches the host. -/
theorem hidden_host_access :
    ∃ body ts, isSafe "1 --\r + os.time()" = true ∧
      lower "1 --\r + os.time()" = .ok "1 --\r + os.time()" ∧
      Script.Chunk.parse (returnChunk "1 --\r + os.time()") = .ok body ∧
      Script.Token.all (returnChunk "1 --\r + os.time()") = .ok ts ∧
      "os" ∈ wordsOf ts ∧ danger? "os" = some .hostAccess := by
  obtain ⟨body, hbody⟩ : ∃ body, Script.Chunk.parse (returnChunk "1 --\r + os.time()") = .ok body :=
    isOk_iff.1 (by decide +kernel)
  exact ⟨body, _, by cbv, by cbv, hbody, rfl, by decide, by decide⟩

end Rulebook.Rule
