import Rulebook.Proofs.InStep
import Rulebook.Proofs.Places

namespace Rulebook.Template

open Rule (Lexeme inside isQuote Finds Stops byteLength lexemes)

variable {c q : Char} {x y z u v w body : List Char} {b : Bindings} {ss : List Segment}

def bound (b : Bindings) (name : String) : List Char :=
  if name ∈ reservedRoots then name.toList
  else match b.get? name with
    | some v => v.render.toList
    | none => []

/-- Whether the last backslash takes the next character, after an escaped argument whose own first
character was taken. Nothing if the argument ends the literal. -/
def afterTaken (q : Char) (cs : List Char) : Option Bool :=
  match cs.dropWhile (· = '\\') with
  | [] => some true
  | c :: _ => if c = q then none else some false

/-- Whether a literal's last backslash takes the next character, with the arguments put in.
Nothing if an argument ends the literal. -/
def held (b : Bindings) (q : Char) : Bool → List Segment → Option Bool
  | e, [] => some e
  | e, .char c :: ss => (inside q e [c]).bind fun e => held b q e ss
  | e, .hole name :: ss =>
    (if e then afterTaken q (bound b name) else some false).bind fun e => held b q e ss

/-- A placeholder stands behind a backslash that takes the next character. -/
def exposed (q : Char) : Bool → List Segment → Bool
  | _, [] => false
  | e, .char c :: ss =>
    match inside q e [c] with
    | some e => exposed q e ss
    | none => false
  | e, .hole _ :: ss => e || exposed q false ss

theorem inside_cons (e : Bool) (c : Char) (x : List Char) :
    inside q e (c :: x) = (inside q e [c]).bind fun e => inside q e x :=
  Rule.inside_append e [c] x

theorem inside_escapeChar (hq : q = '\'' ∨ q = '"') (c : Char) :
    inside q false (escapeChar q c) = some false := by
  unfold escapeChar
  split
  · rfl
  split
  · rcases hq with rfl | rfl <;> rfl
  split
  · rcases hq with rfl | rfl <;> rfl
  split
  · rcases hq with rfl | rfl <;> rfl
  split
  · rfl
  · simp_all [inside]

/-- An escaped text ends no literal. -/
theorem inside_escapeQuoted (hq : q = '\'' ∨ q = '"') (cs : List Char) :
    inside q false (escapeQuoted q cs) = some false := by
  induction cs with
  | nil => rfl
  | cons c cs ih =>
    rw [escapeQuoted, List.flatMap_cons, Rule.inside_append, inside_escapeChar hq]
    exact ih

/-- Behind a backslash it may: its quote is escaped no more. -/
theorem inside_escapeQuoted_taken (hq : q = '\'' ∨ q = '"') (cs : List Char) :
    inside q true (escapeQuoted q cs) = afterTaken q cs := by
  induction cs with
  | nil => rfl
  | cons c cs ih =>
    have hrest := inside_escapeQuoted hq cs
    rw [escapeQuoted] at hrest ih
    rw [escapeQuoted, List.flatMap_cons]
    by_cases h₁ : c = '\\'
    · subst h₁
      simpa [escapeChar, inside, afterTaken] using ih
    by_cases h₂ : c = q
    · subst h₂
      rcases hq with rfl | rfl <;> simp [escapeChar, inside, afterTaken]
    have ha : afterTaken q (c :: cs) = some false := by simp [afterTaken, h₁, h₂]
    rw [ha]
    by_cases h₃ : c = '\n'
    · subst h₃
      rcases hq with rfl | rfl <;> simpa [escapeChar, inside] using hrest
    by_cases h₄ : c = '\r'
    · subst h₄
      rcases hq with rfl | rfl <;> simpa [escapeChar, inside] using hrest
    by_cases h₅ : c = '\x00'
    · subst h₅
      rcases hq with rfl | rfl <;> simpa [escapeChar, inside] using hrest
    simpa [escapeChar, inside, h₁, h₂, h₃, h₄, h₅] using hrest

theorem inside_name (hq : q = '\'' ∨ q = '"') {n : List Char}
    (hn : ∀ c ∈ n, Text.isIdentRest c = true) : inside q false n = some false := by
  induction n with
  | nil => rfl
  | cons c n ih =>
    have hc := hn c List.mem_cons_self
    have h₁ : c ≠ '\\' := Rule.ne_of_isIdentRest hc (by decide)
    have h₂ : c ≠ '\n' := Rule.ne_of_isIdentRest hc (by decide)
    have h₃ : c ≠ q := by
      rcases hq with rfl | rfl <;> exact Rule.ne_of_isIdentRest hc (by decide)
    simp [inside, h₁, h₂, h₃, ih fun d hd => hn d (List.mem_cons_of_mem _ hd)]

theorem inside_fill (hq : q = '\'' ∨ q = '"') {name : String}
    (h : (Part.hole name (.quoted q)).fill b = .ok w) (e : Bool) :
    inside q e w = if e then afterTaken q (bound b name) else some false := by
  by_cases hr : name ∈ reservedRoots
  · simp only [Part.fill, if_pos hr, Except.ok.injEq] at h
    rw [bound, if_pos hr, ← h]
    have hr' : name = "character" ∨ name = "gameState" := by simpa [reservedRoots] using hr
    rcases hr' with rfl | rfl <;> rcases hq with rfl | rfl <;> cases e <;> decide
  · cases hg : b.get? name with
    | none => simp [Part.fill, hr, hg] at h
    | some v =>
      simp only [Part.fill, if_neg hr, hg, Position.write, Except.ok.injEq] at h
      rw [bound, if_neg hr, hg, ← h]
      cases e with
      | false => exact inside_escapeQuoted hq _
      | true => exact inside_escapeQuoted_taken hq _

theorem inside_hole (hq : q = '\'' ∨ q = '"') {name : String} (hn : IsName name) (e : Bool)
    (x : List Char) : inside q e ('\x7b' :: (name.toList ++ '\x7d' :: x)) = inside q false x := by
  have hi := inside_name hq hn.rest
  cases e <;> rcases hq with rfl | rfl <;> simp [inside, Rule.inside_append, hi]

/-- Where the scanner is in step, a literal stays open as long as `held` has it. -/
theorem inside_image (hq : q = '\'' ∨ q = '"') {e e' : Bool} (h : inside q e x = some e')
    (hw : image b (.quoted q, e.toNat) x z = .ok w) (d : Bool) :
    inside q d w = held b q d (segments x) := by
  rw [image, map_eq_ok] at hw
  obtain ⟨ws, hws, rfl⟩ := hw
  -- `e` is the state in the rule and `d` the one in what it becomes: they part where a backslash
  -- takes the first character of an argument
  induction x using segments_induction generalizing e ws d with
  | nil =>
    simp only [segments, marks, List.mapM_nil] at hws
    cases hws
    simp [segments, held, inside]
  | hole n r hn hs ih =>
    rw [inside_hole hq hn] at h
    rw [segments_hole hs] at hws ⊢
    simp only [marks, List.mapM_cons, bind_eq_ok, pure, Except.pure, Except.ok.injEq] at hws
    obtain ⟨v, hv, vs, hvs, rfl⟩ := hws
    have hrest : ∀ d, inside q d vs.flatten = held b q d (segments r) := fun d => ih h d vs hvs
    rw [List.flatten_cons, Rule.inside_append, inside_fill hq hv, held]
    simp only [hrest]
  | char c x hs _ ih =>
    rw [inside_cons] at h
    obtain ⟨e₁, hc, hx⟩ := Option.bind_eq_some_iff.1 h
    have hscan := scan_inside hq hc (x ++ z)
    rw [hs] at hws ⊢
    simp only [marks, List.mapM_cons, bind_eq_ok, pure, Except.pure, Except.ok.injEq, Part.fill,
      segments_text] at hws
    obtain ⟨v, rfl, vs, hvs, rfl⟩ := hws
    rw [show advance (x ++ z) c (.quoted q, e.toNat) = (.quoted q, e₁.toNat) from hscan] at hvs
    have hrest : ∀ d, inside q d vs.flatten = held b q d (segments x) := fun d => ih hx d vs hvs
    rw [List.flatten_cons, Rule.inside_append, held]
    simp only [hrest]

/-- Without a backslash in front of a placeholder every argument is held. -/
theorem held_of_not_exposed (hq : q = '\'' ∨ q = '"') {e e' : Bool} (h : inside q e x = some e')
    (hx : exposed q e (segments x) = false) : held b q e (segments x) = some e' := by
  induction x using segments_induction generalizing e with
  | nil => simpa [segments, held, inside] using h
  | hole n r hn hs ih =>
    rw [segments_hole hs] at hx ⊢
    simp only [exposed, Bool.or_eq_false_iff] at hx
    obtain ⟨rfl, hx⟩ := hx
    rw [inside_hole hq hn] at h
    simpa [held] using ih h hx
  | char c x hs _ ih =>
    rw [inside_cons] at h
    obtain ⟨e₁, hc, h⟩ := Option.bind_eq_some_iff.1 h
    rw [hs] at hx ⊢
    simp only [exposed, hc] at hx
    simp only [held, hc, Option.bind_some]
    exact ih h hx

theorem isQuote_of_or (hq : q = '\'' ∨ q = '"') : isQuote q = true :=
  Rule.isQuote_iff.2 (or_assoc.1 (.inl hq))

theorem becomes_quoted (hq : q = '\'' ∨ q = '"') {a : List Char} :
    Becomes b a (q :: (body ++ [q])) z w ↔
      ∃ v, Becomes b (a ++ [q]) body (q :: z) v ∧ w = q :: (v ++ [q]) := by
  have hc : Text.isIdentRest q = false ∧ q ≠ '\x7d' ∧ q ≠ '\x7b' := by
    rcases hq with rfl | rfl <;> decide
  have hplain : '\x7b' ∉ [q] := by simpa using Ne.symm hc.2.2
  have hopen : Cuts [q] (body ++ [q]) := cuts_after hc.1 hc.2 [] _
  have hclose : Cuts body [q] := cuts_before hc.1 hc.2.1 body []
  rw [← List.singleton_append, becomes_append hopen]
  simp only [becomes_plain hplain, becomes_append hclose, List.singleton_append]
  constructor
  · rintro ⟨_, _, rfl, ⟨v, _, hv, rfl, rfl⟩, rfl⟩
    exact ⟨v, hv, rfl⟩
  · rintro ⟨v, hv, rfl⟩
    exact ⟨[q], v ++ [q], rfl, ⟨v, [q], hv, rfl, rfl⟩, rfl⟩

/-- A rule becomes what the text before a literal, the literal and the text behind it become. -/
theorem becomes_literal_iff (hq : q = '\'' ∨ q = '"') {text out : String}
    (htext : text.toList = x ++ q :: (body ++ [q]) ++ z) : substituteRule text b = .ok out ↔
    ∃ u w v, substituteRule (String.ofList x) b = .ok (String.ofList u) ∧
      Becomes b (x ++ [q]) body (q :: z) w ∧ Becomes b (x ++ q :: (body ++ [q])) z [] v ∧
      out.toList = u ++ q :: (w ++ [q]) ++ v := by
  have hc : Text.isIdentRest q = false ∧ q ≠ '\x7d' ∧ q ≠ '\x7b' ∧ q ∉ ['-', '[', '=', ']'] := by
    rcases hq with rfl | rfl <;> decide
  have hbefore : Cuts x (q :: (body ++ [q])) := cuts_before hc.1 hc.2.1 x _
  have hafter : Cuts (x ++ q :: (body ++ [q])) z := by
    have := cuts_after hc.1 ⟨hc.2.1, hc.2.2.1⟩ (x ++ q :: body) z
    simpa using this
  have hneutral : ∀ d ∈ (q :: (body ++ [q]) ++ z).head?, d ∉ ['-', '[', '=', ']'] := by
    rintro d ⟨⟩
    exact hc.2.2.2
  rw [becomes_rule, htext, becomes_append hafter, List.append_nil]
  simp only [becomes_append hbefore, becomes_quoted hq, becomes_beginning hneutral,
    List.nil_append]
  constructor
  · rintro ⟨_, v, ⟨u, _, hu, ⟨w, hw, rfl⟩, rfl⟩, hv, ho⟩
    exact ⟨u, w, v, hu, hw, hv, ho⟩
  · rintro ⟨u, w, v, hu, hw, hv, ho⟩
    exact ⟨_, v, ⟨u, _, hu, ⟨w, hw, rfl⟩, rfl⟩, hv, ho⟩

theorem becomes_literal (hq : q = '\'' ∨ q = '"') {text out : String}
    (htext : text.toList = x ++ q :: (body ++ [q]) ++ z) (hout : substituteRule text b = .ok out) :
    ∃ u w v, substituteRule (String.ofList x) b = .ok (String.ofList u) ∧
      Becomes b (x ++ [q]) body (q :: z) w ∧ Becomes b (x ++ q :: (body ++ [q])) z [] v ∧
      out.toList = u ++ q :: (w ++ [q]) ++ v :=
  (becomes_literal_iff hq htext).1 hout

/-- In front of a literal in code, the scanner goes over it as the tokenizer does. -/
theorem scan_literal (hq : q = '\'' ∨ q = '"') (hbody : inside q false body = some false)
    (hx : scan (.code, 0) x (q :: (body ++ [q]) ++ z) = (.code, 0)) :
    scan (.code, 0) (x ++ [q]) (body ++ q :: z) = (.quoted q, 0) ∧
      scan (.code, 0) (x ++ q :: (body ++ [q])) z = (.code, 0) := by
  have hin := scan_inside hq hbody (q :: z)
  simp only [Bool.toNat_false] at hin
  have h₁ : scan (.code, 0) (x ++ [q]) (body ++ q :: z) = (.quoted q, 0) := by
    rw [scan_append, show [q] ++ (body ++ q :: z) = q :: (body ++ [q]) ++ z by simp, hx]
    exact next_quote hq _
  have h₂ : scan (.quoted q, 0) [q] z = (.code, 0) := next_unquote hq z
  refine ⟨h₁, ?_⟩
  rw [show x ++ q :: (body ++ [q]) = (x ++ [q]) ++ (body ++ [q]) by simp, scan_append,
    show body ++ [q] ++ z = body ++ q :: z by simp, h₁, scan_append, List.singleton_append, hin, h₂]

/-- A literal with arguments put in is one token of the rule, and open behind each argument, just
when the tokenizer comes to its quote, no argument ends it, and what follows can be read. Where the
scanner is in step, no argument ends it but behind a backslash. -/
theorem literal_token_iff (hq : q = '\'' ∨ q = '"') {text out : String}
    (htext : text.toList = x ++ q :: (body ++ [q]) ++ z)
    (hfinds : Finds x ⟨some .str, q :: (body ++ [q])⟩ z) (hout : substituteRule text b = .ok out) :
    ∃ u w v, substituteRule (String.ofList x) b = .ok (String.ofList u) ∧
      Becomes b (x ++ [q]) body (q :: z) w ∧ Becomes b (x ++ q :: (body ++ [q])) z [] v ∧
      out.toList = u ++ q :: (w ++ [q]) ++ v ∧
      ((∃ ts, Rule.tokens out = .ok ts ∧
          ⟨.str, String.ofList (q :: (w ++ [q])), byteLength u,
            byteLength (u ++ q :: (w ++ [q]))⟩ ∈ ts ∧
          ∀ w', w' <+: w → inside q false w' ≠ none) ↔
        Stops u [q] ∧ inside q false w = some false ∧ ∃ ls, lexemes 0 v = .ok ls) ∧
      (scan (.code, 0) x (q :: (body ++ [q]) ++ z) = (.code, 0) →
        inside q false w = held b q false (segments body) ∧
          (exposed q false (segments body) = false → inside q false w = some false) ∧
          substituteRule (String.ofList z) b = .ok (String.ofList v)) := by
  obtain ⟨u, w, v, hu, hw, hv, ho⟩ := becomes_literal hq htext hout
  have hbody : inside q false body = some false :=
    (Rule.piece_quoted_iff (isQuote_of_or hq)).1 (Rule.finds_iff.1 hfinds).2.1
  refine ⟨u, w, v, hu, hw, hv, ho, ?_, ?_⟩
  · have hfound := (Rule.token_iff (l := ⟨some .str, q :: (w ++ [q])⟩) ho rfl).trans Rule.finds_iff
    have hne : q ≠ '=' ∧ q ≠ '[' := by rcases hq with rfl | rfl <;> decide
    rw [Rule.piece_quoted_iff (isQuote_of_or hq), List.cons_append,
      Rule.stops_congr hne _ []] at hfound
    rw [← hfound]
    constructor
    · rintro ⟨ts, hts, ht, -⟩
      exact ⟨ts, hts, ht⟩
    · rintro ⟨ts, hts, ht⟩
      refine ⟨ts, hts, ht, ?_⟩
      rintro w' ⟨w'', rfl⟩ hnone
      obtain ⟨-, hin, -⟩ := hfound.1 ⟨ts, hts, ht⟩
      rw [Rule.inside_append, hnone] at hin
      cases hin
  · intro hx
    obtain ⟨h₁, h₂⟩ := scan_literal hq hbody hx
    rw [Becomes, h₁] at hw
    rw [Becomes, List.append_nil, h₂] at hv
    have hheld : inside q false w = held b q false (segments body) :=
      inside_image hq (e := false) hbody hw false
    refine ⟨hheld, fun he => ?_, ?_⟩
    · rw [hheld, held_of_not_exposed hq hbody he]
    · rw [substituteRule_eq_ok]
      simpa using hv

theorem literal_token_escaped :
    ∃ ts, Rule.tokens "a == 'd\\' or 1'" = .ok ts ∧ ⟨.str, "'d\\' or 1'", 5, 15⟩ ∈ ts ∧
      ∀ w', w' <+: "d\\' or 1".toList → inside '\'' false w' ≠ none := by
  have hfinds : Finds "a == ".toList ⟨some .str, "'{x}'".toList⟩ [] :=
    ⟨[⟨some .ident, ['a']⟩, ⟨none, [' ']⟩, ⟨some .punct, ['=', '=']⟩, ⟨none, [' ']⟩], [],
      by cbv, rfl⟩
  have htext : "a == '{x}'".toList = "a == ".toList ++ '\'' :: ("{x}".toList ++ ['\'']) ++ [] := by
    decide
  have hout : substituteRule "a == '{x}'" [("x", .str "d' or 1")] = .ok "a == 'd\\' or 1'" := by cbv
  obtain ⟨u, w, v, hu, -, -, ho, hiff, hstep⟩ := literal_token_iff (.inl rfl) htext hfinds hout
  obtain ⟨-, hin, hv⟩ := hstep (by decide)
  have hu' : u = "a == ".toList := by
    rw [show substituteRule _ _ = .ok "a == " by cbv] at hu
    simpa using (congrArg String.toList (Except.ok.inj hu)).symm
  have hv' : v = [] := by
    rw [show substituteRule _ _ = .ok "" by cbv] at hv
    simpa using (congrArg String.toList (Except.ok.inj hv)).symm
  subst hu' hv'
  have hw : w = "d\\' or 1".toList := List.append_cancel_right (by simpa using ho.symm)
  subst hw
  have hstops : Stops "a == ".toList ['\''] :=
    (Rule.stops_congr (by decide) _ []).1 (Rule.finds_iff.1 hfinds).1
  obtain ⟨ts, hts, ht, hopen⟩ := hiff.2 ⟨hstops, hin (by cbv), [], by cbv⟩
  exact ⟨ts, hts, ht, hopen⟩

/-- A backslash of the rule in front of a placeholder lets an argument end its literal. -/
theorem argument_ends_literal :
    Rule.tokens "'\\{x}'" = .ok [⟨.str, "'\\{x}'", 0, 6⟩] ∧
      substituteRule "'\\{x}'" [("x", .str "'")] = .ok "'\\\\''" ∧
      inside '\'' false "\\\\'".toList = none ∧
      Rule.tokens "'\\\\''" = .error ⟨.openString, 4⟩ := by
  refine ⟨by cbv, by cbv, by decide, by cbv⟩

end Rulebook.Template
