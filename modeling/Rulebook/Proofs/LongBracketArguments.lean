import Rulebook.Proofs.CommentArguments
import Rulebook.Proofs.QuotedArguments

namespace Rulebook.Template

open Rule (Lexeme Finds Stops Piece lexemes opener closer through byteLength)

variable {c d : Char} {x y z u v w t body : List Char} {b : Bindings} {ss : List Segment}
variable {k n : Nat} {kind : Option Rule.Kind}

def dashes : Option Rule.Kind → List Char
  | none => ['-', '-']
  | some _ => []

def longPiece (kind : Option Rule.Kind) (n : Nat) (body : List Char) : Lexeme :=
  ⟨kind, dashes kind ++ opener n ++ (body ++ closer n)⟩

/-- Behind a closing bracket, with the arguments put in, `k` equality signs and a second bracket
follow. At the end stands the bracket that the rule itself has there. -/
def closesAt (b : Bindings) : Nat → List Segment → Bool
  | k, [] => k = 0
  | 0, .char c :: _ => c = ']'
  | k + 1, .char c :: ss => c = '=' && closesAt b k ss
  | k, .hole name :: ss =>
    (bound b name).all (· = '=') && (bound b name).length ≤ k &&
      closesAt b (k - (bound b name).length) ss

/-- A long bracket of level `n` ends before its own closing bracket. -/
def closesEarly (b : Bindings) (n : Nat) : List Segment → Bool
  | [] => false
  | .char c :: ss => (c = ']' && closesAt b n ss) || closesEarly b n ss
  | .hole _ :: ss => closesEarly b n ss

/-- A placeholder stands behind a closing bracket with only equality signs in between. -/
def mayClose : List Segment → Bool
  | [] => false
  | .char c :: ss => (c = ']' && opensLevel ss) || mayClose ss
  | .hole _ :: ss => mayClose ss

theorem signs_prefix_cons : List.replicate k '=' ++ [']'] <+: c :: x ↔
    k = 0 ∧ c = ']' ∨ ∃ j, k = j + 1 ∧ c = '=' ∧ List.replicate j '=' ++ [']'] <+: x := by
  cases k with
  | zero => simp [List.cons_prefix_cons, eq_comm]
  | succ j => simp [List.replicate_succ, List.cons_prefix_cons, eq_comm]

theorem closer_prefix_cons : closer n <+: c :: x ↔
    c = ']' ∧ List.replicate n '=' ++ [']'] <+: x := by
  rw [closer, List.cons_append, List.cons_prefix_cons, eq_comm]

theorem signs_prefix_append (x y : List Char) :
    List.replicate k '=' ++ [']'] <+: x ++ ']' :: y ↔
      List.replicate k '=' ++ [']'] <+: x ++ [']'] := by
  induction x generalizing k with
  | nil => simp [signs_prefix_cons]
  | cons c x ih => simp only [List.cons_append, signs_prefix_cons, ih]

theorem closer_append (n : Nat) (x : List Char) :
    closer n ++ x = ']' :: (List.replicate n '=' ++ ']' :: x) := by
  simp [closer]

theorem through_closer_iff (w v : List Char) :
    through (closer n) (w ++ (closer n ++ v)) = some (w ++ closer n, v) ↔
      ¬ closer n <:+: w ++ [']'] := by
  induction w with
  | nil =>
    have hshort : ¬ closer n <:+: [']'] := by
      intro h
      have := h.length_le
      simp [closer] at this
    have hp : (closer n).isPrefixOf (closer n ++ v) = true :=
      List.isPrefixOf_iff_prefix.2 (List.prefix_append _ _)
    simp only [List.nil_append, hshort, not_false_eq_true, iff_true]
    have hc := closer_append n v
    rw [hc] at hp ⊢
    rw [through, if_pos hp, ← hc, List.drop_left]
  | cons c w ih =>
    have hp : closer n <+: c :: (w ++ (closer n ++ v)) ↔ closer n <+: c :: (w ++ [']']) := by
      rw [closer_prefix_cons, closer_prefix_cons, closer_append, signs_prefix_append]
    rw [List.cons_append, List.cons_append, List.cons_append, List.infix_cons_iff, ← hp, through]
    by_cases h : closer n <+: c :: (w ++ (closer n ++ v))
    · rw [if_pos (List.isPrefixOf_iff_prefix.2 h)]
      simp only [h, true_or, not_true_eq_false, iff_false]
      intro he
      have := congrArg List.length (Prod.mk.inj (Option.some.inj he)).1
      simp only [List.length_cons, List.length_append] at this
      omega
    · rw [if_neg (fun hp => h (List.isPrefixOf_iff_prefix.1 hp))]
      simp [h, ← ih]

theorem signs_prefix_free (ht : ']' ∉ t) (x : List Char) :
    List.replicate k '=' ++ [']'] <+: t ++ x ↔ t.all (· = '=') = true ∧ t.length ≤ k ∧
      List.replicate (k - t.length) '=' ++ [']'] <+: x := by
  induction t generalizing k with
  | nil => simp
  | cons d t ih =>
    simp only [List.mem_cons, not_or] at ht
    rw [List.cons_append, signs_prefix_cons]
    constructor
    · rintro (⟨-, h⟩ | ⟨j, rfl, rfl, h⟩)
      · exact absurd h.symm ht.1
      · obtain ⟨hall, hlen, hrest⟩ := (ih ht.2).1 h
        refine ⟨by simpa using hall, by simpa using hlen, ?_⟩
        rwa [List.length_cons, Nat.add_sub_add_right]
    · rintro ⟨hall, hlen, hrest⟩
      rw [List.all_cons, Bool.and_eq_true, decide_eq_true_eq] at hall
      obtain ⟨j, rfl⟩ : ∃ j, k = j + 1 := ⟨k - 1, by simp at hlen; omega⟩
      rw [List.length_cons, Nat.add_sub_add_right] at hrest
      exact .inr ⟨j, rfl, hall.1, (ih ht.2).2 ⟨hall.2, by simpa using hlen, hrest⟩⟩

theorem closer_infix_free (ht : ']' ∉ t) (x : List Char) :
    closer n <:+: t ++ x ↔ closer n <:+: x := by
  induction t with
  | nil => rfl
  | cons d t ih =>
    simp only [List.mem_cons, not_or] at ht
    rw [List.cons_append, List.infix_cons_iff, closer_prefix_cons, ih ht.2]
    simp [Ne.symm ht.1]

theorem bound_of_fill {name : String} (h : (Part.hole name (.longBracket n)).fill b = .ok w) :
    w = bound b name ∧ ']' ∉ w := by
  by_cases hr : name ∈ reservedRoots
  · simp only [Part.fill, if_pos hr, Except.ok.injEq] at h
    have hr' : name = "character" ∨ name = "gameState" := by simpa [reservedRoots] using hr
    rw [bound, if_pos hr, ← h]
    refine ⟨rfl, ?_⟩
    rcases hr' with rfl | rfl <;> decide
  · cases hg : b.get? name with
    | none => simp [Part.fill, hr, hg] at h
    | some v =>
      simp only [Part.fill, if_neg hr, hg, Position.write] at h
      rw [bound, if_neg hr, hg]
      split at h
      · next hw =>
        split at hw
        · cases hw
        · next hc =>
          cases hw
          cases h
          exact ⟨rfl, by simpa using hc⟩
      · cases h

theorem advance_bracket (h : ¬ closer n <:+: c :: x ++ [']']) (z : List Char) :
    advance (x ++ (closer n ++ z)) c (.longBracket n, 0) = (.longBracket n, 0) := by
  have hp : ¬ closer n <+: c :: (x ++ (closer n ++ z)) := by
    rw [closer_prefix_cons, closer_append, signs_prefix_append, ← closer_prefix_cons]
    exact fun hp => h hp.isInfix
  rw [advance, Position.next, if_neg (fun hb => hp (List.isPrefixOf_iff_prefix.1 hb))]

/-- What a long bracket becomes, part by part. -/
theorem image_bracket_cases {motive : List Char → List Char → Prop}
    (h : ¬ closer n <:+: x ++ [']'])
    (hw : image b (.longBracket n, 0) x (closer n ++ z) = .ok w) (nil : motive [] [])
    (hole : ∀ name r v, ']' ∉ bound b name → segments ('\x7b' :: (name.toList ++ '\x7d' :: r)) =
      .hole name :: segments r → motive r v →
      motive ('\x7b' :: (name.toList ++ '\x7d' :: r)) (bound b name ++ v))
    (char : ∀ c r v, segments (c :: r) = .char c :: segments r → ¬ closer n <:+: r ++ [']'] →
      image b (.longBracket n, 0) r (closer n ++ z) = .ok v → motive r v →
      motive (c :: r) (c :: v)) : motive x w := by
  rw [image, map_eq_ok] at hw
  obtain ⟨ws, hws, rfl⟩ := hw
  induction x using segments_induction generalizing ws with
  | nil =>
    simp only [segments, marks, List.mapM_nil] at hws
    cases hws
    exact nil
  | hole name r hn hs ih =>
    have hs' := segments_hole hs
    rw [hs'] at hws
    simp only [marks, List.mapM_cons, bind_eq_ok, pure, Except.pure, Except.ok.injEq] at hws
    obtain ⟨v, hv, vs, hvs, rfl⟩ := hws
    obtain ⟨rfl, hfree⟩ := bound_of_fill hv
    have hr : ¬ closer n <:+: r ++ [']'] := fun hi =>
      h (hi.trans ⟨'\x7b' :: (name.toList ++ ['\x7d']), [], by simp⟩)
    exact hole name r _ hfree hs' (ih hr vs hvs)
  | char c r hs _ ih =>
    rw [hs] at hws
    simp only [marks, List.mapM_cons, bind_eq_ok, pure, Except.pure, Except.ok.injEq, Part.fill,
      segments_text, advance_bracket h] at hws
    obtain ⟨v, rfl, vs, hvs, rfl⟩ := hws
    have hr : ¬ closer n <:+: r ++ [']'] := fun hi => h (List.infix_cons hi)
    exact char c r _ hs hr (map_eq_ok.2 ⟨vs, hvs, rfl⟩) (ih hr vs hvs)

theorem closesAt_image (h : ¬ closer n <:+: x ++ [']'])
    (hw : image b (.longBracket n, 0) x (closer n ++ z) = .ok w) (k : Nat) :
    List.replicate k '=' ++ [']'] <+: w ++ [']'] ↔ closesAt b k (segments x) = true := by
  refine image_bracket_cases (motive := fun x w => ∀ k,
    List.replicate k '=' ++ [']'] <+: w ++ [']'] ↔ closesAt b k (segments x) = true) h hw
    ?_ ?_ ?_ k
  · intro k
    simp [segments, closesAt, signs_prefix_cons]
  · intro name r v hfree hs ih k
    rw [List.append_assoc, signs_prefix_free hfree, hs, closesAt, ih]
    simp [and_assoc]
  · intro c r v hs _ _ ih k
    rw [hs, List.cons_append, signs_prefix_cons]
    cases k with
    | zero => simp [closesAt]
    | succ k => simp [closesAt, ih]

/-- Exactly there a long bracket ends early. -/
theorem closesEarly_image (h : ¬ closer n <:+: x ++ [']'])
    (hw : image b (.longBracket n, 0) x (closer n ++ z) = .ok w) :
    closer n <:+: w ++ [']'] ↔ closesEarly b n (segments x) = true := by
  refine image_bracket_cases (motive := fun x w =>
    closer n <:+: w ++ [']'] ↔ closesEarly b n (segments x) = true) h hw ?_ ?_ ?_
  · have hshort : ¬ closer n <:+: [']'] := by
      intro h
      have := h.length_le
      simp [closer] at this
    simpa [segments, closesEarly] using hshort
  · intro name r v hfree hs ih
    rw [List.append_assoc, closer_infix_free hfree, hs, closesEarly, ih]
  · intro c r v hs hr hv ih
    rw [hs, List.cons_append, List.infix_cons_iff, closer_prefix_cons, closesAt_image hr hv, ih]
    simp [closesEarly]

theorem opensLevel_of_closesAt (h : opensLevel (segments x) = false)
    (hc : closesAt b k (segments x) = true) : List.replicate k '=' ++ [']'] <+: x ++ [']'] := by
  induction x using segments_induction generalizing k with
  | nil => simpa [segments, closesAt, signs_prefix_cons] using hc
  | hole name r _ hs _ =>
    rw [segments_hole hs] at h
    cases h
  | char c x hs _ ih =>
    rw [hs] at h hc
    rw [List.cons_append, signs_prefix_cons]
    cases k with
    | zero => simpa [closesAt] using hc
    | succ k =>
      simp only [closesAt, Bool.and_eq_true, decide_eq_true_eq] at hc
      obtain ⟨rfl, hc⟩ := hc
      exact .inr ⟨k, rfl, rfl, ih (by simpa [opensLevel] using h) hc⟩

/-- Where no placeholder stands behind a closing bracket, no argument closes a long bracket. -/
theorem not_closesEarly (h : ¬ closer n <:+: x ++ [']']) (hm : mayClose (segments x) = false) :
    closesEarly b n (segments x) = false := by
  induction x using segments_induction with
  | nil => simp [segments, closesEarly]
  | hole name r _ hs ih =>
    rw [segments_hole hs] at hm ⊢
    refine ih (fun hi => h (hi.trans ⟨'\x7b' :: (name.toList ++ ['\x7d']), [], by simp⟩)) hm
  | char c x hs _ ih =>
    rw [hs] at hm ⊢
    simp only [mayClose, Bool.or_eq_false_iff] at hm
    rw [closesEarly, ih (fun hi => h (List.infix_cons hi)) hm.2, Bool.or_false, Bool.eq_false_iff]
    intro hc
    rw [Bool.and_eq_true, decide_eq_true_eq] at hc
    obtain ⟨rfl, hc⟩ := hc
    have hp := opensLevel_of_closesAt (by simpa using hm.1) hc
    exact h (List.IsPrefix.isInfix (closer_prefix_cons.2 ⟨rfl, hp⟩))

theorem piece_long_iff (hk : kind = none ∨ kind = some .str) :
    Piece ((longPiece kind n w).text ++ v) (longPiece kind n w) v ↔
      ¬ closer n <:+: w ++ [']'] := by
  rw [← through_closer_iff w v]
  have htext : (longPiece kind n w).text ++ v =
      dashes kind ++ opener n ++ (w ++ (closer n ++ v)) := by simp [longPiece]
  rw [htext]
  constructor
  · intro h
    cases ht : through (closer n) (w ++ (closer n ++ v)) with
    | none =>
      obtain ⟨c, y, hx, hl⟩ := h.lexeme_eq
      rcases hk with rfl | rfl
      · rw [dashes, List.append_assoc, List.cons_append, List.cons.injEq] at hx
        obtain ⟨rfl, rfl⟩ := hx
        rw [List.cons_append, Rule.lexeme_comment, List.nil_append, Rule.opener_append] at hl
        simp [Rule.comment, Rule.longBracket_replicate, ht, Rule.bracketed] at hl
      · rw [dashes, List.nil_append, Rule.opener_append, List.cons.injEq] at hx
        obtain ⟨rfl, rfl⟩ := hx
        simp [Rule.lexeme, Text.isAsciiBlank, Text.isIdentStart, Rule.isQuote,
          Rule.longBracket_replicate, ht, Rule.bracketed] at hl
    | some p =>
      obtain ⟨t, r⟩ := p
      rcases hk with rfl | rfl
      · obtain ⟨he, rfl⟩ := (Piece.longComment ht).unique h
        simp only [longPiece, dashes, Lexeme.mk.injEq, true_and] at he
        rw [List.append_cancel_left (show _ ++ t = _ ++ _ from he.symm)]
      · obtain ⟨he, rfl⟩ := (Piece.bracket ht).unique h
        simp only [longPiece, dashes, Lexeme.mk.injEq, true_and, List.nil_append] at he
        rw [List.append_cancel_left he.symm]
  · intro ht
    rcases hk with rfl | rfl
    · exact Piece.longComment ht
    · exact Piece.bracket ht

theorem not_mem_closer (n : Nat) : '\x7b' ∉ closer n := by
  simp [closer]

theorem not_mem_front (hk : kind = none ∨ kind = some .str) (n : Nat) :
    '\x7b' ∉ dashes kind ++ opener n := by
  rcases hk with rfl | rfl <;> simp [dashes, opener]

theorem becomes_bracket (hk : kind = none ∨ kind = some .str) {text out : String}
    (htext : text.toList = x ++ (longPiece kind n body).text ++ z)
    (hout : substituteRule text b = .ok out) :
    ∃ u w v, Becomes b [] x ((longPiece kind n body).text ++ z) u ∧
      Becomes b (x ++ (dashes kind ++ opener n)) body (closer n ++ z) w ∧
      Becomes b (x ++ (longPiece kind n body).text) z [] v ∧
      out.toList = u ++ (longPiece kind n w).text ++ v := by
  have hbefore : Cuts x (longPiece kind n body).text := by
    rcases hk with rfl | rfl
    · exact cuts_before (by decide) (by decide) x _
    · exact cuts_before (by decide) (by decide) x _
  have hopen : Cuts (dashes kind ++ opener n) (body ++ closer n) := by
    have := cuts_after (c := '[') (by decide) (by decide)
      (dashes kind ++ '[' :: List.replicate n '=') (body ++ closer n)
    simpa [opener] using this
  have hclose : Cuts body (closer n) := cuts_before (by decide) (by decide) body _
  have hafter : Cuts (x ++ (longPiece kind n body).text) z := by
    have := cuts_after (c := ']') (by decide) (by decide)
      (x ++ (dashes kind ++ opener n ++ (body ++ ']' :: List.replicate n '='))) z
    simpa [longPiece, closer] using this
  have h := becomes_rule.1 hout
  rw [htext] at h
  obtain ⟨_, v, h, hv, ho⟩ := (becomes_append hafter).1 h
  obtain ⟨u, _, hu, hpiece, rfl⟩ := (becomes_append hbefore).1 h
  obtain ⟨_, _, hfront, hrest, rfl⟩ := (becomes_append hopen).1 hpiece
  obtain ⟨w, _, hw, hend, rfl⟩ := (becomes_append hclose).1 hrest
  obtain rfl := (becomes_plain (not_mem_front hk n)).1 hfront
  obtain rfl := (becomes_plain (not_mem_closer n)).1 hend
  exact ⟨u, w, v, by simpa using hu, by simpa using hw, by simpa using hv, ho⟩

theorem scan_longPiece (hk : kind = none ∨ kind = some .str) (h : ¬ closer n <:+: body ++ [']'])
    (hx : scan (.code, 0) x ((longPiece kind n body).text ++ z) = (.code, 0)) :
    scan (.code, 0) (x ++ (dashes kind ++ opener n)) (body ++ (closer n ++ z)) =
        (.longBracket n, 0) ∧
      scan (.code, 0) (x ++ (longPiece kind n body).text) z = (.code, 0) := by
  have hfront (y : List Char) :
      scan (.code, 0) (dashes kind ++ opener n) y = (.longBracket n, 0) := by
    rcases hk with rfl | rfl
    · exact scan_longComment n y
    · exact scan_opener n y
  have htext : (longPiece kind n body).text ++ z =
      dashes kind ++ opener n ++ (body ++ (closer n ++ z)) := by simp [longPiece]
  constructor
  · rw [scan_append, ← htext, hx, hfront]
  · have hbody := scan_through ((through_closer_iff body z).2 h)
    rw [scan_append, hx, longPiece, scan_append, hfront, hbody]

/-- A long bracket with arguments put in ends where it ended in the rule just when the tokenizer
comes to it, no closing bracket is put together in it, and what follows can be read. Where the
scanner is in step, one is put together only from a bracket of the rule and equality signs of the
arguments behind it. -/
theorem bracket_closes_iff (hk : kind = none ∨ kind = some .str) {text out : String}
    (htext : text.toList = x ++ (longPiece kind n body).text ++ z)
    (hfinds : Finds x (longPiece kind n body) z) (hout : substituteRule text b = .ok out) :
    ∃ u w v, Becomes b [] x ((longPiece kind n body).text ++ z) u ∧
      Becomes b (x ++ (dashes kind ++ opener n)) body (closer n ++ z) w ∧
      Becomes b (x ++ (longPiece kind n body).text) z [] v ∧
      out.toList = u ++ (longPiece kind n w).text ++ v ∧
      ((Finds u (longPiece kind n w) v ∧ ∃ ts us, Rule.tokens out =
            .ok (ts ++ ((longPiece kind n w).token? (byteLength u)).toList ++ us) ∧
          (∀ t ∈ ts, t.stop ≤ byteLength u) ∧
          ∀ t ∈ us, byteLength (u ++ (longPiece kind n w).text) ≤ t.start) ↔
        Stops u (dashes kind ++ opener n) ∧ ¬ closer n <:+: w ++ [']'] ∧
          ∃ ls, lexemes 0 v = .ok ls) ∧
      (scan (.code, 0) x ((longPiece kind n body).text ++ z) = (.code, 0) →
        (closer n <:+: w ++ [']'] ↔ closesEarly b n (segments body) = true) ∧
        (mayClose (segments body) = false → ¬ closer n <:+: w ++ [']']) ∧
        substituteRule (String.ofList z) b = .ok (String.ofList v)) := by
  obtain ⟨u, w, v, hu, hw, hv, ho⟩ := becomes_bracket hk htext hout
  have hbody : ¬ closer n <:+: body ++ [']'] :=
    (piece_long_iff hk).1 (Rule.finds_iff.1 hfinds).2.1
  refine ⟨u, w, v, hu, hw, hv, ho, ?_, ?_⟩
  · have hstops : Stops u ((longPiece kind n w).text ++ v) ↔ Stops u (dashes kind ++ opener n) := by
      rcases hk with rfl | rfl <;> exact Rule.stops_head (by decide) _ _
    have hfound := Rule.finds_iff (u := u) (l := longPiece kind n w) (v := v)
    rw [piece_long_iff hk, hstops] at hfound
    rw [← hfound]
    constructor
    · exact And.left
    · intro h
      exact ⟨h, h.tokens ho⟩
  · intro hx
    obtain ⟨h₁, h₂⟩ := scan_longPiece hk hbody hx
    rw [Becomes, h₁] at hw
    rw [Becomes, List.append_nil, h₂] at hv
    have hearly := closesEarly_image hbody hw
    refine ⟨hearly, fun hm hc => ?_, ?_⟩
    · rw [hearly, not_closesEarly hbody hm] at hc
      cases hc
    · rwa [substituteRule_eq_ok, String.toList_ofList, String.toList_ofList]

theorem bracket_closes_behind_blank :
    Finds "a == ".toList (longPiece (some .str) 1 "b] ='".toList) " --".toList := by
  have hfinds : Finds "a == ".toList (longPiece (some .str) 1 "b] {x}".toList) " --".toList :=
    ⟨[⟨some .ident, ['a']⟩, ⟨none, [' ']⟩, ⟨some .punct, ['=', '=']⟩, ⟨none, [' ']⟩],
      [⟨none, [' ']⟩, ⟨none, ['-', '-']⟩], by cbv, rfl⟩
  have htext : "a == [=[b] {x}]=] --".toList =
      "a == ".toList ++ (longPiece (some .str) 1 "b] {x}".toList).text ++ " --".toList := by decide
  have hout : substituteRule "a == [=[b] {x}]=] --" [("x", .str "='")] =
      .ok "a == [=[b] =']=] --" := by cbv
  obtain ⟨u, w, v, hu, -, -, ho, hiff, hstep⟩ := bracket_closes_iff (.inr rfl) htext hfinds hout
  obtain ⟨-, hcloses, hv⟩ := hstep (by decide)
  have hu' : u = "a == ".toList := (becomes_plain (by decide)).1 hu
  have hv' : v = " --".toList := by
    rw [show substituteRule _ _ = .ok " --" by cbv] at hv
    simpa using (congrArg String.toList (Except.ok.inj hv)).symm
  subst hu' hv'
  have hw : w = "b] ='".toList := by
    have h : "[=[".toList ++ (w ++ "]=] --".toList) =
        "[=[".toList ++ ("b] ='".toList ++ "]=] --".toList) := by
      simpa [longPiece, dashes, opener, closer] using ho.symm
    exact List.append_cancel_right (List.append_cancel_left h)
  subst hw
  have hstops : Stops "a == ".toList (dashes (some .str) ++ opener 1) :=
    (Rule.stops_head (by decide) _ _).1 (Rule.finds_iff.1 hfinds).1
  exact (hiff.2 ⟨hstops, hcloses (by cbv), [⟨none, [' ']⟩, ⟨none, ['-', '-']⟩], by cbv⟩).1

/-- A bracket of the rule in front of an empty argument meets the first one of the closer, and what
the rule had in the literal is code. -/
theorem argument_ends_bracket :
    Rule.tokens "[[a]{x}] or b --]]" = .ok [⟨.str, "[[a]{x}] or b --]]", 0, 18⟩] ∧
      substituteRule "[[a]{x}] or b --]]" [("x", .str "")] = .ok "[[a]] or b --]]" ∧
      Rule.tokens "[[a]] or b --]]" =
        .ok [⟨.str, "[[a]]", 0, 5⟩, ⟨.ident, "or", 6, 8⟩, ⟨.ident, "b", 9, 10⟩] := by
  refine ⟨by cbv, by cbv, by cbv⟩

end Rulebook.Template
