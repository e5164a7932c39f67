import Rulebook.Proofs.InStep
import Rulebook.Proofs.Places

namespace Rulebook.Template

open Rule (Lexeme Finds Stops lexemes opener closer through line level?)

variable {c : Char} {x y z u v w body : List Char} {b : Bindings} {ss : List Segment} {n : Nat}

def opensLevel : List Segment → Bool
  | .char c :: ss => c = '=' && opensLevel ss
  | .hole _ :: _ => true
  | [] => false

def opensBracket : List Segment → Bool
  | .char c :: ss => c = '[' && opensLevel ss
  | .hole _ :: _ => true
  | [] => false

theorem fill_line {name : String} (h : (Part.hole name .lineComment).fill b = .ok w) :
    '\n' ∉ w := by
  by_cases hr : name ∈ reservedRoots
  · simp only [Part.fill, if_pos hr, Except.ok.injEq] at h
    have hr' : name = "character" ∨ name = "gameState" := by simpa [reservedRoots] using hr
    rcases hr' with rfl | rfl <;> subst h <;> decide
  · cases hg : b.get? name with
    | none => simp [Part.fill, hr, hg] at h
    | some v =>
      simp only [Part.fill, if_neg hr, hg, Position.write] at h
      split at h
      · next hw =>
        split at hw
        · cases hw
        · next hany =>
          cases hw
          cases h
          intro hm
          exact hany (List.any_eq_true.2 ⟨'\n', hm, by decide⟩)
      · cases h

/-- In a comment no argument ends the line. -/
theorem image_line (hx : '\n' ∉ x) (hw : image b (.lineComment, 0) x z = .ok w) : '\n' ∉ w := by
  rw [image, map_eq_ok] at hw
  obtain ⟨ws, hws, rfl⟩ := hw
  induction x using segments_induction generalizing ws with
  | nil =>
    simp only [segments, marks, List.mapM_nil] at hws
    cases hws
    simp
  | hole n r hn hs ih =>
    have hr : '\n' ∉ r := by
      intro hm
      exact hx (by simp [hm])
    rw [segments_hole hs] at hws
    simp only [marks, List.mapM_cons, bind_eq_ok, pure, Except.pure, Except.ok.injEq] at hws
    obtain ⟨v, hv, vs, hvs, rfl⟩ := hws
    rw [List.flatten_cons, List.mem_append, not_or]
    exact ⟨fill_line hv, ih hr vs hvs⟩
  | char c x hs _ ih =>
    simp only [List.mem_cons, not_or] at hx
    rw [hs] at hws
    simp only [marks, List.mapM_cons, bind_eq_ok, pure, Except.pure, Except.ok.injEq, Part.fill,
      advance, Position.next, if_neg (Ne.symm hx.1)] at hws
    obtain ⟨v, rfl, vs, hvs, rfl⟩ := hws
    rw [List.flatten_cons, List.mem_append, not_or]
    exact ⟨by simpa using hx.1, ih hx.2 vs hvs⟩

theorem level?_image (hs : opensLevel (segments x) = false) (hx : level? x = none)
    {s : Stand} (hw : image b s x z = .ok w) : level? w = none := by
  rw [image, map_eq_ok] at hw
  obtain ⟨ws, hws, rfl⟩ := hw
  induction x using segments_induction generalizing s ws with
  | nil =>
    simp only [segments, marks, List.mapM_nil] at hws
    cases hws
    rfl
  | hole n r hn h ih => simp [segments_hole h, opensLevel] at hs
  | char c x h _ ih =>
    rw [h] at hs hws
    simp only [marks, List.mapM_cons, bind_eq_ok, pure, Except.pure, Except.ok.injEq,
      Part.fill] at hws
    obtain ⟨v, rfl, vs, hvs, rfl⟩ := hws
    rw [Rule.level?_cons] at hx
    rw [List.flatten_cons, List.singleton_append, Rule.level?_cons]
    by_cases h₁ : c = '='
    · rw [if_pos h₁, Option.map_eq_none_iff] at hx
      simp only [opensLevel, h₁, decide_true, Bool.true_and] at hs
      rw [if_pos h₁, ih hs hx vs hvs]
      rfl
    · rw [if_neg h₁] at hx ⊢
      split at hx
      · cases hx
      · next h₂ => rw [if_neg h₂]

theorem bracket?_image (hs : opensBracket (segments x) = false) (hx : Rule.bracket? x = none)
    {s : Stand} (hw : image b s x z = .ok w) : Rule.bracket? w = none := by
  rw [image, map_eq_ok] at hw
  obtain ⟨ws, hws, rfl⟩ := hw
  induction x using segments_induction with
  | nil =>
    simp only [segments, marks, List.mapM_nil] at hws
    cases hws
    rfl
  | hole n r hn h ih => simp [segments_hole h, opensBracket] at hs
  | char c x h _ ih =>
    rw [h] at hs hws
    simp only [marks, List.mapM_cons, bind_eq_ok, pure, Except.pure, Except.ok.injEq,
      Part.fill] at hws
    obtain ⟨v, rfl, vs, hvs, rfl⟩ := hws
    rw [List.flatten_cons, List.singleton_append]
    by_cases hc : c = '['
    · subst hc
      simp only [opensBracket, decide_true, Bool.true_and] at hs
      exact level?_image hs hx (map_eq_ok.2 ⟨vs, hvs, rfl⟩)
    · simp [Rule.bracket?, hc]

/-- A comment is the whole of a text, up to its line break, if no long bracket begins it, or if
that ends there. -/
theorem comment_eq_ok_iff (hw : (∃ y, w = y ++ ['\n'] ∧ '\n' ∉ y) ∨ '\n' ∉ w ∧ v = []) :
    Rule.comment (w ++ v) = .ok (⟨none, '-' :: '-' :: w⟩, v) ↔
      Rule.bracket? w = none ∨ ∃ n t, w = opener n ++ t ∧ through (closer n) t = some (t, []) := by
  cases hb : Rule.bracket? w with
  | none =>
    simp only [true_or, iff_true]
    rcases hw with ⟨y, rfl, hy⟩ | ⟨hn, rfl⟩
    · rw [List.append_assoc, List.singleton_append, Rule.comment_eq_line, Rule.line_break hy]
      rwa [Rule.bracket?_line] at hb ⊢
    · rw [List.append_nil, Rule.comment_eq_line hb]
      rcases Rule.line_cases w with ⟨-, hl⟩ | ⟨u, r, -, rfl, -⟩
      · rw [hl]
      · simp at hn
  | some n =>
    -- the long bracket ends at the same place whatever follows
    obtain ⟨t, rfl⟩ := Rule.bracket?_eq_some.1 hb
    simp only [reduceCtorEq, false_or]
    constructor
    · intro h
      refine ⟨n, t, rfl, ?_⟩
      cases ht : through (closer n) (t ++ v) with
      | none =>
        rw [List.append_assoc, Rule.opener_append] at h
        simp [Rule.comment, Rule.longBracket_replicate, ht, Rule.bracketed] at h
      | some p =>
        obtain ⟨t', r⟩ := p
        rw [List.append_assoc, Rule.comment_eq_bracket ht] at h
        simp only [Except.ok.injEq, Prod.mk.injEq, Lexeme.mk.injEq, true_and, List.cons.injEq,
          List.append_cancel_left_eq] at h
        obtain ⟨rfl, rfl⟩ := h
        have := Rule.through_seam (Rule.closer_ne_nil n) ht []
        rwa [List.append_nil] at this
    · rintro ⟨m, t', e, ht⟩
      have hm : m = n := by
        rw [e, Rule.bracket?_eq_some.2 ⟨t', rfl⟩] at hb
        exact Option.some.inj hb
      subst hm
      obtain rfl := List.append_cancel_left e
      have := Rule.through_seam (Rule.closer_ne_nil m) ht v
      rw [List.append_assoc, Rule.comment_eq_bracket this]

theorem comment_of_piece (h : Rule.Piece ('-' :: '-' :: body ++ z) ⟨none, '-' :: '-' :: body⟩ z)
    (hline : Rule.bracket? body = none) : Rule.bracket? (body ++ z) = none ∧
      ((∃ y, body = y ++ ['\n'] ∧ '\n' ∉ y) ∨ '\n' ∉ body ∧ z = []) := by
  have hc : (⟨none, '-' :: '-' :: body⟩ : Lexeme).isLineComment = true := by
    simp [Lexeme.isLineComment, hline]
  obtain ⟨u, hx, hb, hl, hz⟩ := h.line_comment hc
  obtain rfl : body ++ z = u := by simpa using hx
  have hbody : body = (line (body ++ z)).1 := by simpa using hl
  refine ⟨hb, ?_⟩
  rcases Rule.line_cases (body ++ z) with ⟨hn, hx⟩ | ⟨y, r, hy, -, hx⟩
  · rw [hx] at hz
    rw [List.mem_append, not_or] at hn
    exact .inr ⟨hn.1, hz⟩
  · rw [hx] at hbody
    exact .inl ⟨y, hbody, hy⟩

theorem cuts_comment (hend : (∃ y, body = y ++ ['\n'] ∧ '\n' ∉ y) ∨ '\n' ∉ body ∧ z = [])
    (x : List Char) : Cuts (x ++ body) z := by
  rcases hend with ⟨y, rfl, -⟩ | ⟨-, rfl⟩
  · have := cuts_after (c := '\n') (by decide) (by decide) (x ++ y) z
    simpa using this
  · exact cuts_nil _

theorem image_comment (hend : (∃ y, body = y ++ ['\n'] ∧ '\n' ∉ y) ∨ '\n' ∉ body ∧ z = [])
    (hw : image b (.lineComment, 0) body z = .ok w) :
    (∃ y, w = y ++ ['\n'] ∧ '\n' ∉ y) ∨ '\n' ∉ w ∧ z = [] := by
  rcases hend with ⟨y, rfl, hy⟩ | ⟨hn, rfl⟩
  · have hd : Due (.lineComment, 0) (y ++ (['\n'] ++ z)) := ⟨by simp, by simp⟩
    obtain ⟨w', _, hw', hbreak, rfl⟩ :=
      (image_append (cuts_before (by decide) (by decide) y []) hd).1 hw
    rw [image_plain (by decide)] at hbreak
    cases hbreak
    exact .inl ⟨w', rfl, image_line hy hw'⟩
  · exact .inr ⟨image_line hn hw, rfl⟩

theorem becomes_dashes {a : List Char} : Becomes b a ('-' :: '-' :: body) z w ↔
    ∃ v, Becomes b (a ++ ['-', '-']) body z v ∧ w = '-' :: '-' :: v := by
  have hcut : Cuts ['-', '-'] body := cuts_after (x := ['-']) (by decide) (by decide) body
  rw [show '-' :: '-' :: body = ['-', '-'] ++ body from rfl, becomes_append hcut]
  simp only [becomes_plain (x := ['-', '-']) (by decide)]
  constructor
  · rintro ⟨_, v, rfl, hv, rfl⟩
    exact ⟨v, hv, rfl⟩
  · rintro ⟨v, hv, rfl⟩
    exact ⟨['-', '-'], v, rfl, hv, rfl⟩

theorem becomes_comment {text out : String} (htext : text.toList = x ++ '-' :: '-' :: body ++ z)
    (hcut : Cuts (x ++ '-' :: '-' :: body) z) (hout : substituteRule text b = .ok out) :
    ∃ u w v, Becomes b [] x ('-' :: '-' :: body ++ z) u ∧ Becomes b (x ++ ['-', '-']) body z w ∧
      Becomes b (x ++ '-' :: '-' :: body) z [] v ∧ out.toList = u ++ '-' :: '-' :: w ++ v := by
  have hbefore : Cuts x ('-' :: '-' :: body) := cuts_before (by decide) (by decide) x _
  have h := becomes_rule.1 hout
  rw [htext] at h
  obtain ⟨_, v, h, hv, ho⟩ := (becomes_append hcut).1 h
  obtain ⟨u, _, hu, hcomment, rfl⟩ := (becomes_append hbefore).1 h
  obtain ⟨w, hw, rfl⟩ := becomes_dashes.1 hcomment
  exact ⟨u, w, v, by simpa using hu, by simpa using hw, by simpa using hv, ho⟩

theorem scan_of_comment (hb : Rule.bracket? (body ++ z) = none)
    (hx : scan (.code, 0) x ('-' :: '-' :: body ++ z) = (.code, 0)) :
    scan (.code, 0) (x ++ ['-', '-']) (body ++ z) = (.lineComment, 0) ∧
      scan (.code, 0) (x ++ '-' :: '-' :: body) z = scan (.lineComment, 0) body z := by
  constructor
  · rw [scan_append, show ['-', '-'] ++ (body ++ z) = '-' :: '-' :: body ++ z by simp, hx]
    exact scan_comment (y := []) hb _ rfl
  · rw [scan_append, hx, scan_comment hb z rfl]

/-- A comment with arguments put in is dropped, and nothing else is, just when the tokenizer comes
to its dashes, finds it to be a comment, and can read what follows. Where the scanner is in step, it
is one unless an argument opens a long bracket in it. -/
theorem comment_dropped_iff {text out : String}
    (htext : text.toList = x ++ '-' :: '-' :: body ++ z)
    (hfinds : Finds x ⟨none, '-' :: '-' :: body⟩ z) (hline : Rule.bracket? body = none)
    (hout : substituteRule text b = .ok out) :
    ∃ u w v, Becomes b [] x ('-' :: '-' :: body ++ z) u ∧
      Becomes b (x ++ ['-', '-']) body z w ∧ Becomes b (x ++ '-' :: '-' :: body) z [] v ∧
      out.toList = u ++ '-' :: '-' :: w ++ v ∧
      ((Finds u ⟨none, '-' :: '-' :: w⟩ v ∧ ∃ ts us, Rule.tokens out = .ok (ts ++ us) ∧
          (∀ t ∈ ts, t.stop ≤ Rule.byteLength u) ∧
          ∀ t ∈ us, Rule.byteLength (u ++ '-' :: '-' :: w) ≤ t.start) ↔
        Stops u ['-', '-'] ∧ Rule.comment (w ++ v) = .ok (⟨none, '-' :: '-' :: w⟩, v) ∧
          ∃ ls, lexemes 0 v = .ok ls) ∧
      (scan (.code, 0) x ('-' :: '-' :: body ++ z) = (.code, 0) →
        (Rule.comment (w ++ v) = .ok (⟨none, '-' :: '-' :: w⟩, v) ↔
          Rule.bracket? w = none ∨
            ∃ n t, w = opener n ++ t ∧ through (closer n) t = some (t, [])) ∧
        (opensBracket (segments body) = false → Rule.bracket? w = none) ∧
        '\n' ∉ w.dropLast ∧ substituteRule (String.ofList z) b = .ok (String.ofList v)) := by
  obtain ⟨hb, hend⟩ := comment_of_piece (Rule.finds_iff.1 hfinds).2.1 hline
  have hcut : Cuts (x ++ '-' :: '-' :: body) z := by
    simpa using cuts_comment hend (x ++ ['-', '-'])
  obtain ⟨u, w, v, hu, hw, hv, ho⟩ := becomes_comment htext hcut hout
  refine ⟨u, w, v, hu, hw, hv, ho, ?_, ?_⟩
  · have hfound := Rule.finds_iff (u := u) (l := ⟨none, '-' :: '-' :: w⟩) (v := v)
    have hcomment := Rule.piece_comment_iff (x := w ++ v) (l := ⟨none, '-' :: '-' :: w⟩) (v := v)
    simp only [List.cons_append] at hfound
    rw [hcomment, Rule.stops_congr (by decide) _ ['-']] at hfound
    rw [← hfound]
    constructor
    · exact And.left
    · intro h
      exact ⟨h, h.dropped ho rfl⟩
  · intro hx
    obtain ⟨h₁, h₂⟩ := scan_of_comment hb hx
    rw [Becomes, h₁] at hw
    rw [Becomes, List.append_nil, h₂] at hv
    have hshape := image_comment hend hw
    have hrest : image b (.code, 0) z [] = .ok v := by
      rcases hend with ⟨y, rfl, hy⟩ | ⟨-, rfl⟩
      · rwa [scan_append, scan_line hy] at hv
      · rw [image_plain (by simp)] at hv ⊢
        exact hv
    have hv' : z = [] → v = [] := by
      rintro rfl
      rw [image_plain (by simp)] at hrest
      exact (Except.ok.inj hrest).symm
    refine ⟨comment_eq_ok_iff (hshape.imp_right fun h => ⟨h.1, hv' h.2⟩),
      fun ho => bracket?_image ho hline hw, ?_, ?_⟩
    · rcases hshape with ⟨y, rfl, hy⟩ | ⟨hn, -⟩
      · rwa [List.dropLast_concat]
      · exact fun hm => hn (List.dropLast_subset w hm)
    · rwa [substituteRule_eq_ok, String.toList_ofList, String.toList_ofList]

theorem comment_dropped_behind_blank :
    Finds "a ".toList ⟨none, "-- [[z\n".toList⟩ "b".toList := by
  have hfinds : Finds "a ".toList ⟨none, "-- {x}\n".toList⟩ "b".toList :=
    ⟨[⟨some .ident, ['a']⟩, ⟨none, [' ']⟩], [⟨some .ident, ['b']⟩], by cbv, rfl⟩
  have htext : "a -- {x}\nb".toList =
      "a ".toList ++ '-' :: '-' :: " {x}\n".toList ++ "b".toList := by decide
  have hout : substituteRule "a -- {x}\nb" [("x", .str "[[z")] = .ok "a -- [[z\nb" := by cbv
  obtain ⟨u, w, v, hu, hw, -, ho, hiff, hstep⟩ :=
    comment_dropped_iff htext hfinds (by decide) hout
  obtain ⟨hcomment, hbracket, -, hv⟩ := hstep (by decide)
  have hu' : u = "a ".toList := (becomes_plain (by decide)).1 hu
  have hv' : v = "b".toList := by
    rw [show substituteRule _ _ = .ok "b" by cbv] at hv
    simpa using (congrArg String.toList (Except.ok.inj hv)).symm
  subst hu' hv'
  have hw' : w = " [[z\n".toList := List.append_cancel_right (by simpa using ho.symm)
  subst hw'
  have hstops : Stops "a ".toList ['-', '-'] :=
    (Rule.stops_congr (by decide) _ _).1 (Rule.finds_iff.1 hfinds).1
  have hb : Rule.bracket? " [[z\n".toList = none := hbracket (by cbv)
  exact (hiff.2 ⟨hstops, hcomment.2 (.inl hb), [⟨some .ident, ['b']⟩], by cbv⟩).1

/-- An argument opens a long bracket, and the rest of the comment's line is code. -/
theorem argument_ends_comment :
    Rule.tokens "a --{x} or b" = .ok [⟨.ident, "a", 0, 1⟩] ∧
      substituteRule "a --{x} or b" [("x", .str "[[]]")] = .ok "a --[[]] or b" ∧
      Rule.tokens "a --[[]] or b" =
        .ok [⟨.ident, "a", 0, 1⟩, ⟨.ident, "or", 9, 11⟩, ⟨.ident, "b", 12, 13⟩] := by
  refine ⟨by cbv, by cbv, by cbv⟩

end Rulebook.Template
