import Rulebook.Proofs.PieceTokens

namespace Rulebook.Script.Token

variable {c q : Char} {w x y r t : List Char} {fuel fuel' level n line line' : Nat}

theorem eq_nil_of_length_append (h : (y ++ r).length ≤ r.length) : y = [] := by
  rw [List.length_append] at h
  exact List.length_eq_zero_iff.1 (by omega)

theorem dropWhile_trim {p : Char → Bool} (h : (x ++ r).dropWhile p = y ++ r) :
    x.dropWhile p = y ∧ (x ++ r).takeWhile p = x.takeWhile p := by
  induction x with
  | nil =>
    rw [List.nil_append] at h ⊢
    have hlen := congrArg List.length h
    have hsub := (List.dropWhile_sublist (l := r) p).length_le
    obtain rfl := eq_nil_of_length_append (y := y) (r := r) (by omega)
    have hsplit := congrArg List.length (List.takeWhile_append_dropWhile (p := p) (l := r))
    rw [h, List.nil_append, List.length_append] at hsplit
    exact ⟨rfl, List.length_eq_zero_iff.1 (by omega)⟩
  | cons c x ih =>
    rw [List.cons_append] at h ⊢
    by_cases hc : p c = true
    · rw [List.dropWhile_cons_of_pos hc] at h ⊢
      obtain ⟨hd, ht⟩ := ih h
      exact ⟨hd, by rw [List.takeWhile_cons_of_pos hc, List.takeWhile_cons_of_pos hc, ht]⟩
    · rw [List.dropWhile_cons_of_neg hc] at h ⊢
      rw [List.takeWhile_cons_of_neg hc, List.takeWhile_cons_of_neg hc]
      exact ⟨List.append_cancel_right (by simpa using h), rfl⟩

theorem dropBreak_append (c d : Char) (x r : List Char) :
    dropBreak (c :: d :: (x ++ r)) = dropBreak (c :: d :: x) ++ r := by
  by_cases h₁ : c = '\r' ∧ d = '\n'
  · obtain ⟨rfl, rfl⟩ := h₁
    rfl
  by_cases h₂ : c = '\n' ∧ d = '\r'
  · obtain ⟨rfl, rfl⟩ := h₂
    rfl
  · have hkeep (x : List Char) : dropBreak (c :: d :: x) = d :: x := by
      unfold dropBreak
      split <;> simp_all
    rw [hkeep, hkeep, List.cons_append]

theorem dropBreak_trim (h : dropBreak (c :: (x ++ r)) = y ++ r) : dropBreak (c :: x) = y := by
  cases x with
  | nil =>
    rw [List.nil_append] at h
    have := dropBreak_length c r
    rw [h] at this
    rw [eq_nil_of_length_append this]
    simp [dropBreak]
  | cons d x =>
    rw [List.cons_append, dropBreak_append] at h
    exact List.append_cancel_right h

theorem closes_append (h : n < x.length) : closes n (x ++ r) = closes n x := by
  rw [Bool.eq_iff_iff, closes_iff, closes_iff]
  constructor
  · intro hp
    refine List.prefix_of_prefix_length_le hp (List.prefix_append x r) ?_
    simp only [List.length_append, List.length_replicate, List.length_singleton]
    omega
  · intro hp
    exact hp.trans (List.prefix_append x r)

theorem long_lt {acc : List Char} (h : long fuel level x acc line = some (t, r, line')) :
    r.length < x.length := by
  cases fuel with
  | zero => cases h
  | succ fuel =>
    cases x with
    | nil => cases h
    | cons c x =>
      rw [long] at h
      rw [List.length_cons]
      split at h
      · cases h
        simp only [List.length_drop]
        omega
      split at h
      · have := long_length h
        have := dropBreak_length c x
        omega
      · have := long_length h
        omega

theorem long_trim {acc : List Char}
    (h : long fuel level (x ++ r) acc line = some (t, y ++ r, line')) (hf : x.length < fuel') :
    long fuel' level x acc line = some (t, y, line') := by
  induction fuel generalizing x acc line fuel' with
  | zero => cases h
  | succ fuel ih =>
    cases x with
    | nil =>
      have hlt := long_lt h
      simp only [List.nil_append, List.length_append] at hlt
      omega
    | cons c x =>
      obtain ⟨fuel', rfl⟩ := Nat.exists_eq_succ_of_ne_zero (Nat.ne_zero_of_lt hf)
      have hf := Nat.lt_of_succ_lt_succ hf
      rw [List.cons_append, long] at h
      rw [Nat.succ_eq_add_one, long]
      split at h
      · next hc =>
        obtain ⟨hc, hcl⟩ := Bool.and_eq_true_iff.1 hc
        simp only [Option.some.injEq, Prod.mk.injEq] at h
        obtain ⟨rfl, hd, rfl⟩ := h
        have hprefix := (closes_iff _ _).1 hcl
        have hlen := congrArg List.length hd
        have hle := hprefix.length_le
        simp only [List.length_drop, List.length_append, List.length_replicate,
          List.length_singleton] at hlen hle
        have hx : level < x.length := by omega
        rw [closes_append hx] at hcl
        rw [List.drop_append_of_le_length hx] at hd
        rw [if_pos (by rw [hc, hcl]; rfl), List.append_cancel_right hd]
      · next hc =>
        have hno : ¬(decide (c = ']') && closes level x) = true := by
          intro h'
          obtain ⟨h₁, h₂⟩ := Bool.and_eq_true_iff.1 h'
          refine hc (Bool.and_eq_true_iff.2 ⟨h₁, ?_⟩)
          exact (closes_iff _ _).2 (((closes_iff _ _).1 h₂).trans (List.prefix_append x r))
        rw [if_neg hno]
        split at h
        · next hb =>
          rw [if_pos hb]
          cases x with
          | nil =>
            have hlt := long_lt h
            have := dropBreak_length c r
            simp only [List.nil_append, List.length_append] at hlt
            omega
          | cons d x =>
            rw [List.cons_append, dropBreak_append] at h
            have := dropBreak_length c (d :: x)
            exact ih h (by omega)
        · next hb =>
          rw [if_neg hb]
          exact ih h hf

theorem skipBreak_append (h : r.length < (skipBreak (x ++ r)).1.length) :
    skipBreak (x ++ r) = ((skipBreak x).1 ++ r, (skipBreak x).2) := by
  cases x with
  | nil =>
    obtain ⟨u, hu, -⟩ := skipBreak_eq ([] ++ r)
    have := congrArg List.length hu
    simp only [List.nil_append, List.length_append] at h this
    omega
  | cons c x =>
    rw [List.cons_append] at h ⊢
    by_cases hc : isBreak c = true
    · simp only [skipBreak, if_pos hc] at h ⊢
      cases x with
      | nil =>
        have := dropBreak_length c r
        rw [List.nil_append] at h
        omega
      | cons d x => rw [List.cons_append, dropBreak_append]
    · simp [skipBreak, hc]

theorem longText?_trim (h : longText? (x ++ r) line = some (t, y ++ r, line')) :
    longText? x line = some (t, y, line') := by
  obtain ⟨n, hn, hl⟩ := longText?_eq_some.1 h
  obtain ⟨u, hu, -⟩ := skipBreak_eq ((x ++ r).drop (n + 1))
  have hlt := long_lt hl
  have hlen := congrArg List.length hu
  simp only [List.length_append, List.length_drop] at hlt hlen
  have hx : n + 1 ≤ x.length := by omega
  have hlevel : level? x = some n := by
    rw [level?_eq] at hn ⊢
    have hp : List.replicate n '=' ++ ['['] <+: x ++ r := by
      have := Rule.level?_eq hn
      exact ⟨_, by rw [List.append_assoc, List.singleton_append, ← this]⟩
    obtain ⟨v, rfl⟩ : List.replicate n '=' ++ ['['] <+: x :=
      List.prefix_of_prefix_length_le hp (List.prefix_append x r) (by simpa using hx)
    rw [List.append_assoc]
    exact Rule.level?_replicate n v
  rw [List.drop_append_of_le_length hx] at hl hlt
  rw [skipBreak_append (by omega)] at hl
  exact longText?_eq_some.2 ⟨n, hlevel, long_trim hl (Nat.lt_succ_self _)⟩

theorem escape_other (hx : c ≠ 'x') (hz : c ≠ 'z') (hu : c ≠ 'u') (x : List Char) :
    escape (c :: x) =
      if isBreak c then .ok ([10], dropBreak (c :: x), 1)
      else if c.isDigit then
        let (n, r) := decimalEscape (c :: x)
        if n < 256 then .ok ([UInt8.ofNat n], r, 0) else malformed "decimal escape too large" "\\"
      else match simpleEscape? c with
        | some b => .ok ([b], x, 0)
        | none => malformed "invalid escape sequence" "\\" := by
  unfold escape
  split
  · next h => cases h
  · next h => exact absurd (List.cons.inj h).1 hx
  · next h => exact absurd (List.cons.inj h).1 hz
  · next h => exact absurd (List.cons.inj h).1 hu
  · next h => exact absurd (List.cons.inj h).1 hu
  · next h =>
    obtain ⟨rfl, rfl⟩ := List.cons.inj h
    rfl

theorem takeWhile_append_of_length {p : Char → Bool}
    (h : ((x ++ r).takeWhile p).length ≤ x.length) :
    (x ++ r).takeWhile p = x.takeWhile p := by
  rw [List.takeWhile_append] at h ⊢
  split at h
  · next hx =>
    rw [if_pos hx]
    rw [List.length_append] at h
    rw [List.length_eq_zero_iff.1 (show (r.takeWhile p).length = 0 by omega), List.append_nil]
    exact ((List.takeWhile_prefix p).eq_of_length hx).symm
  · next hx => rw [if_neg hx]

theorem decimalEscape_trim (h : (decimalEscape (x ++ r)).2 = y ++ r) :
    decimalEscape x = ((decimalEscape (x ++ r)).1, y) := by
  simp only [decimalEscape] at h ⊢
  have hle : (((x ++ r).take 3).takeWhile Char.isDigit).length ≤ x.length := by
    have hlen := congrArg List.length h
    have hsub := (List.takeWhile_prefix (l := (x ++ r).take 3) Char.isDigit).length_le
    simp only [List.length_drop, List.length_append, List.length_take] at hlen hsub
    omega
  have hds : ((x ++ r).take 3).takeWhile Char.isDigit = (x.take 3).takeWhile Char.isDigit := by
    have hsub := (List.takeWhile_prefix (l := (x ++ r).take 3) Char.isDigit).length_le
    rw [List.take_append] at hle hsub ⊢
    refine takeWhile_append_of_length ?_
    simp only [List.length_append, List.length_take] at hsub ⊢
    omega
  rw [hds] at h hle ⊢
  rw [List.drop_append_of_le_length hle] at h
  rw [List.append_cancel_right h]

theorem escape_trim {b : List UInt8} (h : escape (x ++ r) = .ok (b, y ++ r, n)) :
    escape x = .ok (b, y, n) := by
  obtain ⟨c, u, hx, -⟩ := escape_eq_ok h
  rw [← List.append_assoc] at hx
  obtain rfl := List.append_cancel_right hx
  clear hx
  rw [List.cons_append] at h ⊢
  generalize u ++ y = w at h ⊢
  generalize hz : c :: w ++ r = z at h
  generalize hv : y ++ r = v at h
  rw [List.cons_append] at hz
  -- the escape is cut off the whole text first, and its characters are then found in `w`
  revert h
  fun_cases escape z with
  | case2 a b x m n hb ha =>
    intro h
    cases h
    obtain ⟨rfl, hw⟩ := List.cons.inj hz
    obtain rfl : w = [a, b] ++ y := List.append_cancel_right (hw.trans (by simp [hv]))
    simp [escape, ha, hb]
  | case5 x blanks =>
    intro h
    cases hz
    cases h
    obtain ⟨hd, ht⟩ := dropWhile_trim hv.symm
    simp only [escape, blanks, hd, ht]
  | case8 x ds n hd hn y' hx =>
    intro h
    cases h
    obtain ⟨rfl, hw⟩ := List.cons.inj hz
    obtain ⟨w, rfl, rfl⟩ : ∃ w', w = '\x7b' :: w' ∧ x = w' ++ r := by
      have hsplit := List.takeWhile_append_dropWhile (p := Number.isHexDigit) (l := x)
      rw [hx, ← hv] at hsplit
      refine ⟨ds ++ '\x7d' :: y, List.append_cancel_right (hw.trans ?_), ?_⟩
      · simp [ds, hsplit]
      · simp [ds, hsplit]
    obtain ⟨hdrop, htake⟩ := dropWhile_trim (y := '\x7d' :: y) (hx.trans (by rw [← hv]; rfl))
    unfold n at hn
    unfold ds at hd hn
    rw [htake] at hd hn
    simp only [escape, hdrop, if_neg hd, if_neg hn, n, ds, htake]
  | case11 c x hx hz _ hu hc =>
    intro h
    cases hz
    cases h
    rw [escape_other hx hz hu, if_pos hc, dropBreak_trim hv.symm]
  | case12 c x hx hz _ hu hb hc n y' hy hn =>
    intro h
    cases hz
    cases h
    have hd := decimalEscape_trim (x := c :: w) (y := y) (r := r) (by rw [List.cons_append, hy, hv])
    rw [List.cons_append, hy] at hd
    simp only [escape_other hx hz hu, if_neg hb, if_pos hc, hd, if_pos hn]
  | case14 c x hx hz _ hu hb hc b hs =>
    intro h
    cases hz
    cases h
    simp only [escape_other hx hz hu, if_neg hb, if_neg hc, hs]
    rw [List.append_cancel_right hv]
  | _ => intro h; cases h

theorem escape_lt {b : List UInt8} (h : escape x = .ok (b, r, n)) : r.length < x.length := by
  obtain ⟨c, u, rfl, -⟩ := escape_eq_ok h
  simp only [List.cons_append, List.length_cons, List.length_append]
  omega

theorem escape_suffix {b : List UInt8} (h : escape x = .ok (b, y, n)) : ∃ u, x = u ++ y := by
  obtain ⟨c, u, rfl, -⟩ := escape_eq_ok h
  exact ⟨_, rfl⟩

theorem quoted_lt {acc b : List UInt8} (h : quoted fuel q x acc line = .ok (b, r, line')) :
    r.length < x.length := by
  cases fuel with
  | zero => cases h
  | succ fuel =>
    cases x with
    | nil => cases h
    | cons c x =>
      rw [List.length_cons]
      by_cases hc : c = '\\'
      · subst hc
        rw [quoted_escape, bind_eq_ok] at h
        obtain ⟨⟨b', z, n⟩, he, h⟩ := h
        have := escape_lt he
        have := quoted_length h
        omega
      · rw [quoted_plain fuel q c hc] at h
        split at h
        · cases h
          omega
        split at h
        · cases h
        · have := quoted_length h
          omega

theorem suffix_of_length {u v : List Char} (h : x ++ r = u ++ v) (hl : r.length ≤ v.length) :
    ∃ w, x = u ++ w ∧ v = w ++ r := by
  rcases List.append_eq_append_iff.1 h with ⟨w, rfl, rfl⟩ | ⟨w, rfl, rfl⟩
  · rw [List.length_append] at hl
    obtain rfl := List.length_eq_zero_iff.1 (show w.length = 0 by omega)
    exact ⟨[], by simp, rfl⟩
  · exact ⟨w, rfl, rfl⟩

theorem quoted_trim {acc b : List UInt8}
    (h : quoted fuel q (x ++ r) acc line = .ok (b, y ++ r, line')) (hf : x.length < fuel') :
    quoted fuel' q x acc line = .ok (b, y, line') := by
  induction fuel generalizing x acc line fuel' with
  | zero => cases h
  | succ fuel ih =>
    have hlt := quoted_lt h
    cases x with
    | nil =>
      simp only [List.nil_append, List.length_append] at hlt
      omega
    | cons c x =>
      obtain ⟨fuel', rfl⟩ := Nat.exists_eq_succ_of_ne_zero (Nat.ne_zero_of_lt hf)
      replace hf := Nat.lt_of_succ_lt_succ hf
      rw [List.cons_append] at h
      by_cases hc : c = '\\'
      · subst hc
        rw [quoted_escape, bind_eq_ok] at h
        obtain ⟨⟨b', z, n⟩, he, h⟩ := h
        obtain ⟨u, hu⟩ := escape_suffix he
        have hz := quoted_lt h
        rw [List.length_append] at hz
        obtain ⟨w, rfl, rfl⟩ := suffix_of_length hu (by omega)
        have he := escape_trim he
        rw [List.length_append] at hf
        rw [Nat.succ_eq_add_one, quoted_escape, he, ok_bind]
        exact ih h (by omega)
      · rw [quoted_plain fuel q c hc] at h
        rw [Nat.succ_eq_add_one, quoted_plain fuel' q c hc]
        split at h
        · next hq =>
          simp only [Except.ok.injEq, Prod.mk.injEq] at h
          obtain ⟨rfl, hr, rfl⟩ := h
          rw [if_pos hq, List.append_cancel_right hr]
        · next hq =>
          rw [if_neg hq]
          split at h
          · cases h
          · next hb =>
            rw [if_neg hb]
            exact ih h hf

def numeric (hex : Bool) (c : Char) : Bool := Rule.isMark hex c || Number.isHexDigit c || c = '.'

theorem numeral_cons (hex : Bool) (c s : Char) (x : List Char) :
    numeral hex (c :: s :: x) =
      if Rule.isMark hex c && (s = '+' || s = '-') then
        (c :: s :: (numeral hex x).1, (numeral hex x).2)
      else if numeric hex c then (c :: (numeral hex (s :: x)).1, (numeral hex (s :: x)).2)
      else ([], c :: s :: x) := rfl

theorem numeral_single (hex : Bool) (c : Char) :
    numeral hex [c] = if numeric hex c then ([c], []) else ([], [c]) := rfl

theorem numeral_length (hex : Bool) (x : List Char) : (numeral hex x).2.length ≤ x.length := by
  have := congrArg List.length (numeral_append hex x)
  rw [List.length_append] at this
  omega

theorem numeral_none {hex : Bool} (h : (numeral hex r).2 = y ++ r) :
    y = [] ∧ (numeral hex r).1 = [] := by
  have hsplit := congrArg List.length (numeral_append hex r)
  rw [h, List.length_append, List.length_append] at hsplit
  exact ⟨List.length_eq_zero_iff.1 (by omega), List.length_eq_zero_iff.1 (by omega)⟩

theorem numeral_trim {hex : Bool} (h : (numeral hex (x ++ r)).2 = y ++ r) :
    numeral hex x = ((numeral hex (x ++ r)).1, y) := by
  induction hn : x.length using Nat.strongRecOn generalizing x with
  | ind n ih =>
  subst hn
  match x with
  | [] =>
    rw [List.nil_append] at h ⊢
    obtain ⟨rfl, ht⟩ := numeral_none h
    rw [ht]
    rfl
  | [c] =>
    cases r with
    | nil =>
      rw [List.append_nil] at h
      exact Prod.ext rfl (h.trans (List.append_nil y))
    | cons s r =>
      rw [List.singleton_append, numeral_cons] at h ⊢
      rw [numeral_single]
      split at h
      · have := congrArg List.length h
        have := numeral_length hex r
        simp only [List.length_append, List.length_cons] at *
        omega
      next hm =>
      rw [if_neg hm]
      split at h
      · next hc =>
        obtain ⟨rfl, ht⟩ := numeral_none h
        rw [if_pos hc, if_pos hc, ht]
      · next hc =>
        have h : [c] ++ s :: r = y ++ s :: r := h
        rw [if_neg hc, if_neg hc, List.append_cancel_right h]
  | c :: s :: x =>
    rw [List.cons_append, List.cons_append, numeral_cons] at h ⊢
    rw [numeral_cons]
    split at h
    · next hm =>
      rw [if_pos hm, if_pos hm, ih _ (by simp) h rfl]
    next hm =>
    rw [if_neg hm, if_neg hm]
    split at h
    · next hc =>
      rw [if_pos hc, if_pos hc, ih _ (by simp) (x := s :: x) h rfl]
      rfl
    · next hc =>
      rw [if_neg hc, if_neg hc]
      have h : c :: s :: x ++ r = y ++ r := h
      rw [List.append_cancel_right h]

theorem readNumber_trim {m : Number} (h : readNumber (c :: (x ++ r)) = .ok (m, y ++ r)) :
    readNumber (c :: x) = .ok (m, y) := by
  obtain ⟨hn, hy⟩ := readNumber_eq_ok h
  have hhex : isHex (c :: (x ++ r)) = isHex (c :: x) := by
    cases x with
    | cons d x =>
      by_cases hc : c = '0'
      · subst hc
        rfl
      · rw [isHex_eq, isHex_eq, Rule.isHex_of_ne hc, Rule.isHex_of_ne hc]
    | nil =>
      -- two characters come before the digits of a hexadecimal numeral
      rw [Bool.eq_iff_iff]
      refine ⟨fun hx => ?_, fun hx => absurd hx (by simp [isHex])⟩
      rw [List.nil_append] at hn hx
      rw [if_pos hx] at hn
      have := numeral_length (isHex (c :: r)) ((c :: r).drop 2)
      have := congrArg List.length hn
      have : r ≠ [] := by
        rintro rfl
        simp [isHex] at hx
      have := List.length_pos_iff.2 this
      simp only [List.length_drop, List.length_append, List.length_cons] at *
      omega
  obtain ⟨u, v, hu, hx⟩ :
      ∃ u v, u.length = (if isHex (c :: x) then 2 else 1) ∧ c :: x = u ++ v := by
    split
    · next hx =>
      cases x with
      | nil => simp [isHex] at hx
      | cons d x => exact ⟨[c, d], x, rfl, rfl⟩
    · exact ⟨[c], x, rfl, rfl⟩
  have hxr : c :: (x ++ r) = u ++ (v ++ r) := by rw [← List.cons_append, hx, List.append_assoc]
  rw [hhex, ← hu, hxr, List.drop_left] at hn
  have htrim := numeral_trim hn
  simp only [readNumber] at h ⊢
  rw [hhex, ← hu, hxr, List.drop_left, List.take_left, hn] at h
  rw [← hu, hx, List.drop_left, List.take_left, ← hx, htrim]
  split at h
  · next hp _ =>
    cases h
    cases y with
    | nil => simp only [hp]
    | cons d y => simp only [hp, hy d rfl]
  · cases h

theorem sign?_trim {s : List Char} (h : sign? (x ++ r) = some s) (hs : s.length ≤ x.length) :
    sign? x = some s := by
  obtain ⟨hp, as, bs, hl, has⟩ := List.find?_eq_some_iff_append.1 h
  refine List.find?_eq_some_iff_append.2 ⟨?_, as, bs, hl, fun a ha => ?_⟩
  · rw [List.isPrefixOf_iff_prefix] at hp ⊢
    exact List.prefix_of_prefix_length_le hp (List.prefix_append x r) hs
  · have := has a ha
    simp only [Bool.not_eq_true', Bool.eq_false_iff, ne_eq, List.isPrefixOf_iff_prefix] at this ⊢
    exact fun h => this (h.trans (List.prefix_append x r))

theorem stepSign_trim {k : Option Token}
    (h : stepSign c (x ++ r) line = .ok (k, y ++ r, line')) :
    stepSign c x line = .ok (k, y, line') := by
  unfold stepSign at h ⊢
  rw [← List.cons_append] at h
  cases hs : sign? (c :: x ++ r) with
  | some s =>
    rw [hs] at h
    simp only [Except.ok.injEq, Prod.mk.injEq] at h
    obtain ⟨rfl, hd, rfl⟩ := h
    have hp : s.isPrefixOf (c :: x ++ r) = true := by simpa using List.find?_some hs
    obtain ⟨v, hv⟩ := List.isPrefixOf_iff_prefix.1 hp
    have hlen := congrArg List.length hd
    have hle := congrArg List.length hv
    simp only [List.length_drop, List.length_append] at hlen hle
    have hx : s.length ≤ (c :: x).length := by omega
    rw [List.drop_append_of_le_length hx] at hd
    simp only [sign?_trim hs hx, List.append_cancel_right hd]
  | none =>
    rw [hs] at h
    simp only [Except.ok.injEq, Prod.mk.injEq] at h
    obtain ⟨rfl, hd, rfl⟩ := h
    have hnone : sign? (c :: x) = none := by
      rw [sign?, List.find?_eq_none] at hs ⊢
      simp only [List.isPrefixOf_iff_prefix] at hs ⊢
      exact fun s hm hp => hs s hm (hp.trans (List.prefix_append _ r))
    rw [hnone, List.append_cancel_right hd]

theorem level?_append_some (h : level? x = some n) (r : List Char) : level? (x ++ r) = some n := by
  rw [level?_eq] at h ⊢
  rw [Rule.level?_eq h, List.append_assoc, List.cons_append]
  exact Rule.level?_replicate n _

theorem stepComment_trim {k : Option Token}
    (h : stepComment (x ++ r) line = .ok (k, y ++ r, line')) :
    stepComment x line = .ok (k, y, line') := by
  cases hb : Rule.bracket? (x ++ r) with
  | none =>
    have hx : Rule.bracket? x = none := by
      refine Option.eq_none_iff_forall_ne_some.2 fun n hn => ?_
      obtain ⟨z, rfl⟩ := Rule.bracket?_eq_some.1 hn
      rw [List.append_assoc, Rule.bracket?_eq_some.2 ⟨_, rfl⟩] at hb
      cases hb
    rw [stepComment_eq hb] at h
    simp only [Except.ok.injEq, Prod.mk.injEq] at h
    obtain ⟨rfl, hd, rfl⟩ := h
    rw [stepComment_eq hx, (dropWhile_trim hd).1]
  | some n =>
    obtain ⟨z, hz⟩ := Rule.bracket?_eq_some.1 hb
    rw [Rule.opener_append] at hz
    generalize hs : List.replicate n '=' ++ '[' :: z = s at hz
    have hlevel : level? s = some n := by
      rw [← hs, level?_eq, Rule.level?_replicate]
    rw [hz] at h
    simp only [stepComment, hlevel, Option.isSome_some, if_true] at h
    split at h
    · next t w l hl =>
      simp only [Except.ok.injEq, Prod.mk.injEq] at h
      obtain ⟨rfl, rfl, rfl⟩ := h
      cases x with
      | nil =>
        have := longText?_length hl
        have := congrArg List.length hz
        simp only [List.nil_append, List.length_append, List.length_cons] at *
        omega
      | cons c x =>
        obtain ⟨rfl, rfl⟩ := List.cons.inj hz
        have hx := longText?_trim hl
        obtain ⟨m, hm, -⟩ := longText?_eq_some.1 hx
        simp only [stepComment, hm, Option.isSome_some, if_true, hx]
    · cases h

theorem stepBracket_trim {k : Option Token}
    (h : stepBracket (x ++ r) line = .ok (k, y ++ r, line')) :
    stepBracket x line = .ok (k, y, line') := by
  unfold stepBracket at h ⊢
  split at h
  · split at h
    · next t z l hl =>
      simp only [Except.ok.injEq, Prod.mk.injEq] at h
      obtain ⟨rfl, rfl, rfl⟩ := h
      have hx := longText?_trim hl
      obtain ⟨n, hn, -⟩ := longText?_eq_some.1 hx
      rw [if_pos (by rw [hn]; rfl), hx]
    · cases h
  next hlevel =>
  split at h
  · cases h
  next hsign =>
  simp only [Except.ok.injEq, Prod.mk.injEq] at h
  obtain ⟨rfl, hd, rfl⟩ := h
  rw [if_neg, if_neg, List.append_cancel_right hd]
  · intro hx
    obtain ⟨v, rfl⟩ := List.head?_eq_some_iff.1 hx
    exact hsign rfl
  · intro hx
    obtain ⟨n, hn⟩ := Option.isSome_iff_exists.1 hx
    exact hlevel (by rw [level?_append_some hn]; rfl)

theorem startsNumber_trim (h : Rule.startsNumber (c :: (x ++ r)) = true) {m : Number}
    (hn : readNumber (c :: (x ++ r)) = .ok (m, y ++ r)) : Rule.startsNumber (c :: x) = true := by
  cases x with
  | cons d x => exact h
  | nil =>
    by_cases hc : c.isDigit = true
    · simp [Rule.startsNumber, hc]
    · have hdot : c = '.' := by
        simp only [Rule.startsNumber, Bool.or_eq_true, Bool.and_eq_true, decide_eq_true_eq] at h
        exact (h.resolve_left hc).1
      subst hdot
      have hnone : readNumber ['.'] = malformed "malformed number" "." := by cbv
      rw [readNumber_trim hn] at hnone
      cases hnone

theorem not_startsNumber_trim (h : Rule.startsNumber (c :: (x ++ r)) = false) :
    Rule.startsNumber (c :: x) = false := by
  cases x with
  | cons d x => exact h
  | nil =>
    simp only [Rule.startsNumber, Bool.or_eq_false_iff] at h
    simp [Rule.startsNumber, h.1, Rule.startsDigit]

theorem step_trim {k : Option Token} (h : step c (x ++ r) line = .ok (k, y ++ r, line')) :
    step c x line = .ok (k, y, line') := by
  rw [step.eq_def] at h ⊢
  split at h
  · next hb =>
    simp only [Except.ok.injEq, Prod.mk.injEq] at h
    obtain ⟨rfl, hd, rfl⟩ := h
    rw [if_pos hb, dropBreak_trim hd]
  next hb =>
  rw [if_neg hb]
  split at h
  · next hs =>
    simp only [Except.ok.injEq, Prod.mk.injEq] at h
    obtain ⟨rfl, hd, rfl⟩ := h
    rw [if_pos hs, List.append_cancel_right hd]
  next hs =>
  rw [if_neg hs]
  split at h
  · next hi =>
    simp only [Except.ok.injEq, Prod.mk.injEq] at h
    obtain ⟨rfl, hd, rfl⟩ := h
    obtain ⟨hd, ht⟩ := dropWhile_trim hd
    rw [if_pos hi, hd, ht]
  next hi =>
  rw [if_neg hi]
  -- what a numeral begins with has to be seen in `x` too
  rw [startsNumber_cons] at h ⊢
  split at h
  · next hn =>
    obtain ⟨⟨m, z⟩, hm, e⟩ := map_eq_ok.1 h
    cases e
    rw [if_pos (startsNumber_trim hn hm), readNumber_trim hm]
    rfl
  next hn =>
  rw [if_neg (by simp [not_startsNumber_trim (Bool.eq_false_iff.2 hn)])]
  split at h
  · next hq =>
    obtain ⟨⟨b, z, l⟩, hs, e⟩ := map_eq_ok.1 h
    cases e
    rw [if_pos hq, quoted_trim hs (Nat.lt_succ_self _)]
    rfl
  next hq =>
  rw [if_neg hq]
  split at h
  · next s hx =>
    -- the second dash stands in `x`, for otherwise more than `r` would be left
    cases x with
    | nil =>
      have := (stable_comment s).length h
      have := congrArg List.length hx
      simp only [List.nil_append, List.length_append, List.length_cons] at *
      omega
    | cons d x =>
      obtain ⟨rfl, rfl⟩ := List.cons.inj hx
      exact stepComment_trim h
  · exact stepBracket_trim h
  · next hbracket hcomment =>
    split
    · next s => exact (hcomment (s ++ r) rfl rfl).elim
    · exact (hbracket rfl).elim
    · exact stepSign_trim h

theorem long_suffix {acc : List Char} (h : long fuel level x acc line = some (t, r, line')) :
    r <:+ x := by
  fun_induction long fuel level x acc line with
  | case1 => cases h
  | case2 => cases h
  | case3 acc line fuel c x hc =>
    cases h
    exact (List.drop_suffix _ x).trans (List.suffix_cons c x)
  | case4 acc line fuel c x hc hb ih =>
    obtain ⟨u, hu, -⟩ := dropBreak_eq c x
    have hx : dropBreak (c :: x) <:+ x := ⟨u, hu.symm⟩
    exact (ih h).trans (hx.trans (List.suffix_cons c x))
  | case5 acc line fuel c x hc hb ih => exact (ih h).trans (List.suffix_cons c x)

theorem longText?_suffix (h : longText? x line = some (t, r, line')) : r <:+ x := by
  obtain ⟨n, -, hl⟩ := longText?_eq_some.1 h
  obtain ⟨u, hu, -⟩ := skipBreak_eq (x.drop (n + 1))
  exact (long_suffix hl).trans (.trans ⟨u, hu.symm⟩ (List.drop_suffix _ _))

theorem quoted_suffix {acc b : List UInt8} (h : quoted fuel q x acc line = .ok (b, r, line')) :
    r <:+ x := by
  induction fuel generalizing x acc line with
  | zero => cases h
  | succ fuel ih =>
    cases x with
    | nil => cases h
    | cons c x =>
      refine .trans ?_ (List.suffix_cons c x)
      by_cases hc : c = '\\'
      · subst hc
        rw [quoted_escape, bind_eq_ok] at h
        obtain ⟨⟨b', z, n⟩, he, h⟩ := h
        obtain ⟨u, rfl⟩ := escape_suffix he
        exact (ih h).trans (List.suffix_append u z)
      · rw [quoted_plain fuel q c hc] at h
        split at h
        · cases h
          exact List.suffix_refl _
        split at h
        · cases h
        · exact ih h

theorem readNumber_suffix {m : Number} (h : readNumber (c :: x) = .ok (m, r)) : r <:+ x := by
  obtain ⟨rfl, -⟩ := readNumber_eq_ok h
  refine .trans ⟨_, numeral_append _ _⟩ ?_
  split
  · exact List.drop_suffix 1 _
  · exact List.suffix_refl x

theorem stepComment_suffix {k : Option Token} (h : stepComment x line = .ok (k, y, line')) :
    y <:+ x := by
  unfold stepComment at h
  split at h
  · split at h
    · split at h
      · next hl =>
        cases h
        exact (longText?_suffix hl).trans (List.suffix_cons _ _)
      · cases h
    · cases h
      exact List.dropWhile_suffix _
  · cases h
    exact List.dropWhile_suffix _

theorem stepBracket_suffix {k : Option Token} (h : stepBracket x line = .ok (k, y, line')) :
    y <:+ x := by
  unfold stepBracket at h
  split at h
  · split at h
    · next hl =>
      cases h
      exact longText?_suffix hl
    · cases h
  split at h
  · cases h
  · cases h
    exact List.suffix_refl _

theorem stepSign_suffix {k : Option Token} (h : stepSign c x line = .ok (k, y, line')) :
    y <:+ x := by
  unfold stepSign at h
  split at h
  · next s hs =>
    cases h
    obtain ⟨n, hn⟩ := Nat.exists_eq_add_of_le' (sign?_length hs)
    rw [hn]
    exact List.drop_suffix n x
  · cases h
    exact List.suffix_refl _

theorem step_suffix {k : Option Token} (h : step c x line = .ok (k, y, line')) : y <:+ x := by
  rw [step.eq_def] at h
  split at h
  · cases h
    obtain ⟨u, hu, -⟩ := dropBreak_eq c x
    exact ⟨u, hu.symm⟩
  split at h
  · cases h
    exact List.suffix_refl _
  split at h
  · cases h
    exact List.dropWhile_suffix _
  split at h
  · obtain ⟨⟨m, z⟩, hm, e⟩ := map_eq_ok.1 h
    cases e
    exact readNumber_suffix hm
  split at h
  · obtain ⟨⟨b, z, l⟩, hs, e⟩ := map_eq_ok.1 h
    cases e
    exact quoted_suffix hs
  split at h
  · exact (stepComment_suffix h).trans (List.suffix_cons _ _)
  · exact stepBracket_suffix h
  · exact stepSign_suffix h

theorem Cuts.suffix {ts : List Token} (h : Cuts x ts r) : r <:+ x := by
  induction h with
  | refl x => exact List.suffix_refl x
  | blank _ _ ih => exact ih.trans (List.suffix_cons _ _)
  | step hstep _ ih => exact ih.trans ((step_suffix hstep).trans (List.suffix_cons _ _))

/-- A piece that is cut off a script reads the same on its own. -/
theorem Cuts.trim {ts : List Token} (h : Cuts (w ++ r) ts r) : Cuts w ts [] := by
  generalize hx : w ++ r = x at h
  induction h generalizing w with
  | refl x => 
    rw [List.append_left_eq_self.1 hx]
    exact .refl []
  | @blank c x r ts hb hs ih =>
    obtain ⟨v, rfl⟩ := hs.suffix
    obtain rfl : w = c :: v := List.append_cancel_right hx
    exact .blank hb (ih rfl)
  | @step c x y r t ts line line' hstep hs ih =>
    obtain ⟨v, rfl⟩ := hs.suffix
    obtain ⟨u, hu⟩ := step_suffix hstep
    subst hu
    obtain rfl : w = c :: (u ++ v) := List.append_cancel_right (hx.trans (by simp))
    rw [← List.append_assoc] at hstep
    exact .step (step_trim hstep) (ih rfl)

theorem Cuts.scans {ts : List Token} (h : Cuts x ts []) : Scans x (ts ++ [.finish]) := by
  generalize hr : [] = r at h
  induction h with
  | refl x =>
    subst hr
    exact .nil
  | blank hb _ ih => exact (scans_blank hb _).2 (ih hr)
  | step hstep _ ih =>
    rw [List.append_assoc]
    exact .step hstep (ih hr)

end Rulebook.Script.Token
