import Rulebook.Proofs.Digits
import Rulebook.Proofs.Versions

namespace Rulebook.Ruleset.Version

variable {s t x y : String} {as bs as' bs' : List String} {m n : Nat}

def value? (segment : String) : Option Nat :=
  match segment.toList with
  | '+' :: cs => Text.digits? cs
  | cs => Text.digits? cs

/-- The segments are identical or numbers of one value. -/
def Agree (s t : String) : Prop := s = t ∨ ∃ k, value? s = some k ∧ value? t = some k

/-- The segments agree, and where they are spelled differently they are within 64 bits. -/
def Same (s t : String) : Prop :=
  s = t ∨ ∃ k < Text.nat64Bound, value? s = some k ∧ value? t = some k

def FirstApart (as bs : List String) (s t : String) : Prop :=
  ∃ us vs ps qs, as = us ++ s :: ps ∧ bs = vs ++ t :: qs ∧ List.Forall₂ Same us vs ∧ ¬ Same s t

theorem number?_eq_value? (s : String) : number? s = (value? s).filter (· < Text.nat64Bound) := rfl

theorem compareText_eq_eq : compareText s t = .eq ↔ s = t :=
  Std.LawfulEqOrd.compare_eq_iff_eq (α := String)

theorem compareSegment_same (h : Same s t) : compareSegment s t = .eq := by
  rcases h with rfl | ⟨k, hk, hs, ht⟩
  · exact @Std.ReflCmp.compare_self _ compareSegment _ s
  · have hnumber : number? s = some k ∧ number? t = some k := by
      simp [number?_eq_value?, hs, ht, hk]
    rw [compareSegment, hnumber.1, hnumber.2]
    exact Std.ReflOrd.compare_self (α := Nat)

/-- Of two numbers that agree without being the same the spelling decides. -/
theorem compareSegment_apart (h : Agree s t) (hs : ¬ Same s t) :
    compareSegment s t = compareText s t ∧ compareText s t ≠ .eq := by
  obtain ⟨hne, hlarge⟩ := not_or.1 hs
  obtain ⟨k, hs, ht⟩ := h.resolve_left hne
  have hk : Text.nat64Bound ≤ k := not_lt.1 fun hk => hlarge ⟨k, hk, hs, ht⟩
  have hnumber : number? s = none ∧ number? t = none := by
    simp [number?_eq_value?, hs, ht, hk]
  rw [compareSegment, hnumber.1, hnumber.2]
  exact ⟨rfl, mt compareText_eq_eq.1 hne⟩

theorem compareSegments_append (h : List.Forall₂ Same as bs) (ps qs : List String) :
    compareSegments (as ++ ps) (bs ++ qs) = compareSegments ps qs := by
  induction h with
  | nil => rfl
  | cons h _ ih =>
    rw [List.cons_append, List.cons_append, compareSegments, compareSegment_same h, ih]
    rfl

theorem same_or_firstApart (h : List.Forall₂ Agree as bs) :
    List.Forall₂ Same as bs ∨ ∃ s t, FirstApart as bs s t := by
  induction h with
  | nil => exact .inl .nil
  | @cons s t as bs _ _ ih =>
    by_cases hsame : Same s t
    · rcases ih with hall | ⟨s', t', us, vs, ps, qs, rfl, rfl, hfront, hne⟩
      · exact .inl (.cons hsame hall)
      · exact .inr ⟨s', t', s :: us, t :: vs, ps, qs, rfl, rfl, .cons hsame hfront, hne⟩
    · exact .inr ⟨s, t, [], [], as, bs, rfl, rfl, .nil, hsame⟩

theorem FirstApart.agree (h : FirstApart as bs s t) (hagree : List.Forall₂ Agree as bs) :
    Agree s t := by
  obtain ⟨us, vs, ps, qs, rfl, rfl, hfront, -⟩ := h
  have hrest := List.forall₂_drop_append _ _ _ hagree
  rw [List.drop_left' hfront.length_eq] at hrest
  exact (List.forall₂_cons.1 hrest).1

theorem FirstApart.not_same (h : FirstApart as bs s t) : ¬ Same s t := by
  obtain ⟨-, -, -, -, -, -, -, hne⟩ := h
  exact hne

/-- Behind segments that are the same the first difference decides. -/
theorem compare_eq_compareSegment {a b : String} (ha : Text.split '.' a = as ++ s :: as')
    (hb : Text.split '.' b = bs ++ t :: bs') (h : List.Forall₂ Same as bs)
    (hne : compareSegment s t ≠ .eq) : Version.compare a b = compareSegment s t := by
  rw [Version.compare, ha, hb, compareSegments_append h, compareSegments]
  cases hst : compareSegment s t with
  | eq => exact absurd hst hne
  | lt | gt => rfl

theorem ne_of_digits (hx : Text.digits? x.toList = some m) (hy : Text.digits? y.toList = some n)
    (hne : m ≠ n) : x ≠ y := by
  rintro rfl
  exact hne (Option.some.inj (hx.symm.trans hy))

theorem compareSegment_digits (hx : Text.digits? x.toList = some m)
    (hy : Text.digits? y.toList = some n) :
    compareSegment x y =
      if m < Text.nat64Bound then if n < Text.nat64Bound then Ord.compare m n else .gt
      else if n < Text.nat64Bound then .lt else compareText x y := by
  have hm : number? x = if m < Text.nat64Bound then some m else none := by
    rw [number?, Text.natBelow?_of_digits _ (Text.digits?_eq_some hx).1, hx]
    simp [Option.filter]
  have hn : number? y = if n < Text.nat64Bound then some n else none := by
    rw [number?, Text.natBelow?_of_digits _ (Text.digits?_eq_some hy).1, hy]
    simp [Option.filter]
  rw [compareSegment, hm, hn]
  by_cases hmb : m < Text.nat64Bound <;> by_cases hnb : n < Text.nat64Bound <;>
    simp only [hmb, hnb, if_true, if_false]
  rfl

theorem compareSegment_digits_iff (hx : Text.digits? x.toList = some m)
    (hy : Text.digits? y.toList = some n) :
    compareSegment x y = Ord.compare m n ↔ m < Text.nat64Bound ∧ n < Text.nat64Bound ∨
      Text.nat64Bound ≤ m ∧ Text.nat64Bound ≤ n ∧ compareText x y = Ord.compare m n := by
  rw [compareSegment_digits hx hy]
  rcases lt_or_ge m Text.nat64Bound with hm | hm <;> rcases lt_or_ge n Text.nat64Bound with hn | hn
  · simp [hm, hn]
  · have hlt : Ord.compare m n = .lt := Nat.compare_eq_lt.2 (hm.trans_le hn)
    simp [hm, hn.not_gt, hm.not_ge, hlt]
  · have hgt : Ord.compare m n = .gt := Nat.compare_eq_gt.2 (hn.trans_le hm)
    simp [hn, hm.not_gt, hn.not_ge, hgt]
  · simp [hm, hn, hm.not_gt, hn.not_gt]

theorem compareSegment_digits_ne (hx : Text.digits? x.toList = some m)
    (hy : Text.digits? y.toList = some n) (hne : m ≠ n) : compareSegment x y ≠ .eq := by
  rw [compareSegment_digits hx hy]
  split <;> split
  · exact mt Nat.compare_eq_eq.1 hne
  · exact Ordering.noConfusion
  · exact Ordering.noConfusion
  · exact mt compareText_eq_eq.1 (ne_of_digits hx hy hne)

theorem compareText_digits (hx : Text.digits? x.toList = some m)
    (hy : Text.digits? y.toList = some n) (hne : m ≠ n) (hlen : x.length = y.length) :
    compareText x y = Ord.compare m n := by
  have hxy := ne_of_digits hx hy hne
  obtain ⟨hdx, rfl⟩ := Text.digits?_eq_some hx
  obtain ⟨hdy, rfl⟩ := Text.digits?_eq_some hy
  have hlt := String.lt_iff_toList_lt.trans (Text.lt_iff_ofDigitChars_lt hdx hdy hlen 0)
  show compareOfLessAndEq x y = compareOfLessAndEq _ _
  simp only [compareOfLessAndEq, hlt, hxy, hne]

/-- Versions that agree up to two different numbers. Where the segments in front are the same, the
order is that of the numbers exactly if both are within 64 bits, or both beyond and their characters
are ordered as they are, which they always are in runs of one length. Where a pair in front agrees
without being the same, the characters of the first such pair decide in place of the numbers. -/
theorem numbers_ordered_iff {a b : String} (ha : Text.split '.' a = as ++ x :: as')
    (hb : Text.split '.' b = bs ++ y :: bs') (hagree : List.Forall₂ Agree as bs)
    (hx : Text.digits? x.toList = some m) (hy : Text.digits? y.toList = some n) (hne : m ≠ n) :
    (Version.compare a b = Ord.compare m n ↔
      List.Forall₂ Same as bs ∧ (m < Text.nat64Bound ∧ n < Text.nat64Bound ∨
          Text.nat64Bound ≤ m ∧ Text.nat64Bound ≤ n ∧ compareText x y = Ord.compare m n) ∨
        ∃ s t, FirstApart as bs s t ∧ compareText s t = Ord.compare m n) ∧
    (x.length = y.length → compareText x y = Ord.compare m n) := by
  have hfront (h : List.Forall₂ Same as bs) : Version.compare a b = compareSegment x y :=
    compare_eq_compareSegment ha hb h (compareSegment_digits_ne hx hy hne)
  have hapart {s t : String} (h : FirstApart as bs s t) :
      Version.compare a b = compareText s t := by
    obtain ⟨htext, hne⟩ := compareSegment_apart (h.agree hagree) h.not_same
    obtain ⟨us, vs, ps, qs, rfl, rfl, hsame, -⟩ := h
    rw [List.append_assoc, List.cons_append] at ha hb
    rw [compare_eq_compareSegment ha hb hsame (htext ▸ hne), htext]
  refine ⟨⟨fun h => ?_, ?_⟩, compareText_digits hx hy hne⟩
  · rcases same_or_firstApart hagree with hsame | ⟨s, t, hst⟩
    · exact .inl ⟨hsame, (compareSegment_digits_iff hx hy).1 ((hfront hsame).symm.trans h)⟩
    · exact .inr ⟨s, t, hst, (hapart hst).symm.trans h⟩
  · rintro (⟨hsame, hnumbers⟩ | ⟨s, t, hst, htext⟩)
    · exact (hfront hsame).trans ((compareSegment_digits_iff hx hy).2 hnumbers)
    · exact (hapart hst).trans htext

theorem numbers_ordered_releases :
    Text.split '.' "2.01.9" = ["2", "01"] ++ "9" :: [] ∧
    Text.split '.' "2.1.10" = ["2", "1"] ++ "10" :: [] ∧
    List.Forall₂ Agree ["2", "01"] ["2", "1"] ∧
    Text.digits? "9".toList = some 9 ∧ Text.digits? "10".toList = some 10 ∧ 9 ≠ 10 ∧
    Version.compare "2.01.9" "2.1.10" = .lt := by
  have ha : Text.split '.' "2.01.9" = ["2", "01"] ++ "9" :: [] := by decide
  have hb : Text.split '.' "2.1.10" = ["2", "1"] ++ "10" :: [] := by decide
  have hone : value? "01" = some 1 ∧ value? "1" = some 1 := by decide
  have hagree : List.Forall₂ Agree ["2", "01"] ["2", "1"] :=
    .cons (.inl rfl) (.cons (.inr ⟨1, hone⟩) .nil)
  have hsame : List.Forall₂ Same ["2", "01"] ["2", "1"] :=
    .cons (.inl rfl) (.cons (.inr ⟨1, by decide, hone⟩) .nil)
  have hx : Text.digits? "9".toList = some 9 := by decide
  have hy : Text.digits? "10".toList = some 10 := by decide
  have hordered := (numbers_ordered_iff ha hb hagree hx hy (by decide)).1.2
    (.inl ⟨hsame, .inl (by decide)⟩)
  exact ⟨ha, hb, hagree, hx, hy, by decide, hordered⟩

/-- A number of twenty digits is sorted below five. -/
theorem long_number_sorted_below :
    Text.split '.' "99999999999999999999" = ["99999999999999999999"] ∧ Text.split '.' "5" = ["5"] ∧
    Text.digits? "99999999999999999999".toList = some 99999999999999999999 ∧
    Text.digits? "5".toList = some 5 ∧ Ord.compare 99999999999999999999 5 = .gt ∧
    Version.compare "99999999999999999999" "5" = .lt := by
  decide

end Rulebook.Ruleset.Version
