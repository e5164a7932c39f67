import Rulebook.Template
import Rulebook.Proofs.Lexing

namespace Rulebook.Template

variable {c d : Char} {x y z r : List Char} {n : String}

def Segment.text : Segment → List Char
  | char c => [c]
  | hole name => '\x7b' :: (name.toList ++ ['\x7d'])

structure IsName (name : String) : Prop where
  ne_nil : name.toList ≠ []
  rest : ∀ c ∈ name.toList, Text.isIdentRest c = true

theorem takeWhile_name {w : List Char} (hw : ∀ c ∈ w, Text.isIdentRest c = true) (r : List Char) :
    (w ++ '\x7d' :: r).takeWhile Text.isIdentRest = w := by
  have hb : Text.isIdentRest '\x7d' = false := by decide
  rw [List.takeWhile_append_of_pos hw]
  simp [hb]

theorem dropWhile_name {w : List Char} (hw : ∀ c ∈ w, Text.isIdentRest c = true) (r : List Char) :
    (w ++ '\x7d' :: r).dropWhile Text.isIdentRest = '\x7d' :: r := by
  have hb : Text.isIdentRest '\x7d' = false := by decide
  rw [List.dropWhile_append_of_pos hw]
  simp [hb]

theorem hole?_eq_some : hole? x = some (n, r) ↔
    IsName n ∧ (∀ c ∈ n.toList.head?, Text.isIdentStart c = true) ∧
      x = n.toList ++ '\x7d' :: r := by
  constructor
  · intro h
    have hx := List.takeWhile_append_dropWhile (p := Text.isIdentRest) (l := x)
    have hall : ∀ c ∈ x.takeWhile Text.isIdentRest, Text.isIdentRest c = true :=
      List.all_eq_true.1 List.all_takeWhile
    unfold hole? at h
    split at h
    · next c w r' he hr =>
      split at h
      · next hc =>
        cases h
        rw [he] at hx hall
        rw [hr] at hx
        simp only [String.toList_ofList]
        exact ⟨⟨by simp, by simpa using hall⟩, by simpa using hc, hx.symm⟩
      · cases h
    · cases h
  · rintro ⟨⟨hne, hrest⟩, hstart, rfl⟩
    unfold hole?
    rw [takeWhile_name hrest, dropWhile_name hrest]
    cases hn : n.toList with
    | nil => exact absurd hn hne
    | cons c w =>
      have hc := hstart c (by rw [hn]; rfl)
      have ho : String.ofList (c :: w) = n := by rw [← hn, String.ofList_toList]
      simp [hc, ho]

theorem segments_char (h : c ≠ '\x7b') (x : List Char) :
    segments (c :: x) = .char c :: segments x := by
  rw [segments, if_neg h]

theorem segments_hole (h : hole? x = some (n, r)) :
    segments ('\x7b' :: x) = .hole n :: segments r := by
  rw [segments, if_pos rfl]
  split
  · next heq =>
    rw [h] at heq
    cases heq
    rfl
  · next heq =>
    rw [h] at heq
    cases heq

theorem segments_brace (h : hole? x = none) :
    segments ('\x7b' :: x) = .char '\x7b' :: segments x := by
  rw [segments, if_pos rfl]
  split
  · next heq =>
    rw [h] at heq
    cases heq
  · rfl

/-- The three ways in which a text begins. -/
theorem segments_induction {motive : List Char → Prop} (nil : motive [])
    (hole : ∀ (n : String) (r : List Char), IsName n →
      hole? (n.toList ++ '\x7d' :: r) = some (n, r) → motive r →
      motive ('\x7b' :: (n.toList ++ '\x7d' :: r)))
    (char : ∀ (c : Char) (x : List Char), segments (c :: x) = .char c :: segments x →
      (c = '\x7b' → hole? x = none) → motive x → motive (c :: x)) : ∀ x, motive x := by
  intro x
  fun_induction segments x with
  | case1 => exact nil
  | case2 x n r h ih =>
    obtain ⟨hn, -, rfl⟩ := hole?_eq_some.1 h
    exact hole n r hn h ih
  | case3 x h ih => exact char _ x (segments_brace h) (fun _ => h) ih
  | case4 c x hc ih => exact char c x (segments_char hc x) (fun h => absurd h hc) ih

theorem segments_text (x : List Char) : (segments x).flatMap Segment.text = x := by
  induction x using segments_induction with
  | nil => simp [segments]
  | hole n r hn h ih => simp [segments_hole h, Segment.text, ih]
  | char c x hs h ih => simp [hs, Segment.text, ih]

def Holeless (x : List Char) : Prop := ∀ n, .hole n ∉ segments x

theorem holeless_of_not_mem (hx : '\x7b' ∉ x) : Holeless x := by
  induction x with
  | nil => simp [Holeless, segments]
  | cons c x ih =>
    simp only [List.mem_cons, not_or] at hx
    intro n
    rw [segments_char (Ne.symm hx.1)]
    simpa using ih hx.2 n

/-- No placeholder reaches over the place between the two texts. -/
def Cuts (x y : List Char) : Prop := segments (x ++ y) = segments x ++ segments y

theorem hole?_append (h : hole? x = some (n, r)) (y : List Char) :
    hole? (x ++ y) = some (n, r ++ y) := by
  obtain ⟨hn, hs, rfl⟩ := hole?_eq_some.1 h
  exact hole?_eq_some.2 ⟨hn, hs, by simp⟩

theorem hole?_append_none (h : hole? x = none) (hc : Text.isIdentRest c = false)
    (hb : c ≠ '\x7d') (y : List Char) : hole? (x ++ c :: y) = none := by
  rw [Option.eq_none_iff_forall_ne_some]
  rintro ⟨n, r⟩ hs
  obtain ⟨hn, hstart, e⟩ := hole?_eq_some.1 hs
  have hmem : c ∉ n.toList ++ ['\x7d'] := by
    simp only [List.mem_append, List.mem_singleton, not_or]
    refine ⟨fun hm => ?_, hb⟩
    rw [hn.rest c hm] at hc
    cases hc
  have e' : x ++ c :: y = (n.toList ++ ['\x7d']) ++ r := by simpa using e
  -- the name and its closing brace end before `c`
  rcases List.append_eq_append_iff.1 e' with ⟨u, hu, hy⟩ | ⟨u, hu, hr⟩
  · cases u with
    | nil =>
      have := hole?_eq_some.2 ⟨hn, hstart, show x = n.toList ++ '\x7d' :: [] by simpa using hu.symm⟩
      rw [this] at h
      cases h
    | cons e u =>
      obtain ⟨rfl, -⟩ := List.cons.inj hy
      exact hmem (by rw [hu]; simp)
  · have := hole?_eq_some.2 ⟨hn, hstart, show x = n.toList ++ '\x7d' :: u by simpa using hu⟩
    rw [this] at h
    cases h

theorem cuts_before (hc : Text.isIdentRest c = false) (hb : c ≠ '\x7d') (x y : List Char) :
    Cuts x (c :: y) := by
  unfold Cuts
  induction x using segments_induction with
  | nil => simp [segments]
  | hole n r hn h ih =>
    have := hole?_append h (c :: y)
    rw [List.cons_append, segments_hole this, segments_hole h, ih, List.cons_append]
  | char d x hs h ih =>
    have : segments (d :: (x ++ c :: y)) = .char d :: segments (x ++ c :: y) := by
      by_cases hd : d = '\x7b'
      · subst hd
        exact segments_brace (hole?_append_none (h rfl) hc hb y)
      · exact segments_char hd _
    rw [List.cons_append, this, hs, ih, List.cons_append]

theorem cuts_nil (x : List Char) : Cuts x [] := by simp [Cuts, segments]

theorem cuts_after (hc : Text.isIdentRest c = false) (hb : c ≠ '\x7d' ∧ c ≠ '\x7b')
    (x y : List Char) : Cuts (x ++ [c]) y := by
  have h := cuts_before hc hb.1 x
  have hs (y : List Char) : segments (c :: y) = .char c :: segments y := segments_char hb.2 y
  unfold Cuts at h ⊢
  rw [List.append_assoc, List.singleton_append, h, h, hs, hs]
  simp [segments]

end Rulebook.Template
