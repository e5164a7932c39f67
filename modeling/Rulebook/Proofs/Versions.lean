import Mathlib
import Rulebook.Catalog

namespace Rulebook.Ruleset.Version

def wording (segment : String) : String := if (number? segment).isSome then "" else segment

theorem compareSegment_eq :
    compareSegment = compareLex (compareOn number?) (compareOn wording) := by
  funext a b
  unfold compareSegment compareLex compareOn wording
  cases number? a <;> cases number? b <;> simp [compareText] <;> rfl

theorem compareSegments_eq : compareSegments = List.compareLex compareSegment := by
  funext as bs
  induction as generalizing bs with
  | nil => cases bs <;> rfl
  | cons a as ih =>
    cases bs with
    | nil => rfl
    | cons b bs => rw [compareSegments, List.compareLex_cons_cons, ih]

instance : Std.TransCmp compareSegment := by
  rw [compareSegment_eq]
  infer_instance

instance : Std.TransCmp compareSegments := by
  rw [compareSegments_eq]
  infer_instance

instance : Std.TransCmp fun a b => compareSegments (Text.split '.' a) (Text.split '.' b) where
  eq_swap := Std.OrientedCmp.eq_swap
  isLE_trans := Std.TransCmp.isLE_trans

instance : Std.TransCmp compareText := inferInstanceAs (Std.TransCmp (Ord.compare (α := String)))

instance : Std.TransCmp Version.compare :=
  inferInstanceAs (Std.TransCmp (compareLex
    (fun a b => compareSegments (Text.split '.' a) (Text.split '.' b)) compareText))

end Rulebook.Ruleset.Version

namespace Rulebook.Catalog

open Ruleset

def AtMost (a b : Entry) : Prop := (Version.compare a.id.version b.id.version).isLE = true

theorem AtMost.refl (a : Entry) : AtMost a a := Std.ReflCmp.isLE_rfl

theorem AtMost.trans {a b c : Entry} (hab : AtMost a b) (hbc : AtMost b c) : AtMost a c :=
  Std.TransCmp.isLE_trans hab hbc

theorem newer_eq (a b : Entry) : newer a b = a ∨ newer a b = b := by
  unfold newer
  split
  · exact .inl rfl
  · exact .inr rfl

theorem atMost_newer_left (a b : Entry) : AtMost a (newer a b) := by
  unfold newer
  split
  · exact .refl a
  · next h => exact Ordering.isLE_iff_ne_gt.2 h

theorem atMost_newer_right (a b : Entry) : AtMost b (newer a b) := by
  unfold newer
  split
  · next h =>
    have hswap : Version.compare b.id.version a.id.version = .lt :=
      Std.OrientedCmp.lt_of_gt h
    rw [AtMost, hswap]
    rfl
  · exact .refl b

theorem foldl_newer (es : List Entry) (e : Entry) :
    es.foldl newer e ∈ e :: es ∧ ∀ f ∈ e :: es, AtMost f (es.foldl newer e) := by
  induction es generalizing e with
  | nil => exact ⟨.head _, fun f hf => List.mem_singleton.1 hf ▸ .refl _⟩
  | cons f es ih =>
    obtain ⟨hmem, hmost⟩ := ih (newer e f)
    rw [List.foldl_cons]
    refine ⟨?_, fun g hg => ?_⟩
    · rcases List.mem_cons.1 hmem with h | h
      · rw [h]
        rcases newer_eq e f with h | h <;> simp [h]
      · exact .tail _ (.tail _ h)
    · rcases List.mem_cons.1 hg with rfl | hg
      · exact (atMost_newer_left g f).trans (hmost _ (.head _))
      · rcases List.mem_cons.1 hg with rfl | hg
        · exact (atMost_newer_right e g).trans (hmost _ (.head _))
        · exact hmost g (.tail _ hg)

theorem newest?_eq_some {es : List Entry} {e : Entry} (h : newest? es = some e) :
    e ∈ es ∧ ∀ f ∈ es, AtMost f e := by
  cases es with
  | nil => cases h
  | cons f es =>
    cases h
    exact foldl_newer es f

end Rulebook.Catalog
