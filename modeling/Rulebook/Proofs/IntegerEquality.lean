import Rulebook.Proofs.IntegerSums
import Rulebook.Proofs.ListRemoval
import Rulebook.Proofs.Schemas
import Rulebook.Proofs.WholeFloats

namespace Rulebook.State

open Json (InRange)
open Decimal (nearestInt)

variable {m n : Int} {v : Json} {items members : List Json}

theorem natAbs_lt_of_inRange (h : InRange n) : n.natAbs < 2 ^ 64 := by
  obtain ⟨hlow, hhigh⟩ := h
  simp only [Json.int64Min, Json.nat64Max] at hlow hhigh
  omega

theorem looselyEqual_int (hm : InRange m) (hn : InRange n) :
    looselyEqual (.int m) (.int n) = true ↔ nearestInt m = nearestInt n :=
  Decimal.ofInt_beq_iff (natAbs_lt_of_inRange hm) (natAbs_lt_of_inRange hn)

/-- Another integer that has the same floating-point number nearest to it. -/
def Mistaken (m n : Int) : Prop := m ≠ n ∧ nearestInt m = nearestInt n

def Integers (vs : List Json) : Prop := ∀ m, .int m ∈ vs → InRange m

theorem looselyEqual_int_iff : looselyEqual v (.int n) = true ↔
    (∃ m, v = .int m ∧ looselyEqual (.int m) (.int n) = true) ∨
      ∃ x, v = .float x ∧ (x == Float.ofInt n) = true := by
  cases v <;> simp [looselyEqual, Json.toFloat?, Json.same]

theorem eq_of_removed {α : Type} {x y : α} {before after before' after' : List α}
    (h : before ++ x :: after = before' ++ y :: after')
    (hrest : before ++ after = before' ++ after') : x = y := by
  have hperm : (x :: (before ++ after)).Perm (y :: (before ++ after)) := calc
    (x :: (before ++ after)).Perm (before ++ x :: after) := List.perm_middle.symm
    _ = before' ++ y :: after' := h
    List.Perm _ (y :: (before' ++ after')) := List.perm_middle
    _ = y :: (before ++ after) := by rw [hrest]
  exact (Multiset.cons_inj_left (Multiset.ofList (before ++ after))).1 (Quot.sound hperm)

/-- A removal of an integer from a list takes no other integer away. -/
def TakesOnly (n : Int) (items : List Json) (p : List String) (root : Json) : Prop :=
  ∀ before m after root', items = before ++ .int m :: after →
    apply .remove (.int n) p root = .ok (root', ⟨.arr items, .arr (before ++ after)⟩) → m = n

theorem takesOnly_iff {parents : List String} {leaf : String} {root : Json}
    (h : get? (parents ++ [leaf]) root = some (.arr items)) (hn : InRange n)
    (hitems : Integers items) : TakesOnly n items (parents ++ [leaf]) root ↔
      ¬∃ before m after, items = before ++ .int m :: after ∧
        (∀ y ∈ before, looselyEqual y (.int n) = false) ∧ Mistaken m n := by
  have hvalue : Json.int n ≠ .null := by simp
  have hremove := remove_item h hvalue
  have hrange {before after : List Json} {m : Int} (he : items = before ++ .int m :: after) :
      InRange m := hitems m (by simp [he])
  constructor
  · rintro honly ⟨before, m, after, he, hbefore, hne, hnear⟩
    have hdrop : dropFirst? (.int n) items = some (before ++ after) :=
      dropFirst?_eq_some.2
        ⟨before, _, after, he, rfl, hbefore, (looselyEqual_int (hrange he) hn).2 hnear⟩
    rw [hdrop] at hremove
    exact hne (honly before m after _ he hremove)
  · intro hnone before m after root' he hdone
    rw [hremove] at hdone
    split at hdone
    · next rest hdrop =>
      obtain ⟨before', x, after', he', hrest, hbefore, hx⟩ := dropFirst?_eq_some.1 hdrop
      cases hdone
      obtain rfl : .int m = x := eq_of_removed (he.symm.trans he') hrest
      by_contra hne
      exact hnone ⟨before', m, after', he', hbefore, hne, (looselyEqual_int (hrange he) hn).1 hx⟩
    · cases hdone

end Rulebook.State

namespace Rulebook.Call

open Ruleset State
open Json (InRange)
open Decimal (nearestInt)

variable {n : Int} {members : List Json} {p : Parameter} {args : Fields Json}

theorem bind_listed (hg : args.get? p.name = some (.int n)) (hlisted : p.allowed = some members) :
    (∃ v, Parameter.bind p args = .ok v) ↔
      p.type.accepts (.int n) = true ∧ ∃ v ∈ members, looselyEqual v (.int n) = true := by
  have hgiven : given? p args = some (.int n) := by rw [given?, hg]
  rw [Parameter.bind, hgiven, hlisted]
  cases ha : p.type.accepts (.int n) with
  | false => simp [ha]
  | true => by_cases h : ∃ v ∈ members, looselyEqual v (.int n) = true <;> simp [ha, h]

/-- An enumeration is passed by no integer that it does not have. -/
def AdmitsOnly (n : Int) (members : List Json) : Prop :=
  ∀ (ps : List Parameter) (args bound : Fields Json) (p : Parameter), p ∈ ps →
    p.allowed = some members → args.get? p.name = some (.int n) → bind ps args = .ok bound →
    .int n ∈ members

theorem looselyEqual_member_iff (hn : InRange n) (hmembers : Integers members) :
    (∃ v ∈ members, looselyEqual v (.int n) = true) ↔
      (∃ m, .int m ∈ members ∧ nearestInt m = nearestInt n) ∨
        ∃ x, .float x ∈ members ∧ (x == Float.ofInt n) = true := by
  constructor
  · rintro ⟨v, hv, heq⟩
    rcases looselyEqual_int_iff.1 heq with ⟨m, rfl, hm⟩ | ⟨x, rfl, hx⟩
    · exact .inl ⟨m, hv, (looselyEqual_int (hmembers m hv) hn).1 hm⟩
    · exact .inr ⟨x, hv, hx⟩
  · rintro (⟨m, hm, hnear⟩ | ⟨x, hx, heq⟩)
    · exact ⟨_, hm, (looselyEqual_int (hmembers m hm) hn).2 hnear⟩
    · exact ⟨_, hx, heq⟩

theorem admitsOnly_iff (hn : InRange n) (hmembers : Integers members) : AdmitsOnly n members ↔
    ((∃ m, .int m ∈ members ∧ nearestInt m = nearestInt n) ∨
      (∃ x, .float x ∈ members ∧ (x == Float.ofInt n) = true) → .int n ∈ members) := by
  rw [← looselyEqual_member_iff hn hmembers]
  constructor
  · intro honly hlisted
    let p : Parameter := ⟨"n", .number, true, "", none, some members⟩
    have hg : Fields.get? [("n", Json.int n)] p.name = some (.int n) := rfl
    obtain ⟨v, hv⟩ := (bind_listed hg rfl).2 ⟨rfl, hlisted⟩
    have hbind : bind [p] [("n", .int n)] = .ok _ :=
      binding_eq_ok.2 ⟨⟨by simp [p, Fields.names], by simpa using ⟨v, hv⟩⟩, rfl⟩
    exact honly [p] _ _ p (List.mem_singleton_self p) rfl rfl hbind
  · intro hlisted ps args bound p hp hallowed hg hbind
    obtain ⟨⟨-, hall⟩, -⟩ := binding_eq_ok.1 hbind
    exact hlisted ((bind_listed hg hallowed).1 (hall p hp)).2

/-- Loose equality of integers is equality exactly if no other integer has the same floating-point
number nearest to it, as it is below `2^53`. A removal takes another integer out of a list if the
first element that it takes for its own is such a one, and an enumeration is passed if such a one or
the floating-point number itself is among its members. -/
theorem integer_equality_exact_iff (hn : InRange n) :
    (∀ m, InRange m → ((looselyEqual (.int m) (.int n) = true ↔ m = n) ↔ ¬Mistaken m n)) ∧
    (∀ parents leaf root items, get? (parents ++ [leaf]) root = some (.arr items) →
      Integers items → (TakesOnly n items (parents ++ [leaf]) root ↔
        ¬∃ before m after, items = before ++ .int m :: after ∧
          (∀ y ∈ before, looselyEqual y (.int n) = false) ∧ Mistaken m n)) ∧
    (∀ members, Integers members → (AdmitsOnly n members ↔
      ((∃ m, .int m ∈ members ∧ nearestInt m = nearestInt n) ∨
        (∃ x, .float x ∈ members ∧ (x == Float.ofInt n) = true) → .int n ∈ members))) ∧
    (n.natAbs < 2 ^ 53 → ∀ m, ¬Mistaken m n) := by
  refine ⟨fun m hm => ?_, fun parents leaf root items h hitems => takesOnly_iff h hn hitems,
    fun members hmembers => admitsOnly_iff hn hmembers, fun hsmall m ⟨hne, hnear⟩ => ?_⟩
  · rw [looselyEqual_int hm hn]
    constructor
    · exact fun h hmistaken => hmistaken.1 (h.1 hmistaken.2)
    · refine fun h => ⟨fun hnear => ?_, fun he => he ▸ rfl⟩
      by_contra hne
      exact h ⟨hne, hnear⟩
  · exact hne ((Decimal.nearestInt_inj_of_lt hsmall).1 hnear.symm).symm

def ledger (ids : List Int) : Json := .obj [("ids", .arr (ids.map .int))]

theorem integer_equality_exact_below :
    InRange 9007199254740991 ∧ InRange 9007199254740992 ∧
      looselyEqual (.int 9007199254740992) (.int 9007199254740991) = false ∧
      TakesOnly 9007199254740991 [.int 9007199254740992, .int 9007199254740991] ["ids"]
        (ledger [9007199254740992, 9007199254740991]) ∧
      AdmitsOnly 9007199254740991 [.int 9007199254740991, .int 9007199254740992] := by
  have hn : InRange 9007199254740991 := by decide
  have hm : InRange 9007199254740992 := by decide
  obtain ⟨hequal, htakes, hadmits, hbelow⟩ := integer_equality_exact_iff hn
  have hnone := hbelow (by decide)
  refine ⟨hn, hm, ?_, ?_, ?_⟩
  · rw [Bool.eq_false_iff, ne_eq, (hequal _ hm).2 (hnone _)]
    decide
  · refine (htakes [] "ids" _ _ rfl ?_).2 fun ⟨_, m, _, _, _, hmistaken⟩ => hnone m hmistaken
    simp [Integers, hn, hm]
  · refine (hadmits _ ?_).2 fun _ => .head _
    simp [Integers, hn, hm]

/-- Two neighbouring integers above `2^53` are loosely equal, and one of them is taken out of a list
for the other. -/
theorem neighbours_mistaken :
    InRange 9007199254740993 ∧ InRange 9007199254740992 ∧
      (9007199254740993 : Int) ≠ 9007199254740992 ∧
      looselyEqual (.int 9007199254740993) (.int 9007199254740992) = true ∧
      apply .remove (.int 9007199254740992) ["ids"] (ledger [9007199254740993]) =
        .ok (ledger [], ⟨.arr [.int 9007199254740993], .arr []⟩) := by
  have hm : InRange 9007199254740993 := by decide
  have hn : InRange 9007199254740992 := by decide
  have hequal : looselyEqual (.int 9007199254740993) (.int 9007199254740992) = true :=
    (looselyEqual_int hm hn).2 (by decide)
  refine ⟨hm, hn, by decide, hequal, ?_⟩
  have hread : get? ([] ++ ["ids"]) (ledger [9007199254740993]) =
      some (.arr [.int 9007199254740993]) := rfl
  have hvalue : Json.int 9007199254740992 ≠ .null := by simp
  have hremove := remove_item hread hvalue
  rw [dropFirst?, if_pos hequal] at hremove
  exact hremove

end Rulebook.Call
