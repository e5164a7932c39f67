import Rulebook.Proofs.Copies
import Rulebook.Proofs.Digits
import Rulebook.Proofs.PathChanges

namespace Rulebook.Text

variable {sep : Char} {cs : List Char} {s : String}

theorem pieces_of_not_mem (h : sep ∉ cs) : pieces sep cs = [cs] := by
  induction cs with
  | nil => rfl
  | cons c cs ih =>
    rw [List.mem_cons, not_or] at h
    rw [pieces, if_neg (Ne.symm h.1), ih h.2]

theorem pieces_append (h : sep ∉ cs) (rest : List Char) :
    pieces sep (cs ++ sep :: rest) = cs :: pieces sep rest := by
  induction cs with
  | nil => rw [List.nil_append, pieces, if_pos rfl]
  | cons c cs ih =>
    rw [List.mem_cons, not_or] at h
    rw [List.cons_append, pieces, if_neg (Ne.symm h.1), ih h.2]

theorem pieces_intercalate {ls : List (List Char)} (hne : ls ≠ []) (h : ∀ l ∈ ls, sep ∉ l) :
    pieces sep ([sep].intercalate ls) = ls := by
  induction ls with
  | nil => exact absurd rfl hne
  | cons l ls ih =>
    have hl := h l List.mem_cons_self
    cases ls with
    | nil => simpa using pieces_of_not_mem hl
    | cons l' ls =>
      rw [List.intercalate_cons_cons, List.append_assoc, List.singleton_append, pieces_append hl,
        ih (by simp) fun l hm => h l (List.mem_cons_of_mem _ hm)]

theorem split_intercalate {ss : List String} (hne : ss ≠ []) (h : ∀ s ∈ ss, '.' ∉ s.toList) :
    split '.' (".".intercalate ss) = ss := by
  have hpieces : pieces '.' (".".intercalate ss).toList = ss.map String.toList := by
    rw [String.toList_intercalate]
    refine pieces_intercalate (by simpa using hne) fun l hl => ?_
    obtain ⟨s, hs, rfl⟩ := List.mem_map.1 hl
    exact h s hs
  rw [split, hpieces, List.map_map]
  simp

theorem natBelow?_filter {m n : Nat} (h : m ≤ n) (s : String) :
    natBelow? m s = (natBelow? n s).filter (· < m) := by
  unfold natBelow?
  simp only [Option.filter_filter]
  congr
  funext k
  simp
  omega

theorem int64?_minus (h : s.toList = '-' :: cs) :
    int64? s = (digits? cs).bind fun n => if n ≤ int64Bound then some (-(n : Int)) else none := by
  rw [int64?, h]
  rfl

theorem int64?_plain (h : ∀ cs, s.toList ≠ '-' :: cs) :
    int64? s = (natBelow? int64Bound s).map Int.ofNat := by
  unfold int64?
  split
  · next cs hs => exact absurd hs (h cs)
  · rfl

theorem natBelow?_minus (bound : Nat) (h : s.toList = '-' :: cs) : natBelow? bound s = none := by
  have hd : '-'.isDigit = false := by decide
  simp [natBelow?, h, digits?, hd]

theorem int64?_range {n : Int} (h : int64? s = some n) :
    -2 ^ 63 ≤ n ∧ n < 2 ^ 63 := by
  have hbound : (int64Bound : Int) = 2 ^ 63 := rfl
  by_cases hm : ∃ cs, s.toList = '-' :: cs
  · obtain ⟨cs, hs⟩ := hm
    rw [int64?_minus hs, Option.bind_eq_some_iff] at h
    obtain ⟨k, -, hk⟩ := h
    split at hk
    · next hle =>
      cases hk
      omega
    · cases hk
  · rw [int64?_plain (not_exists.1 hm), Option.map_eq_some_iff] at h
    obtain ⟨k, hk, rfl⟩ := h
    unfold natBelow? at hk
    have := (Option.filter_eq_some_iff.1 hk).2
    simp only [decide_eq_true_eq] at this
    simp only [Int.ofNat_eq_natCast]
    omega

end Rulebook.Text

namespace Rulebook.Json

/-- Everything that is not a list or an object has a property, at every depth. -/
inductive Leaves (P : Json → Prop) : Json → Prop
  | leaf {v : Json} (h : P v) (ha : ∀ items, v ≠ arr items) (ho : ∀ members, v ≠ obj members) :
    Leaves P v
  | arr {items : List Json} (h : ∀ v ∈ items, Leaves P v) : Leaves P (arr items)
  | obj {members : List (String × Json)} (h : ∀ m ∈ members, Leaves P m.2) :
    Leaves P (obj members)

def Full : Json → Prop := Leaves (· ≠ null)

theorem Full.ne_null {v : Json} (h : v.Full) : v ≠ .null := by
  cases h with
  | leaf h => exact h
  | arr | obj => nofun

end Rulebook.Json

namespace Rulebook.Script

open State (child? get? index?)
open Library (segmentKey valueBelow lookup)

def seen? (s : String) : Json → Option Json
  | .obj members => if (Text.int64? s).isSome then none else Fields.get? members s
  | .arr items => (Text.int64? s).bind fun n => if 0 ≤ n then items[n.toNat]? else none
  | _ => none

def reached? : List String → Json → Option Json
  | [], v => some v
  | s :: ss, v => (seen? s v).bind (reached? ss)

/-- A lookup does not find what a path leads to, or finds what no path leads to. Both go the same
way until the lookup takes the name of a member for an index, or a zero with a minus sign for one
of a list. -/
inductive Strays : List String → Json → Prop
  | member {s : String} {ss : List String} {n : Int} {members : List (String × Json)} {v w : Json}
    (hs : Text.int64? s = some n) (hv : Fields.get? members s = some v)
    (hw : get? ss v = some w) : Strays (s :: ss) (.obj members)
  | negativeZero {s : String} {cs : List Char} {ss : List String} {item w : Json}
    {items : List Json} (hs : s.toList = '-' :: cs) (hz : Text.int64? s = some 0)
    (hw : reached? ss item = some w) : Strays (s :: ss) (.arr (item :: items))
  | deeper {s : String} {ss : List String} {v w : Json} (hseen : seen? s v = some w)
    (hchild : child? s v = some w) (h : Strays ss w) : Strays (s :: ss) v

/-- A value is a copy of what was found, or `nil` if nothing was. -/
def Found (h : Heap) (n : Nat) (v : Value) : Option Json → Prop
  | some j => Copies h n v j
  | none => v = .nil

section Walk

variable {h : Heap} {n r : Nat} {v : Value} {j : Json} {s : String} {ss : List String}

theorem Found.mono {n' : Nat} {j? : Option Json} (hf : Found h n v j?) (hn : n ≤ n') :
    Found h n' v j? := by
  cases j? with
  | none => exact hf
  | some j => exact Copies.mono hf (fun _ _ _ => rfl) hn

theorem get?_zip {α β : Type} {fields : Fields α} {members : Fields β}
    (hn : Fields.names fields = Fields.names members) (s : String) :
    (Fields.get? fields s = none ∧ Fields.get? members s = none) ∨
      ∃ v w, Fields.get? fields s = some v ∧ Fields.get? members s = some w ∧
        ((s, v), (s, w)) ∈ fields.zip members := by
  induction fields generalizing members with
  | nil =>
    cases members with
    | nil => exact .inl ⟨rfl, rfl⟩
    | cons m ms => cases hn
  | cons f fs ih =>
    cases members with
    | nil => cases hn
    | cons m ms =>
      obtain ⟨name, v⟩ := f
      obtain ⟨name', w⟩ := m
      simp only [Fields.names, List.map_cons, List.cons.injEq] at hn
      obtain ⟨rfl, hn⟩ := hn
      rw [Fields.get?_cons, Fields.get?_cons]
      by_cases hs : s = name
      · subst hs
        rw [if_pos rfl, if_pos rfl]
        exact .inr ⟨v, w, rfl, rfl, List.mem_cons_self⟩
      · rw [if_neg hs, if_neg hs]
        rcases ih hn with hnone | ⟨v', w', hv, hw, hm⟩
        · exact .inl hnone
        · exact .inr ⟨v', w', hv, hw, List.mem_cons_of_mem _ hm⟩

theorem toInt_index {i : Int} (hlo : -2 ^ 63 ≤ i) (hhi : i < 2 ^ 63) :
    (Int64.ofInt i + 1).toInt = if i = 2 ^ 63 - 1 then -2 ^ 63 else i + 1 := by
  have hone : (1 : Int64).toInt = 1 := rfl
  rw [Int64.toInt_add, Int64.toInt_ofInt_of_le hlo hhi, hone]
  split
  · next he =>
    subst he
    rfl
  · exact Int.bmod_eq_of_le (by omega) (by omega)

theorem found_item {vs : List Value} {items : List Json} {i : Int} (hsize : vs.length < 2 ^ 30)
    (hlen : vs.length = items.length) (hvs : ∀ p ∈ vs.zip items, Copies h n p.1 p.2)
    (hlo : -2 ^ 63 ≤ i) (hhi : i < 2 ^ 63) :
    Found h n ((Exchange.listOf vs).getKey (.int (Int64.ofInt i + 1)))
      (if 0 ≤ i then items[i.toNat]? else none) := by
  rw [Exchange.getKey_listOf_int, toInt_index hlo hhi]
  by_cases hmax : i = 2 ^ 63 - 1
  · have hnone : items[i.toNat]? = none := by
      rw [List.getElem?_eq_none_iff]
      omega
    rw [if_pos hmax, if_neg (by omega), if_pos (by omega), hnone]
    rfl
  rw [if_neg hmax]
  by_cases hneg : 0 ≤ i
  · have hindex : (i + 1).toNat - 1 = i.toNat := by omega
    rw [if_pos (by omega), if_pos hneg, hindex]
    cases hitem : items[i.toNat]? with
    | none =>
      rw [List.getElem?_eq_none_iff] at hitem
      exact List.getD_eq_default _ _ (hlen ▸ hitem)
    | some w =>
      have hlt : i.toNat < vs.length := hlen ▸ (List.getElem?_eq_some_iff.1 hitem).1
      rw [List.getD_eq_getElem _ _ hlt]
      refine hvs (vs[i.toNat], w) (List.mem_of_getElem? (i := i.toNat) ?_)
      rw [List.getElem?_zip_eq_some]
      exact ⟨List.getElem?_eq_getElem hlt, hitem⟩
  · rw [if_neg (by omega), if_neg hneg]
    rfl

theorem found_getKey (hc : Copies h n (.table r) j) (hshort : Short h n) (s : String) :
    Found h r ((h.table r).getKey (segmentKey s)) (seen? s j) := by
  cases hc with
  | int _ hv =>
    unfold Exchange.integer at hv
    split at hv <;> cases hv
  | @arr _ _ vs items hr hg ht hlen hvs =>
    have hsize : vs.length < 2 ^ 30 := by
      have := hshort r hr hg
      rw [ht] at this
      simpa [Exchange.listOf] using this
    rw [ht]
    unfold segmentKey seen?
    cases hi : Text.int64? s with
    | none => exact Exchange.getKey_listOf_str vs _
    | some i =>
      obtain ⟨hlo, hhi⟩ := Text.int64?_range hi
      exact found_item hsize hlen hvs hlo hhi
  | @obj _ _ fields members hr hg ht hnames hvs =>
    rw [ht.getKey_eq]
    unfold segmentKey seen?
    cases hi : Text.int64? s with
    | some i => exact ht.node_int _
    | none =>
      rw [ht.node_eq]
      rcases get?_zip hnames s with ⟨hf, hm⟩ | ⟨v, w, hf, hm, hp⟩
      · simp [hf, hm, Found]
      · simpa [hf, hm, Found] using hvs _ hp

theorem seen?_leaf (hc : Copies h n v j) (hv : ∀ r, v ≠ .table r) (s : String) :
    seen? s j = none := by
  cases hc with
  | @arr _ r | @obj _ r => exact absurd rfl (hv r)
  | _ => rfl

theorem valueBelow_nil (h : Heap) (ss : List String) : (valueBelow h ss .nil).getD .nil = .nil := by
  cases ss <;> rfl

/-- A lookup ends at a copy of what it reaches. -/
theorem found_valueBelow (hc : Copies h n v j) (hshort : Short h n) (ss : List String) :
    Found h n ((valueBelow h ss v).getD .nil) (reached? ss j) := by
  induction ss generalizing n v j with
  | nil => exact hc
  | cons s ss ih =>
    by_cases hv : ∃ r, v = .table r
    · obtain ⟨r, rfl⟩ := hv
      have hstep := found_getKey hc hshort s
      have hle : r ≤ n := hc.table_lt.le
      rw [valueBelow, reached?]
      cases hseen : seen? s j with
      | none =>
        rw [hseen] at hstep
        rw [show (h.table r).getKey (segmentKey s) = .nil from hstep]
        exact valueBelow_nil h ss
      | some w =>
        rw [hseen] at hstep
        exact (ih hstep (hshort.mono hle)).mono hle
    · have hnone : valueBelow h (s :: ss) v = none := by
        cases v with
        | table r => exact absurd ⟨r, rfl⟩ hv
        | _ => rfl
      rw [hnone, reached?, seen?_leaf hc (not_exists.1 hv)]
      rfl

theorem lookup_eq (h : Heap) (root : Value) {ss : List String} (otherwise : Value)
    (hss : ∀ s ∈ ss, s ≠ "" ∧ '.' ∉ s.toList) :
    lookup h root (".".intercalate ss) otherwise =
      if ((valueBelow h ss root).getD .nil).isNil then otherwise
      else (valueBelow h ss root).getD .nil := by
  have hsegments : (Text.split '.' (".".intercalate ss)).filter (!·.isEmpty) = ss := by
    cases ss with
    | nil => rfl
    | cons s ss =>
      rw [Text.split_intercalate (by simp) fun s hs => (hss s hs).2, List.filter_eq_self]
      intro s hs
      simpa using (hss s hs).1
  rw [lookup, hsegments]
  cases hv : valueBelow h ss root with
  | none => rfl
  | some v => cases v <;> rfl

theorem reached?_ne_get? (h : Strays ss j) : reached? ss j ≠ get? ss j := by
  induction h with
  | @member s ss _ members v w hs hv hw =>
    have hseen : seen? s (.obj members) = none := by simp [seen?, hs]
    have hchild : child? s (.obj members) = some v := hv
    rw [reached?, hseen, State.get?_cons, hchild, Option.bind_some, hw]
    exact (Option.some_ne_none _).symm
  | @negativeZero s cs ss item w items hs hz hw =>
    have hseen : seen? s (.arr (item :: items)) = some item := by simp [seen?, hz]
    have hchild : child? s (.arr (item :: items)) = none := by
      rw [child?, index?, Text.natBelow?_minus _ hs]
      rfl
    rw [reached?, hseen, State.get?_cons, hchild, Option.bind_some, hw]
    exact Option.some_ne_none w
  | deeper hseen hchild _ ih =>
    rwa [reached?, hseen, State.get?_cons, hchild, Option.bind_some, Option.bind_some]

/-- Where the two part, one of them leads to nothing. -/
theorem strays_none (h : Strays ss j) : reached? ss j = none ∨ get? ss j = none := by
  induction h with
  | member hs => exact .inl (by simp [reached?, seen?, hs])
  | negativeZero hs =>
    exact .inr (by rw [State.get?_cons, child?, index?, Text.natBelow?_minus _ hs]; rfl)
  | deeper hseen hchild _ ih =>
    rwa [reached?, hseen, State.get?_cons, hchild, Option.bind_some, Option.bind_some]

theorem seen?_eq_child? {items : List Json} (hlen : items.length < 2 ^ 30)
    (hs : ∀ cs, s.toList ≠ '-' :: cs) : seen? s (.arr items) = child? s (.arr items) := by
  have hle : Text.int64Bound ≤ Text.nat64Bound := by decide
  rw [seen?, child?, index?, Text.int64?_plain hs, Text.natBelow?_filter hle]
  cases Text.natBelow? Text.nat64Bound s with
  | none => rfl
  | some i =>
    by_cases hi : i < Text.int64Bound
    · simp [Option.filter, hi]
    · have hnone : items[i]? = none := by
        have hbound : Text.int64Bound = 2 ^ 63 := rfl
        rw [List.getElem?_eq_none_iff]
        omega
      simp [Option.filter, hi, hnone]

theorem strays_deeper (ih : ∀ {n v j}, Copies h n v j → Short h n →
      reached? ss j ≠ get? ss j → Strays ss j)
    (hc : Copies h n v j) (hshort : Short h n) (hsame : seen? s j = child? s j)
    (hne : reached? (s :: ss) j ≠ get? (s :: ss) j) : Strays (s :: ss) j := by
  rw [reached?, State.get?_cons, hsame] at hne
  cases hchild : child? s j with
  | none =>
    rw [hchild] at hne
    exact absurd rfl hne
  | some w =>
    rw [hchild] at hne
    rw [hchild] at hsame
    by_cases hv : ∃ r, v = .table r
    · obtain ⟨r, rfl⟩ := hv
      have hstep := found_getKey hc hshort s
      rw [hsame] at hstep
      exact .deeper hsame hchild (ih hstep (hshort.mono hc.table_lt.le) hne)
    · rw [seen?_leaf hc (not_exists.1 hv)] at hsame
      cases hsame

theorem strays_member {members : Fields Json} {i : Int} (hs : Text.int64? s = some i)
    (hne : reached? (s :: ss) (.obj members) ≠ get? (s :: ss) (.obj members)) :
    Strays (s :: ss) (.obj members) := by
  have hseen : seen? s (.obj members) = none := by simp [seen?, hs]
  rw [reached?, hseen, State.get?_cons, child?] at hne
  cases hv : Fields.get? members s with
  | none =>
    rw [hv] at hne
    exact absurd rfl hne
  | some w =>
    rw [hv, Option.bind_none, Option.bind_some] at hne
    obtain ⟨u, hu⟩ := Option.ne_none_iff_exists'.1 hne.symm
    exact .member hs hv hu

theorem strays_item {items : List Json} {cs : List Char} (hs : s.toList = '-' :: cs)
    (hne : reached? (s :: ss) (.arr items) ≠ get? (s :: ss) (.arr items)) :
    Strays (s :: ss) (.arr items) := by
  have hchild : child? s (.arr items) = none := by
    rw [child?, index?, Text.natBelow?_minus _ hs]
    rfl
  rw [State.get?_cons, hchild, Option.bind_none] at hne
  obtain ⟨u, hu⟩ := Option.ne_none_iff_exists'.1 hne
  rw [reached?, Option.bind_eq_some_iff] at hu
  obtain ⟨w, hw, hu⟩ := hu
  rw [seen?, Option.bind_eq_some_iff] at hw
  obtain ⟨i, hi, hw⟩ := hw
  split at hw
  · next hle =>
    have hzero : i = 0 := by
      rw [Text.int64?_minus hs, Option.bind_eq_some_iff] at hi
      obtain ⟨k, -, hk⟩ := hi
      split at hk
      · cases hk
        omega
      · cases hk
    subst hzero
    cases items with
    | nil => cases hw
    | cons item items =>
      cases hw
      exact .negativeZero hs hi hu
  · cases hw

/-- A lookup and a path reach different values exactly if the lookup strays. -/
theorem strays_iff (hc : Copies h n v j) (hshort : Short h n) :
    Strays ss j ↔ reached? ss j ≠ get? ss j := by
  refine ⟨reached?_ne_get?, fun hne => ?_⟩
  induction ss generalizing n v j with
  | nil => exact absurd rfl hne
  | cons s ss ih =>
    cases j with
    | null | bool | int | float | str => exact absurd rfl hne
    | obj members =>
      cases hs : Text.int64? s with
      | none => exact strays_deeper ih hc hshort (by simp [seen?, child?, hs]) hne
      | some i => exact strays_member hs hne
    | arr items =>
      by_cases hm : ∃ cs, s.toList = '-' :: cs
      · obtain ⟨cs, hs⟩ := hm
        exact strays_item hs hne
      · exact strays_deeper ih hc hshort
          (seen?_eq_child? (hc.items_length hshort) (not_exists.1 hm)) hne

end Walk

section Full

variable {s : String} {ss : List String} {j w : Json}

theorem full_of_part (hj : j.Full) (h : seen? s j = some w ∨ child? s j = some w) : w.Full := by
  cases hj with
  | leaf _ ha ho =>
    cases j with
    | arr items => exact absurd rfl (ha items)
    | obj members => exact absurd rfl (ho members)
    | _ => rcases h with h | h <;> cases h
  | arr hitems =>
    rcases h with h | h
    · obtain ⟨i, -, hi⟩ := Option.bind_eq_some_iff.1 h
      split at hi
      · exact hitems w (List.mem_of_getElem? hi)
      · cases hi
    · obtain ⟨i, -, hi⟩ := Option.bind_eq_some_iff.1 h
      exact hitems w (List.mem_of_getElem? hi)
  | obj hmembers =>
    rcases h with h | h
    · simp only [seen?] at h
      split at h
      · cases h
      · exact hmembers _ (Fields.mem_of_get? h)
    · exact hmembers _ (Fields.mem_of_get? h)

theorem full_of_get? (hj : j.Full) (h : get? ss j = some w) : w.Full := by
  induction ss generalizing j with
  | nil =>
    cases h
    exact hj
  | cons s ss ih =>
    rw [State.get?_cons, Option.bind_eq_some_iff] at h
    obtain ⟨u, hu, hw⟩ := h
    exact ih (full_of_part hj (.inr hu)) hw

theorem full_of_reached? (hj : j.Full) (h : reached? ss j = some w) : w.Full := by
  induction ss generalizing j with
  | nil =>
    cases h
    exact hj
  | cons s ss ih =>
    rw [reached?, Option.bind_eq_some_iff] at h
    obtain ⟨u, hu, hw⟩ := h
    exact ih (full_of_part hj (.inl hu)) hw

end Full

section Context

variable {limit : Nat} {ctx : Fields Json} {h : Heap} {name : String} {root : Json}
  {segments : List String}

theorem rule_lookup (h : Heap) (v otherwise : Value) (path : String) :
    Library.rule .lookup ⟨"lookup", #[v, .text path, otherwise]⟩ h =
      .ok [lookup h v path otherwise] := by
  have hpath : Source.decodeUtf8? (bytes path) = some path := Source.decodeUtf8?_toUTF8 path
  simp only [Library.rule, Library.textArgument, Call.get, Call.get?]
  simp [Value.text, Value.toBytes?, hpath]

theorem not_strays_of_found {n : Nat} {x : Value} (hnull : root.Full)
    (hreached : Found h n x (reached? segments root)) (hget : Found h n x (get? segments root)) :
    ¬ Strays segments root := by
  intro hstrays
  have hne := reached?_ne_get? hstrays
  rcases strays_none hstrays with hr | hg
  · rw [hr] at hreached hne
    obtain ⟨w, hw⟩ := Option.ne_none_iff_exists'.1 hne.symm
    rw [hw] at hget
    exact (full_of_get? hnull hw).ne_null (Copies.eq_nil_iff hget |>.1 hreached)
  · rw [hg] at hget hne
    obtain ⟨w, hw⟩ := Option.ne_none_iff_exists'.1 hne
    rw [hw] at hreached
    exact (full_of_reached? hnull hw).ne_null (Copies.eq_nil_iff hreached |>.1 hget)

theorem segmentKey_index {s : String} {n : Int} (hs : Text.int64? s = some n) :
    ∃ k, segmentKey s = .int k ∧ (k.toInt = n + 1 ↔ n ≠ Json.int64Max) := by
  obtain ⟨hlo, hhi⟩ := Text.int64?_range hs
  have hmax : Json.int64Max = 2 ^ 63 - 1 := rfl
  refine ⟨Int64.ofInt n + 1, by rw [segmentKey, hs], ?_⟩
  rw [toInt_index hlo hhi, hmax]
  split <;> omega

/-- A lookup in a value of the context returns, with every default, the copy of what the path leads
to, or else the default, exactly if it does not stray. One is added to an index without an overflow
unless it is the greatest integer. -/
theorem lookup_agrees_iff (hn : (Fields.names ctx).Nodup) (hd : ∀ f ∈ ctx, f.2.Distinct)
    (hfull : ((Heap.fresh limit).install ctx).isFull = false)
    (hkeeps : ((Heap.fresh limit).install ctx).Keeps h) (hroot : (name, root) ∈ ctx)
    (hnull : root.Full) (hss : ∀ s ∈ segments, s ≠ "" ∧ '.' ∉ s.toList) :
    let context := (Heap.fresh limit).install ctx
    let v := context.global name
    Copies h context.tables.size v root ∧
      ((∀ otherwise, ∃ u, Library.rule .lookup
            ⟨"lookup", #[v, .text (".".intercalate segments), otherwise]⟩ h = .ok [u] ∧
          match get? segments root with
          | some w => Copies h context.tables.size u w
          | none => u = otherwise) ↔
        ¬ Strays segments root) ∧
      ∀ s n, Text.int64? s = some n →
        ∃ k, segmentKey s = .int k ∧ (k.toInt = n + 1 ↔ n ≠ Json.int64Max) := by
  intro context v
  obtain ⟨hc, hshort⟩ := Heap.copies_context hn hd hfull hkeeps hroot
  have hfound := found_valueBelow hc hshort segments
  have hresult := fun otherwise => rule_lookup h v otherwise (".".intercalate segments)
  simp only [lookup_eq h v _ hss] at hresult
  generalize (valueBelow h segments v).getD .nil = x at hfound hresult
  refine ⟨hc, ⟨fun hall => ?_, fun hnot otherwise => ?_⟩, fun s n hs => segmentKey_index hs⟩
  -- with `nil` as the default the answer is what the lookup ends at
  · obtain ⟨u, hu, hmatch⟩ := hall .nil
    rw [hresult] at hu
    obtain rfl : x = u := by
      split at hu
      · next hx => rw [Value.isNil_iff.1 hx]; cases hu; rfl
      · cases hu; rfl
    refine not_strays_of_found hnull hfound ?_
    cases hget : get? segments root with
    | some w =>
      rw [hget] at hmatch
      exact hmatch
    | none =>
      rw [hget] at hmatch
      exact hmatch
  · have hsame : reached? segments root = get? segments root := by
      by_contra hne
      exact hnot ((strays_iff hc hshort).2 hne)
    rw [hsame] at hfound
    refine ⟨_, hresult otherwise, ?_⟩
    cases hget : get? segments root with
    | none =>
      rw [hget] at hfound
      rw [show x = .nil from hfound]
      rfl
    | some w =>
      rw [hget] at hfound
      have hx : ¬ x.isNil = true := fun hx =>
        (full_of_get? hnull hget).ne_null (Copies.eq_nil_iff hfound |>.1 (Value.isNil_iff.1 hx))
      rw [if_neg hx]
      exact hfound

theorem lookup_agrees_party :
    let root : Json := .obj [("hero", .arr [.int 7])]
    let context := (Heap.fresh 0).install [("party", root)]
    let v := context.global "party"
    get? ["hero", "0"] root = some (.int 7) ∧
      ∃ u, Library.rule .lookup ⟨"lookup", #[v, .text "hero.0", .nil]⟩ context = .ok [u] ∧
        Copies context context.tables.size u (.int 7) := by
  intro root context v
  have hget : get? ["hero", "0"] root = some (.int 7) := by rfl
  have hreached : reached? ["hero", "0"] root = some (.int 7) := by rfl
  have hdistinct : root.Distinct := .obj (by decide)
    (List.forall_mem_singleton.2 (.arr (List.forall_mem_singleton.2 (.literal rfl))))
  have hfull : root.Full := .obj
    (List.forall_mem_singleton.2 (.arr (List.forall_mem_singleton.2 (.leaf nofun nofun nofun))))
  obtain ⟨-, hagrees, -⟩ := @lookup_agrees_iff 0 [("party", root)] context "party" root
    ["hero", "0"] (by decide)
    (List.forall_mem_singleton.2 hdistinct) (Heap.isFull_install hdistinct (by decide) "party")
    (fun _ _ _ => rfl) List.mem_cons_self hfull (by decide)
  have hnot : ¬ Strays ["hero", "0"] root := fun hs => by
    have hnone := strays_none hs
    rw [hreached, hget] at hnone
    simp at hnone
  obtain ⟨u, hu, hc⟩ := hagrees.2 hnot .nil
  rw [hget] at hc
  exact ⟨hget, u, hu, hc⟩

/-- A member is missed whose name is a numeral. -/
theorem lookup_misses_numeral :
    let root : Json := .obj [("1", .int 5)]
    let context := (Heap.fresh 0).install [("levels", root)]
    let v := context.global "levels"
    get? ["1"] root = some (.int 5) ∧
      Library.rule .lookup ⟨"lookup", #[v, .text "1", .ofNat 0]⟩ context = .ok [.ofNat 0] := by
  intro root context v
  have hdistinct : root.Distinct := .obj (by decide) (List.forall_mem_singleton.2 (.literal rfl))
  obtain ⟨hc, hshort⟩ := @Heap.copies_context context 0 [("levels", root)]
    (by decide) (by simpa) (Heap.isFull_install hdistinct (by decide) "levels")
    (fun _ _ _ => rfl) "levels" root (List.mem_singleton_self _)
  have hfound := found_valueBelow hc hshort ["1"]
  have hreached : reached? ["1"] root = none := by rfl
  rw [hreached] at hfound
  have hlookup := @lookup_eq context v ["1"] (.ofNat 0) (by decide)
  rw [show (valueBelow context ["1"] v).getD .nil = .nil from hfound] at hlookup
  refine ⟨by rfl, ?_⟩
  rw [rule_lookup]
  exact congrArg (fun u => Except.ok [u]) hlookup

end Context

end Rulebook.Script
