import Rulebook.Proofs.Digits
import Rulebook.Proofs.PathChanges

namespace Rulebook.State

inductive Selection where
  | key (name : String)
  | slot (index : Nat)

def select? (segment : String) : Json → Option Selection
  | .obj _ => some (.key segment)
  | .arr _ => (index? segment).map .slot
  | _ => none

/-- Two paths that take the same key or the same slot at each step, however they spell it. -/
inductive Aligned : Json → List String → List String → Prop
  | nil (v : Json) : Aligned v [] []
  | cons {v w : Json} {s t : String} {p q : List String} (hs : select? s v = select? t v)
    (hw : child? s v = some w) (h : Aligned w p q) : Aligned v (s :: p) (t :: q)

/-- Two paths that come to one container by the same steps and go on from it by different keys or
different slots. -/
inductive Parts : Json → List String → List String → Prop
  | here {v : Json} {s t : String} (h : select? s v ≠ select? t v) (p q : List String) :
    Parts v (s :: p) (t :: q)
  | deeper {v w : Json} {s t : String} {p q : List String} (hs : select? s v = select? t v)
    (hw : child? s v = some w) (h : Parts w p q) : Parts v (s :: p) (t :: q)

/-- The path `q` comes to the list `items` in which `parents` end, and goes on to `rest` from slot
`j` of it, which comes after the slot of `leaf`. -/
structure Behind (root : Json) (parents : List String) (leaf : String) (q : List String)
    (items : List Json) (j : Nat) (rest : List String) : Prop where
  list : get? parents root = some (.arr items)
  through : ∃ parents' t, q = parents' ++ t :: rest ∧ Aligned root parents parents' ∧
    index? t = some j
  later : ∃ i, index? leaf = some i ∧ i < j

variable {op : Operation} {value root root' v v' w : Json} {leaf s t : String}
  {parents p p' q q' rest : List String} {items : List Json} {i j : Nat} {c : Change}

theorem index?_of_select? (h : select? s (.arr items) = select? t (.arr items)) :
    index? s = index? t :=
  Option.map_injective (fun _ _ he => Selection.slot.inj he) h

theorem child?_of_select? (h : select? s v = select? t v) : child? s v = child? t v := by
  cases v with
  | obj members =>
    obtain rfl : s = t := by simpa [select?] using h
    rfl
  | arr items =>
    rw [child?, child?, index?_of_select? h]
  | _ => rfl

theorem withChild_of_select? (h : select? s v = select? t v) (w : Json) :
    withChild s w v = withChild t w v := by
  cases v with
  | obj members =>
    obtain rfl : s = t := by simpa [select?] using h
    rfl
  | arr items =>
    rw [withChild, withChild, index?_of_select? h]
  | _ => rfl

theorem child?_withChild_of_ne (h : select? s v ≠ select? t v) (w : Json) :
    child? t (withChild s w v) = child? t v := by
  cases v with
  | obj members =>
    have hne : t ≠ s := fun he => h (by rw [he])
    rw [withChild, child?, Fields.get?_put, if_neg hne]
    rfl
  | arr items =>
    cases hi : index? s with
    | none => simp only [withChild, hi]
    | some i =>
      cases hj : index? t with
      | none => simp only [withChild, hi, child?, hj, Option.bind_none]
      | some j =>
        have hne : i ≠ j := fun he => h (by simp only [select?, hi, hj, he])
        simp only [withChild, hi, child?, hj, Option.bind_some, List.getElem?_set_ne hne]
  | _ => rfl

theorem child?_withoutChild_of_ne {members : Fields Json} (h : t ≠ s) :
    child? t (withoutChild s (.obj members)) = child? t (.obj members) := by
  simp only [withoutChild, child?, Fields.get?_erase, if_neg h]

/-- In a list without one slot the slots behind it have moved up. -/
theorem child?_withoutChild_slot (hi : index? s = some i) (hj : index? t = some j) :
    child? t (withoutChild s (.arr items)) = if j < i then items[j]? else items[j + 1]? := by
  simp only [withoutChild, hi, child?, hj, Option.bind_some, List.getElem?_eraseIdx]

theorem Aligned.refl (h : get? p v = some w) : Aligned v p p := by
  induction p generalizing v with
  | nil => exact .nil v
  | cons s p ih =>
    obtain ⟨u, hu, hw⟩ := Option.bind_eq_some_iff.1 h
    exact .cons rfl hu (ih hw)

theorem Aligned.get?_eq (h : Aligned v p p') : get? p v = get? p' v := by
  induction h with
  | nil => rfl
  | cons hs hu _ ih => rw [get?_cons, get?_cons, ← child?_of_select? hs, hu, Option.bind_some,
      Option.bind_some, ih]

theorem Aligned.replace_eq (h : Aligned v p p') (new : Json) :
    replace p new v = replace p' new v := by
  induction h with
  | nil => rfl
  | cons hs hu _ ih =>
    rw [replace, replace, ← child?_of_select? hs, hu]
    simp only [ih, withChild_of_select? hs]

theorem Aligned.get?_replace (h : Aligned v p p') (hw : get? p v = some w) (new : Json) :
    get? p' (replace p new v) = some new := by
  rw [h.replace_eq]
  exact State.get?_replace (h.get?_eq ▸ hw) new

/-- Where two paths part, a value that is put in along one is not read along the other. -/
theorem Parts.get?_replace (h : Parts v p q) (new : Json) :
    get? q (replace p new v) = get? q v := by
  induction h with
  | @here v s t hne p q =>
    rw [replace]
    cases hw : child? s v with
    | none => rfl
    | some w => simp only [get?_cons, child?_withChild_of_ne hne]
  | @deeper v w s t p q hs hw _ ih =>
    have hfound := child?_withChild (w := replace p new w) (.inr ⟨w, child?_of_select? hs ▸ hw⟩)
    simp only [replace, hw, withChild_of_select? hs]
    rw [get?_cons, hfound, get?_cons, ← child?_of_select? hs, hw, Option.bind_some,
      Option.bind_some, ih]

theorem Parts.concat (h : Parts root (parents ++ [leaf]) q) (hv : get? parents root = some v) :
    Parts root parents q ∨ ∃ parents' t rest, q = parents' ++ t :: rest ∧
      Aligned root parents parents' ∧ select? leaf v ≠ select? t v := by
  induction parents generalizing root q with
  | nil =>
    cases hv
    cases h with
    | here hne _ q => exact .inr ⟨[], _, q, rfl, .nil _, hne⟩
    | deeper _ _ h => cases h
  | cons s parents ih =>
    obtain ⟨u, hu, hv⟩ := Option.bind_eq_some_iff.1 hv
    cases h with
    | here hne _ q => exact .inl (.here hne _ _)
    | deeper hs hw h =>
      cases hu.symm.trans hw
      rcases ih h hv with hparts | ⟨parents', t, rest, rfl, ha, hne⟩
      · exact .inl (.deeper hs hu hparts)
      · exact .inr ⟨_ :: parents', t, rest, rfl, .cons hs hu ha, hne⟩

theorem get?_aligned_replace (ha : Aligned root parents p) (hv : get? parents root = some v)
    (v' : Json) (t : String) (rest : List String) :
    get? (p ++ t :: rest) (replace parents v' root) = (child? t v').bind (get? rest) := by
  rw [get?_append, ha.get?_replace hv, Option.bind_some, get?_cons]

theorem get?_aligned (ha : Aligned root parents p) (hv : get? parents root = some v) (t : String)
    (rest : List String) : get? (p ++ t :: rest) root = (child? t v).bind (get? rest) := by
  rw [get?_append, ← ha.get?_eq, hv, Option.bind_some, get?_cons]

theorem get?_behind (h : apply op value (parents ++ [leaf]) root = .ok (root', c))
    (hwhole : TakesWhole op value (get? (parents ++ [leaf]) root))
    (hb : Behind root parents leaf q items j rest) :
    get? q root' = items[j + 1]?.bind (get? rest) := by
  obtain ⟨hlist, ⟨p, t, rfl, ha, hj⟩, i, hi, hij⟩ := hb
  obtain ⟨v, v', hv, hleaf, rfl⟩ := apply_concat_eq_ok h
  cases hlist.symm.trans hv
  rw [get?_leaf hv] at hwhole
  obtain ⟨-, ⟨hmakes, -⟩ | ⟨-, -, rfl, -⟩⟩ := editLeaf_cases hleaf
  · exact absurd hwhole hmakes.not_takesWhole
  · rw [get?_aligned_replace ha hv, child?_withoutChild_slot hi hj, if_neg (by omega)]

theorem get?_of_parts (h : apply op value (parents ++ [leaf]) root = .ok (root', c))
    (hq : Parts root (parents ++ [leaf]) q)
    (hb : TakesWhole op value (get? (parents ++ [leaf]) root) →
      ∀ items j rest, ¬Behind root parents leaf q items j rest) : get? q root' = get? q root := by
  obtain ⟨v, v', hv, hleaf, rfl⟩ := apply_concat_eq_ok h
  rcases hq.concat hv with hparts | ⟨p, t, rest, rfl, ha, hne⟩
  · exact hparts.get?_replace v'
  · rw [get?_aligned_replace ha hv, get?_aligned ha hv]
    rw [get?_leaf hv] at hb
    obtain ⟨-, ⟨-, rfl, -⟩ | ⟨hwhole, -, rfl, w, hw⟩⟩ := editLeaf_cases hleaf
    · rw [child?_withChild_of_ne hne]
    · cases v with
      | obj members =>
        have hkey : t ≠ leaf := fun he => hne (by rw [he])
        rw [child?_withoutChild_of_ne hkey]
      | arr items =>
        obtain ⟨i, hi, -⟩ := child?_arr_eq_some.1 hw
        cases hj : index? t with
        | none => simp only [withoutChild, hi, child?, hj, Option.bind_none]
        | some j =>
          have hij : i ≠ j := fun he => hne (by simp only [select?, hi, hj, he])
          have hnot : ¬i < j := fun hlt =>
            hb hwhole items j rest ⟨hv, ⟨p, t, rfl, ha, hj⟩, i, hi, hlt⟩
          rw [child?_withoutChild_slot hi hj, if_pos (by omega)]
          simp only [child?, hj, Option.bind_some]
      | _ => cases hw

theorem index?_spelled (hs : s ≠ "") (hd : ∀ ch ∈ s.toList, ch.isDigit = true) :
    index? ("0" ++ s) = index? s ∧ index? ("+" ++ s) = index? s := by
  have hzero : ("0" ++ s).toList = '0' :: s.toList := by simp
  have hdigits : ∀ ch ∈ ("0" ++ s).toList, ch.isDigit = true := by
    rw [hzero, List.forall_mem_cons]
    exact ⟨by decide, hd⟩
  have hne : s.toList ≠ [] := mt String.toList_eq_nil_iff.1 hs
  rw [index?, index?, index?, Text.natBelow?_of_digits _ hd, Text.natBelow?_of_digits _ hdigits,
    Text.natBelow?_plus, hzero, Text.digits?_zero hne]
  exact ⟨rfl, rfl⟩

theorem hasRoom_spelled (h : select? s v = select? t v) : HasRoom s v ↔ HasRoom t v := by
  rw [HasRoom, HasRoom, child?_of_select? h]

theorem onSlot_key (op : Operation) (value : Json) (s t : String) :
    op.onSlot s value (some w) = op.onSlot t value (some w) := by
  cases op <;> rfl

theorem withSlot_of_select? (h : select? s v = select? t v) (slot : Option Json) :
    withSlot s slot v = withSlot t slot v := by
  cases slot with
  | some w => exact withChild_of_select? h w
  | none =>
    cases v with
    | obj members =>
      obtain rfl : s = t := by simpa [select?] using h
      rfl
    | arr items =>
      rw [withSlot, withSlot, withoutChild, withoutChild, index?_of_select? h]
    | _ => rfl

theorem editLeaf_spelled (h : select? s v = select? t v) (hroom : HasRoom s v)
    (name name' : String) : editLeaf name s op value v = editLeaf name' t op value v := by
  rw [editLeaf_of_room hroom, editLeaf_of_room ((hasRoom_spelled h).1 hroom),
    child?_of_select? h]
  cases hw : child? t v with
  | some w => rw [onSlot_key op value s t, withSlot_of_select? h]
  | none =>
    obtain ⟨members, rfl⟩ | ⟨u, hu⟩ := hroom
    · obtain rfl : s = t := by simpa [select?] using h
      rfl
    · rw [child?_of_select? h, hw] at hu
      cases hu

/-- Another spelling of a path is read alike and changed alike. -/
theorem apply_spelled (ha : Aligned root parents p) (hv : get? parents root = some v)
    (hs : select? leaf v = select? t v) :
    get? (p ++ [t]) root = get? (parents ++ [leaf]) root ∧
      (apply op value (p ++ [t]) root = .ok (root', c) ↔
        apply op value (parents ++ [leaf]) root = .ok (root', c)) := by
  have hp : get? p root = some v := ha.get?_eq ▸ hv
  constructor
  · rw [get?_leaf hp, get?_leaf hv, child?_of_select? hs]
  · rw [apply_eq_ok, apply_eq_ok, edit_concat hp, edit_concat hv, ← ha.replace_eq]
    by_cases hroom : HasRoom leaf v
    · rw [editLeaf_spelled hs hroom (parents.getLastD "root") (p.getLastD "root")]
    · have hroom' : ¬HasRoom t v := mt (hasRoom_spelled hs).2 hroom
      obtain ⟨fault, hfault⟩ := editLeaf_of_not_room hroom (parents.getLastD "root") op value
      obtain ⟨fault', hfault'⟩ := editLeaf_of_not_room hroom' (p.getLastD "root") op value
      rw [hfault, hfault']
      simp

/-- An operation that goes through changes nothing along a path that parts from its own, save that
behind a slot taken out of a list each slot reads as its successor did. Where the paths part is a
matter of keys and slots, not of their spelling: a path spelled otherwise is the same path, and
zeros or a plus sign in front of digits make no other index. -/
theorem apply_elsewhere (h : apply op value (parents ++ [leaf]) root = .ok (root', c)) :
    (∀ q, Parts root (parents ++ [leaf]) q →
      (TakesWhole op value (get? (parents ++ [leaf]) root) → ∀ items j rest,
        Behind root parents leaf q items j rest →
          get? q root' = items[j + 1]?.bind (get? rest)) ∧
      ((TakesWhole op value (get? (parents ++ [leaf]) root) → ∀ items j rest,
        ¬Behind root parents leaf q items j rest) → get? q root' = get? q root)) ∧
    (∀ p t v, Aligned root parents p → get? parents root = some v →
      select? leaf v = select? t v →
        get? (p ++ [t]) root = get? (parents ++ [leaf]) root ∧
          apply op value (p ++ [t]) root = .ok (root', c)) ∧
    ∀ s, s ≠ "" → (∀ ch ∈ s.toList, ch.isDigit = true) →
      index? ("0" ++ s) = index? s ∧ index? ("+" ++ s) = index? s := by
  refine ⟨fun q hq => ⟨fun hwhole items j rest hb => get?_behind h hwhole hb,
    fun hb => get?_of_parts h hq hb⟩, fun p t v ha hv hs => ?_, fun s => index?_spelled⟩
  obtain ⟨hread, happly⟩ := apply_spelled ha hv hs
  exact ⟨hread, happly.2 h⟩

def party : Json :=
  .obj [("day", .int 1),
    ("party", .arr [.obj [("hp", .int 3)], .obj [("hp", .int 8)], .obj [("hp", .int 5)]])]

theorem apply_elsewhere_party : ∃ root' c,
    apply .remove .null ["party", "00"] party = .ok (root', c) ∧
      get? ["party", "+1", "hp"] party = some (.int 8) ∧
      get? ["party", "+1", "hp"] root' = some (.int 5) ∧
      get? ["day"] root' = some (.int 1) := by
  obtain ⟨root', c, h⟩ : ∃ root' c,
      apply .remove .null (["party"] ++ ["00"]) party = .ok (root', c) := ⟨_, _, rfl⟩
  have hslots : select? "00" (.arr [.obj [("hp", .int 3)], .obj [("hp", .int 8)],
      .obj [("hp", .int 5)]]) ≠ select? "+1" (.arr [.obj [("hp", .int 3)], .obj [("hp", .int 8)],
      .obj [("hp", .int 5)]]) := by
    intro he
    cases he
  have hbehind : Behind party ["party"] "00" ["party", "+1", "hp"] [.obj [("hp", .int 3)],
      .obj [("hp", .int 8)], .obj [("hp", .int 5)]] 1 ["hp"] :=
    ⟨rfl, ⟨["party"], "+1", rfl, .refl rfl, rfl⟩, 0, rfl, by decide⟩
  have hwhole : TakesWhole .remove .null (get? (["party"] ++ ["00"]) party) := ⟨rfl, .inr rfl⟩
  have hday : Parts party (["party"] ++ ["00"]) ["day"] := .here (by simp [select?, party]) _ _
  refine ⟨root', c, h, rfl, ?_, ?_⟩
  · exact ((apply_elsewhere h).1 _ (.deeper rfl rfl (.here hslots _ _))).1 hwhole _ _ _ hbehind
  · refine ((apply_elsewhere h).1 _ hday).2 fun _ items j rest hb => ?_
    obtain ⟨-, ⟨p, t, he, ha, -⟩, -⟩ := hb
    cases ha with
    | cons _ _ ha =>
      cases ha
      cases he

end Rulebook.State
