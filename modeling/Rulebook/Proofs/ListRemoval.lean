import Rulebook.Proofs.PathChanges

namespace Rulebook.State

variable {value root w : Json} {items rest : List Json} {leaf : String} {parents : List String}

theorem dropFirst?_eq_none :
    dropFirst? value items = none ↔ ∀ y ∈ items, looselyEqual y value = false := by
  induction items with
  | nil => simp [dropFirst?]
  | cons y items ih => cases hy : looselyEqual y value <;> simp [dropFirst?, hy, ih]

theorem dropFirst?_eq_some : dropFirst? value items = some rest ↔
    ∃ before x after, items = before ++ x :: after ∧ rest = before ++ after ∧
      (∀ y ∈ before, looselyEqual y value = false) ∧ looselyEqual x value = true := by
  induction items generalizing rest with
  | nil => simp [dropFirst?]
  | cons y items ih =>
    rw [dropFirst?]
    cases hy : looselyEqual y value with
    | true =>
      simp only [if_true, Option.some.injEq]
      constructor
      · rintro rfl
        exact ⟨[], y, items, rfl, rfl, by simp, hy⟩
      · rintro ⟨before, x, after, he, rfl, hbefore, -⟩
        cases before with
        | nil =>
          cases he
          rfl
        | cons z before =>
          cases he
          cases hy.symm.trans (hbefore y (.head _))
    | false =>
      simp only [Bool.false_eq_true, if_false, Option.map_eq_some_iff, ih]
      constructor
      · rintro ⟨_, ⟨before, x, after, rfl, rfl, hbefore, hx⟩, rfl⟩
        exact ⟨y :: before, x, after, rfl, rfl, List.forall_mem_cons.2 ⟨hy, hbefore⟩, hx⟩
      · rintro ⟨before, x, after, he, rfl, hbefore, hx⟩
        cases before with
        | nil =>
          cases he
          cases hy.symm.trans hx
        | cons z before =>
          cases he
          exact ⟨before ++ after,
            ⟨before, x, after, rfl, rfl, (List.forall_mem_cons.1 hbefore).2, hx⟩, rfl⟩

theorem remove_item (h : get? (parents ++ [leaf]) root = some (.arr items))
    (hvalue : value ≠ .null) :
    apply .remove value (parents ++ [leaf]) root =
      match dropFirst? value items with
      | some rest => .ok (replace (parents ++ [leaf]) (.arr rest) root, ⟨.arr items, .arr rest⟩)
      | none => .error .valueNotFound := by
  have hnull : isNull value = false := by
    rw [← Bool.not_eq_true, isNull_iff]
    exact hvalue
  cases hd : dropFirst? value items with
  | none => exact apply_of_fault h (by simp only [Operation.onSlot, hnull, hd])
  | some rest => exact apply_of_put h (by simp only [Operation.onSlot, hnull, hd])

/-- With null a removal succeeds on whatever is there. -/
theorem remove_null (h : get? (parents ++ [leaf]) root = some w) :
    ∃ root', apply .remove .null (parents ++ [leaf]) root = .ok (root', ⟨w, .null⟩) := by
  rw [get?_concat] at h
  obtain ⟨v, hv, hchild⟩ := Option.bind_eq_some_iff.1 h
  refine ⟨replace parents (withoutChild leaf v) root, ?_⟩
  rw [apply_eq_ok, editLeaf_child hv hchild]
  cases w <;> rfl

/-- A removal from a list with a value other than null takes away exactly the first element that is
loosely equal to it and keeps the others in order, with the list in its place and all else as it
was; if there is none it fails, and a batch that holds the root stays as it was. With null a removal
takes away the list. -/
theorem remove_from_list (h : get? (parents ++ [leaf]) root = some (.arr items)) :
    (∀ value, value ≠ .null →
      (∃ before x after, items = before ++ x :: after ∧
        (∀ y ∈ before, looselyEqual y value = false) ∧ looselyEqual x value = true ∧
        ∃ root', apply .remove value (parents ++ [leaf]) root =
            .ok (root', ⟨.arr items, .arr (before ++ after)⟩) ∧
          root' = replace (parents ++ [leaf]) (.arr (before ++ after)) root ∧
          get? (parents ++ [leaf]) root' = some (.arr (before ++ after))) ∨
      ((∀ y ∈ items, looselyEqual y value = false) ∧
        apply .remove value (parents ++ [leaf]) root = .error .valueNotFound ∧
        edit .remove value (parents ++ [leaf]) root = (root, .error .valueNotFound) ∧
        ∀ (b : Batch) (name : String), b.view? name = some root → ∀ i es,
          b.stage i (⟨⟨name, parents ++ [leaf]⟩, .remove, value⟩ :: es) =
            (b, .error (.rejected i .remove (Path.text ⟨name, parents ++ [leaf]⟩)
              .valueNotFound)))) ∧
    ∃ root', apply .remove .null (parents ++ [leaf]) root = .ok (root', ⟨.arr items, .null⟩) ∧
      ((∃ members, get? parents root = some (.obj members) ∧
          get? (parents ++ [leaf]) root' = none) ∨
        ∃ slots i, get? parents root = some (.arr slots) ∧ index? leaf = some i ∧
          i < slots.length ∧ get? parents root' = some (.arr (slots.eraseIdx i))) := by
  constructor
  · intro value hvalue
    have hremove := remove_item h hvalue
    cases hd : dropFirst? value items with
    | some rest =>
      obtain ⟨before, x, after, he, rfl, hbefore, hx⟩ := dropFirst?_eq_some.1 hd
      rw [hd] at hremove
      exact .inl ⟨before, x, after, he, hbefore, hx, _, hremove, rfl, get?_replace h _⟩
    | none =>
      rw [hd] at hremove
      exact .inr ⟨dropFirst?_eq_none.1 hd, hremove, edit_of_error hremove,
        fun b name hb i es => stage_of_error hremove hb i es⟩
  · obtain ⟨root', hroot⟩ := remove_null h
    have htakes : TakesWhole .remove .null (get? (parents ++ [leaf]) root) := ⟨rfl, .inr rfl⟩
    exact ⟨root', hroot, ((change_of_apply hroot).2.2 htakes).2⟩

def packed : Json := .obj [("items", .arr [.str "rope", .str "torch", .str "rope"])]

theorem remove_from_list_packed :
    get? ["items"] packed = some (.arr [.str "rope", .str "torch", .str "rope"]) ∧
      (∃ root', apply .remove (.str "rope") ["items"] packed =
          .ok (root', ⟨.arr [.str "rope", .str "torch", .str "rope"],
            .arr [.str "torch", .str "rope"]⟩) ∧
        get? ["items"] root' = some (.arr [.str "torch", .str "rope"])) ∧
      apply .remove (.str "axe") ["items"] packed = .error .valueNotFound := by
  have hitems : get? ([] ++ ["items"]) packed =
      some (.arr [.str "rope", .str "torch", .str "rope"]) := rfl
  obtain ⟨hvalue, -⟩ := remove_from_list hitems
  refine ⟨hitems, ?_, ?_⟩
  · obtain ⟨before, x, after, he, hbefore, hx, root', hroot, -, hread⟩ | ⟨hnone, -⟩ :=
      hvalue (.str "rope") (by simp)
    · cases before with
      | nil =>
        cases he
        exact ⟨root', hroot, hread⟩
      | cons y before =>
        obtain ⟨rfl, -⟩ := List.cons.inj he
        cases hbefore (.str "rope") (.head _)
    · cases hnone (.str "rope") (.head _)
  · obtain ⟨before, x, after, he, hbefore, hx, -⟩ | ⟨-, hfails, -⟩ := hvalue (.str "axe") (by simp)
    · have hx' : x ∈ [Json.str "rope", .str "torch", .str "rope"] := by rw [he]; simp
      simp only [List.mem_cons, List.not_mem_nil, or_false] at hx'
      rcases hx' with rfl | rfl | rfl <;> cases hx
    · exact hfails

/-- A list that holds a null is taken away as a whole by a removal with null. -/
theorem null_takes_list :
    get? ["items"] (.obj [("items", .arr [.null, .int 1])]) = some (.arr [.null, .int 1]) ∧
      looselyEqual .null .null = true ∧
      apply .remove .null ["items"] (.obj [("items", .arr [.null, .int 1])]) =
        .ok (.obj [], ⟨.arr [.null, .int 1], .null⟩) ∧
      get? ["items"] (.obj []) = none := by
  refine ⟨rfl, rfl, rfl, rfl⟩

end Rulebook.State
