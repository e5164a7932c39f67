import Rulebook.Proofs.Staging

namespace Rulebook.Fields

theorem get?_erase {α : Type} (fs : Fields α) (name other : String) :
    get? (erase fs name) other = if other = name then none else get? fs other := by
  induction fs with
  | nil => simp [erase, get?]
  | cons f fs ih =>
    obtain ⟨n, v⟩ := f
    by_cases hn : n = name
    · have he : erase ((n, v) :: fs) name = erase fs name := by simp [erase, hn]
      rw [he, ih, get?_cons]
      by_cases ho : other = name
      · simp [ho]
      · simp [ho, hn]
    · have he : erase ((n, v) :: fs) name = (n, v) :: erase fs name := by simp [erase, hn]
      rw [he, get?_cons, ih, get?_cons]
      by_cases ho : other = n
      · simp [ho, hn]
      · simp [ho]

end Rulebook.Fields

namespace Rulebook.State

def withChild (segment : String) (child : Json) : Json → Json
  | .obj members => .obj (Fields.put segment child members)
  | .arr items =>
    match index? segment with
    | some i => .arr (items.set i child)
    | none => .arr items
  | v => v

def withoutChild (segment : String) : Json → Json
  | .obj members => .obj (Fields.erase members segment)
  | .arr items =>
    match index? segment with
    | some i => .arr (items.eraseIdx i)
    | none => .arr items
  | v => v

def withSlot (segment : String) : Option Json → Json → Json
  | some child, v => withChild segment child v
  | none, v => withoutChild segment v

def replace : List String → Json → Json → Json
  | [], new, _ => new
  | s :: ss, new, v =>
    match child? s v with
    | some w => withChild s (replace ss new w) v
    | none => v

/-- A removal takes its target away as a whole, unless that is a list and the value is not null. -/
def TakesWhole (op : Operation) (value : Json) (target : Option Json) : Prop :=
  op = .remove ∧ ((∀ items, target ≠ some (.arr items)) ∨ value = .null)

/-- What an operation that does not take its target away makes of it. -/
inductive Makes (value : Json) : Operation → Option Json → Json → Prop
  | set (target : Option Json) : Makes value .set target value
  | add {old new : Json} (h : sum old value = .ok new) : Makes value .add (some old) new
  | append (items : List Json) : Makes value .append (some (.arr items)) (.arr (items ++ [value]))
  | create : Makes value .append none (.arr [value])
  | removeItem {items rest : List Json} (hv : value ≠ .null)
    (h : dropFirst? value items = some rest) : Makes value .remove (some (.arr items)) (.arr rest)

/-- An object has room for a child under any key, a list where it has one. -/
def HasRoom (segment : String) (v : Json) : Prop :=
  (∃ members, v = .obj members) ∨ ∃ u, child? segment v = some u

variable {op : Operation} {value root root' v v' w new : Json} {name leaf s t : String}
  {parents p q : List String} {c : Change} {slot slot' : Option Json} {fault : PathFault}

theorem Makes.not_takesWhole {target : Option Json} (h : Makes value op target new) :
    ¬TakesWhole op value target := by
  rintro ⟨ho, ht⟩
  cases h with
  | removeItem hv _ => exact ht.elim (fun h => h _ rfl) hv
  | _ => cases ho

theorem isNull_iff : isNull v = true ↔ v = .null := by
  cases v <;> simp [isNull]

theorem onSlot_cases (h : op.onSlot leaf value slot = (slot', .ok c)) :
    c.previous = slot.getD .null ∧ ((Makes value op slot c.current ∧ slot' = some c.current) ∨
      (TakesWhole op value slot ∧ c.current = .null ∧ slot' = none ∧ ∃ w, slot = some w)) := by
  cases op with
  | set =>
    cases h
    exact ⟨rfl, .inl ⟨.set _, rfl⟩⟩
  | add =>
    cases slot with
    | none => cases h
    | some v =>
      simp only [Operation.onSlot] at h
      split at h
      · next w hw =>
        cases h
        exact ⟨rfl, .inl ⟨.add hw, rfl⟩⟩
      · cases h
  | append =>
    cases slot with
    | none =>
      cases h
      exact ⟨rfl, .inl ⟨.create, rfl⟩⟩
    | some v =>
      cases v with
      | arr items =>
        cases h
        exact ⟨rfl, .inl ⟨.append items, rfl⟩⟩
      | _ => cases h
  | remove =>
    cases slot with
    | none => cases h
    | some v =>
      simp only [Operation.onSlot] at h
      split at h
      · next items hnull =>
        have hv : value ≠ .null := fun he => by simp [isNull_iff.2 he] at hnull
        split at h
        · next rest hrest =>
          cases h
          exact ⟨rfl, .inl ⟨.removeItem hv hrest, rfl⟩⟩
        · cases h
      · next hwhole =>
        cases h
        refine ⟨rfl, .inr ⟨⟨rfl, ?_⟩, rfl, rfl, _, rfl⟩⟩
        by_cases hv : value = .null
        · exact .inr hv
        · refine .inl fun items he => hwhole items (Option.some.inj he) ?_
          rwa [← isNull_iff, Bool.not_eq_true] at hv

theorem onSlot_unchanged (h : op.onSlot leaf value slot = (slot', .error fault)) :
    slot' = slot := by
  cases slot with
  | none =>
    cases op <;> cases h
    · rfl
    · rfl
  | some v =>
    cases op with
    | set => cases h
    | add =>
      simp only [Operation.onSlot] at h
      split at h <;> cases h
      rfl
    | append =>
      simp only [Operation.onSlot] at h
      split at h <;> cases h
      rfl
    | remove =>
      simp only [Operation.onSlot] at h
      split at h
      · split at h <;> cases h
        rfl
      · cases h

theorem listIndex_eq_ok {n i : Nat} : listIndex s n = .ok i ↔ index? s = some i ∧ i < n := by
  unfold listIndex
  cases index? s with
  | none => simp
  | some j =>
    by_cases hj : j < n
    · simp only [if_pos hj, Except.ok.injEq, Option.some.injEq]
      exact ⟨fun h => ⟨h, h ▸ hj⟩, And.left⟩
    · simp only [if_neg hj, reduceCtorEq, Option.some.injEq, false_iff, not_and]
      exact fun h => h ▸ hj

theorem child?_arr_eq_some {items : List Json} : child? s (.arr items) = some v ↔
    ∃ i, index? s = some i ∧ items[i]? = some v :=
  Option.bind_eq_some_iff

theorem listIndex_of_child? {items : List Json} (h : child? s (.arr items) = some v) :
    ∃ i, index? s = some i ∧ listIndex s items.length = .ok i ∧ items[i]? = some v := by
  obtain ⟨i, hi, hv⟩ := child?_arr_eq_some.1 h
  exact ⟨i, hi, listIndex_eq_ok.2 ⟨hi, (List.getElem?_eq_some_iff.1 hv).1⟩, hv⟩

theorem listIndex_childless {items : List Json} (h : child? s (.arr items) = none) :
    ∃ fault, listIndex s items.length = .error fault := by
  cases hi : listIndex s items.length with
  | error fault => exact ⟨fault, rfl⟩
  | ok i =>
    obtain ⟨hi, hlt⟩ := listIndex_eq_ok.1 hi
    cases h.symm.trans (child?_arr_eq_some.2 ⟨i, hi, List.getElem?_eq_getElem hlt⟩)

theorem editLeaf_of_room (h : HasRoom leaf v) (name : String) (op : Operation) (value : Json) :
    editLeaf name leaf op value v = (withSlot leaf (op.onSlot leaf value (child? leaf v)).1 v,
      (op.onSlot leaf value (child? leaf v)).2) := by
  cases v with
  | obj members =>
    rw [editLeaf, child?]
    obtain ⟨slot, result⟩ := op.onSlot leaf value (Fields.get? members leaf)
    cases slot <;> rfl
  | arr items =>
    obtain ⟨_, h⟩ | ⟨u, h⟩ := h
    · cases h
    · obtain ⟨i, hi, hindex, hu⟩ := listIndex_of_child? h
      simp only [editLeaf, hindex, h, hu]
      obtain ⟨slot, result⟩ := op.onSlot leaf value (some u)
      cases slot <;> simp only [inItem, withSlot, withChild, withoutChild, hi]
  | _ => obtain ⟨_, h⟩ | ⟨_, h⟩ := h <;> cases h

theorem editLeaf_of_not_room (h : ¬HasRoom leaf v) (name : String) (op : Operation)
    (value : Json) : ∃ fault, editLeaf name leaf op value v = (v, .error fault) := by
  cases v with
  | obj members => exact absurd (.inl ⟨members, rfl⟩) h
  | arr items =>
    have hnone : child? leaf (.arr items) = none := by
      rw [← Option.not_isSome_iff_eq_none, Option.isSome_iff_exists]
      exact fun hu => h (.inr hu)
    obtain ⟨fault, hfault⟩ := listIndex_childless hnone
    exact ⟨fault, by rw [editLeaf, hfault]⟩
  | _ => exact ⟨_, rfl⟩

theorem child?_withChild (h : HasRoom s v) : child? s (withChild s w v) = some w := by
  cases v with
  | obj members => rw [withChild, child?, Fields.get?_put, if_pos rfl]
  | arr items =>
    obtain ⟨_, h⟩ | ⟨u, h⟩ := h
    · cases h
    · obtain ⟨i, hi, hu⟩ := child?_arr_eq_some.1 h
      have hlt : i < items.length := (List.getElem?_eq_some_iff.1 hu).1
      simp [withChild, child?, hi, hlt]
  | _ => obtain ⟨_, h⟩ | ⟨_, h⟩ := h <;> cases h

theorem withChild_self (h : child? s v = some w) : withChild s w v = v := by
  cases v with
  | obj members =>
    rw [child?] at h
    rw [withChild, Fields.put_self h]
  | arr items =>
    obtain ⟨i, hi, hw⟩ := child?_arr_eq_some.1 h
    obtain ⟨hlt, rfl⟩ := List.getElem?_eq_some_iff.1 hw
    simp only [withChild, hi, List.set_getElem_self]
  | _ => cases h

theorem withSlot_self (h : HasRoom s v) : withSlot s (child? s v) v = v := by
  cases hw : child? s v with
  | some w => exact withChild_self hw
  | none =>
    obtain ⟨members, rfl⟩ | ⟨u, hu⟩ := h
    · rw [child?] at hw
      rw [withSlot, withoutChild, Fields.erase_eq_self hw]
    · cases hw.symm.trans hu

theorem editLeaf_unchanged (h : editLeaf name leaf op value v = (v', .error fault)) :
    v' = v := by
  by_cases hroom : HasRoom leaf v
  · rw [editLeaf_of_room hroom] at h
    cases ho : op.onSlot leaf value (child? leaf v) with
    | mk slot result =>
      rw [ho] at h
      cases h
      rw [onSlot_unchanged ho, withSlot_self hroom]
  · obtain ⟨fault', hfault⟩ := editLeaf_of_not_room hroom name op value
    cases hfault.symm.trans h
    rfl

/-- The two things that an operation can do to a container. -/
theorem editLeaf_cases (h : editLeaf name leaf op value v = (v', .ok c)) :
    c.previous = (child? leaf v).getD .null ∧
      ((Makes value op (child? leaf v) c.current ∧ v' = withChild leaf c.current v ∧
          child? leaf v' = some c.current) ∨
        (TakesWhole op value (child? leaf v) ∧ c.current = .null ∧ v' = withoutChild leaf v ∧
          ∃ w, child? leaf v = some w)) := by
  by_cases hroom : HasRoom leaf v
  · rw [editLeaf_of_room hroom] at h
    cases ho : op.onSlot leaf value (child? leaf v) with
    | mk slot result =>
      rw [ho] at h
      cases h
      obtain ⟨hprevious, hslot⟩ := onSlot_cases ho
      refine ⟨hprevious, hslot.imp ?_ ?_⟩
      · rintro ⟨hmakes, rfl⟩
        exact ⟨hmakes, rfl, child?_withChild hroom⟩
      · rintro ⟨htakes, hcurrent, rfl, w, hw⟩
        exact ⟨htakes, hcurrent, rfl, w, hw⟩
  · obtain ⟨fault', hfault⟩ := editLeaf_of_not_room hroom name op value
    cases hfault.symm.trans h

theorem get?_cons (s : String) (p : List String) (v : Json) :
    get? (s :: p) v = (child? s v).bind (get? p) := rfl

theorem get?_append (p q : List String) (v : Json) :
    get? (p ++ q) v = (get? p v).bind (get? q) := by
  induction p generalizing v with
  | nil => rfl
  | cons s p ih =>
    rw [List.cons_append, get?_cons, get?_cons, Option.bind_assoc]
    exact congrArg _ (funext ih)

theorem get?_concat (p : List String) (s : String) (v : Json) :
    get? (p ++ [s]) v = (get? p v).bind (child? s) := by
  rw [get?_append]
  congr 1
  funext u
  exact Option.bind_fun_some (child? s u)

theorem get?_replace (h : get? p v = some w) (new : Json) :
    get? p (replace p new v) = some new := by
  induction p generalizing v with
  | nil => rfl
  | cons s p ih =>
    obtain ⟨u, hu, hw⟩ := Option.bind_eq_some_iff.1 h
    rw [replace, hu, get?_cons, child?_withChild (.inr ⟨u, hu⟩)]
    exact ih hw

theorem editBelow_child (h : child? s v = some w) (op : Operation) (value : Json) (name t : String)
    (ss : List String) : editBelow op value name s (t :: ss) v =
      (withChild s (editBelow op value s t ss w).1 v, (editBelow op value s t ss w).2) := by
  cases v with
  | obj members =>
    rw [child?] at h
    rw [editBelow, h]
    rfl
  | arr items =>
    obtain ⟨i, hi, hindex, hw⟩ := listIndex_of_child? h
    simp only [editBelow, hindex, hw, withChild, inItem, hi]
  | _ => cases h

theorem editBelow_childless (h : child? s v = none) (op : Operation) (value : Json)
    (name t : String) (ss : List String) :
    ∃ fault, editBelow op value name s (t :: ss) v = (v, .error fault) := by
  cases v with
  | obj members =>
    rw [child?] at h
    exact ⟨_, by rw [editBelow, h]⟩
  | arr items =>
    obtain ⟨fault, hfault⟩ := listIndex_childless h
    exact ⟨fault, by simp only [editBelow, hfault]⟩
  | _ => exact ⟨_, rfl⟩

/-- An operation that fails gives every container on its way the child back that it had. -/
theorem editBelow_unchanged {ss : List String}
    (h : editBelow op value name s ss v = (v', .error fault)) : v' = v := by
  -- the child that comes back is the one that was there
  induction ss generalizing name s v v' with
  | nil =>
    rw [editBelow] at h
    exact editLeaf_unchanged h
  | cons t ss ih =>
    cases hw : child? s v with
    | none =>
      obtain ⟨fault', hfault⟩ := editBelow_childless hw op value name t ss
      cases hfault.symm.trans h
      rfl
    | some w =>
      rw [editBelow_child hw] at h
      cases hb : editBelow op value s t ss w with
      | mk w' result =>
        rw [hb] at h
        cases h
        rw [ih hb, withChild_self hw]

theorem edit_unchanged (h : edit op value p root = (root', .error fault)) : root' = root := by
  cases p with
  | nil =>
    cases h
    rfl
  | cons s ss => exact editBelow_unchanged h

theorem edit_of_error (h : apply op value p root = .error fault) :
    edit op value p root = (root, .error fault) := by
  have hfault : edit op value p root = ((edit op value p root).1, .error fault) :=
    Prod.ext rfl (apply_eq_error.1 h)
  rw [edit_unchanged hfault] at hfault
  exact hfault

theorem concat_eq_cons (parents : List String) (leaf : String) :
    ∃ t ss, parents ++ [leaf] = t :: ss :=
  List.exists_cons_of_ne_nil (by simp)

theorem editBelow_concat (h : get? parents root = some v) {t : String} {ss : List String}
    (hp : parents ++ [leaf] = t :: ss) (op : Operation) (value : Json) (name : String) :
    editBelow op value name t ss root =
      (replace parents (editLeaf (parents.getLastD name) leaf op value v).1 root,
        (editLeaf (parents.getLastD name) leaf op value v).2) := by
  -- down to the container the operation only passes through
  induction parents generalizing root name t ss with
  | nil =>
    cases hp
    cases h
    rfl
  | cons s parents ih =>
    obtain ⟨u, hu, hv⟩ := Option.bind_eq_some_iff.1 h
    obtain ⟨t', ss', hrest⟩ := concat_eq_cons parents leaf
    rw [List.cons_append, hrest] at hp
    cases hp
    rw [editBelow_child hu, ih hv hrest, List.getLastD_cons, replace, hu]

theorem editBelow_pathless (h : get? parents root = none) {t : String} {ss : List String}
    (hp : parents ++ [leaf] = t :: ss) (op : Operation) (value : Json) (name : String) :
    ∃ fault, (editBelow op value name t ss root).2 = .error fault := by
  induction parents generalizing root name t ss with
  | nil => cases h
  | cons s parents ih =>
    obtain ⟨t', ss', hrest⟩ := concat_eq_cons parents leaf
    rw [List.cons_append, hrest] at hp
    cases hp
    cases hu : child? s root with
    | none =>
      obtain ⟨fault, hfault⟩ := editBelow_childless hu op value name t' ss'
      exact ⟨fault, by rw [hfault]⟩
    | some u =>
      rw [get?_cons, hu, Option.bind_some] at h
      obtain ⟨fault, hfault⟩ := ih h hrest s
      exact ⟨fault, by rw [editBelow_child hu, hfault]⟩

/-- An operation changes the container that the last segment stands in, and puts it back. -/
theorem edit_concat (h : get? parents root = some v) (op : Operation) (value : Json)
    (leaf : String) : edit op value (parents ++ [leaf]) root =
      (replace parents (editLeaf (parents.getLastD "root") leaf op value v).1 root,
        (editLeaf (parents.getLastD "root") leaf op value v).2) := by
  obtain ⟨t, ss, hp⟩ := concat_eq_cons parents leaf
  rw [← editBelow_concat h hp, hp]
  rfl

theorem replace_concat (hv : get? parents root = some v) (hw : child? leaf v = some w)
    (new : Json) :
    replace (parents ++ [leaf]) new root = replace parents (withChild leaf new v) root := by
  induction parents generalizing root with
  | nil =>
    cases hv
    simp only [List.nil_append, replace, hw]
  | cons s parents ih =>
    obtain ⟨u, hu, hv⟩ := Option.bind_eq_some_iff.1 hv
    simp only [List.cons_append, replace, hu, ih hv]

theorem editLeaf_child (hv : get? parents root = some v) (hw : child? leaf v = some w) :
    edit op value (parents ++ [leaf]) root =
      (replace parents (withSlot leaf (op.onSlot leaf value (some w)).1 v) root,
        (op.onSlot leaf value (some w)).2) := by
  rw [edit_concat hv, editLeaf_of_room (.inr ⟨w, hw⟩), hw]

theorem apply_of_put (h : get? (parents ++ [leaf]) root = some w)
    (hput : op.onSlot leaf value (some w) = (some new, .ok ⟨w, new⟩)) :
    apply op value (parents ++ [leaf]) root =
      .ok (replace (parents ++ [leaf]) new root, ⟨w, new⟩) := by
  rw [get?_concat] at h
  obtain ⟨v, hv, hchild⟩ := Option.bind_eq_some_iff.1 h
  rw [apply_eq_ok, editLeaf_child hv hchild, hput, replace_concat hv hchild, withSlot]

theorem apply_of_fault (h : get? (parents ++ [leaf]) root = some w)
    (hfault : (op.onSlot leaf value (some w)).2 = .error fault) :
    apply op value (parents ++ [leaf]) root = .error fault := by
  rw [get?_concat] at h
  obtain ⟨v, hv, hchild⟩ := Option.bind_eq_some_iff.1 h
  rw [apply_eq_error, editLeaf_child hv hchild, hfault]

theorem get?_parents_of_edit (h : edit op value (parents ++ [leaf]) root = (root', .ok c)) :
    ∃ v, get? parents root = some v := by
  rw [← Option.isSome_iff_exists, ← Option.ne_none_iff_isSome]
  intro hn
  obtain ⟨t, ss, hp⟩ := concat_eq_cons parents leaf
  obtain ⟨fault, hfault⟩ := editBelow_pathless hn hp op value "root"
  rw [hp, edit] at h
  rw [h] at hfault
  cases hfault

theorem apply_concat_eq_ok (h : apply op value (parents ++ [leaf]) root = .ok (root', c)) :
    ∃ v v', get? parents root = some v ∧
      editLeaf (parents.getLastD "root") leaf op value v = (v', .ok c) ∧
      root' = replace parents v' root := by
  rw [apply_eq_ok] at h
  obtain ⟨v, hv⟩ := get?_parents_of_edit h
  rw [edit_concat hv, Prod.mk.injEq] at h
  exact ⟨v, _, hv, Prod.ext rfl h.2, h.1.symm⟩

/-- A failed operation leaves the batch that holds the root as it was, and ends the staging. -/
theorem stage_of_error {b : Batch} (h : apply op value p root = .error fault)
    (hb : b.view? name = some root) (i : Nat) (es : List Effect) :
    b.stage i (⟨⟨name, p⟩, op, value⟩ :: es) =
      (b, .error (.rejected i op (Path.text ⟨name, p⟩) fault)) := by
  have hset : b.set ⟨name, p⟩ op value = .error (.invalidTarget (Path.text ⟨name, p⟩) fault) := by
    rw [Batch.set_eq_error]
    simp only [Batch.change, hb, edit_of_error h]
  exact Batch.stage_cons_error (e := ⟨⟨name, p⟩, op, value⟩) hset i es

theorem get?_leaf (h : get? parents root = some v) :
    get? (parents ++ [leaf]) root = child? leaf v := by
  rw [get?_concat, h, Option.bind_some]

theorem child?_withoutChild (h : child? leaf v = some w) :
    (∃ members, v = .obj members ∧ child? leaf (withoutChild leaf v) = none) ∨
      ∃ items i, v = .arr items ∧ index? leaf = some i ∧ i < items.length ∧
        withoutChild leaf v = .arr (items.eraseIdx i) := by
  cases v with
  | obj members =>
    refine .inl ⟨members, rfl, ?_⟩
    rw [withoutChild, child?, Fields.get?_erase, if_pos rfl]
  | arr items =>
    obtain ⟨i, hi, hw⟩ := child?_arr_eq_some.1 h
    refine .inr ⟨items, i, rfl, hi, (List.getElem?_eq_some_iff.1 hw).1, ?_⟩
    simp only [withoutChild, hi]
  | _ => cases h

theorem hasRoom_iff : HasRoom leaf v ↔ (∃ members, v = .obj members) ∨
    ∃ items i, v = .arr items ∧ index? leaf = some i ∧ i < items.length := by
  constructor
  · rintro (hobj | ⟨u, hu⟩)
    · exact .inl hobj
    · cases v with
      | obj members => exact .inl ⟨members, rfl⟩
      | arr items =>
        obtain ⟨i, hi, hu⟩ := child?_arr_eq_some.1 hu
        exact .inr ⟨items, i, rfl, hi, (List.getElem?_eq_some_iff.1 hu).1⟩
      | _ => cases hu
  · rintro (hobj | ⟨items, i, rfl, hi, hlt⟩)
    · exact .inl hobj
    · exact .inr ⟨items[i], child?_arr_eq_some.2 ⟨i, hi, List.getElem?_eq_getElem hlt⟩⟩

theorem editLeaf_set_iff (name : String) (value : Json) :
    (∃ c, (editLeaf name leaf .set value v).2 = .ok c) ↔ HasRoom leaf v := by
  by_cases h : HasRoom leaf v
  · rw [editLeaf_of_room h]
    exact iff_of_true ⟨_, rfl⟩ h
  · obtain ⟨fault, hfault⟩ := editLeaf_of_not_room h name .set value
    rw [hfault]
    exact iff_of_false nofun h

theorem change_of_apply (h : apply op value (parents ++ [leaf]) root = .ok (root', c)) :
    c.previous = (get? (parents ++ [leaf]) root).getD .null ∧
      (¬TakesWhole op value (get? (parents ++ [leaf]) root) →
        Makes value op (get? (parents ++ [leaf]) root) c.current ∧
          get? (parents ++ [leaf]) root' = some c.current) ∧
      (TakesWhole op value (get? (parents ++ [leaf]) root) → c.current = .null ∧
        ((∃ members, get? parents root = some (.obj members) ∧
            get? (parents ++ [leaf]) root' = none) ∨
          ∃ items i, get? parents root = some (.arr items) ∧ index? leaf = some i ∧
            i < items.length ∧ get? parents root' = some (.arr (items.eraseIdx i)))) := by
  obtain ⟨v, v', hv, hleaf, rfl⟩ := apply_concat_eq_ok h
  have hafter := get?_replace hv v'
  rw [get?_leaf hv, get?_leaf hafter, hv, hafter]
  obtain ⟨hprevious, ⟨hmakes, -, hread⟩ | ⟨htakes, hcurrent, rfl, w, hw⟩⟩ := editLeaf_cases hleaf
  · exact ⟨hprevious, fun _ => ⟨hmakes, hread⟩, fun ht => absurd ht hmakes.not_takesWhole⟩
  · refine ⟨hprevious, fun ht => absurd htakes ht, fun _ => ⟨hcurrent, ?_⟩⟩
    simpa using child?_withoutChild hw

/-- A value can be set exactly where there is an object or a slot of a list. -/
theorem apply_set_iff : (∃ root' c, apply .set value (parents ++ [leaf]) root = .ok (root', c)) ↔
    (∃ members, get? parents root = some (.obj members)) ∨
      ∃ items i, get? parents root = some (.arr items) ∧ index? leaf = some i ∧
        i < items.length := by
  cases hv : get? parents root with
  | none =>
    refine iff_of_false (fun ⟨_, _, h⟩ => ?_) (by simp)
    obtain ⟨v, hsome⟩ := get?_parents_of_edit (apply_eq_ok.1 h)
    cases hv.symm.trans hsome
  | some v =>
    simp only [Option.some.injEq, ← hasRoom_iff]
    rw [← editLeaf_set_iff (parents.getLastD "root") value]
    simp only [apply_eq_ok, edit_concat hv, Prod.mk.injEq, exists_and_left, exists_eq_left']

/-- What an operation reports is what is read at its path before and after. It puts there what it
makes of the old value, or it takes that away: a key of an object is then absent, a slot of a list
is erased. A value can be set exactly where there is an object or a slot of a list. A batch whose
root an operation fails on stays as it was, and so does the root. -/
theorem apply_reports_change (op : Operation) (value : Json) (parents : List String)
    (leaf : String) (root : Json) :
    (∀ root' c, apply op value (parents ++ [leaf]) root = .ok (root', c) →
      c.previous = (get? (parents ++ [leaf]) root).getD .null ∧
      (¬TakesWhole op value (get? (parents ++ [leaf]) root) →
        Makes value op (get? (parents ++ [leaf]) root) c.current ∧
          get? (parents ++ [leaf]) root' = some c.current) ∧
      (TakesWhole op value (get? (parents ++ [leaf]) root) → c.current = .null ∧
        ((∃ members, get? parents root = some (.obj members) ∧
            get? (parents ++ [leaf]) root' = none) ∨
          ∃ items i, get? parents root = some (.arr items) ∧ index? leaf = some i ∧
            i < items.length ∧ get? parents root' = some (.arr (items.eraseIdx i))))) ∧
    ((∃ root' c, apply .set value (parents ++ [leaf]) root = .ok (root', c)) ↔
      (∃ members, get? parents root = some (.obj members)) ∨
        ∃ items i, get? parents root = some (.arr items) ∧ index? leaf = some i ∧
          i < items.length) ∧
    ∀ fault, apply op value (parents ++ [leaf]) root = .error fault →
      edit op value (parents ++ [leaf]) root = (root, .error fault) ∧
      ∀ (b : Batch) (name : String), b.view? name = some root → ∀ i es,
        b.stage i (⟨⟨name, parents ++ [leaf]⟩, op, value⟩ :: es) =
          (b, .error (.rejected i op (Path.text ⟨name, parents ++ [leaf]⟩) fault)) :=
  ⟨fun _ _ => change_of_apply, apply_set_iff,
    fun _ h => ⟨edit_of_error h, fun _ _ hb i es => stage_of_error h hb i es⟩⟩

def hero : Json := .obj [("bag", .arr [.str "rope", .str "lamp"]), ("hp", .int 7)]

theorem apply_reports_change_hero :
    (∃ root' c, apply .add (.int 2) ["hp"] hero = .ok (root', c) ∧ c.previous = .int 7 ∧
      Makes (.int 2) .add (some (.int 7)) c.current ∧ get? ["hp"] root' = some c.current) ∧
    (∃ root' c, apply .remove .null ["bag", "0"] hero = .ok (root', c) ∧
      c.previous = .str "rope" ∧ c.current = .null ∧
      get? ["bag"] root' = some (.arr [.str "lamp"])) ∧
    (∃ root' c, apply .set .null ["bag", "1"] hero = .ok (root', c)) ∧
    ∃ fault, apply .append (.str "oil") ["hp"] hero = .error fault ∧
      edit .append (.str "oil") ["hp"] hero = (hero, .error fault) := by
  refine ⟨?_, ?_, ?_, ?_⟩
  · obtain ⟨root', c, h⟩ : ∃ root' c, apply .add (.int 2) ["hp"] hero = .ok (root', c) :=
      ⟨_, _, rfl⟩
    obtain ⟨hprevious, hmakes, -⟩ :=
      (apply_reports_change .add (.int 2) [] "hp" hero).1 root' c h
    obtain ⟨hnew, hget⟩ := hmakes fun ht => by cases ht.1
    exact ⟨root', c, h, hprevious, hnew, hget⟩
  · obtain ⟨root', c, h⟩ : ∃ root' c, apply .remove .null ["bag", "0"] hero = .ok (root', c) :=
      ⟨_, _, rfl⟩
    obtain ⟨hprevious, -, htakes⟩ :=
      (apply_reports_change .remove .null ["bag"] "0" hero).1 root' c h
    obtain ⟨hcurrent, ⟨_, hmembers, -⟩ | ⟨items, i, hitems, hi, -, herase⟩⟩ :=
      htakes ⟨rfl, .inr rfl⟩
    · cases hmembers
    · cases hitems
      cases hi
      exact ⟨root', c, h, hprevious, hcurrent, herase⟩
  · exact (apply_reports_change .set .null ["bag"] "1" hero).2.1.2
      (.inr ⟨[.str "rope", .str "lamp"], 1, rfl, rfl, by decide⟩)
  · obtain ⟨fault, h⟩ : ∃ fault, apply .append (.str "oil") ["hp"] hero = .error fault := ⟨_, rfl⟩
    exact ⟨fault, h, ((apply_reports_change .append (.str "oil") [] "hp" hero).2.2 fault h).1⟩

end Rulebook.State
