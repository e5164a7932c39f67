import Rulebook.Proofs.Fields
import Rulebook.Script.Exchange

namespace Rulebook.Script

theorem Value.isNil_iff {v : Value} : v.isNil = true ↔ v = .nil := by
  cases v <;> simp [isNil]

theorem Value.isNil_eq_false_iff {v : Value} : v.isNil = false ↔ v ≠ .nil := by
  cases v <;> simp [isNil]

theorem bytes_inj {s t : String} : bytes s = bytes t ↔ s = t := String.toByteArray_inj

theorem Value.same_bytes {s t : ByteArray} : (Value.str s).same (.str t) = true ↔ s = t := by
  show ByteArray.beq s t = true ↔ s = t
  rw [ByteArray.beq, beq_iff_eq, ByteArray.ext_iff]

namespace Table

/-- All members are found by texts, and each text leads to its node. -/
structure Textual (t : Table) : Prop where
  items : t.items = #[]
  hint : t.hint = 0
  isList : t.isList = false
  keys (k : Key) (v : Value) : (k, v) ∈ t.nodes.toList → ∃ s, k = .str s
  places (k : Key) (i : Nat) : t.places[k]? = some i ↔ ∃ v, t.nodes[i]? = some (k, v)

variable {t : Table} {k : Key} {s : ByteArray} {v w : Value} {name : String} {n : Nat}

theorem textual_withRoom (n : Nat) : (withRoom 0 n).Textual := by
  refine ⟨rfl, rfl, rfl, by simp [withRoom], fun k i => ?_⟩
  simp [withRoom]

theorem Textual.getKey_eq (h : t.Textual) (k : Key) : t.getKey k = t.node k := by
  unfold getKey
  split
  · next m =>
    have hnone : t.item? m = none := by
      unfold item?
      rw [if_neg]
      rintro ⟨hm, hle⟩
      rw [Int64.le_iff_toInt_le] at hm
      have hone : (1 : Int64).toInt = 1 := rfl
      have hsize : t.items.size = 0 := by rw [h.items]; rfl
      omega
    rw [hnone]
  · rfl

theorem Textual.node_iff (h : t.Textual) (hv : v.isNil = false) :
    t.node k = v ↔ (k, v) ∈ t.nodes.toList := by
  have hne : Value.nil ≠ v := by
    rintro rfl
    cases hv
  unfold node
  constructor
  · intro hn
    split at hn
    · next i hi =>
      obtain ⟨w, hw⟩ := (h.places k i).1 hi
      rw [hw] at hn
      obtain rfl : w = v := hn
      exact List.mem_of_getElem? (by rwa [Array.getElem?_toList])
    · exact absurd hn hne
  · intro hm
    obtain ⟨i, hi⟩ := List.getElem?_of_mem hm
    rw [Array.getElem?_toList] at hi
    rw [(h.places k i).2 ⟨v, hi⟩]
    simp only [hi]
    rfl

theorem node_eq_nil (hn : t.places[k]? = none) : t.node k = .nil := by
  unfold node
  rw [hn]

theorem Textual.nodup (h : t.Textual) : (t.nodes.toList.map Prod.fst).Nodup := by
  rw [List.nodup_iff_getElem?_ne_getElem?]
  intro i j hij hj he
  rw [List.length_map] at hj
  have hlt := Nat.lt_trans hij hj
  simp only [List.getElem?_map, Array.getElem?_toList] at he
  simp only [Array.length_toList] at hlt hj
  rw [Array.getElem?_eq_getElem hlt, Array.getElem?_eq_getElem hj] at he
  simp only [Option.map_some, Option.some.injEq] at he
  have hi : t.places[t.nodes[i].1]? = some i :=
    (h.places _ _).2 ⟨t.nodes[i].2, Array.getElem?_eq_getElem hlt⟩
  have hj' : t.places[t.nodes[i].1]? = some j :=
    (h.places _ _).2 ⟨t.nodes[j].2, by rw [he, Array.getElem?_eq_getElem hj]⟩
  rw [hi] at hj'
  exact absurd (Option.some.inj hj') (Nat.ne_of_lt hij)

theorem place_known {i : Nat} (h : t.places[Key.str s]? = some i) :
    t.place (.str s) v = { t with nodes := t.nodes.setIfInBounds i (.str s, v) } := by
  simp only [place, h]

theorem place_new (h : t.places[Key.str s]? = none) :
    t.place (.str s) v =
      { t with nodes := t.nodes.push (.str s, v),
               places := t.places.insert (.str s) t.nodes.size } := by
  simp only [place, h]

theorem room_place (t : Table) (s : ByteArray) (v : Value) :
    (t.place (.str s) v).room = t.room := by
  cases h : t.places[Key.str s]? with
  | none => rw [place_new h]
  | some i => rw [place_known h]

theorem textual_known {i : Nat} (h : t.Textual) (hs : t.places[Key.str s]? = some i) (v : Value) :
    (t.place (.str s) v).Textual := by
  obtain ⟨w, hw⟩ := (h.places _ _).1 hs
  rw [place_known hs]
  refine ⟨h.items, h.hint, h.isList, ?_, fun k j => ?_⟩
  · intro k v' hm
    rw [Array.toList_setIfInBounds] at hm
    rcases List.mem_or_eq_of_mem_set hm with hm | he
    · exact h.keys k v' hm
    · cases he
      exact ⟨s, rfl⟩
  · rw [h.places, Array.getElem?_setIfInBounds]
    split
    · next hij =>
      subst hij
      rw [if_pos (Array.getElem?_eq_some_iff.1 hw).1, hw]
      simp only [Option.some.injEq, Prod.mk.injEq]
      constructor
      · rintro ⟨v', rfl, -⟩
        exact ⟨v, rfl, rfl⟩
      · rintro ⟨v', rfl, -⟩
        exact ⟨w, rfl, rfl⟩
    · rfl

theorem textual_new (h : t.Textual) (hs : t.places[Key.str s]? = none) (v : Value) :
    (t.place (.str s) v).Textual := by
  rw [place_new hs]
  refine ⟨h.items, h.hint, h.isList, ?_, fun k j => ?_⟩
  · intro k v' hm
    rw [Array.toList_push, List.mem_append, List.mem_singleton] at hm
    rcases hm with hm | he
    · exact h.keys k v' hm
    · cases he
      exact ⟨s, rfl⟩
  · rw [Std.HashMap.getElem?_insert, Array.getElem?_push]
    by_cases hk : k = .str s
    · subst hk
      rw [if_pos (beq_self_eq_true _)]
      constructor
      · intro hj
        cases hj
        exact ⟨v, if_pos rfl⟩
      · rintro ⟨v', hv'⟩
        split at hv'
        · next hj => rw [hj]
        · rw [(h.places _ _).2 ⟨v', hv'⟩] at hs
          cases hs
    · rw [if_neg (by simpa using Ne.symm hk), h.places]
      refine exists_congr fun v' => ?_
      split
      · next hj =>
        subst hj
        simp [Ne.symm hk]
      · rfl

theorem textual_place (h : t.Textual) (s : ByteArray) (v : Value) :
    (t.place (.str s) v).Textual := by
  cases hs : t.places[Key.str s]? with
  | some i => exact textual_known h hs v
  | none => exact textual_new h hs v

theorem node_known {i : Nat} (h : t.Textual) (hs : t.places[Key.str s]? = some i) (v : Value)
    (k : Key) : (t.place (.str s) v).node k = if k = .str s then v else t.node k := by
  obtain ⟨w, hw⟩ := (h.places _ _).1 hs
  have hi := (Array.getElem?_eq_some_iff.1 hw).1
  rw [place_known hs]
  unfold node
  simp only
  split
  · next j hj =>
    obtain ⟨w', hw'⟩ := (h.places _ _).1 hj
    rw [Array.getElem?_setIfInBounds]
    by_cases hij : i = j
    · subst hij
      rw [hw] at hw'
      cases hw'
      simp [hi]
    · have hk : k ≠ .str s := by
        rintro rfl
        rw [hs] at hj
        exact hij (Option.some.inj hj)
      rw [if_neg hij, if_neg hk]
  · next hj =>
    rw [if_neg]
    rintro rfl
    rw [hs] at hj
    cases hj

theorem node_new (h : t.Textual) (hs : t.places[Key.str s]? = none) (v : Value) (k : Key) :
    (t.place (.str s) v).node k = if k = .str s then v else t.node k := by
  rw [place_new hs]
  unfold node
  simp only [Std.HashMap.getElem?_insert]
  by_cases hk : k = .str s
  · subst hk
    simp
  · rw [if_neg hk, if_neg (by simpa using Ne.symm hk)]
    split
    · next j hj =>
      obtain ⟨w', hw'⟩ := (h.places _ _).1 hj
      have hlt := (Array.getElem?_eq_some_iff.1 hw').1
      rw [Array.getElem?_push, if_neg (Nat.ne_of_lt hlt)]
    · rfl

theorem node_place (h : t.Textual) (s : ByteArray) (v : Value) (k : Key) :
    (t.place (.str s) v).node k = if k = .str s then v else t.node k := by
  cases hs : t.places[Key.str s]? with
  | some i => exact node_known h hs v k
  | none => exact node_new h hs v k

theorem nodes_place_new (h : t.places[Key.str s]? = none) :
    (t.place (.str s) v).nodes.toList = t.nodes.toList ++ [(.str s, v)] := by
  rw [place_new h, Array.toList_push]

theorem size_place (t : Table) (s : ByteArray) (v : Value) :
    (t.place (.str s) v).nodes.size ≤ t.nodes.size + 1 := by
  cases h : t.places[Key.str s]? with
  | none => simp [place_new h]
  | some i => simp [place_known h]

theorem foldl_place {ms : List (Key × Value)} (hkeys : ∀ m ∈ ms, ∃ s, m.1 = .str s)
    (hnodup : (ms.map Prod.fst).Nodup) (h : t.Textual)
    (hfresh : ∀ m ∈ ms, t.places[m.1]? = none) :
    ∃ u, ms.foldl (fun t m => if m.2.isNil then t else t.place m.1 m.2) t = u ∧ u.Textual ∧
      u.nodes.toList = t.nodes.toList ++ ms.filter (!·.2.isNil) ∧ u.room = t.room := by
  induction ms generalizing t with
  | nil => exact ⟨t, rfl, h, by simp, rfl⟩
  | cons m ms ih =>
    obtain ⟨k, v⟩ := m
    obtain ⟨s, rfl⟩ : ∃ s, k = .str s := hkeys _ List.mem_cons_self
    have hs : t.places[Key.str s]? = none := hfresh _ List.mem_cons_self
    simp only [List.map_cons, List.nodup_cons] at hnodup
    have hkeys' : ∀ m ∈ ms, ∃ s, m.1 = .str s := fun m hm => hkeys m (List.mem_cons_of_mem _ hm)
    have hfresh' : ∀ m ∈ ms, t.places[m.1]? = none :=
      fun m hm => hfresh m (List.mem_cons_of_mem _ hm)
    rw [List.foldl_cons]
    by_cases hv : v.isNil = true
    · rw [if_pos hv]
      obtain ⟨u, hu, htext, hnodes, hroom⟩ := ih hkeys' hnodup.2 h hfresh'
      exact ⟨u, hu, htext, by simp [hnodes, hv], hroom⟩
    · rw [if_neg hv]
      obtain ⟨u, hu, htext, hnodes, hroom⟩ :=
        ih (t := t.place (.str s) v) hkeys' hnodup.2 (textual_place h s v) fun m hm => by
          rw [place_new hs]
          have hne : m.1 ≠ .str s := fun he =>
            hnodup.1 (he ▸ List.mem_map_of_mem hm)
          simp [Std.HashMap.getElem?_insert, Ne.symm hne, hfresh' m hm]
      refine ⟨u, hu, htext, ?_, by rw [hroom, room_place]⟩
      rw [hnodes, nodes_place_new hs]
      simp [hv]

/-- A new layout drops what is absent and keeps all else in its order. -/
theorem textual_resize (h : t.Textual) (n : Nat) :
    (t.resize 0 n).Textual ∧
      (t.resize 0 n).nodes.toList = t.nodes.toList.filter (!·.2.isNil) ∧
      (t.resize 0 n).room = roomFor n := by
  have hresize : t.resize 0 n =
      t.nodes.toList.foldl (fun t m => if m.2.isNil then t else t.place m.1 m.2)
        (withRoom 0 n) := by
    rw [Array.foldl_toList]
    simp [resize, withRoom, h.items, h.isList]
  obtain ⟨u, hu, htext, hnodes, hroom⟩ := foldl_place
    (fun m hm => h.keys m.1 m.2 hm) h.nodup (textual_withRoom n) (fun m _ => by simp [withRoom])
  rw [hresize, hu]
  exact ⟨htext, by simpa [withRoom] using hnodes, hroom⟩

theorem node_resize (h : t.Textual) (n : Nat) (k : Key) :
    (t.resize 0 n).node k = t.node k := by
  obtain ⟨htext, hnodes, -⟩ := textual_resize h n
  by_cases hv : (t.node k).isNil = true
  · rw [Value.isNil_iff.1 hv]
    by_contra hne
    have hw : ((t.resize 0 n).node k).isNil = false := Value.isNil_eq_false_iff.2 hne
    have hmem := (htext.node_iff hw).1 rfl
    rw [hnodes] at hmem
    have := (h.node_iff hw).2 (List.mem_filter.1 hmem).1
    rw [← this, hv] at hw
    cases hw
  · rw [Bool.not_eq_true] at hv
    have hmem := (h.node_iff hv).1 rfl
    refine (htext.node_iff hv).2 ?_
    rw [hnodes, List.mem_filter]
    exact ⟨hmem, by simp [hv]⟩

theorem foldl_count {ms : List (Key × Value)} {slices : Array Nat} {ints total : Nat}
    {g : Array Nat × Nat × Nat → Key × Value → Array Nat × Nat × Nat} {r : Array Nat × Nat × Nat}
    (hr : ms.foldl g (slices, ints, total) = r) (hkeys : ∀ m ∈ ms, ∃ s, m.1 = .str s)
    (hg : ∀ x s v, g x (.str s, v) = if v.isNil then x else (x.1, x.2.1, x.2.2 + 1)) :
    ∃ total' ≤ total + ms.length, r = (slices, ints, total') := by
  induction ms generalizing total with
  | nil => exact ⟨total, Nat.le_refl _, hr.symm⟩
  | cons m ms ih =>
    obtain ⟨k, v⟩ := m
    obtain ⟨s, rfl⟩ : ∃ s, k = .str s := hkeys _ List.mem_cons_self
    have hkeys' : ∀ m ∈ ms, ∃ s, m.1 = .str s := fun m hm => hkeys m (List.mem_cons_of_mem _ hm)
    rw [List.foldl_cons, hg] at hr
    rw [List.length_cons]
    split at hr
    · obtain ⟨total', hle, rfl⟩ := ih hr hkeys'
      exact ⟨total', by omega, rfl⟩
    · have hr : ms.foldl g (slices, ints, total + 1) = r := hr
      obtain ⟨total', hle, rfl⟩ := ih hr hkeys'
      exact ⟨total', by omega, rfl⟩

theorem rehash_text (h : t.Textual) (s : ByteArray) :
    ∃ n ≤ t.nodes.size + 1, t.rehash (.str s) = t.resize 0 n := by
  have hitems : countItems t.items (Array.replicate 33 0) = (Array.replicate 33 0, 0) := by
    rw [h.items]
    rfl
  have hroom : itemRoom (Array.replicate 33 0) 0 = (0, 0) := by decide
  simp only [rehash, hitems]
  generalize hr : Array.foldl _ _ t.nodes = r
  rw [← Array.foldl_toList] at hr
  obtain ⟨total, hle, rfl⟩ := foldl_count hr (fun m hm => h.keys m.1 m.2 hm) fun _ _ _ => rfl
  rw [Array.length_toList, Nat.zero_add] at hle
  refine ⟨total + 1, Nat.add_le_add_right hle 1, ?_⟩
  simp only [show positive? (.str s) = none from rfl, hroom, Nat.sub_zero]

theorem roomFor_le (n : Nat) : roomFor n ≤ 2 * n := by
  unfold roomFor
  split
  · omega
  · split
    · next h => simp [h]
    · have := Nat.log2_self_le (n := n - 1) (by omega)
      rw [Nat.pow_eq, Nat.pow_succ]
      omega

theorem setText_nil (h : t.places[Key.str (bytes name)]? = none) : t.setText name .nil = t := by
  simp only [setText, setKey, Std.HashMap.contains_eq_isSome_getElem?, h]
  rfl

section SetText

variable (h : t.Textual) (name : String) (v : Value)
include h

/-- Setting a member of a table of texts is placing it, perhaps in a new layout. -/
theorem setText_cases :
    (t.setText name v = t ∧ v = .nil ∧ t.places[Key.str (bytes name)]? = none) ∨
      t.setText name v = t.place (.str (bytes name)) v ∨
      ∃ n ≤ t.nodes.size + 1, t.places[Key.str (bytes name)]? = none ∧
        t.setText name v = (t.resize 0 n).place (.str (bytes name)) v := by
  obtain ⟨n, hle, hn⟩ := rehash_text h (bytes name)
  simp only [setText, setKey, Std.HashMap.contains_eq_isSome_getElem?]
  by_cases hk : (t.places[Key.str (bytes name)]?).isSome = true
  · rw [if_pos hk]
    exact .inr (.inl rfl)
  · rw [if_neg hk]
    rw [Bool.not_eq_true, Option.isSome_eq_false_iff, Option.isNone_iff_eq_none] at hk
    by_cases hv : v.isNil = true
    · rw [if_pos hv]
      exact .inl ⟨rfl, Value.isNil_iff.1 hv, hk⟩
    · rw [if_neg hv]
      split
      · exact .inr (.inl rfl)
      · exact .inr (.inr ⟨n, hle, hk, by rw [hn]⟩)

theorem textual_setText : (t.setText name v).Textual := by
  rcases setText_cases h name v with ⟨he, -, -⟩ | he | ⟨n, -, -, he⟩
  · rwa [he]
  · rw [he]
    exact textual_place h _ v
  · rw [he]
    exact textual_place (textual_resize h n).1 _ v

/-- A member set anew is found; no other is changed. -/
theorem node_setText (k : Key) :
    (t.setText name v).node k = if k = .str (bytes name) then v else t.node k := by
  rcases setText_cases h name v with ⟨he, hv, hn⟩ | he | ⟨n, -, -, he⟩
  · rw [he]
    split
    · next hk => rw [hk, node_eq_nil hn, hv]
    · rfl
  · rw [he, node_place h]
  · rw [he, node_place (textual_resize h n).1, node_resize h]

theorem room_setText : (t.setText name v).room ≤ max t.room (2 * (t.nodes.size + 1)) := by
  rcases setText_cases h name v with ⟨he, -, -⟩ | he | ⟨n, hle, -, he⟩
  · rw [he]
    exact Nat.le_max_left _ _
  · rw [he, room_place]
    exact Nat.le_max_left _ _
  · rw [he, room_place, (textual_resize h n).2.2]
    have := roomFor_le n
    omega

theorem size_setText : (t.setText name v).nodes.size ≤ t.nodes.size + 1 := by
  rcases setText_cases h name v with ⟨he, -, -⟩ | he | ⟨n, -, -, he⟩
  · rw [he]
    exact Nat.le_succ _
  · rw [he]
    exact size_place t _ v
  · have hle : (t.resize 0 n).nodes.size ≤ t.nodes.size := by
      rw [← Array.length_toList, (textual_resize h n).2.1, ← Array.length_toList]
      exact List.length_filter_le _ _
    rw [he]
    exact (size_place _ _ v).trans (Nat.succ_le_succ hle)

/-- A table has room for little more than was ever set. -/
theorem textual_foldl_setText {α : Type} (name : α → String) (value : α → Value) (xs : List α) :
    let u := xs.foldl (fun t x => t.setText (name x) (value x)) t
    u.Textual ∧ u.nodes.size ≤ t.nodes.size + xs.length ∧
      u.room ≤ max t.room (2 * (t.nodes.size + xs.length)) := by
  induction xs generalizing t with
  | nil => exact ⟨h, Nat.le_refl _, Nat.le_max_left _ _⟩
  | cons x xs ih =>
    obtain ⟨htext, hsizes, hroom⟩ := ih (textual_setText h (name x) (value x))
    have hsize := size_setText h (name x) (value x)
    have hone := room_setText h (name x) (value x)
    refine ⟨htext, ?_, ?_⟩ <;> simp only [List.foldl_cons, List.length_cons] <;> omega

end SetText

/-- The members are the given ones, in their order, save for those that are `nil`. -/
structure Named (t : Table) (fields : Fields Value) : Prop extends t.Textual where
  nodes : t.nodes.toList = (fields.filter (!·.2.isNil)).map fun f => (.str (bytes f.1), f.2)
  distinct : (Fields.names fields).Nodup

variable {fields : Fields Value}

theorem named_withRoom (n : Nat) : (withRoom 0 n).Named [] where
  toTextual := textual_withRoom n
  nodes := rfl
  distinct := List.nodup_nil

theorem Named.mem_of_node (h : t.Named fields) (hm : (Key.str (bytes name), v) ∈ t.nodes.toList) :
    (name, v) ∈ fields ∧ v.isNil = false := by
  rw [h.nodes, List.mem_map] at hm
  obtain ⟨⟨n, w⟩, hf, he⟩ := hm
  rw [List.mem_filter] at hf
  simp only [Prod.mk.injEq, Key.str.injEq, bytes_inj] at he
  obtain ⟨rfl, rfl⟩ := he
  exact ⟨hf.1, by simpa using hf.2⟩

theorem Named.node_eq (h : t.Named fields) (name : String) :
    t.node (.str (bytes name)) = (Fields.get? fields name).getD .nil := by
  by_cases hv : (t.node (.str (bytes name))).isNil = true
  · rw [Value.isNil_iff.1 hv]
    cases hf : Fields.get? fields name with
    | none => rfl
    | some w =>
      have hm := (Fields.get?_eq_some_iff h.distinct).1 hf
      by_contra hw
      have hpresent : w.isNil = false := Value.isNil_eq_false_iff.2 fun he => hw he.symm
      rw [(h.node_iff (v := w) hpresent).2 (by
        rw [h.nodes, List.mem_map]
        exact ⟨(name, w), List.mem_filter.2 ⟨hm, by simpa using hpresent⟩, rfl⟩)] at hv
      rw [hv] at hpresent
      cases hpresent
  · rw [Bool.not_eq_true] at hv
    have hm := (h.mem_of_node ((h.node_iff hv).1 rfl)).1
    rw [(Fields.get?_eq_some_iff h.distinct).2 hm]
    rfl

theorem Named.places_eq_none (h : t.Named fields) (hname : name ∉ Fields.names fields) :
    t.places[Key.str (bytes name)]? = none := by
  rw [Option.eq_none_iff_forall_ne_some]
  intro i hi
  obtain ⟨v, hv⟩ := (h.places _ _).1 hi
  have hm := (h.mem_of_node (List.mem_of_getElem? (by rwa [Array.getElem?_toList]))).1
  exact hname (List.mem_map_of_mem hm)

theorem Named.filter_nodes (h : t.Named fields) :
    t.nodes.toList.filter (!·.2.isNil) = t.nodes.toList := by
  rw [List.filter_eq_self, h.nodes]
  intro m hm
  obtain ⟨f, hf, rfl⟩ := List.mem_map.1 hm
  exact (List.mem_filter.1 hf).2

theorem Named.setText (h : t.Named fields) (hname : name ∉ Fields.names fields) (v : Value) :
    (t.setText name v).Named (fields ++ [(name, v)]) := by
  have hn := h.places_eq_none hname
  refine ⟨textual_setText h.toTextual name v, ?_, ?_⟩
  · rw [List.filter_append, List.map_append, ← h.nodes]
    by_cases hv : v.isNil = true
    · obtain rfl := Value.isNil_iff.1 hv
      rw [setText_nil hn]
      simp [hv]
    rcases setText_cases h.toTextual name v with ⟨-, rfl, -⟩ | he | ⟨n, -, -, he⟩
    · exact absurd rfl hv
    · rw [he, nodes_place_new hn]
      simp [hv]
    · obtain ⟨htext, hnodes, -⟩ := textual_resize h.toTextual n
      rw [h.filter_nodes] at hnodes
      have hn' : (t.resize 0 n).places[Key.str (bytes name)]? = none := by
        rw [Option.eq_none_iff_forall_ne_some]
        intro i hi
        obtain ⟨w, hw⟩ := (htext.places _ _).1 hi
        rw [← Array.getElem?_toList, hnodes, Array.getElem?_toList] at hw
        rw [(h.places _ _).2 ⟨w, hw⟩] at hn
        cases hn
      rw [he, nodes_place_new hn', hnodes]
      simp [hv]
  · rw [Fields.names, List.map_append, List.nodup_append]
    refine ⟨h.distinct, List.nodup_singleton _, fun a ha b hb => ?_⟩
    rintro rfl
    rw [List.map_singleton, List.mem_singleton] at hb
    subst hb
    exact hname ha

theorem Textual.members_eq (h : t.Textual) :
    t.members = (t.nodes.toList.filter (!·.2.isNil)).map fun m => (m.1.value, m.2) := by
  simp [members, h.items]

theorem Named.members_eq (h : t.Named fields) :
    t.members = (fields.filter (!·.2.isNil)).map fun f => (.str (bytes f.1), f.2) := by
  rw [h.toTextual.members_eq, h.filter_nodes, h.nodes, List.map_map]
  rfl

theorem Textual.node_int (h : t.Textual) (n : Int64) : t.node (.int n) = .nil := by
  by_contra hne
  obtain ⟨s, hs⟩ := h.keys _ _ ((h.node_iff (Value.isNil_eq_false_iff.2 hne)).1 rfl)
  cases hs

/-- A table of texts is no list. -/
theorem Textual.border_eq (h : t.Textual) : t.border.1 = 0 := by
  have hnone : (t.getInt (Int64.ofNat (t.items.size + 1))).isNil = true := by
    rw [getInt, h.getKey_eq, h.node_int]
    rfl
  simp [border, h.hint, h.items] at hnone ⊢
  simp [hnone]

end Table

namespace Exchange

variable {vs : List Value}

theorem node_listOf (vs : List Value) (k : Key) : (listOf vs).node k = .nil := by
  simp [listOf, Table.withRoom, Table.node]

theorem getKey_listOf_int (vs : List Value) (n : Int64) :
    (listOf vs).getKey (.int n) =
      if 1 ≤ n.toInt then vs.getD (n.toInt.toNat - 1) .nil else .nil := by
  have hone : (1 : Int64).toInt = 1 := rfl
  have hsize : (listOf vs).items.size = vs.length := by simp [listOf]
  have hitem (i : Nat) : (listOf vs).items.getD i .nil = vs.getD i .nil := by simp [listOf]
  simp only [Table.getKey, Table.item?, node_listOf, hsize, Int64.le_iff_toInt_le, hone]
  by_cases h : 1 ≤ n.toInt
  · by_cases hle : n.toInt ≤ vs.length
    · simp only [h, hle, and_self, if_true, hitem]
    · simp only [h, hle, and_false, if_false, if_true]
      rw [List.getD_eq_default _ _ (by omega)]
  · simp only [h, false_and, if_false]

theorem getKey_listOf_str (vs : List Value) (s : ByteArray) :
    (listOf vs).getKey (.str s) = .nil := by
  rw [Table.getKey, node_listOf]
  nofun

theorem members_listOf (vs : List Value) :
    (listOf vs).members =
      ((vs.zipIdx 1).filter (!·.1.isNil)).map fun p => (Value.ofNat p.2, p.1) := by
  have hfold (vs : List Value) (ms : List (Value × Value)) (n : Nat) :
      (vs.foldl (fun (x : List (Value × Value) × Nat) v =>
        (if v.isNil then x.1 else (Value.ofNat x.2, v) :: x.1, x.2 + 1)) (ms, n)).1.reverse =
      ms.reverse ++ ((vs.zipIdx n).filter (!·.1.isNil)).map fun p => (Value.ofNat p.2, p.1) := by
    induction vs generalizing ms n with
    | nil => simp
    | cons v vs ih =>
      rw [List.foldl_cons, ih, List.zipIdx_cons]
      by_cases hv : v.isNil = true <;> simp [hv]
  have := hfold vs [] 1
  simpa [Table.members, listOf, Table.withRoom] using this

theorem sequence_listOf (hvs : ∀ v ∈ vs, v ≠ .nil) (hlen : vs.length < 2 ^ 63) :
    (listOf vs).sequence = vs := by
  have hgo (fuel i : Nat) (h : fuel + i = vs.length) :
      Table.sequence.go (listOf vs) fuel (i + 1) = vs.drop i := by
    induction fuel generalizing i with
    | zero =>
      rw [Table.sequence.go, List.drop_eq_nil_of_le (by omega)]
    | succ fuel ih =>
      have hi : i < vs.length := by omega
      have hget : (listOf vs).getInt (Int64.ofNat (i + 1)) = vs[i] := by
        rw [Table.getInt, getKey_listOf_int, Int64.toInt_ofNat_of_lt (by omega)]
        simp [hi]
      have hne := hvs _ (List.getElem_mem hi)
      rw [Table.sequence.go, hget, ih (i + 1) (by omega), List.drop_eq_getElem_cons hi]
      split
      · next he => exact absurd he hne
      · rfl
  simpa [Table.sequence, listOf, Table.withRoom] using hgo vs.length 0 (by omega)

end Exchange

end Rulebook.Script
