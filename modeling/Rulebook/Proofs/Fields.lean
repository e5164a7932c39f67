import Mathlib
import Rulebook.Fields

namespace Rulebook.Fields

variable {α : Type}

theorem get?_cons (name n : String) (v : α) (fs : Fields α) :
    get? ((n, v) :: fs) name = if name = n then some v else get? fs name := by
  by_cases h : name = n
  · subst h
    simp [get?, List.lookup]
  · have hb : (name == n) = false := by simpa using h
    simp [get?, List.lookup, h, hb]

theorem get?_insert_self (name : String) (value : α) (fs : Fields α) :
    get? (insert name value fs) name = some value := by
  induction fs with
  | nil => simp [insert, get?_cons]
  | cons f fs ih =>
    obtain ⟨n, v⟩ := f
    by_cases hlt : name < n
    · simp [insert, hlt, get?_cons]
    · by_cases he : name = n
      · simp [insert, he, get?_cons]
      · simp [insert, hlt, he, get?_cons, ih]

theorem get?_insert_of_ne {name other : String} (h : other ≠ name) (value : α) (fs : Fields α) :
    get? (insert name value fs) other = get? fs other := by
  induction fs with
  | nil => simp [insert, get?_cons, h]
  | cons f fs ih =>
    obtain ⟨n, v⟩ := f
    by_cases hlt : name < n
    · simp [insert, hlt, get?_cons, h]
    · by_cases he : name = n
      · subst he
        simp [insert, get?_cons, h]
      · simp [insert, hlt, he, get?_cons, ih]

theorem get?_insert (name other : String) (value : α) (fs : Fields α) :
    get? (insert name value fs) other = if other = name then some value else get? fs other := by
  by_cases h : other = name
  · subst h
    simp [get?_insert_self]
  · simp [h, get?_insert_of_ne h]

theorem has_iff {fs : Fields α} {name : String} :
    has fs name = true ↔ ∃ v, get? fs name = some v := by
  simp [has, Option.isSome_iff_exists]

theorem mem_names {fs : Fields α} {name : String} :
    name ∈ names fs ↔ ∃ v, get? fs name = some v := by
  induction fs with
  | nil => simp [names, get?]
  | cons f fs ih =>
    obtain ⟨n, v⟩ := f
    have hc : name ∈ names ((n, v) :: fs) ↔ name = n ∨ name ∈ names fs := by simp [names]
    rw [hc, ih, get?_cons]
    by_cases h : name = n <;> simp [h]

theorem get?_eq_none_iff {fs : Fields α} {name : String} :
    get? fs name = none ↔ name ∉ names fs := by
  rw [mem_names, Option.eq_none_iff_forall_not_mem]
  simp

theorem Sorted.tail {f : String × α} {fs : Fields α} (h : Sorted (f :: fs)) : Sorted fs :=
  (List.pairwise_cons.1 h).2

theorem Sorted.lt_of_mem {f : String × α} {fs : Fields α} (h : Sorted (f :: fs)) {name : String}
    (hm : name ∈ names fs) : f.1 < name := by
  obtain ⟨g, hg, rfl⟩ := List.mem_map.1 hm
  exact (List.pairwise_cons.1 h).1 g hg

theorem mem_names_insert {name other : String} {value : α} {fs : Fields α} :
    other ∈ names (insert name value fs) ↔ other = name ∨ other ∈ names fs := by
  simp only [mem_names, get?_insert]
  by_cases h : other = name <;> simp [h]

theorem mem_of_mem_insert {name : String} {value : α} {fs : Fields α} {f : String × α}
    (h : f ∈ insert name value fs) : f = (name, value) ∨ f ∈ fs := by
  induction fs with
  | nil => exact .inl (List.mem_singleton.1 h)
  | cons g fs ih =>
    obtain ⟨n, v⟩ := g
    by_cases hlt : name < n
    · rw [insert, if_pos hlt] at h
      exact List.mem_cons.1 h
    · by_cases he : name = n
      · rw [insert, if_neg hlt, if_pos he] at h
        exact (List.mem_cons.1 h).imp_right (List.mem_cons_of_mem _)
      · rw [insert, if_neg hlt, if_neg he] at h
        rcases List.mem_cons.1 h with rfl | h
        · exact .inr (.head _)
        · exact (ih h).imp_right (List.mem_cons_of_mem _)

theorem mem_of_mem_ofList {fs : List (String × α)} {f : String × α} (h : f ∈ ofList fs) :
    f ∈ fs := by
  induction fs using List.reverseRecOn with
  | nil => cases h
  | append_singleton fs g ih =>
    rw [ofList, List.foldl_append] at h
    rcases mem_of_mem_insert h with rfl | h
    · simp
    · exact List.mem_append_left _ (ih h)

theorem mem_of_get? {name : String} {v : α} {fs : Fields α} (h : get? fs name = some v) :
    (name, v) ∈ fs := by
  induction fs with
  | nil => cases h
  | cons f fs ih =>
    rw [get?_cons] at h
    split at h
    · next he =>
      cases h
      exact he ▸ .head _
    · exact .tail _ (ih h)

theorem sorted_insert {fs : Fields α} (h : Sorted fs) (name : String) (value : α) :
    Sorted (insert name value fs) := by
  induction fs with
  | nil => simp [insert, Sorted]
  | cons f fs ih =>
    obtain ⟨n, v⟩ := f
    by_cases hlt : name < n
    · rw [insert, if_pos hlt]
      refine List.pairwise_cons.2 ⟨fun g hg => ?_, h⟩
      rcases List.mem_cons.1 hg with rfl | hg
      · exact hlt
      · exact String.lt_trans hlt ((List.pairwise_cons.1 h).1 g hg)
    · by_cases he : name = n
      · subst he
        rw [insert, if_neg hlt, if_pos rfl]
        exact List.pairwise_cons.2 ⟨(List.pairwise_cons.1 h).1, h.tail⟩
      · rw [insert, if_neg hlt, if_neg he]
        refine List.pairwise_cons.2 ⟨fun g hg => ?_, ih h.tail⟩
        have hn : n < name :=
          String.not_le.1 fun hle => he (String.le_antisymm hle (String.not_lt.1 hlt))
        have hm : g.1 ∈ names (insert name value fs) := List.mem_map_of_mem hg
        rcases mem_names_insert.1 hm with hg' | hg'
        · exact hg' ▸ hn
        · exact h.lt_of_mem hg'

theorem sorted_foldl_insert {β : Type} (xs : List β) (key : β → String) (value : β → α)
    {fs : Fields α} (h : Sorted fs) :
    Sorted (xs.foldl (fun m x => insert (key x) (value x) m) fs) := by
  induction xs generalizing fs with
  | nil => exact h
  | cons x xs ih => exact ih (sorted_insert h _ _)

theorem sorted_ofList (fs : List (String × α)) : Sorted (ofList fs) :=
  sorted_foldl_insert fs Prod.fst Prod.snd List.Pairwise.nil

theorem perm_insert {name : String} {fs : Fields α} (h : name ∉ names fs) (value : α) :
    (insert name value fs).Perm ((name, value) :: fs) := by
  induction fs with
  | nil => exact .refl _
  | cons f fs ih =>
    obtain ⟨n, v⟩ := f
    simp only [names, List.map_cons, List.mem_cons, not_or] at h
    by_cases hlt : name < n
    · rw [insert, if_pos hlt]
    · rw [insert, if_neg hlt, if_neg h.1]
      exact ((ih h.2).cons _).trans (.swap _ _ _)

theorem ofList_perm {fs : List (String × α)} (h : (names fs).Nodup) : (ofList fs).Perm fs := by
  induction fs using List.reverseRecOn with
  | nil => exact .refl _
  | append_singleton fs f ih =>
    rw [names, List.map_append, List.nodup_append] at h
    have hnew : f.1 ∉ names (ofList fs) := by
      rw [names, ((ih h.1).map Prod.fst).mem_iff]
      exact fun hm => h.2.2 f.1 hm f.1 (List.mem_singleton_self _) rfl
    rw [ofList, List.foldl_append]
    exact (perm_insert hnew f.2).trans
      (((ih h.1).cons f).trans (List.perm_append_singleton f fs).symm)

/-- Entries under the same distinct names are told apart in the map. -/
theorem ofList_inj {fs gs : List (String × α)} (hnames : names fs = names gs)
    (hn : (names gs).Nodup) (h : ofList fs = ofList gs) : fs = gs := by
  have hperm : fs.Perm gs :=
    (ofList_perm (hnames ▸ hn)).symm.trans ((List.Perm.of_eq h).trans (ofList_perm hn))
  refine List.ext_getElem hperm.length_eq fun i hf hg => ?_
  have hkey : fs[i].1 = gs[i].1 := by
    have hi := List.getElem_of_eq hnames (List.length_map (f := Prod.fst) ▸ hf)
    simpa [names] using hi
  exact List.inj_on_of_nodup_map hn (hperm.mem_iff.1 (List.getElem_mem hf))
    (List.getElem_mem hg) hkey

theorem Sorted.nodup_names {fs : Fields α} (h : Sorted fs) : (names fs).Nodup := by
  rw [names, List.Nodup, List.pairwise_map]
  refine h.imp fun {f g} hlt he => ?_
  rw [he] at hlt
  exact String.lt_irrefl g.1 hlt

theorem Sorted.ofList_eq {fs : Fields α} (h : Sorted fs) : ofList fs = fs :=
  (ofList_perm h.nodup_names).eq_of_pairwise
    (fun _ _ _ _ hab hba => (String.lt_asymm hab hba).elim) (sorted_ofList fs) h

/-- Ordered maps are determined by what is found in them. -/
theorem Sorted.ext {fs gs : Fields α} (hf : Sorted fs) (hg : Sorted gs)
    (h : ∀ name, get? fs name = get? gs name) : fs = gs := by
  induction fs generalizing gs with
  | nil =>
    cases gs with
    | nil => rfl
    | cons g gs =>
      have hn := h g.1
      rw [get?_cons, if_pos rfl] at hn
      cases hn
  | cons f fs ih =>
    obtain ⟨n, v⟩ := f
    cases gs with
    | nil =>
      have hn := h n
      rw [get?_cons, if_pos rfl] at hn
      cases hn
    | cons g gs =>
      obtain ⟨m, w⟩ := g
      have hle : ∀ {a b : String} {x y : α} {as bs : Fields α}, Sorted ((b, y) :: bs) →
          (∀ name, get? ((a, x) :: as) name = get? ((b, y) :: bs) name) → b ≤ a := by
        intro a b x y as bs hs he
        have ha : a ∈ names ((b, y) :: bs) := mem_names.2 ⟨x, by rw [← he, get?_cons, if_pos rfl]⟩
        rcases List.mem_cons.1 ha with rfl | ha
        · exact String.le_refl _
        · exact String.not_lt.1 (String.lt_asymm (hs.lt_of_mem ha))
      have hnm : n = m := String.le_antisymm (hle hf fun name => (h name).symm) (hle hg h)
      subst hnm
      have hv := h n
      simp only [get?_cons, if_true, Option.some.injEq] at hv
      subst hv
      rw [ih hf.tail hg.tail]
      intro name
      by_cases hn : name = n
      · subst hn
        have hf' := mt hf.lt_of_mem (String.lt_irrefl name)
        have hg' := mt hg.lt_of_mem (String.lt_irrefl name)
        rw [get?_eq_none_iff.2 hf', get?_eq_none_iff.2 hg']
      · simpa [get?_cons, hn] using h name

theorem get?_set (name other : String) (value : α) (fs : Fields α) :
    get? (set name value fs) other =
      if other = name then (get? fs name).map fun _ => value else get? fs other := by
  induction fs with
  | nil => simp [set, get?]
  | cons f fs ih =>
    obtain ⟨n, v⟩ := f
    by_cases hn : name = n
    · subst hn
      rw [set, if_pos rfl, get?_cons, get?_cons, get?_cons]
      by_cases ho : other = name <;> simp [ho]
    · rw [set, if_neg hn, get?_cons, get?_cons, get?_cons, ih, if_neg hn]
      by_cases ho : other = n
      · simp [ho, Ne.symm hn]
      · simp [ho]

theorem get?_put (name other : String) (value : α) (fs : Fields α) :
    get? (put name value fs) other = if other = name then some value else get? fs other := by
  unfold put
  split
  · next h =>
    obtain ⟨v, hv⟩ := has_iff.1 h
    rw [get?_set, hv, Option.map_some]
  · exact get?_insert name other value fs

theorem put_self {name : String} {value : α} {fs : Fields α} (h : get? fs name = some value) :
    put name value fs = fs := by
  rw [put, if_pos (has_iff.2 ⟨value, h⟩)]
  induction fs with
  | nil => rfl
  | cons f fs ih =>
    obtain ⟨n, v⟩ := f
    rw [get?_cons] at h
    by_cases hn : name = n
    · rw [if_pos hn] at h
      cases h
      rw [set, if_pos hn]
    · rw [if_neg hn] at h
      rw [set, if_neg hn, ih h]

theorem erase_eq_self {name : String} {fs : Fields α} (h : get? fs name = none) :
    erase fs name = fs := by
  refine List.filter_eq_self.2 fun f hf => ?_
  have hname : f.1 ∈ names fs := List.mem_map_of_mem hf
  have hne : f.1 ≠ name := fun he => get?_eq_none_iff.1 h (he ▸ hname)
  simpa using hne

theorem sorted_iff_names {fs : Fields α} : Sorted fs ↔ (names fs).Pairwise (· < ·) :=
  List.pairwise_map.symm

theorem sorted_set {name : String} {value : α} {fs : Fields α} (h : Sorted fs) :
    Sorted (set name value fs) := by
  rw [sorted_iff_names, names_set, ← sorted_iff_names]
  exact h

theorem readInto_cons (look : String → Option α) (n : String) (ns : List String) (fs : Fields α) :
    readInto fs look (n :: ns) =
      readInto (match look n with | some v => insert n v fs | none => fs) look ns := rfl

theorem get?_readInto (look : String → Option α) (ns : List String) (fs : Fields α)
    (name : String) :
    get? (readInto fs look ns) name =
      if name ∈ ns then (look name).or (get? fs name) else get? fs name := by
  induction ns generalizing fs with
  | nil => simp [readInto]
  | cons n ns ih =>
    rw [readInto_cons, ih]
    cases hv : look n with
    | none =>
      by_cases hn : name = n
      · subst hn
        simp [hv]
      · simp [hn]
    | some v =>
      simp only [get?_insert, List.mem_cons]
      by_cases hn : name = n
      · subst hn
        simp [hv]
      · simp [hn]

theorem sorted_readInto {look : String → Option α} {ns : List String} {fs : Fields α}
    (h : Sorted fs) : Sorted (readInto fs look ns) := by
  induction ns generalizing fs with
  | nil => exact h
  | cons n ns ih =>
    rw [readInto_cons]
    cases look n with
    | none => exact ih h
    | some v => exact ih (sorted_insert h n v)

theorem filter_name {fs : List (String × α)} (hn : (names fs).Nodup) (name : String) :
    fs.filter (·.1 == name) = ((get? fs name).map fun v => (name, v)).toList := by
  induction fs with
  | nil => rfl
  | cons f fs ih =>
    obtain ⟨n, v⟩ := f
    rw [names, List.map_cons, List.nodup_cons] at hn
    rw [List.filter_cons, get?_cons, ih hn.2]
    by_cases h : name = n
    · subst h
      rw [get?_eq_none_iff.2 hn.1]
      simp
    · have hb : (n == name) = false := by simpa using Ne.symm h
      simp [h, hb]

theorem get?_eq_some_iff {fs : List (String × α)} (hn : (names fs).Nodup) {name : String} {v : α} :
    get? fs name = some v ↔ (name, v) ∈ fs := by
  refine ⟨mem_of_get?, fun h => ?_⟩
  obtain ⟨w, hw⟩ := mem_names.1 (List.mem_map_of_mem h : name ∈ names fs)
  obtain ⟨-, rfl⟩ := Prod.mk.inj (List.inj_on_of_nodup_map hn h (mem_of_get? hw) rfl)
  exact hw

theorem get?_ofList {fs : List (String × α)} (hn : (names fs).Nodup) (name : String) :
    get? (ofList fs) name = get? fs name := by
  ext v
  rw [get?_eq_some_iff (sorted_ofList fs).nodup_names, get?_eq_some_iff hn,
    (ofList_perm hn).mem_iff]

theorem get?_map {β : Type} (f : α → β) (fs : List (String × α)) (name : String) :
    get? (fs.map fun e => (e.1, f e.2)) name = (get? fs name).map f := by
  induction fs with
  | nil => rfl
  | cons e fs ih =>
    rw [List.map_cons, get?_cons, get?_cons, ih]
    split <;> rfl

end Rulebook.Fields

namespace Rulebook

theorem mem_sortedNames {name : String} {names : List String} :
    name ∈ sortedNames names ↔ name ∈ names := by
  have hfold : ∀ (ns : List String) (fs : Fields Unit),
      name ∈ Fields.names (ns.foldl (fun m n => Fields.insert n () m) fs) ↔
        name ∈ ns ∨ name ∈ Fields.names fs := by
    intro ns
    induction ns with
    | nil => simp
    | cons n ns ih =>
      intro fs
      rw [List.foldl_cons, ih, Fields.mem_names_insert, List.mem_cons, or_left_comm, or_assoc]
  rw [sortedNames, Fields.ofList, List.foldl_map]
  simpa [Fields.names] using hfold names []

theorem sortedNames_pairwise (names : List String) : (sortedNames names).Pairwise (· < ·) := by
  rw [sortedNames, Fields.names, List.pairwise_map]
  exact Fields.sorted_ofList _

end Rulebook
