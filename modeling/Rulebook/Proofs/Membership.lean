import Rulebook.Proofs.Copies

namespace Rulebook.Script

open Library (contains sameMember isTable)

/-- What membership in a list gets wrong: `null` is not found in it, and the position of an element
that is a table is taken for the element. -/
inductive Misplaced (vs : List Value) (needle : Value) : Prop
  | absent (h : needle = .nil) (hm : .nil ∈ vs)
  | position {i r : Nat} (h : ∀ w ∈ vs, sameMember w needle = false)
    (hi : vs[i]? = some (.table r)) (hs : sameMember (.ofNat (i + 1)) needle = true)

section Values

variable {v w needle : Value}

theorem sameMember_nil : sameMember .nil v = true ↔ v = .nil := by
  cases v <;> simp [sameMember, Value.same]

theorem sameMember_nil_right : sameMember v .nil = true ↔ v = .nil := by
  cases v <;> simp [sameMember, Value.same]

theorem sameMember_str {s : ByteArray} : sameMember (.str s) v = true ↔ v = .str s := by
  cases v with
  | str t => rw [sameMember, Value.same_bytes, Value.str.injEq, eq_comm] <;> nofun
  | _ => simp [sameMember, Value.same]

theorem isTable_iff : isTable v = true ↔ ∃ r, v = .table r := by
  cases v <;> simp [isTable]

end Values

variable {h : Heap} {r : Nat} {needle : Value} {vs : List Value} {fields : Fields Value}

theorem rule_contains (h : Heap) (haystack needle : Value) :
    Library.rule .contains ⟨"contains", #[haystack, needle]⟩ h =
      .ok [.bool (contains h haystack needle)] := rfl

/-- In a list an element is found by its value, and by its position if it is a table. -/
theorem contains_listOf (ht : h.table r = Exchange.listOf vs) :
    contains h (.table r) needle = true ↔
      (∃ w ∈ vs, w ≠ .nil ∧ sameMember w needle = true) ∨
        ∃ i r', vs[i]? = some (.table r') ∧ sameMember (.ofNat (i + 1)) needle = true := by
  simp only [contains, ht]
  rw [Exchange.members_listOf, List.any_eq_true]
  constructor
  · rintro ⟨m, hm, hp⟩
    obtain ⟨⟨w, i⟩, hf, rfl⟩ := List.mem_map.1 hm
    obtain ⟨hi, hw⟩ := List.mem_filter.1 hf
    obtain ⟨hle, hi⟩ := List.mk_mem_zipIdx_iff_le_and_getElem?_sub.1 hi
    simp only [Bool.or_eq_true, Bool.and_eq_true] at hp
    rcases hp with hp | ⟨htable, hp⟩
    · have hne : w ≠ .nil := by
        rintro rfl
        cases hw
      exact .inl ⟨w, List.mem_of_getElem? hi, hne, hp⟩
    · obtain ⟨r', rfl⟩ := isTable_iff.1 htable
      exact .inr ⟨i - 1, r', hi, by rwa [Nat.sub_add_cancel hle]⟩
  · have hmember {w : Value} {i : Nat} (hi : vs[i]? = some w) (hw : w ≠ .nil) :
        (Value.ofNat (i + 1), w) ∈
          ((vs.zipIdx 1).filter (!·.1.isNil)).map fun p => (Value.ofNat p.2, p.1) := by
      refine List.mem_map.2 ⟨(w, i + 1), List.mem_filter.2 ⟨?_, ?_⟩, rfl⟩
      · exact List.mk_mem_zipIdx_iff_le_and_getElem?_sub.2 ⟨by omega, hi⟩
      · simpa using Value.isNil_eq_false_iff.2 hw
    rintro (⟨w, hw, hne, hs⟩ | ⟨i, r', hi, hs⟩)
    · obtain ⟨i, hi⟩ := List.getElem?_of_mem hw
      exact ⟨_, hmember hi hne, by simp [hs]⟩
    · exact ⟨_, hmember hi nofun, by simp [hs, isTable]⟩

/-- In an object a member is found by its value, and by its name if it is a table. -/
theorem contains_named (ht : (h.table r).Named fields) :
    contains h (.table r) needle = true ↔
      (∃ f ∈ fields, f.2 ≠ .nil ∧ sameMember f.2 needle = true) ∨
        ∃ f ∈ fields, isTable f.2 = true ∧ needle = .text f.1 := by
  simp only [contains]
  rw [ht.members_eq, List.any_eq_true]
  have hfilter {f : String × Value} : f ∈ fields.filter (!·.2.isNil) ↔ f ∈ fields ∧ f.2 ≠ .nil := by
    rw [List.mem_filter, Bool.not_eq_true', Value.isNil_eq_false_iff]
  constructor
  · rintro ⟨m, hm, hp⟩
    obtain ⟨f, hf, rfl⟩ := List.mem_map.1 hm
    obtain ⟨hf, hne⟩ := hfilter.1 hf
    simp only [Bool.or_eq_true, Bool.and_eq_true, sameMember_str] at hp
    rcases hp with hp | ⟨htable, hp⟩
    · exact .inl ⟨f, hf, hne, hp⟩
    · exact .inr ⟨f, hf, htable, hp⟩
  · rintro (⟨f, hf, hne, hs⟩ | ⟨f, hf, htable, rfl⟩)
    · exact ⟨_, List.mem_map.2 ⟨f, hfilter.2 ⟨hf, hne⟩, rfl⟩, by simp [hs]⟩
    · have hne : f.2 ≠ .nil := by
        obtain ⟨r', hr'⟩ := isTable_iff.1 htable
        rw [hr']
        nofun
      exact ⟨_, List.mem_map.2 ⟨f, hfilter.2 ⟨hf, hne⟩, rfl⟩, by
        simp [htable, sameMember_str, Value.text]⟩

theorem contains_listOf_iff (ht : h.table r = Exchange.listOf vs) (needle : Value) :
    (contains h (.table r) needle = true ↔ ∃ w ∈ vs, sameMember w needle = true) ↔
      ¬ Misplaced vs needle := by
  rw [contains_listOf ht]
  constructor
  · rintro hiff (⟨rfl, hm⟩ | ⟨hno, hi, hs⟩)
    · rcases hiff.2 ⟨.nil, hm, sameMember_nil.2 rfl⟩ with ⟨w, -, hne, hw⟩ | ⟨i, r', -, hs⟩
      · exact hne (sameMember_nil_right.1 hw)
      · cases sameMember_nil_right.1 hs
    · obtain ⟨w, hw, hsame⟩ := hiff.1 (.inr ⟨_, _, hi, hs⟩)
      rw [hno w hw] at hsame
      cases hsame
  · intro hnot
    constructor
    · rintro (⟨w, hw, -, hsame⟩ | ⟨i, r', hi, hs⟩)
      · exact ⟨w, hw, hsame⟩
      · by_contra hno
        refine hnot (.position (fun w hw => ?_) hi hs)
        rw [Bool.eq_false_iff]
        exact fun hsame => hno ⟨w, hw, hsame⟩
    · rintro ⟨w, hw, hsame⟩
      refine .inl ⟨w, hw, ?_, hsame⟩
      rintro rfl
      exact hnot (.absent (sameMember_nil.1 hsame) hw)

theorem contains_named_iff (ht : (h.table r).Named fields) (needle : Value) :
    (contains h (.table r) needle = true ↔
        (∃ f ∈ fields, sameMember f.2 needle = true) ∨
          ∃ f ∈ fields, isTable f.2 = true ∧ needle = .text f.1) ↔
      ¬ (needle = .nil ∧ ∃ f ∈ fields, f.2 = .nil) := by
  rw [contains_named ht]
  constructor
  · rintro hiff ⟨rfl, f, hf, hnil⟩
    rcases hiff.2 (.inl ⟨f, hf, sameMember_nil_right.2 hnil⟩) with ⟨f', -, hne, hs⟩ | ⟨f', -, -, he⟩
    · exact hne (sameMember_nil_right.1 hs)
    · cases he
  · intro hnot
    constructor
    · rintro (⟨f, hf, -, hs⟩ | hkey)
      · exact .inl ⟨f, hf, hs⟩
      · exact .inr hkey
    · rintro (⟨f, hf, hs⟩ | hkey)
      · refine .inl ⟨f, hf, fun hnil => ?_, hs⟩
        rw [hnil] at hs
        exact hnot ⟨sameMember_nil.1 hs, f, hf, hnil⟩
      · exact .inr hkey

section Context

variable {limit : Nat} {ctx : Fields Json}

/-- For a list of the context membership is equality to an element exactly if nothing is misplaced;
for an object it is equality to the value of a member or to the name of one that is a table, save
that `null` is not found. -/
theorem contains_exact_iff (hn : (Fields.names ctx).Nodup) (hd : ∀ f ∈ ctx, f.2.Distinct)
    (hfull : ((Heap.fresh limit).install ctx).isFull = false)
    (hkeeps : ((Heap.fresh limit).install ctx).Keeps h) :
    let context := (Heap.fresh limit).install ctx
    (∀ name items, (name, .arr items) ∈ ctx →
      ∃ r vs, context.global name = .table r ∧ h.table r = Exchange.listOf vs ∧
        vs.length = items.length ∧ (∀ p ∈ vs.zip items, Copies h context.tables.size p.1 p.2) ∧
        ∀ needle, ∃ b,
          Library.rule .contains ⟨"contains", #[context.global name, needle]⟩ h = .ok [.bool b] ∧
          ((b = true ↔ ∃ w ∈ vs, sameMember w needle = true) ↔ ¬ Misplaced vs needle)) ∧
    ∀ name members, (name, .obj members) ∈ ctx →
      ∃ r fields, context.global name = .table r ∧ (h.table r).Named fields ∧
        Fields.names fields = Fields.names members ∧
        (∀ p ∈ fields.zip members, Copies h context.tables.size p.1.2 p.2.2) ∧
        ∀ needle, ∃ b,
          Library.rule .contains ⟨"contains", #[context.global name, needle]⟩ h = .ok [.bool b] ∧
          ((b = true ↔ (∃ f ∈ fields, sameMember f.2 needle = true) ∨
              ∃ f ∈ fields, isTable f.2 = true ∧ needle = .text f.1) ↔
            ¬ (needle = .nil ∧ ∃ f ∈ fields, f.2 = .nil)) := by
  intro context
  refine ⟨fun name items hm => ?_, fun name members hm => ?_⟩
  · have hc : Copies h context.tables.size (context.global name) (.arr items) :=
      (Heap.copies_context hn hd hfull hkeeps hm).1
    generalize context.global name = v at hc ⊢
    cases hc with
    | @arr _ r vs _ hr hg ht hlen hvs =>
      refine ⟨r, vs, rfl, ht, hlen, fun p hp => (hvs p hp).mono (fun _ _ _ => rfl) hr.le, ?_⟩
      exact fun needle => ⟨_, rule_contains h _ needle, contains_listOf_iff ht needle⟩
  · have hc : Copies h context.tables.size (context.global name) (.obj members) :=
      (Heap.copies_context hn hd hfull hkeeps hm).1
    generalize context.global name = v at hc ⊢
    cases hc with
    | @obj _ r fields _ hr hg ht hnames hvs =>
      refine ⟨r, fields, rfl, ht, hnames, fun p hp => (hvs p hp).mono (fun _ _ _ => rfl) hr.le, ?_⟩
      exact fun needle => ⟨_, rule_contains h _ needle, contains_named_iff ht needle⟩

theorem contains_exact_party :
    let context := (Heap.fresh 0).install [("party", .arr [.str "ana"])]
    Library.rule .contains ⟨"contains", #[context.global "party", .text "ana"]⟩ context =
      .ok [.bool true] := by
  intro context
  have hdistinct : (Json.arr [.str "ana"]).Distinct := .arr (List.forall_mem_singleton.2 (.str _))
  obtain ⟨hlists, -⟩ := @contains_exact_iff context 0 [("party", .arr [.str "ana"])]
    (by decide) (List.forall_mem_singleton.2 hdistinct)
    (Heap.isFull_install hdistinct (by decide) "party") (fun _ _ _ => rfl)
  obtain ⟨r, vs, -, -, hlen, hvs, hall⟩ := hlists "party" _ List.mem_cons_self
  obtain ⟨w, rfl⟩ := List.length_eq_one_iff.1 hlen
  obtain rfl : w = .text "ana" := by
    cases hvs (w, .str "ana") List.mem_cons_self
    rfl
  obtain ⟨b, hb, hiff⟩ := hall (.text "ana")
  have hnot : ¬ Misplaced [.text "ana"] (.text "ana") := by
    rintro (⟨h, -⟩ | ⟨-, hi, -⟩)
    · cases h
    · cases List.mem_singleton.1 (List.mem_of_getElem? hi)
  rw [hb, (hiff.2 hnot).2 ⟨_, List.mem_singleton_self _, sameMember_str.2 rfl⟩]

/-- The position of an element that is a table is taken for the element. -/
theorem contains_finds_position :
    let context := (Heap.fresh 0).install [("party", .arr [.obj [("name", .str "ana")]])]
    ∃ r vs, context.global "party" = .table r ∧ context.table r = Exchange.listOf vs ∧
      (∀ w ∈ vs, sameMember w (.ofNat 1) = false) ∧
      Library.rule .contains ⟨"contains", #[context.global "party", .ofNat 1]⟩ context =
        .ok [.bool true] := by
  intro context
  have hdistinct : (Json.arr [.obj [("name", .str "ana")]]).Distinct :=
    .arr (List.forall_mem_singleton.2 (.obj (by decide) (List.forall_mem_singleton.2 (.str _))))
  have hc : Copies context context.tables.size (context.global "party")
      (.arr [.obj [("name", .str "ana")]]) :=
    (Heap.copies_context (by decide) (List.forall_mem_singleton.2 hdistinct)
      (Heap.isFull_install hdistinct (by decide) "party") (fun _ _ _ => rfl)
      List.mem_cons_self).1
  generalize context.global "party" = v at hc ⊢
  cases hc with
  | @arr _ r vs _ hr hg ht hlen hvs =>
    obtain ⟨w, rfl⟩ := List.length_eq_one_iff.1 hlen
    cases hvs (w, _) List.mem_cons_self with
    | @obj _ r' =>
      refine ⟨r, _, rfl, ht, by simp [sameMember, Value.same, Value.ofNat], ?_⟩
      rw [rule_contains, (contains_listOf ht).2 (.inr ⟨0, r', rfl, ?_⟩)]
      simp [sameMember, Value.same, Value.ofNat]

end Context

end Rulebook.Script
