import Rulebook.Proofs.JsonValues
import Rulebook.Ruleset.Loading

namespace Rulebook.Source.Node

open Json (Ordered)

inductive Plain : Node → Prop
  | scalar {s : Scalar} (h : ∀ v ∈ s.value, Ordered v) : Plain (.scalar s)
  | list {items : List Node} (h : ∀ n ∈ items, Plain n) : Plain (.list items)
  | map {entries : List (Node × Node)} (h : ∀ e ∈ entries, Plain e.2) : Plain (.map entries)
  | special {n : Node} (h : Plain n) : Plain (.special n)

theorem plain_unreadable : Plain unreadable := .scalar (by simp)

theorem plain_ofValue {v : Json} (h : v.Ordered) : Plain (ofValue v) := by
  refine .scalar fun w hw => ?_
  cases hw
  exact h

theorem ordered_of_value? {n : Node} {depth : Nat} {v : Json} (h : n.Plain)
    (hv : n.value? depth = some v) : v.Ordered := by
  induction h generalizing depth v with
  | scalar h => exact h v (by rwa [value?] at hv)
  | list _ ih =>
    obtain ⟨depth, vs, rfl, hread, rfl⟩ := value?_list.1 hv
    refine .arr fun v hv => ?_
    obtain ⟨n, hn, hnv⟩ := forall₂_mem hread.flip hv
    exact ih n hn hnv
  | map _ ih =>
    obtain ⟨depth, ms, rfl, hread, rfl⟩ := value?_map.1 hv
    refine .obj (List.pairwise_map.2 (Fields.sorted_ofList ms)) fun m hm => ?_
    obtain ⟨e, he, -, hev⟩ := forall₂_mem hread.flip (Fields.mem_of_mem_ofList hm)
    exact ih e he hev
  | special => cases hv

end Rulebook.Source.Node

namespace Rulebook.Source.JsonText

open Json (Ordered)
open Node (Plain)

theorem isLiteral_of_value? {n : Numeral} {v : Json} (h : n.value? = some v) :
    v.isLiteral = true := by
  unfold Numeral.value? at h
  dsimp only at h
  split at h
  · split at h
    · cases h
      rfl
    · split at h <;> cases h <;> rfl
  · obtain ⟨x, -, rfl⟩ := Option.map_eq_some_iff.1 h
    rfl

theorem plain_of_literal? {cs r : List Char} {n : Node} (h : literal? cs = some (n, r)) :
    n.Plain := by
  unfold literal? at h
  split at h
  · cases h
    exact Node.plain_ofValue (.literal rfl)
  · cases h
    exact Node.plain_ofValue (.literal rfl)
  · cases h
    exact Node.plain_ofValue (.literal rfl)
  · simp only [Option.bind_eq_bind, Option.bind_eq_some_iff] at h
    obtain ⟨⟨m, s⟩, -, h⟩ := h
    split at h
    · next v hv =>
      cases h
      exact Node.plain_ofValue (.literal (isLiteral_of_value? hv))
    · cases h
      exact Node.plain_unreadable

theorem plain_stringNode (bytes : Option (List Char)) : (stringNode bytes).Plain := by
  unfold stringNode
  split
  · exact Node.plain_unreadable
  · split
    · exact Node.plain_ofValue (.str _)
    · exact Node.plain_unreadable

/-- What is read with this fuel has plain scalars, if what was read before has. -/
structure PlainAt (fuel : Nat) : Prop where
  node : ∀ {cs n r}, node? fuel cs = some (n, r) → n.Plain
  items : ∀ {cs acc ns r}, (∀ n ∈ acc, Plain n) → items? fuel cs acc = some (ns, r) →
    ∀ n ∈ ns, n.Plain
  entries : ∀ {cs acc es r}, (∀ e ∈ acc, Plain e.2) → entries? fuel cs acc = some (es, r) →
    ∀ e ∈ es, e.2.Plain

section Step

variable {fuel : Nat} {cs r : List Char}

theorem PlainAt.node_succ (ih : PlainAt fuel) {n : Node} (h : node? (fuel + 1) cs = some (n, r)) :
    n.Plain := by
  rw [node?] at h
  split at h
  · split at h
    · cases h
      exact .list (List.forall_mem_nil _)
    · obtain ⟨⟨ns, s⟩, hread, he⟩ := Option.map_eq_some_iff.1 h
      cases he
      exact .list (ih.items (List.forall_mem_nil _) hread)
  · split at h
    · cases h
      exact .map (List.forall_mem_nil _)
    · obtain ⟨⟨es, s⟩, hread, he⟩ := Option.map_eq_some_iff.1 h
      cases he
      exact .map (ih.entries (List.forall_mem_nil _) hread)
  · obtain ⟨⟨bytes, s⟩, -, he⟩ := Option.map_eq_some_iff.1 h
    cases he
    exact plain_stringNode bytes
  · exact plain_of_literal? h

theorem PlainAt.items_succ (ih : PlainAt fuel) {acc ns : List Node} (hacc : ∀ n ∈ acc, Plain n)
    (h : items? (fuel + 1) cs acc = some (ns, r)) : ∀ n ∈ ns, n.Plain := by
  rw [items?] at h
  simp only [Option.bind_eq_bind, Option.bind_eq_some_iff] at h
  obtain ⟨⟨n, s⟩, hn, h⟩ := h
  have hacc' : ∀ m ∈ n :: acc, Plain m := List.forall_mem_cons.2 ⟨ih.node hn, hacc⟩
  split at h
  · exact ih.items hacc' h
  · cases h
    exact fun m hm => hacc' m (List.mem_reverse.1 hm)
  · cases h

theorem PlainAt.entries_succ (ih : PlainAt fuel) {acc es : List (Node × Node)}
    (hacc : ∀ e ∈ acc, Plain e.2) (h : entries? (fuel + 1) cs acc = some (es, r)) :
    ∀ e ∈ es, e.2.Plain := by
  rw [entries?] at h
  split at h
  · simp only [Option.bind_eq_bind, Option.bind_eq_some_iff] at h
    obtain ⟨⟨k, s⟩, -, h⟩ := h
    split at h
    · simp only [Option.bind_eq_some_iff] at h
      obtain ⟨⟨n, s⟩, hn, h⟩ := h
      have hacc' : ∀ e ∈ (stringNode k, n) :: acc, Plain e.2 :=
        List.forall_mem_cons.2 ⟨ih.node hn, hacc⟩
      split at h
      · exact ih.entries hacc' h
      · cases h
        exact fun m hm => hacc' m (List.mem_reverse.1 hm)
      · cases h
    · cases h
  · cases h

end Step

theorem plainAt (fuel : Nat) : PlainAt fuel := by
  -- The three readers call each other with less fuel, so that one induction carries them all.
  induction fuel with
  | zero =>
    refine ⟨fun h => ?_, fun _ h => ?_, fun _ h => ?_⟩
    · rw [node?] at h
      cases h
    · rw [items?] at h
      cases h
    · rw [entries?] at h
      cases h
  | succ fuel ih => exact ⟨ih.node_succ, ih.items_succ, ih.entries_succ⟩

theorem plain_of_parse? {bytes : ByteArray} {n : Node} (h : parse? bytes = some n) : n.Plain := by
  simp only [parse?, Option.bind_eq_bind, Option.bind_eq_some_iff] at h
  obtain ⟨⟨m, r⟩, hm, h⟩ := h
  split at h
  · cases h
    exact (plainAt _).node hm
  · cases h

end Rulebook.Source.JsonText

namespace Rulebook.Source.Yaml

open Json (Ordered)

variable {s : String} {v : Json}

theorem ordered_of_integerValue? (h : (Plain.integerValue? s).join = some v) : v.Ordered := by
  unfold Plain.integerValue? at h
  split at h
  · cases h
  · split at h
    · cases h
      exact .literal rfl
    · split at h <;> cases h

theorem ordered_of_floatValue? (h : Plain.floatValue? s = some v) : v.Ordered := by
  unfold Plain.floatValue? at h
  split at h
  · cases h
    exact .literal rfl
  · obtain ⟨x, -, rfl⟩ := Option.map_eq_some_iff.1 h
    exact .literal rfl

theorem ordered_of_value? (h : Plain.value? s = some v) : v.Ordered := by
  unfold Plain.value? at h
  split at h
  · cases h
    exact .literal rfl
  · split at h
    · cases h
      exact .literal rfl
    · split at h
      · next hv => exact ordered_of_integerValue? (by rw [hv, h]; rfl)
      · split at h
        · cases h
          exact .str s
        · rcases Option.or_eq_some_iff.1 h with h | ⟨-, h⟩
          · exact ordered_of_floatValue? h
          · cases h
            exact .str s

theorem ordered_of_scalarValue? {tag : Option (List Char)} {style : Style}
    (h : scalarValue? tag style s = some v) : v.Ordered := by
  have huntagged (h : (if style = .plain then Plain.value? s else some (.str s)) = some v) :
      v.Ordered := by
    split at h
    · exact ordered_of_value? h
    · cases h
      exact .str s
  unfold scalarValue? at h
  dsimp only at h
  split at h
  · exact huntagged h
  split at h
  · cases h
  split at h
  · obtain ⟨b, -, rfl⟩ := Option.map_eq_some_iff.1 h
    exact .literal rfl
  split at h
  · exact ordered_of_integerValue? h
  split at h
  · exact ordered_of_floatValue? h
  split at h
  · split at h <;> cases h
    exact .literal rfl
  split at h
  · exact huntagged h
  · cases h
    exact .str s

end Rulebook.Source.Yaml

namespace Rulebook.Source.YamlText

open Node (Plain)

theorem forall_mem_mapM {α β σ : Type} {f : α → StateM σ β} {P : β → Prop}
    (h : ∀ x s, P ((f x).run s).1) (xs : List α) (s : σ) :
    ∀ y ∈ ((xs.mapM f).run s).1, P y := by
  induction xs generalizing s with
  | nil => exact List.forall_mem_nil P
  | cons x xs ih =>
    rw [List.mapM_cons]
    exact List.forall_mem_cons.2 ⟨h x s, ih ((f x).run s).2⟩

theorem plain_special {p : Yaml.Properties} {n : Node} (h : n.Plain) : (special p n).Plain := by
  unfold special
  split
  · exact .special h
  · exact h

theorem plain_node (targets : Targets) (depth : Nat) (t : Yaml.Tree) (followed : Nat) :
    ((node targets depth t).run followed).1.Plain := by
  induction depth generalizing t followed with
  | zero =>
    rw [node]
    exact Node.plain_unreadable
  | succ depth ih =>
    cases t with
    | scalar p style text =>
      rw [node]
      · exact .scalar fun v hv => Yaml.ordered_of_scalarValue? hv
      · simp
    | list p items =>
      rw [node]
      refine plain_special (.list ?_)
      exact forall_mem_mapM ih items followed
    | map p entries =>
      rw [node]
      refine plain_special (.map ?_)
      refine forall_mem_mapM (P := fun e : Node × Node => e.2.Plain) ?_ entries followed
      exact fun e s => ih e.2 _
    | reference n =>
      rw [node]
      simp only [StateT.run_bind, StateT.run_get, pure_bind]
      split
      · exact Node.plain_unreadable
      · simp only [StateT.run_bind, StateT.run_set, pure_bind]
        split
        · exact ih _ _
        · exact Node.plain_unreadable

theorem plain_of_parse? {bytes : ByteArray} {n : Node} (h : parse? bytes = some n) : n.Plain := by
  simp only [parse?, Option.bind_eq_bind, Option.bind_eq_some_iff] at h
  obtain ⟨s, -, h⟩ := h
  split at h
  · cases h
  · simp only [Option.bind_eq_some_iff] at h
    obtain ⟨tokens, -, t, -, h⟩ := h
    cases h
    exact plain_node _ _ t 0

end Rulebook.Source.YamlText

namespace Rulebook.Ruleset

open Source

theorem plain_of_parse? {f : Format} {bytes : ByteArray} {n : Node} (h : f.parse? bytes = some n) :
    n.Plain := by
  cases f with
  | json => exact JsonText.plain_of_parse? h
  | yaml => exact YamlText.plain_of_parse? h

section Reading

variable {g g' : Node.Grammar} {n : Node} {α : Type}

theorem plain_of_list? {items : List Node} (hn : n.Plain) (h : n.list? g = some (g', items)) :
    ∀ m ∈ items, m.Plain := by
  induction hn with
  | scalar =>
    rw [Node.list?] at h
    split at h <;> cases h
    simp
  | list hitems =>
    rw [Node.list?] at h
    split at h <;> cases h
    exact hitems
  | map => cases h
  | special _ ih => exact ih (by rwa [Node.list?] at h)

theorem plain_of_map? {entries : List (String × Node)} (hn : n.Plain)
    (h : n.map? g = some (g', entries)) : ∀ e ∈ entries, e.2.Plain := by
  induction hn with
  | scalar =>
    rw [Node.map?] at h
    split at h <;> cases h
    simp
  | list => cases h
  | map hentries =>
    simp only [Node.map?, Option.bind_eq_bind, Option.pure_def] at h
    split at h
    · cases h
    · simp only [Option.bind_eq_some_iff, Option.some.injEq] at h
      obtain ⟨es, hes, h⟩ := h
      cases h
      intro e he
      obtain ⟨entry, hentry, hread⟩ := forall₂_mem (mapM_eq_some.1 hes).flip he
      obtain ⟨k, -, rfl⟩ := Option.map_eq_some_iff.1 hread
      exact hentries entry hentry
  | special _ ih => exact ih (by rwa [Node.map?] at h)

theorem plain_of_record? {names : List String} {fields : List (Option Node)} (hn : n.Plain)
    (h : n.record? g names = some (g', fields)) : ∀ f ∈ fields, ∀ m ∈ f, m.Plain := by
  unfold Node.record? at h
  split at h
  · next items =>
    cases hn with
    | list hitems =>
      split at h <;> cases h
      intro f hf m hm
      rcases List.mem_append.1 hf with hf | hf
      · obtain ⟨entry, hentry, rfl⟩ := List.mem_map.1 hf
        cases hm
        exact hitems m hentry
      · rw [(List.mem_replicate.1 hf).2] at hm
        cases hm
  · simp only [Option.bind_eq_bind, Option.pure_def, Option.bind_eq_some_iff,
      Option.some.injEq] at h
    obtain ⟨⟨g'', es⟩, hes, fields', hfields, h⟩ := h
    cases h
    intro f hf m hm
    obtain ⟨name, -, hread⟩ := forall₂_mem (mapM_eq_some.1 hfields).flip hf
    split at hread
    · cases hread
      cases hm
    · next k v hfilter =>
      cases hread
      cases hm
      have hmem : (k, m) ∈ es.filter (·.1 == name) := hfilter ▸ List.mem_singleton_self _
      exact plain_of_map? hn hes _ (List.mem_of_mem_filter hmem)
    · cases hread

theorem mem_of_listOf {read : Node.Grammar → Node → Option α} {as : List α} (hn : n.Plain)
    (h : listOf read g n = some as) : ∀ a ∈ as, ∃ m g', m.Plain ∧ read g' m = some a := by
  simp only [listOf, Option.bind_eq_bind, Option.bind_eq_some_iff] at h
  obtain ⟨⟨g', items⟩, hitems, h⟩ := h
  intro a ha
  obtain ⟨m, hm, hread⟩ := forall₂_mem (mapM_eq_some.1 h).flip ha
  exact ⟨m, g', plain_of_list? hn hitems m hm, hread⟩

theorem mem_of_mapOf {read : Node.Grammar → Node → Option α} {as : Fields α} (hn : n.Plain)
    (h : mapOf read g n = some as) :
    as.Sorted ∧ ∀ a ∈ as, ∃ m g', m.Plain ∧ read g' m = some a.2 := by
  simp only [mapOf, Option.bind_eq_bind, Option.bind_eq_some_iff, Option.pure_def,
    Option.some.injEq] at h
  obtain ⟨⟨g', entries⟩, hentries, as', h, rfl⟩ := h
  refine ⟨Fields.sorted_ofList _, fun a ha => ?_⟩
  obtain ⟨e, he, hread⟩ := forall₂_mem (mapM_eq_some.1 h).flip (Fields.mem_of_mem_ofList ha)
  obtain ⟨b, hb, rfl⟩ := Option.map_eq_some_iff.1 hread
  exact ⟨e.2, g', plain_of_map? hn hentries e he, hb⟩

theorem of_orElse {absent : α} {read : Node → Option α} {o : Option Node} {a : α}
    (h : orElse absent read o = some a) : a = absent ∨ ∃ m ∈ o, read m = some a := by
  cases o with
  | none => exact .inl (Option.some.inj h).symm
  | some m => exact .inr ⟨m, rfl, h⟩

theorem of_orNull {read : Node → Option α} {o : Option Node} {a : Option α}
    (h : orNull read o = some a) : ∀ b ∈ a, ∃ m ∈ o, read m = some b := by
  intro b hb
  cases o with
  | none =>
    cases h
    cases hb
  | some m =>
    rw [orNull] at h
    split at h
    · cases h
      cases hb
    · obtain ⟨c, hc, rfl⟩ := Option.map_eq_some_iff.1 h
      cases hb
      exact ⟨m, rfl, hc⟩

end Reading

def DraftParameter.Ordered (p : DraftParameter) : Prop :=
  (∀ v ∈ p.default, v.Ordered) ∧ ∀ vs ∈ p.allowed, ∀ v ∈ vs, v.Ordered

def DraftFunction.Ordered (f : DraftFunction) : Prop :=
  (∀ p ∈ f.parameters, p.Ordered) ∧ ∀ e ∈ f.effects, e.value.Ordered

structure Draft.Ordered (d : Draft) : Prop where
  functions : ∀ entry ∈ d.functions, ∀ f ∈ entry.2, f.Ordered
  gameData : d.gameData.Sorted
  values : ∀ m ∈ d.gameData, m.2.Ordered

variable {g : Node.Grammar} {n : Node}

theorem ordered_parameter {p : DraftParameter} (hn : n.Plain)
    (h : DraftParameter.read g n = some p) : p.Ordered := by
  simp only [DraftParameter.read, Option.bind_eq_bind, Option.bind_eq_some_iff] at h
  obtain ⟨⟨inner, fields⟩, hfields, h⟩ := h
  have hplain := plain_of_record? hn hfields
  split at h
  · next name type required description default allowed he =>
    cases he
    simp only [Option.bind_eq_some_iff, Option.pure_def, Option.some.injEq] at h
    obtain ⟨_, -, _, -, _, -, _, -, v, hv, vs, hvs, rfl⟩ := h
    constructor
    · intro w hw
      obtain ⟨m, hm, hread⟩ := of_orNull hv w hw
      exact Node.ordered_of_value? (hplain default (by simp) m hm) hread
    · intro ws hws w hw
      obtain ⟨m, hm, hread⟩ := of_orNull hvs ws hws
      obtain ⟨k, _, hk, hw⟩ := mem_of_listOf (hplain allowed (by simp) m hm) hread w hw
      exact Node.ordered_of_value? hk hw
  · cases h

theorem ordered_effect {e : DraftEffect} (hn : n.Plain) (h : DraftEffect.read g n = some e) :
    e.value.Ordered := by
  simp only [DraftEffect.read, Option.bind_eq_bind, Option.bind_eq_some_iff] at h
  obtain ⟨⟨inner, fields⟩, hfields, h⟩ := h
  have hplain := plain_of_record? hn hfields
  split at h
  · next target operation value he =>
    cases he
    simp only [Option.bind_eq_some_iff, Option.pure_def, Option.some.injEq] at h
    obtain ⟨_, -, _, -, v, hv, rfl⟩ := h
    rcases of_orElse hv with rfl | ⟨m, hm, hread⟩
    · exact .literal rfl
    · exact Node.ordered_of_value? (hplain value (by simp) m hm) hread
  · cases h

theorem ordered_function {f : DraftFunction} (hn : n.Plain)
    (h : DraftFunction.read g n = some f) : f.Ordered := by
  simp only [DraftFunction.read, Option.bind_eq_bind, Option.bind_eq_some_iff] at h
  obtain ⟨⟨inner, fields⟩, hfields, h⟩ := h
  have hplain := plain_of_record? hn hfields
  split at h
  · next id name description parameters validations effects he =>
    cases he
    simp only [Option.bind_eq_some_iff, Option.pure_def, Option.some.injEq] at h
    obtain ⟨_, -, _, -, _, -, ps, hps, _, -, es, hes, rfl⟩ := h
    constructor
    · rcases of_orElse hps with rfl | ⟨m, hm, hread⟩
      · exact List.forall_mem_nil _
      · intro p hp
        obtain ⟨k, _, hk, hp⟩ := mem_of_listOf (hplain parameters (by simp) m hm) hread p hp
        exact ordered_parameter hk hp
    · rcases of_orElse hes with rfl | ⟨m, hm, hread⟩
      · exact List.forall_mem_nil _
      · intro e he
        obtain ⟨k, _, hk, he⟩ := mem_of_listOf (hplain effects (by simp) m hm) hread e he
        exact ordered_effect hk he
  · cases h

theorem ordered_of_read {d : Draft} (hn : n.Plain) (h : Draft.read g n = some d) : d.Ordered := by
  simp only [Draft.read, Option.bind_eq_bind, Option.bind_eq_some_iff] at h
  obtain ⟨⟨inner, fields⟩, hfields, h⟩ := h
  have hplain := plain_of_record? hn hfields
  split at h
  · next metadata functions gameData prompts he =>
    cases he
    simp only [Option.bind_eq_some_iff, Option.pure_def, Option.some.injEq] at h
    obtain ⟨_, -, _, -, fs, hfs, data, hdata, _, -, rfl⟩ := h
    have hvalues : Fields.Sorted data ∧ ∀ m ∈ data, m.2.Ordered := by
      rcases of_orElse hdata with rfl | ⟨m, hm, hread⟩
      · exact ⟨List.Pairwise.nil, List.forall_mem_nil _⟩
      · obtain ⟨hsorted, hread⟩ := mem_of_mapOf (hplain gameData (by simp) m hm) hread
        refine ⟨hsorted, fun v hv => ?_⟩
        obtain ⟨k, _, hk, hv⟩ := hread v hv
        exact Node.ordered_of_value? hk hv
    refine ⟨?_, hvalues.1, hvalues.2⟩
    rcases of_orElse hfs with rfl | ⟨m, hm, hread⟩
    · exact List.forall_mem_nil _
    · intro entry hentry f hf
      obtain ⟨k, _, hk, hlist⟩ :=
        (mem_of_mapOf (hplain functions (by simp) m hm) hread).2 entry hentry
      obtain ⟨k', _, hk', hf⟩ := mem_of_listOf hk hlist f hf
      exact ordered_function hk' hf
  · cases h

theorem ordered_of_draft? {f : Format} {bytes : ByteArray} {d : Draft}
    (h : f.draft? bytes = some d) : d.Ordered := by
  simp only [Format.draft?, Option.bind_eq_bind, Option.bind_eq_some_iff] at h
  obtain ⟨n, hn, h⟩ := h
  exact ordered_of_read (plain_of_parse? hn) h

end Rulebook.Ruleset
