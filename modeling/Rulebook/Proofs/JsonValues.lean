import Rulebook.Proofs.Except
import Rulebook.Proofs.Fields
import Rulebook.Proofs.JsonReading

namespace Rulebook.Json

open Source (Node)

def ordered : Json → Json
  | arr items => arr (orderedItems items)
  | obj members => obj (Fields.ofList (orderedMembers members))
  | v => v
where
  orderedItems : List Json → List Json
    | [] => []
    | v :: vs => ordered v :: orderedItems vs
  orderedMembers : List (String × Json) → List (String × Json)
    | [] => []
    | (k, v) :: ms => (k, ordered v) :: orderedMembers ms

theorem ordered_arr (items : List Json) : (arr items).ordered = arr (items.map ordered) := by
  have hitems : ordered.orderedItems items = items.map ordered := by
    induction items with
    | nil => rfl
    | cons v vs ih => rw [ordered.orderedItems, ih, List.map_cons]
  rw [ordered, hitems]

theorem ordered_obj (members : List (String × Json)) :
    (obj members).ordered = obj (Fields.ofList (members.map fun m => (m.1, m.2.ordered))) := by
  have hmembers : ordered.orderedMembers members = members.map fun m => (m.1, m.2.ordered) := by
    induction members with
    | nil => rfl
    | cons m ms ih => rw [ordered.orderedMembers, ih, List.map_cons]
  rw [ordered, hmembers]

theorem ordered_of_isLiteral {v : Json} (h : v.isLiteral = true) : v.ordered = v := by
  cases v with
  | null | bool | int | float => rfl
  | str | arr | obj => cases h

inductive Keyed (P : List String → Prop) : Json → Prop
  | literal {v : Json} (h : v.isLiteral = true) : Keyed P v
  | str (s : String) : Keyed P (str s)
  | arr {items : List Json} (h : ∀ v ∈ items, Keyed P v) : Keyed P (arr items)
  | obj {members : List (String × Json)} (hn : P (Fields.names members))
    (h : ∀ m ∈ members, Keyed P m.2) : Keyed P (obj members)

def Distinct : Json → Prop := Keyed List.Nodup

def Ordered : Json → Prop := Keyed (List.Pairwise (· < ·))

theorem Ordered.distinct {v : Json} (h : v.Ordered) : v.Distinct := by
  unfold Ordered at h
  induction h with
  | literal h => exact .literal h
  | str s => exact .str s
  | arr _ ih => exact .arr ih
  | obj hn _ ih => exact .obj (hn.imp ne_of_lt) ih

theorem Ordered.ordered_eq {v : Json} (h : v.Ordered) : v.ordered = v := by
  unfold Ordered at h
  induction h with
  | literal h => exact ordered_of_isLiteral h
  | str s => rfl
  | arr _ ih => rw [ordered_arr, List.map_congr_left ih, List.map_id']
  | @obj members hn _ ih =>
    have hmembers : members.map (fun m => (m.1, m.2.ordered)) = members := by
      rw [List.map_congr_left fun m hm => by rw [ih m hm], List.map_id']
    have hsorted : Fields.Sorted members := List.pairwise_map.1 hn
    rw [ordered_obj, hmembers, hsorted.ofList_eq]

/-- The value lies within the levels that are read, and each of its numbers is what its text
gives. -/
inductive Readable : Nat → Json → Prop
  | literal {depth : Nat} {v : Json} (h : v.isLiteral = true) (hv : v.literalNode = .ofValue v) :
    Readable depth v
  | str (depth : Nat) (s : String) : Readable depth (str s)
  | arr {depth : Nat} {items : List Json} (h : ∀ v ∈ items, Readable depth v) :
    Readable (depth + 1) (arr items)
  | obj {depth : Nat} {members : List (String × Json)} (h : ∀ m ∈ members, Readable depth m.2) :
    Readable (depth + 1) (obj members)

variable {depth : Nat} {v : Json}

@[simp]
theorem distinct_str (s : String) : (str s).Distinct := .str s

@[simp]
theorem distinct_bool (b : Bool) : (bool b).Distinct := .literal rfl

@[simp]
theorem distinct_arr {items : List Json} : (arr items).Distinct ↔ ∀ v ∈ items, v.Distinct := by
  refine ⟨fun h => ?_, .arr⟩
  cases h with
  | literal h => cases h
  | arr h => exact h

@[simp]
theorem distinct_obj {members : List (String × Json)} : (obj members).Distinct ↔
    (Fields.names members).Nodup ∧ ∀ m ∈ members, m.2.Distinct := by
  refine ⟨fun h => ?_, fun h => .obj h.1 h.2⟩
  cases h with
  | literal h => cases h
  | obj hn h => exact ⟨hn, h⟩

theorem readable_arr {items : List Json} :
    Readable (depth + 1) (arr items) ↔ ∀ v ∈ items, Readable depth v := by
  refine ⟨fun h => ?_, .arr⟩
  cases h with
  | literal h => cases h
  | arr h => exact h

theorem readable_obj {members : List (String × Json)} :
    Readable (depth + 1) (obj members) ↔ ∀ m ∈ members, Readable depth m.2 := by
  refine ⟨fun h => ?_, .obj⟩
  cases h with
  | literal h => cases h
  | obj h => exact h

theorem readable_bool (b : Bool) : Readable depth (bool b) :=
  .literal rfl (by cases b <;> rfl)

theorem readable_int {n : Int} (hlow : int64Min ≤ n) (hhigh : n ≤ nat64Max) :
    Readable depth (int n) := .literal rfl (literalNode_int hlow hhigh)

end Rulebook.Json

namespace Rulebook.Source.Node

open Json (Readable Distinct literalNode)

variable {depth : Nat} {v w : Json}

theorem values?_eq_some {ns : List Node} {vs : List Json} :
    values? depth ns = some vs ↔ List.Forall₂ (fun n v => n.value? depth = some v) ns vs := by
  have hmap : values? depth ns = ns.mapM (value? depth) := by
    induction ns with
    | nil => rfl
    | cons n ns ih => rw [values?, ih, List.mapM_cons]
  rw [hmap, mapM_eq_some]

theorem members?_eq_some {es : List (Node × Node)} {ms : List (String × Json)} :
    members? depth es = some ms ↔ List.Forall₂
      (fun e m => e.1.text? = some m.1 ∧ e.2.value? depth = some m.2) es ms := by
  induction es generalizing ms with
  | nil => cases ms <;> simp [members?]
  | cons e es ih =>
    simp only [members?, Option.bind_eq_bind, Option.bind_eq_some_iff, ih, Option.pure_def,
      Option.some.injEq, List.forall₂_cons_left_iff]
    constructor
    · rintro ⟨k, hk, v, hv, ms, hms, rfl⟩
      exact ⟨(k, v), ms, ⟨hk, hv⟩, hms, rfl⟩
    · rintro ⟨m, ms, ⟨hk, hv⟩, hms, rfl⟩
      exact ⟨m.1, hk, m.2, hv, ms, hms, rfl⟩

theorem value?_list {ns : List Node} : (list ns).value? depth = some v ↔
    ∃ d vs, depth = d + 1 ∧ List.Forall₂ (fun n v => n.value? d = some v) ns vs ∧ .arr vs = v := by
  cases depth with
  | zero => simp [value?]
  | succ d => simp [value?, values?_eq_some]

theorem value?_map {es : List (Node × Node)} : (map es).value? depth = some v ↔
    ∃ d ms, depth = d + 1 ∧ List.Forall₂
      (fun e m => e.1.text? = some m.1 ∧ e.2.value? d = some m.2) es ms ∧
        .obj (Fields.ofList ms) = v := by
  cases depth with
  | zero => simp [value?]
  | succ d => simp [value?, members?_eq_some]

/-- The printed value is given back. -/
theorem value?_node (h : Readable depth v) : v.node.value? depth = some v.ordered := by
  induction h with
  | literal h hv =>
    rw [Json.node_of_isLiteral h, hv, Json.ordered_of_isLiteral h]
    rfl
  | str => rfl
  | @arr depth items _ ih =>
    rw [Json.node_arr, Json.ordered_arr, value?_list]
    refine ⟨depth, _, rfl, ?_, rfl⟩
    exact List.forall₂_map_left_iff.2 (List.forall₂_map_right_iff.2 (List.forall₂_same.2 ih))
  | @obj depth members _ ih =>
    rw [Json.node_obj, Json.ordered_obj, value?_map]
    refine ⟨depth, _, rfl, ?_, rfl⟩
    exact List.forall₂_map_left_iff.2 (List.forall₂_map_right_iff.2
      (List.forall₂_same.2 fun m hm => ⟨rfl, ih m hm⟩))

theorem literalNode_eq (h : v.isLiteral = true) (hv : v.literalNode.value? depth = some v) :
    v.literalNode = .ofValue v := by
  rcases Json.literalNode_cases h with ⟨w, hw⟩ | hw
  · rw [hw] at hv ⊢
    obtain rfl := Option.some.inj hv
    rfl
  · rw [hw] at hv
    cases hv

theorem readable_of_value? (hdistinct : v.Distinct) (h : v.node.value? depth = some v.ordered) :
    Readable depth v := by
  unfold Distinct at hdistinct
  induction hdistinct generalizing depth with
  | literal hl =>
    rw [Json.node_of_isLiteral hl, Json.ordered_of_isLiteral hl] at h
    exact .literal hl (literalNode_eq hl h)
  | str s => exact .str depth s
  | @arr items _ ih =>
    rw [Json.node_arr, Json.ordered_arr, value?_list] at h
    obtain ⟨depth, vs, rfl, hread, he⟩ := h
    cases he
    have hitems := List.forall₂_map_right_iff.1 (List.forall₂_map_left_iff.1 hread)
    exact .arr fun v hv => ih v hv (List.forall₂_same.1 hitems v hv)
  | @obj members hn _ ih =>
    rw [Json.node_obj, Json.ordered_obj, value?_map] at h
    obtain ⟨depth, ms, rfl, hread, he⟩ := h
    have hread := List.forall₂_map_left_iff.1 hread
    have hnames : Fields.names ms = Fields.names (members.map fun m => (m.1, m.2.ordered)) := by
      rw [eq_comm, ← List.forall₂_eq_eq_eq, Fields.names, Fields.names, List.map_map,
        List.forall₂_map_left_iff, List.forall₂_map_right_iff]
      exact hread.imp fun m n h => Option.some.inj h.1
    have hn' : (Fields.names (members.map fun m => (m.1, m.2.ordered))).Nodup := by
      rwa [Fields.names, List.map_map]
    obtain rfl := Fields.ofList_inj hnames hn' (Json.obj.inj he)
    have hmembers := List.forall₂_map_right_iff.1 hread
    exact .obj fun m hm => ih m hm (List.forall₂_same.1 hmembers m hm).2

end Rulebook.Source.Node

namespace Rulebook.Json

open Source

/-- The printed text of the value gives the value back, up to the order of members. -/
def ReadsBack (v : Json) : Prop := JsonText.value? v.pretty.toUTF8 = some v.ordered

theorem readsBack_iff {v : Json} (h : v.Distinct) :
    v.ReadsBack ↔ v.Readable JsonText.grammar.depth := by
  rw [ReadsBack, JsonText.value?, JsonText.parse?_pretty]
  exact ⟨Node.readable_of_value? h, Node.value?_node⟩

end Rulebook.Json
